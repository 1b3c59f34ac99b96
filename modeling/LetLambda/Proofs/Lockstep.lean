import LetLambda.Proofs.Custody
import LetLambda.Proofs.Desugaring

/-!
# Runs in lockstep

Two runs go in lockstep if at each moment they have made the same frames, and values of the one
stand in the places of corresponding values of the other. `Scene.Matches` says so of what can be
seen of two stores; frames outside a set `live`, which neither of the runs leaves, may hold anything.
A host function is uniform if it keeps this up whatever functions of the language are made of: it may
read and change the frames of `live`, but not look into bodies.

A tree and the same tree with its `let`s written as calls are evaluated in lockstep
(`Mirrors.all`): the frame of a binding is the frame of the call that it is written as.
-/

namespace LetLambda

open Direct (Outcome)

/-! ### Worlds that match -/

/-- The frames are the same, and what is read in those of `live` corresponds. From the frames of
`live` no other frame is seen. -/
structure Scene.Matches (r : Value → Value → Prop) (live : FrameId → Prop) (V W : Scene) : Prop where
  size : W.size = V.size
  outer : W.outer = V.outer
  closed : V.Holding (fun _ => True) live
  slots : ∀ f x, live f → Option.Rel r (V.slot f x) (W.slot f x)

namespace Scene.Matches

variable {r : Value → Value → Prop} {live : FrameId → Prop} {V W : Scene} {f i : FrameId}
  {v v' : Value} {vs vs' : List Value}

theorem chain (h : V.Matches r live W) (f : FrameId) : W.chain f = V.chain f := by
  rw [Scene.chain, Scene.chain, h.outer]

theorem resolve (h : V.Matches r live W) (hi : live i) (x : Name) :
    W.resolve i x = V.resolve i x := by
  rw [Scene.resolve, Scene.resolve, h.chain]
  exact List.find?_congr fun g hg => (isSome_eq_of_rel (h.slots g x (h.closed.chain i hi g hg))).symm

theorem lookup (h : V.Matches r live W) (hi : live i) (x : Name) :
    Option.Rel r (V.lookup i x) (W.lookup i x) := by
  rw [Scene.lookup, Scene.lookup, h.resolve hi x]
  cases hg : V.resolve i x with
  | none => exact .none
  | some g => exact h.slots g x (h.closed.chain i hi g (mem_chain_of_resolve hg))

theorem set (h : V.Matches r live W) (f : FrameId) (x : Name) (hv : r v v') :
    (V.set f x v).Matches r live (W.set f x v') := by
  refine ⟨h.size, h.outer, h.closed.set trivial, fun g y hg => ?_⟩
  rw [set_slot, set_slot]
  split
  · exact .some hv
  · exact h.slots g y hg

theorem setAll (h : V.Matches r live W) (f : FrameId) (xs : List Name)
    (habsent : r .absent .absent) (hvs : List.Forall₂ r vs vs') :
    (V.setAll f xs vs).Matches r live (W.setAll f xs vs') := by
  induction xs generalizing V W vs vs' with
  | nil => exact h
  | cons x xs ih =>
    cases hvs with
    | nil => exact ih (h.set f x habsent) .nil
    | cons hv hvs => exact ih (h.set f x hv) hvs

theorem push (h : V.Matches r live W) (hi : live i) : (V.push i).Matches r live (W.push i) := by
  refine ⟨congrArg (· + 1) h.size, ?_, h.closed.push hi, h.slots⟩
  funext g
  simp only [Scene.push, h.size, h.outer, h.chain]

theorem symm {s : Value → Value → Prop} (h : V.Matches r live W) (hs : ∀ v v', r v v' → s v' v) :
    W.Matches s live V := by
  refine ⟨h.size.symm, h.outer.symm, ⟨?_, fun f hf => ?_, fun _ _ _ _ _ => trivial⟩, ?_⟩
  · rw [h.size]
    exact h.closed.fresh
  · rw [h.chain]
    exact h.closed.chain f hf
  · intro f x hf
    have hslot := h.slots f x hf
    generalize V.slot f x = slot, W.slot f x = slot' at hslot
    cases hslot with
    | some hv => exact .some (hs _ _ hv)
    | none => exact .none

end Scene.Matches

/-- The same has been printed, and the stores match. -/
structure World.Matches (r : Value → Value → Prop) (live : FrameId → Prop) (w w' : World) :
    Prop where
  console : w'.console = w.console
  scene : w.store.scene.Matches r live w'.store.scene

theorem World.Matches.define {r : Value → Value → Prop} {live : FrameId → Prop} {w w' : World}
    (h : w.Matches r live w') (f : FrameId) (x : Name) {v v' : Value} (hv : r v v') :
    World.Matches r live { w with store := w.store.define f x v }
      { w' with store := w'.store.define f x v' } := by
  refine ⟨h.console, ?_⟩
  by_cases hf : f < w.store.frames.size
  · have hf' : f < w'.store.frames.size := Nat.lt_of_lt_of_eq hf h.scene.size.symm
    rw [Store.scene_define hf, Store.scene_define hf']
    exact h.scene.set f x hv
  · have hle := Nat.not_lt.mp hf
    rw [Store.define_of_le hle, Store.define_of_le (Nat.le_trans (Nat.le_of_eq h.scene.size) hle)]
    exact h.scene

/-- What is read in a frame of `live` corresponds. -/
theorem World.Matches.rel_slot {r : Value → Value → Prop} (hr : Faithful r) {live : FrameId → Prop}
    {w w' : World} (h : w.Matches r live w') {f : FrameId} (hf : live f) (x : Name) :
    r ((w.store.scene.slot f x).getD .absent) ((w'.store.scene.slot f x).getD .absent) := by
  have hslot := h.scene.slots f x hf
  generalize w.store.scene.slot f x = slot, w'.store.scene.slot f x = slot' at hslot
  cases hslot with
  | some hv => exact hv
  | none => exact hr.refl nofun

/-- What has come of two evaluations: the same error, or results that are related by `R`, and worlds
that match. -/
inductive Direct.Concurs {α β : Type} (r : Value → Value → Prop) (live : FrameId → Prop)
    (R : α → β → Prop) : Outcome α → Outcome β → Prop
  | ok {a : α} {b : β} {w w' : World} (h : R a b) (hw : w.Matches r live w') :
    Concurs r live R (.ok a, w) (.ok b, w')
  | error {w w' : World} (e : EvalError) (hw : w.Matches r live w') :
    Concurs r live R (.error e, w) (.error e, w')

/-! ### Uniform host functions -/

/-- Functions that correspond stand in the same frame, which is one of `live`. -/
def Placed (live : FrameId → Prop) (r : Value → Value → Prop) : Prop :=
  ∀ {lambda lambda' f f'}, r (.closure lambda f) (.closure lambda' f') → f' = f ∧ live f

/-- What a host function does, with the frames of `live` too, does not hang on what functions of the
language are made of, nor on other frames. It may read the frames of `live`, those included in which
its arguments stand, and change them. -/
def HostFunction.Uniform (live : FrameId → Prop) (host : HostFunction) : Prop :=
  ∀ {r}, Faithful r → Placed live r → ∀ {args args' w w'}, List.Forall₂ r args args' →
    World.Matches r live w w' → Direct.Concurs r live r (host args w) (host args' w')

namespace HostFunction

variable {live : FrameId → Prop}

theorem uniform_writing (write : String → Console → Console) : (writing write).Uniform live := by
  intro r hr _ args args' w w' hargs hw
  refine .ok (hr.refl nofun) ⟨?_, hw.scene⟩
  simp only [hw.console, spaced_eq hr hargs]

theorem uniform_keep (x : Name) : (keep x).Uniform live := by
  intro r hr _ args args' w w' hargs hw
  have hhead : r (args.headD .absent) (args'.headD .absent) := by
    cases hargs with
    | nil => exact hr.refl nofun
    | cons hv _ => exact hv
  exact .ok hhead (hw.define _ x hhead)

/-- Returns what a global name is bound to. -/
def ask (x : Name) : HostFunction := fun _ w =>
  (.ok ((w.store.scene.slot Interpreter.globals x).getD .absent), w)

theorem uniform_ask (hlive : live Interpreter.globals) (x : Name) : (ask x).Uniform live := by
  intro r hr _ args args' w w' hargs hw
  exact .ok (hw.rel_slot hr hlive x) hw

theorem uniform_exchange (hlive : live Interpreter.globals) (x y : Name) :
    (exchange x y).Uniform live := by
  intro r hr _ args args' w w' hargs hw
  refine .ok (hr.refl nofun) ?_
  exact (hw.define _ x (hw.rel_slot hr hlive y)).define _ y (hw.rel_slot hr hlive x)

end HostFunction

/-! ### Operators -/

namespace Faithful

open Direct (Concurs)

variable {r : Value → Value → Prop} {live : FrameId → Prop} {w w' : World} {a a' b b' : Value}

theorem isTruthy (hr : Faithful r) (h : r a a') : a'.isTruthy = a.isTruthy := by
  cases hr.alike h <;> rfl

theorem toInt (hr : Faithful r) (h : r a a') : a'.toInt = a.toInt := by
  have htext := (hr.alike h).text
  cases hr.alike h with
  | closure => simp only [Value.toInt, htext]
  | _ => rfl

/-- Arithmetic and order look at integers only, and at how other values are shown. -/
theorem concurs_arithmetic (hr : Faithful r) {op : BinaryOp}
    (hop : ∃ f, ∀ a b, Value.operate op a b = Value.onInts a b f) (ha : r a a') (hb : r b b')
    (hw : w.Matches r live w') :
    Concurs r live r (Value.operate op a b, w) (Value.operate op a' b', w') := by
  obtain ⟨f, hf⟩ := hop
  have heq : Value.operate op a' b' = Value.operate op a b := by
    rw [hf, hf, Value.onInts, Value.onInts, hr.toInt ha, hr.toInt hb]
  rw [heq]
  cases hv : Value.operate op a b with
  | error e => exact .error e hw
  | ok v =>
    -- a function is neither data nor an operand that passes for an integer
    refine .ok (hr.refl fun g i hclosure => ?_) hw
    have hoperated := Value.operated_operate op a b
    rw [hv, hclosure] at hoperated
    rw [hf] at hv
    rcases hoperated with hdata | rfl | rfl
    · cases hdata
    · cases hv
    · cases a <;> cases hv

theorem concurs_operate (hr : Faithful r) (op : BinaryOp) (ha : r a a') (hb : r b b')
    (hw : w.Matches r live w') :
    Concurs r live r (Value.operate op a b, w) (Value.operate op a' b', w') := by
  cases op with
  | and =>
    refine .ok ?_ hw
    rw [hr.isTruthy ha]
    split
    · exact hb
    · exact hr.refl nofun
  | or =>
    refine .ok ?_ hw
    rw [hr.isTruthy ha]
    split
    · exact ha
    · exact hb
  | eq =>
    refine .ok ?_ hw
    rw [hr.same ha hb]
    exact hr.refl nofun
  | ne =>
    refine .ok ?_ hw
    rw [hr.same ha hb]
    exact hr.refl nofun
  | add | sub | mul | div | mod | lt | le | gt | ge =>
    exact hr.concurs_arithmetic ⟨_, fun _ _ => rfl⟩ ha hb hw

/-- Operators cannot tell corresponding values apart. -/
theorem concurs_operateSymbol (hr : Faithful r) (symbol : String) (ha : r a a') (hb : r b b')
    (hw : w.Matches r live w') :
    Concurs r live r (Value.operateSymbol symbol a b, w) (Value.operateSymbol symbol a' b', w') := by
  unfold Value.operateSymbol
  cases BinaryOp.ofSymbol? symbol with
  | none => exact .error _ hw
  | some op => exact hr.concurs_operate op ha hb hw

end Faithful

/-! ### Values of which functions are recast -/

/-- The same values, but for the bodies of functions, of which one is the other with its `let`s
written as calls. -/
inductive Value.Recasts (ρ : Nat → Nat → Prop) (live : FrameId → Prop) (forth : Bool) :
    Value → Value → Prop
  | int (n : Int64) : Recasts ρ live forth (.int n) (.int n)
  | str (s : String) : Recasts ρ live forth (.str s) (.str s)
  | bool (b : Bool) : Recasts ρ live forth (.bool b) (.bool b)
  | host (x : Name) (id : Nat) : Recasts ρ live forth (.host x id) (.host x id)
  | closure {i j : Nat} (hij : ρ i j) (name? : Option Name) (params : List Name) {body body' : Code}
    (hbody : body.Recast ρ forth body') {f : FrameId} (hf : live f) :
    Recasts ρ live forth (.closure ⟨i, name?, params, body⟩ f) (.closure ⟨j, name?, params, body'⟩ f)

namespace Value.Recasts

variable {ρ : Nat → Nat → Prop} {live : FrameId → Prop} {forth : Bool} {v v' : Value}

theorem absent : Recasts ρ live forth .absent .absent := .bool false

theorem symm (h : Recasts ρ live forth v v') : Recasts (flip ρ) live (!forth) v' v := by
  cases h with
  | int n => exact .int n
  | str s => exact .str s
  | bool b => exact .bool b
  | host x id => exact .host x id
  | @closure i j hij name? params _ _ hbody _ hf =>
    have hji : flip ρ j i := hij
    exact .closure hji name? params hbody.symm hf

/-- If each number stands for one number only, functions are told apart as the functions that
correspond to them. -/
theorem faithful (hρ : Relator.BiUnique ρ) :
    Faithful (Recasts ρ live forth) where
  alike h := by
    cases h with
    | int n => exact .int n
    | str s => exact .str s
    | bool b => exact .bool b
    | host x id => exact .host x id
    | closure => exact .closure rfl
  refl {v} hv := by
    cases v with
    | int n => exact .int n
    | str s => exact .str s
    | bool b => exact .bool b
    | host x id => exact .host x id
    | closure f i => exact absurd rfl (hv f i)
  same {a a' b b'} ha hb := by
    cases ha with
    | closure hij =>
      cases hb with
      | closure hkl => simp only [Value.same, Relator.rel_eq hρ hij hkl]
      | _ => rfl
    | _ => cases hb <;> rfl

theorem placed : Placed live (Recasts ρ live forth) := by
  intro lambda lambda' f f' h
  cases h with
  | closure _ _ _ _ hf => exact ⟨rfl, hf⟩

end Value.Recasts

namespace Direct

/-! ### One part after another -/

section

variable {α β γ δ : Type} (r : Value → Value → Prop) (live : FrameId → Prop)

/-- Given fuel enough, `x` comes to something that concurs with `out`. -/
def Follows (R : α → β → Prop) (out : Outcome α) (x : Nat → Option (Outcome β)) : Prop :=
  ∃ out', (∃ n, ∀ fuel, n ≤ fuel → x fuel = some out') ∧ Concurs r live R out out'

variable {r live} {R : α → β → Prop} {Q : γ → δ → Prop}

namespace Follows

theorem now {out : Outcome α} {out' : Outcome β} {x : Nat → Option (Outcome β)}
    (h : Concurs r live R out out') (hx : ∀ fuel, x fuel = some out') : Follows r live R out x :=
  ⟨out', ⟨0, fun fuel _ => hx fuel⟩, h⟩

/-- There may be levels that are needed first. -/
theorem of_add {out : Outcome α} {x : Nat → Option (Outcome β)} (k : Nat)
    (h : Follows r live R out fun fuel => x (fuel + k)) : Follows r live R out x := by
  obtain ⟨out', ⟨n, hn⟩, hout⟩ := h
  refine ⟨out', ⟨n + k, fun fuel hfuel => ?_⟩, hout⟩
  obtain ⟨m, rfl⟩ := Nat.exists_eq_add_of_le hfuel
  rw [Nat.add_right_comm]
  exact hn (n + m) (Nat.le_add_right n m)

theorem add {out : Outcome α} {x : Nat → Option (Outcome β)} (k : Nat)
    (h : Follows r live R out x) : Follows r live R out fun fuel => x (fuel + k) := by
  obtain ⟨out', ⟨n, hn⟩, hout⟩ := h
  exact ⟨out', ⟨n, fun fuel hfuel => hn (fuel + k) (Nat.le_add_right_of_le hfuel)⟩, hout⟩

/-- One part after another on both sides, where an error of the first is the result of both. -/
theorem bind {x : Option (Outcome α)} {f : Outcome α → Option (Outcome γ)}
    {x' : Nat → Option (Outcome β)} {f' : Nat → Outcome β → Option (Outcome δ)} {out : Outcome γ}
    (h : x.bind f = some out) (hx : ∀ first, x = some first → Follows r live R first x')
    (herror : ∀ e w, f (.error e, w) = some (.error e, w))
    (herror' : ∀ fuel e w, f' fuel (.error e, w) = some (.error e, w))
    (hok : ∀ a b w w', R a b → w.Matches r live w' → f (.ok a, w) = some out →
      Follows r live Q out fun fuel => f' fuel (.ok b, w')) :
    Follows r live Q out fun fuel => (x' fuel).bind (f' fuel) := by
  obtain ⟨first, hfirst, h⟩ := Option.bind_eq_some_iff.mp h
  obtain ⟨first', ⟨n, hn⟩, hconcurs⟩ := hx first hfirst
  cases hconcurs with
  | error e hw =>
    rw [herror] at h
    cases h
    refine ⟨_, ⟨n, fun fuel hfuel => ?_⟩, .error e hw⟩
    exact Option.bind_eq_some_iff.mpr ⟨_, hn fuel hfuel, herror' fuel e _⟩
  | ok hab hw =>
    obtain ⟨out', ⟨m, hm⟩, hout⟩ := hok _ _ _ _ hab hw h
    refine ⟨out', ⟨max n m, fun fuel hfuel => ?_⟩, hout⟩
    exact Option.bind_eq_some_iff.mpr
      ⟨_, hn fuel (Nat.le_trans (Nat.le_max_left n m) hfuel),
        hm fuel (Nat.le_trans (Nat.le_max_right n m) hfuel)⟩

end Follows

end

/-! ### Single steps -/

section

variable {r : Value → Value → Prop} {live : FrameId → Prop} {w w' : World} {i : FrameId}
  {v v' : Value} {vs vs' : List Value}

theorem concurs_get (hw : w.Matches r live w') (hi : live i) (x : Name) :
    Concurs r live r (w.store.get i x, w) (w'.store.get i x, w') := by
  have hlookup := hw.scene.lookup hi x
  rw [Store.scene_lookup, Store.scene_lookup] at hlookup
  unfold Store.get
  generalize w.store.lookup? i x = value?, w'.store.lookup? i x = value?' at hlookup
  cases hlookup with
  | some hv => exact .ok hv hw
  | none => exact .error _ hw

theorem concurs_assign (hw : w.Matches r live w') (hi : live i) (x : Name) (hv : r v v') :
    Concurs r live r (assign w i x v) (assign w' i x v') := by
  have hresolve := hw.scene.resolve hi x
  unfold assign
  cases hg : w.store.scene.resolve i x with
  | none =>
    rw [hg] at hresolve
    rw [Store.scene_resolve] at hg hresolve
    rw [Store.set?, Store.set?, hg, hresolve]
    exact .error _ hw
  | some g =>
    rw [hg] at hresolve
    obtain ⟨s, hs, hscene⟩ := Store.set?_eq_some hg v
    obtain ⟨s', hs', hscene'⟩ := Store.set?_eq_some hresolve v'
    rw [hs, hs']
    refine .ok hv ⟨hw.console, ?_⟩
    rw [hscene, hscene']
    exact hw.scene.set g x hv

/-- Frames with corresponding contents are entered at the same number. -/
theorem matches_enter (habsent : r .absent .absent) (hw : w.Matches r live w') (hi : live i)
    (xs : List Name) (hvs : List.Forall₂ r vs vs') :
    (enter w' i fun store frame => store.defineAll frame xs vs').1 =
        (enter w i fun store frame => store.defineAll frame xs vs).1 ∧
      live (enter w i fun store frame => store.defineAll frame xs vs).1 ∧
      (enter w i fun store frame => store.defineAll frame xs vs).2.Matches r live
        (enter w' i fun store frame => store.defineAll frame xs vs').2 := by
  refine ⟨hw.scene.size, hw.scene.closed.fresh _ (Nat.le_refl _), hw.console, ?_⟩
  rw [enter_defineAll, enter_defineAll, hw.scene.size]
  exact (hw.scene.push hi).setAll _ xs habsent hvs

variable {ρ : Nat → Nat → Prop} {forth : Bool}

theorem concurs_close (hw : w.Matches (Value.Recasts ρ live forth) live w') (hi : live i)
    {label label' : Nat} (hlabel : ρ label label') (name? : Option Name) (params : List Name)
    {body body' : Code} (hbody : body.Recast ρ forth body') :
    Concurs (Value.Recasts ρ live forth) live (Value.Recasts ρ live forth)
      (.ok (close w ⟨label, name?, params, body⟩ i).1, (close w ⟨label, name?, params, body⟩ i).2)
      (.ok (close w' ⟨label', name?, params, body'⟩ i).1,
        (close w' ⟨label', name?, params, body'⟩ i).2) := by
  cases name? with
  | none => exact .ok (.closure hlabel none params hbody hi) hw
  | some x =>
    let lambda : Lambda := ⟨label, some x, params, body⟩
    let lambda' : Lambda := ⟨label', some x, params, body'⟩
    have hclosure : Value.Recasts ρ live forth (.closure lambda w.store.scene.size)
        (.closure lambda' w'.store.scene.size) := by
      rw [hw.scene.size]
      exact .closure hlabel (some x) params hbody (hw.scene.closed.fresh _ (Nat.le_refl _))
    refine .ok hclosure ⟨hw.console, ?_⟩
    have hname : lambda.name? = some x := rfl
    have hname' : lambda'.name? = some x := rfl
    have hscene : (close w lambda i).2.store.scene = _ := enter_defineSelf hname
    have hscene' : (close w' lambda' i).2.store.scene = _ := enter_defineSelf hname'
    rw [hscene, hscene', hw.scene.size]
    rw [hw.scene.size] at hclosure
    exact (hw.scene.push hi).set _ x hclosure

end

/-! ### `let` and call, opened -/

section

variable (hosts : Hosts) (convention : Convention) (fuel : Nat) (i : FrameId) (w : World)

/-- A definition that is left out is evaluated as `false`. -/
theorem declare_cons (x : Name) (d? : Option Code) (bs : List (Binding Code)) (body : Code) :
    declare hosts convention (fuel + 1) (⟨x, d?⟩ :: bs) body i w =
      (evaluate hosts convention fuel (d?.getD .absent) i w).bind fun
        | (.error e, w) => some (.error e, w)
        | (.ok v, w) => declare hosts convention fuel bs body
            (enter w i fun store frame => store.defineAll frame [x] [v]).1
            (enter w i fun store frame => store.defineAll frame [x] [v]).2 := by
  cases d? with
  | none =>
    cases fuel with
    | zero => rfl
    | succ fuel => rfl
  | some d => rfl

/-- A function literal that is applied at once to a term is a frame for the value of this term. -/
theorem evaluate_binder (label : Nat) (x : Name) (body d : Code) :
    evaluate hosts convention (fuel + 3) (.call (.function label none [x] body) [d]) i w =
      (evaluate hosts convention (fuel + 1) d i w).bind fun
        | (.error e, w) => some (.error e, w)
        | (.ok v, w) => evaluate hosts convention (fuel + 1) body
            (enter w i fun store frame => store.defineAll frame [x] [v]).1
            (enter w i fun store frame => store.defineAll frame [x] [v]).2 := by
  simp only [evaluate, close, arguments, Option.bind_eq_bind, Option.bind_some]
  cases evaluate hosts convention (fuel + 1) d i w with
  | none => rfl
  | some out =>
    obtain ⟨result, w₁⟩ := out
    cases result with
    | error e => rfl
    | ok v => rfl

/-- It takes three levels to come to the term. -/
theorem exists_of_evaluate_binder {label : Nat} {x : Name} {body d : Code} {out : Outcome Value}
    (h : evaluate hosts convention (fuel + 1) (.call (.function label none [x] body) [d]) i w =
      some out) : ∃ m, fuel = m + 2 := by
  cases fuel with
  | zero => cases h
  | succ fuel =>
    cases fuel with
    | zero => cases h
    | succ m => exact ⟨m, rfl⟩

end

/-! ### Whole evaluations -/

/-- What is evaluated with `fuel` levels is followed by what it is recast as. -/
structure Mirrors (hosts : Hosts) (ρ : Nat → Nat → Prop) (live : FrameId → Prop) (forth : Bool)
    (fuel : Nat) : Prop where
  evaluate : ∀ {c c' i w w' out}, w.Matches (Value.Recasts ρ live forth) live w' → live i →
    c.Recast ρ forth c' → evaluate hosts .implicit fuel c i w = some out →
    Follows (Value.Recasts ρ live forth) live (Value.Recasts ρ live forth) out
      fun fuel => Direct.evaluate hosts .implicit fuel c' i w'
  sequence : ∀ {cs cs' last last' i w w' out}, w.Matches (Value.Recasts ρ live forth) live w' →
    live i → (Term.seq cs).Recast ρ forth (.seq cs') → last.Recasts ρ live forth last' →
    sequence hosts .implicit fuel cs last i w = some out →
    Follows (Value.Recasts ρ live forth) live (Value.Recasts ρ live forth) out
      fun fuel => Direct.sequence hosts .implicit fuel cs' last' i w'
  arguments : ∀ {cs cs' i w w' out}, w.Matches (Value.Recasts ρ live forth) live w' → live i →
    (Term.seq cs).Recast ρ forth (.seq cs') → arguments hosts .implicit fuel cs i w = some out →
    Follows (Value.Recasts ρ live forth) live (List.Forall₂ (Value.Recasts ρ live forth)) out
      fun fuel => Direct.arguments hosts .implicit fuel cs' i w'
  apply : ∀ {f f' vs vs' w w' out}, w.Matches (Value.Recasts ρ live forth) live w' →
    f.Recasts ρ live forth f' → List.Forall₂ (Value.Recasts ρ live forth) vs vs' →
    apply hosts .implicit fuel f vs w = some out →
    Follows (Value.Recasts ρ live forth) live (Value.Recasts ρ live forth) out
      fun fuel => Direct.apply hosts .implicit fuel f' vs' w'

namespace Mirrors

variable {hosts : Hosts} {ρ : Nat → Nat → Prop} {live : FrameId → Prop} {forth : Bool} {fuel : Nat}
  {i : FrameId} {w w' : World} {out : Outcome Value}

/-- A body in a new frame, with corresponding values under the same names. -/
theorem entered (ih : Mirrors hosts ρ live forth fuel)
    (hw : w.Matches (Value.Recasts ρ live forth) live w') (hi : live i) (xs : List Name)
    {vs vs' : List Value} (hvs : List.Forall₂ (Value.Recasts ρ live forth) vs vs') {c c' : Code}
    (hc : c.Recast ρ forth c')
    (h : Direct.evaluate hosts .implicit fuel c
      (enter w i fun store frame => store.defineAll frame xs vs).1
      (enter w i fun store frame => store.defineAll frame xs vs).2 = some out) :
    Follows (Value.Recasts ρ live forth) live (Value.Recasts ρ live forth) out
      fun fuel => Direct.evaluate hosts .implicit fuel c'
        (enter w' i fun store frame => store.defineAll frame xs vs').1
        (enter w' i fun store frame => store.defineAll frame xs vs').2 := by
  obtain ⟨hframe, hlive, hentered⟩ := matches_enter .absent hw hi xs hvs
  rw [hframe]
  exact ih.evaluate hentered hlive hc h

theorem sequence_succ (ih : Mirrors hosts ρ live forth fuel) {cs cs' : List Code}
    {last last' : Value} (hw : w.Matches (Value.Recasts ρ live forth) live w') (hi : live i)
    (hcs : (Term.seq cs).Recast ρ forth (.seq cs')) (hlast : last.Recasts ρ live forth last')
    (h : Direct.sequence hosts .implicit (fuel + 1) cs last i w = some out) :
    Follows (Value.Recasts ρ live forth) live (Value.Recasts ρ live forth) out
      fun fuel => Direct.sequence hosts .implicit fuel cs' last' i w' := by
  refine .of_add 1 ?_
  cases hcs with
  | nil =>
    cases h
    exact .now (.ok hlast hw) fun _ => rfl
  | cons hc hcs =>
    exact .bind h (fun _ => ih.evaluate hw hi hc) (fun _ _ => rfl) (fun _ _ _ => rfl)
      fun _ _ _ _ hv hw₁ h => ih.sequence hw₁ hi hcs hv h

theorem arguments_succ (ih : Mirrors hosts ρ live forth fuel) {cs cs' : List Code}
    {out : Outcome (List Value)} (hw : w.Matches (Value.Recasts ρ live forth) live w')
    (hi : live i) (hcs : (Term.seq cs).Recast ρ forth (.seq cs'))
    (h : Direct.arguments hosts .implicit (fuel + 1) cs i w = some out) :
    Follows (Value.Recasts ρ live forth) live (List.Forall₂ (Value.Recasts ρ live forth)) out
      fun fuel => Direct.arguments hosts .implicit fuel cs' i w' := by
  refine .of_add 1 ?_
  cases hcs with
  | nil =>
    cases h
    exact .now (.ok .nil hw) fun _ => rfl
  | cons hc hcs =>
    refine .bind h (fun _ => ih.evaluate hw hi hc) (fun _ _ => rfl) (fun _ _ _ => rfl)
      fun v v' w₁ w₁' hv hw₁ h => ?_
    refine .bind h (fun _ => ih.arguments hw₁ hi hcs) (fun _ _ => rfl) (fun _ _ _ => rfl)
      fun vs vs' w₂ w₂' hvs hw₂ h => ?_
    cases h
    exact .now (.ok (.cons hv hvs) hw₂) fun _ => rfl

theorem apply_succ (hhosts : ∀ id, (hosts id).Uniform live)
    (hρ : Relator.BiUnique ρ) (ih : Mirrors hosts ρ live forth fuel)
    {f f' : Value} {vs vs' : List Value} (hw : w.Matches (Value.Recasts ρ live forth) live w')
    (hf : f.Recasts ρ live forth f') (hvs : List.Forall₂ (Value.Recasts ρ live forth) vs vs')
    (h : Direct.apply hosts .implicit (fuel + 1) f vs w = some out) :
    Follows (Value.Recasts ρ live forth) live (Value.Recasts ρ live forth) out
      fun fuel => Direct.apply hosts .implicit fuel f' vs' w' := by
  refine .of_add 1 ?_
  cases hf with
  | int n | str s | bool b =>
    cases h
    exact .now (.error _ hw) fun _ => rfl
  | host x id =>
    cases h
    exact .now (hhosts id (Value.Recasts.faithful hρ) Value.Recasts.placed hvs hw) fun _ => rfl
  | closure hij name? params hbody hf => exact ih.entered hw hf params hvs hbody h

theorem evaluate_succ (hρ : Relator.BiUnique ρ)
    (ih : ∀ m ≤ fuel, Mirrors hosts ρ live forth m) {c c' : Code}
    (hw : w.Matches (Value.Recasts ρ live forth) live w') (hi : live i)
    (hc : c.Recast ρ forth c')
    (h : Direct.evaluate hosts .implicit (fuel + 1) c i w = some out) :
    Follows (Value.Recasts ρ live forth) live (Value.Recasts ρ live forth) out
      fun fuel => Direct.evaluate hosts .implicit fuel c' i w' := by
  have ihlast := ih fuel (Nat.le_refl fuel)
  -- the induction is for a `let` without bindings on the right, to which nothing corresponds
  induction hc with
  | int n =>
    cases h
    exact .of_add 1 (.now (.ok (.int n) hw) fun _ => rfl)
  | str s =>
    cases h
    exact .of_add 1 (.now (.ok (.str s) hw) fun _ => rfl)
  | bool b =>
    cases h
    exact .of_add 1 (.now (.ok (.bool b) hw) fun _ => rfl)
  | var x =>
    cases h
    exact .of_add 1 (.now (concurs_get hw hi x) fun _ => rfl)
  | assign x hc =>
    refine .of_add 1 (.bind h (fun _ => ihlast.evaluate hw hi hc)
      (fun _ _ => rfl) (fun _ _ _ => rfl) fun v v' w₁ w₁' hv hw₁ h => ?_)
    cases h
    exact .now (concurs_assign hw₁ hi x hv) fun _ => rfl
  | binary op hl hr =>
    refine .of_add 1 (.bind h (fun _ => ihlast.evaluate hw hi hl)
      (fun _ _ => rfl) (fun _ _ _ => rfl) fun a a' w₁ w₁' ha hw₁ h => ?_)
    refine .bind h (fun _ => ihlast.evaluate hw₁ hi hr) (fun _ _ => rfl)
      (fun _ _ _ => rfl) fun b b' w₂ w₂' hb hw₂ h => ?_
    cases h
    exact .now ((Value.Recasts.faithful hρ).concurs_operateSymbol op ha hb hw₂) fun _ => rfl
  | negate hc =>
    refine .of_add 1 (.bind h (fun _ => ihlast.evaluate hw hi hc)
      (fun _ _ => rfl) (fun _ _ _ => rfl) fun v v' w₁ w₁' hv hw₁ h => ?_)
    cases h
    rw [← (Value.Recasts.faithful hρ).isTruthy hv]
    exact .now (.ok (.bool _) hw₁) fun _ => rfl
  | nil => exact .of_add 1 (ihlast.sequence hw hi .nil .absent h)
  | cons hc hcs => exact .of_add 1 (ihlast.sequence hw hi (.cons hc hcs) .absent h)
  | call hf hargs =>
    refine .of_add 1 (.bind h (fun _ => ihlast.evaluate hw hi hf)
      (fun _ _ => rfl) (fun _ _ _ => rfl) fun f f' w₁ w₁' hf hw₁ h => ?_)
    exact .bind h (fun _ => ihlast.arguments hw₁ hi hargs) (fun _ _ => rfl)
      (fun _ _ _ => rfl) fun vs vs' w₂ w₂' hvs hw₂ h => ihlast.apply hw₂ hf hvs h
  | function hij name? params hbody =>
    cases h
    exact .of_add 1 (.now (concurs_close hw hi hij name? params hbody) fun _ => rfl)
  | ifThen ht hc =>
    refine .of_add 1 (.bind h (fun _ => ihlast.evaluate hw hi ht)
      (fun _ _ => rfl) (fun _ _ _ => rfl) fun v v' w₁ w₁' hv hw₁ h => ?_)
    dsimp only at h ⊢
    rw [(Value.Recasts.faithful hρ).isTruthy hv]
    by_cases hv : v.isTruthy = true
    · simp only [if_pos hv] at h ⊢
      exact ihlast.evaluate hw₁ hi hc h
    · simp only [if_neg hv] at h ⊢
      cases h
      exact .now (.ok .absent hw₁) fun _ => rfl
  | ifThenElse ht hc ha =>
    refine .of_add 1 (.bind h (fun _ => ihlast.evaluate hw hi ht)
      (fun _ _ => rfl) (fun _ _ _ => rfl) fun v v' w₁ w₁' hv hw₁ h => ?_)
    dsimp only at h ⊢
    rw [(Value.Recasts.faithful hρ).isTruthy hv]
    by_cases hv : v.isTruthy = true
    · simp only [if_pos hv] at h ⊢
      exact ihlast.evaluate hw₁ hi hc h
    · simp only [if_neg hv] at h ⊢
      exact ihlast.evaluate hw₁ hi ha h
  | body hc =>
    cases fuel with
    | zero => cases h
    | succ m => exact (ih m (Nat.le_succ m)).evaluate hw hi hc h
  | bind j x hd hrest =>
    cases fuel with
    | zero => cases h
    | succ m =>
      have h := (declare_cons hosts .implicit m i w x _ _ _).symm.trans h
      refine .of_add 3 ?_
      simp only [evaluate_binder]
      refine .bind h (fun _ h => ((ih m (Nat.le_succ m)).evaluate hw hi hd h).add 1)
        (fun _ _ => rfl) (fun _ _ _ => rfl) fun v v' w₁ w₁' hv hw₁ h => ?_
      exact (ihlast.entered hw₁ hi [x] (.cons hv .nil) hrest h).add 1
  | bodyBack hc ihc => exact .of_add 2 (ihc ih hw h ihlast)
  | bindBack k x hd hrest =>
    obtain ⟨m, rfl⟩ := exists_of_evaluate_binder hosts .implicit fuel i w h
    rw [evaluate_binder] at h
    refine .of_add 2 ?_
    simp only [Direct.evaluate, declare_cons]
    refine .bind h (fun _ => (ih (m + 1) (Nat.le_succ _)).evaluate hw hi hd)
      (fun _ _ => rfl) (fun _ _ _ => rfl) fun v v' w₁ w₁' hv hw₁ h => ?_
    exact ((ih (m + 1) (Nat.le_succ _)).entered hw₁ hi [x] (.cons hv .nil) hrest h).add 1

/-- **A tree and what it is recast as are evaluated in lockstep.** -/
theorem all (hhosts : ∀ id, (hosts id).Uniform live) (hρ : Relator.BiUnique ρ) (forth : Bool)
    (fuel : Nat) : Mirrors hosts ρ live forth fuel := by
  induction fuel using Nat.strongRecOn with
  | _ fuel ih =>
    cases fuel with
    | zero => exact ⟨nofun, nofun, nofun, nofun⟩
    | succ fuel =>
      have hlast := ih fuel (Nat.lt_succ_self fuel)
      exact ⟨evaluate_succ hρ fun m hm => ih m (Nat.lt_succ_of_le hm), hlast.sequence_succ,
        hlast.arguments_succ, hlast.apply_succ hhosts hρ⟩

end Mirrors

end Direct

/-! ### Runs -/

/-- Before a run, frames without functions match themselves. -/
theorem World.matches_self {r : Value → Value → Prop} (hr : Faithful r) {live : FrameId → Prop}
    {world : World} (h : world.store.scene.Holding (Value.Plain fun _ => True) live) :
    world.Matches r live world := by
  refine ⟨rfl, rfl, rfl, h.mono fun _ _ => trivial, fun f x hf => ?_⟩
  cases hv : world.store.scene.slot f x with
  | none => exact .none
  | some v =>
    refine .some (hr.refl ?_)
    rintro lambda i rfl
    exact h.slots f x _ hf hv

/-- The same values, but for the bodies of functions, in which `let`s are written as calls. -/
inductive Value.Desugars : Value → Value → Prop
  | int (n : Int64) : Desugars (.int n) (.int n)
  | str (s : String) : Desugars (.str s) (.str s)
  | bool (b : Bool) : Desugars (.bool b) (.bool b)
  | host (x : Name) (id : Nat) : Desugars (.host x id) (.host x id)
  | closure (i j : Nat) (name? : Option Name) (params : List Name) {body body' : Code}
    (hbody : body'.erase = body.erase.desugar) (f : FrameId) :
    Desugars (.closure ⟨i, name?, params, body⟩ f) (.closure ⟨j, name?, params, body'⟩ f)

theorem Value.Desugars.text {v v' : Value} (h : v.Desugars v') : v'.text = v.text := by
  cases h <;> rfl

theorem Value.Recasts.desugars {ρ : Nat → Nat → Prop} {live : FrameId → Prop} {v v' : Value}
    (h : v.Recasts ρ live true v') : v.Desugars v' := by
  cases h with
  | int n => exact .int n
  | str s => exact .str s
  | bool b => exact .bool b
  | host x id => exact .host x id
  | closure hij name? params hbody hf =>
    exact .closure _ _ name? params (hbody.erase_eq rfl) _

/-- A run of a tree in frame `env` of a world comes to an outcome. -/
def Term.ComesTo (hosts : Hosts) (depth first : Nat) (world : World) (env : FrameId) (t : Tree)
    (out : Outcome Value) : Prop :=
  ∃ fuel ended, (Machine.new depth .implicit).run hosts fuel world (t.label.run first).1 env =
    some (out.1, ended) ∧ ended.world = out.2

/-- The same error or the same value, the same output, and the same in the frames of `live`, but for
the bodies of functions, in which `let`s are written as calls. -/
structure Direct.Tallies (live : FrameId → Prop) (out out' : Outcome Value) : Prop where
  result : (∃ e, out.1 = .error e ∧ out'.1 = .error e) ∨
    ∃ v v', out.1 = .ok v ∧ out'.1 = .ok v' ∧ v.Desugars v' ∧ v'.text = v.text
  console : out'.2.console = out.2.console
  slots : ∀ f, live f → ∀ x, Option.Rel Value.Desugars (out.2.store.scene.slot f x)
    (out'.2.store.scene.slot f x)

namespace Direct

variable {ρ : Nat → Nat → Prop} {live : FrameId → Prop}

/-- From frames without functions, a tree and what it is recast as come to the same. -/
theorem evaluate_recast {hosts : Hosts} (hhosts : ∀ id, (hosts id).Uniform live)
    (hρ : Relator.BiUnique ρ) {world : World} {env : FrameId} (henv : live env)
    (hworld : world.store.scene.Holding (Value.Plain fun _ => True) live) {forth : Bool}
    {c c' : Code} (hc : c.Recast ρ forth c') {fuel : Nat} {out : Outcome Value}
    (h : evaluate hosts .implicit fuel c env world = some out) :
    ∃ fuel out', evaluate hosts .implicit fuel c' env world = some out' ∧
      Concurs (Value.Recasts ρ live forth) live (Value.Recasts ρ live forth) out out' := by
  have hr : Faithful (Value.Recasts ρ live forth) := Value.Recasts.faithful hρ
  obtain ⟨out', ⟨n, hn⟩, hconcurs⟩ :=
    (Mirrors.all hhosts hρ forth fuel).evaluate (World.matches_self hr hworld) henv hc h
  exact ⟨n, out', hn n (Nat.le_refl n), hconcurs⟩

theorem Concurs.symm {forth : Bool} {out out' : Outcome Value}
    (h : Concurs (Value.Recasts ρ live forth) live (Value.Recasts ρ live forth) out out') :
    Concurs (Value.Recasts (flip ρ) live (!forth)) live (Value.Recasts (flip ρ) live (!forth))
      out' out := by
  have hmatches {w w' : World} (hw : w.Matches (Value.Recasts ρ live forth) live w') :
      w'.Matches (Value.Recasts (flip ρ) live (!forth)) live w :=
    ⟨hw.console.symm, hw.scene.symm fun _ _ hv => hv.symm⟩
  cases h with
  | ok hv hw => exact .ok hv.symm (hmatches hw)
  | error e hw => exact .error e (hmatches hw)

theorem Concurs.tallies {out out' : Outcome Value}
    (h : Concurs (Value.Recasts ρ live true) live (Value.Recasts ρ live true) out out') :
    Tallies live out out' := by
  have hslots {w w' : World} (hw : w.Matches (Value.Recasts ρ live true) live w') (f : FrameId)
      (hf : live f) (x : Name) : Option.Rel Value.Desugars (w.store.scene.slot f x)
        (w'.store.scene.slot f x) := by
    have hslot := hw.scene.slots f x hf
    generalize w.store.scene.slot f x = slot, w'.store.scene.slot f x = slot' at hslot
    cases hslot with
    | some hv => exact .some hv.desugars
    | none => exact .none
  cases h with
  | ok hv hw =>
    exact ⟨.inr ⟨_, _, rfl, rfl, hv.desugars, hv.desugars.text⟩, hw.console, hslots hw⟩
  | error e hw => exact ⟨.inl ⟨e, rfl, rfl⟩, hw.console, hslots hw⟩

end Direct

/-- **`let` written as calls.** Whatever the depths at which tasks are put aside and however the
literals are numbered, a tree whose assignments are to variables and the same tree with every `let`
written as calls are malformed together, and are then refused, though not always for the same empty
name. Otherwise, from frames that hold no functions of the language and with host functions that are
uniform with regard to these frames, the one comes to an end just if the other does, with the same
error or the same value, the same output, and the same in these frames and those that have been made,
but for the bodies of functions, in which every `let` is written as calls. -/
theorem Machine.run_desugar {hosts : Hosts} {live : FrameId → Prop}
    (hhosts : ∀ id, (hosts id).Uniform live) {world : World} {env : FrameId} (henv : live env)
    (hworld : world.store.scene.Holding (Value.Plain fun _ => True) live) {t : Tree}
    (ht : Throughout Term.Targeted t) (depth depth' first first' : Nat) :
    (t.desugar.check = .ok () ↔ t.check = .ok ()) ∧
    (∀ fault, t.check = .error fault → ∃ fault', t.desugar.check = .error fault' ∧
      (∀ out, t.ComesTo hosts depth first world env out ↔
        out = (.error (.malformed fault), world)) ∧
      ∀ out', t.desugar.ComesTo hosts depth' first' world env out' ↔
        out' = (.error (.malformed fault'), world)) ∧
    (t.check = .ok () →
      (∀ out, t.ComesTo hosts depth first world env out → ∃ out',
        t.desugar.ComesTo hosts depth' first' world env out' ∧ Direct.Tallies live out out') ∧
      ∀ out', t.desugar.ComesTo hosts depth' first' world env out' → ∃ out,
        t.ComesTo hosts depth first world env out ∧ Direct.Tallies live out out') := by
  have hdesugar := Term.check_desugar_iff t
  have hcheck := Term.check_label t first
  have hcheck' := Term.check_label t.desugar first'
  refine ⟨hdesugar, fun fault hfault => ?_, fun hok => ?_⟩
  · cases hfault' : t.desugar.check with
    | ok u =>
      rw [hdesugar.mp hfault'] at hfault
      cases hfault
    | error fault' =>
      refine ⟨fault', rfl, fun out => ?_, fun out' => ?_⟩
      · rw [Prod.ext_iff]
        exact Machine.run_iff_malformed depth (hcheck.trans hfault)
      · rw [Prod.ext_iff]
        exact Machine.run_iff_malformed depth' (hcheck'.trans hfault')
  · obtain ⟨ρ, hρ, hrecast⟩ := Term.exists_recast_label ht first first'
    have hcode := hcheck.trans hok
    have hcode' := hcheck'.trans (hdesugar.mpr hok)
    refine ⟨fun out hout => ?_, fun out' hout' => ?_⟩
    · obtain ⟨fuel, hout⟩ := (Machine.run_iff_evaluate depth hcode).mp hout
      obtain ⟨fuel', out', hout', hconcurs⟩ :=
        Direct.evaluate_recast hhosts hρ henv hworld hrecast hout
      exact ⟨out', (Machine.run_iff_evaluate depth' hcode').mpr ⟨fuel', hout'⟩, hconcurs.tallies⟩
    · have hρ' : Relator.BiUnique (flip ρ) := ⟨fun _ _ _ h h' => hρ.2 h h', hρ.1.flip⟩
      obtain ⟨fuel, hout'⟩ := (Machine.run_iff_evaluate depth' hcode').mp hout'
      obtain ⟨fuel', out, hout, hconcurs⟩ :=
        Direct.evaluate_recast hhosts hρ' henv hworld hrecast.symm hout'
      exact ⟨out, (Machine.run_iff_evaluate depth hcode).mpr ⟨fuel', hout⟩, hconcurs.symm.tallies⟩

/-- An interpreter whose host functions also tell what `b` is bound to. -/
def asking : Interpreter := housekeeping.defineHost "ask" (.ask "b")

theorem uniform_asking {live : FrameId → Prop} (hlive : live Interpreter.globals) (id : Nat) :
    (asking.host id).Uniform live := by
  refine Interpreter.host_of_forall (P := HostFunction.Uniform live)
    (HostFunction.uniform_writing _) (fun f hf => ?_) id
  rcases Array.mem_push.mp hf with hf | rfl
  · exact forall_hosts_housekeeping (P := HostFunction.Uniform live) HostFunction.uniform_writing
      (HostFunction.uniform_keep _) (HostFunction.uniform_exchange hlive _ _) f hf
  · exact HostFunction.uniform_ask hlive "b"

/-- A function with a `let` of its own that assigns to a name bound before it, and to which this name
means something else than to the body. It is printed, called, given to `a`, and called once more when
`a` and `b` have been exchanged and `b` has been read by a host function. -/
def bumping : Tree :=
  .declare
    [⟨"n", some (.int 1)⟩,
      ⟨"bump", some (.function () none ["k"]
        (.declare [⟨"old", some (.var "n")⟩, ⟨"k", none⟩]
          (.seq [.assign (.var "n") (.binary "+" (.var "n") (.int 4)), .var "old"])))⟩,
      ⟨"n", none⟩]
    (.seq [.call (.var "println") [.call (.var "bump") [], .var "n", .var "bump"],
      .assign (.var "a") (.var "bump"), .call (.var "swap") [],
      .call (.call (.var "ask") []) []])

theorem Machine.run_desugar_bumping :
    (∀ id, (asking.host id).Uniform (asking.world.store.scene.Domain Interpreter.globals)) ∧
    asking.world.store.scene.Holding (Value.Plain fun _ => True)
      (asking.world.store.scene.Domain Interpreter.globals) ∧
    Throughout Term.Targeted bumping ∧ bumping.check = .ok () ∧ ∃ out out',
      bumping.ComesTo asking.host 3 0 asking.world Interpreter.globals out ∧
      out.1 = .ok (.int 5) ∧ out.2.console = .buffer "1 false <lambda>\n" ∧
      bumping.desugar.ComesTo asking.host 7 2 asking.world Interpreter.globals out' ∧
      out'.1 = .ok (.int 5) ∧ out'.2.console = .buffer "1 false <lambda>\n" ∧
      Direct.Tallies (asking.world.store.scene.Domain Interpreter.globals) out out' := by
  have hglobals : asking.world.store.scene.Domain Interpreter.globals Interpreter.globals :=
    .inl List.mem_cons_self
  have huniform := uniform_asking hglobals
  have hworld :=
    (elementary_housekeeping.define "ask" (v := .host "ask" 4) nofun).holding
  have htargets : Throughout Term.Targeted bumping := by
    show ∀ s ∈ bumping.subterms, Term.Targeted s
    decide +kernel
  have hrun : (Machine.new 3 .implicit).run asking.host 200 asking.world
      (bumping.label.run 0).1 Interpreter.globals = some (.ok (.int 5), _) := rfl
  have hcomes : bumping.ComesTo asking.host 3 0 asking.world Interpreter.globals
      (.ok (.int 5), _) := ⟨200, _, hrun, rfl⟩
  obtain ⟨out', hcomes', htallies⟩ := ((Machine.run_desugar huniform hglobals hworld htargets
    3 7 0 2).2.2 rfl).1 _ hcomes
  have hconsole := htallies.console
  refine ⟨huniform, hworld, htargets, rfl, _, out', hcomes, rfl, rfl, hcomes', ?_, hconsole,
    htallies⟩
  rcases htallies.result with ⟨e, he, -⟩ | ⟨v, v', hv, hv', hdesugars, -⟩
  · cases he
  · cases hv
    cases hdesugars
    exact hv'

/-- A `let` whose binding has an empty name. -/
def unnamed : Tree := .declare [⟨"", some (.int 1)⟩] (.int 1)

/-- A host function that is not uniform: it tells whether the body of a function is a `let`. -/
def HostFunction.peek : HostFunction
  | [.closure ⟨_, _, _, .declare ..⟩ _], w => (.ok (.bool true), w)
  | _, w => (.ok .absent, w)

/-- A host function is given a function whose body is a `let`. -/
def shown : Tree := .call (.var "print") [.function () none [] (.declare [] (.int 1))]

/-- The empty name of a binding is reported as that of a parameter once the `let` is a call; and a
host function that looks into functions sees that it is one. -/
theorem Machine.run_desugar_telltale :
    (Throughout Term.Targeted unnamed ∧
      (∃ ended, (Machine.new 200 .implicit).run printing.host 0 printing.world
        (unnamed.label.run 0).1 Interpreter.globals =
          some (.error (.malformed .bindingName), ended)) ∧
      ∃ ended, (Machine.new 200 .implicit).run printing.host 0 printing.world
        (unnamed.desugar.label.run 0).1 Interpreter.globals =
          some (.error (.malformed .parameterName), ended)) ∧
    (∃ ended, (Machine.new 200 .implicit).run (fun _ => HostFunction.peek) 20 printing.world
      (shown.label.run 0).1 Interpreter.globals = some (.ok (.bool true), ended)) ∧
    ∃ ended, (Machine.new 200 .implicit).run (fun _ => HostFunction.peek) 20 printing.world
      (shown.desugar.label.run 0).1 Interpreter.globals = some (.ok (.bool false), ended) := by
  refine ⟨⟨?_, ⟨_, rfl⟩, _, rfl⟩, ⟨_, rfl⟩, _, rfl⟩
  show ∀ s ∈ unnamed.subterms, Term.Targeted s
  decide +kernel

end LetLambda
