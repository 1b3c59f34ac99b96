import LetLambda.Proofs.Hosts
import LetLambda.Proofs.Renaming

/-!
# Names that are bound stay bound

Where the free variables of a program are bound in the frame of its run or around it, no run of it
comes upon a name that is not bound. What is kept up during a run is that every function that can be
come by was made in a frame from which the free names of its body can be seen (`WellScoped`); frames
are never lost, and a name that is bound in a frame stays bound there.

The host functions must bring no functions of the language into the run, neither as values that they
return nor in frames: one that a host function has planted need not have been made where its names
can be seen (`Machine.undefinedVariable_planted`).
-/

namespace LetLambda

open Direct (Outcome)

/-! ### Operators -/

/-- What an operator may give: data or one of its operands, or an error that is not about a name. -/
def Value.Operated (a b : Value) : Except EvalError Value → Prop
  | .ok v => v.IsData ∨ v = a ∨ v = b
  | .error e => ∀ x, e ≠ .undefinedVariable x

namespace Value

theorem operated_ofResult (a b : Value) (operation : Arithmetic) (n : Int) :
    Operated a b (ofResult operation n) := by
  unfold ofResult
  cases Numeral.word? n with
  | none => exact fun _ => nofun
  | some word => exact .inl trivial

theorem operated_onInts {a b : Value} {f : Int → Int → Except EvalError Value}
    (hf : ∀ m n, Operated a b (f m n)) : Operated a b (onInts a b f) := by
  cases a with
  | int m =>
    cases b with
    | int n => exact hf m.toInt n.toInt
    | _ => exact fun _ => nofun
  | _ => exact fun _ => nofun

theorem operated_operate (op : BinaryOp) (a b : Value) : Operated a b (operate op a b) := by
  cases op with
  | and =>
    unfold operate
    by_cases ha : a.isTruthy = true
    · simp [ha, Operated]
    · simp [ha, Operated, absent, IsData]
  | or =>
    unfold operate
    by_cases ha : a.isTruthy = true <;> simp [ha, Operated]
  | eq | ne => exact .inl trivial
  | lt | le | gt | ge => exact operated_onInts fun m n => .inl trivial
  | add | sub | mul => exact operated_onInts fun m n => operated_ofResult a b _ _
  | div =>
    refine operated_onInts fun m n => ?_
    by_cases hn : n = 0
    · rw [if_pos hn]
      exact fun _ => nofun
    · rw [if_neg hn]
      exact operated_ofResult a b _ _
  | mod =>
    refine operated_onInts fun m n => ?_
    by_cases hn : n = 0
    · rw [if_pos hn]
      exact fun _ => nofun
    · rw [if_neg hn]
      have hquotient := operated_ofResult a b .remainder (m.tdiv n)
      cases h : ofResult .remainder (m.tdiv n) with
      | error e =>
        rw [h] at hquotient
        exact hquotient
      | ok q => exact operated_ofResult a b _ _

theorem operated_operateSymbol (symbol : String) (a b : Value) :
    Operated a b (operateSymbol symbol a b) := by
  unfold operateSymbol
  cases BinaryOp.ofSymbol? symbol with
  | none => exact fun _ => nofun
  | some op => exact operated_operate op a b

end Value

/-! ### Names that can be seen -/

namespace Scene

/-- A name is bound in a frame or in one around it. -/
def InScope (V : Scene) (f : FrameId) (x : Name) : Prop := ∃ g ∈ V.chain f, (V.slot g x).isSome

/-- Some names can be seen from a frame that is there and of interest. -/
structure Covers (live : FrameId → Prop) (V : Scene) (f : FrameId) (names : List Name) : Prop where
  live : live f
  lt : f < V.size
  sees : ∀ x ∈ names, V.InScope f x

variable {live : FrameId → Prop} {V : Scene} {f : FrameId} {x : Name} {names names' xs : List Name}

theorem Covers.mono (h : V.Covers live f names) (hsub : ∀ x ∈ names', x ∈ names) :
    V.Covers live f names' :=
  ⟨h.live, h.lt, fun x hx => h.sees x (hsub x hx)⟩

theorem resolve_of_inScope (h : V.InScope f x) : ∃ g, V.resolve f x = some g := by
  obtain ⟨g, hg, hs⟩ := h
  exact Option.isSome_iff_exists.mp (List.find?_isSome.mpr ⟨g, hg, hs⟩)

theorem isSome_setAll_slot (V : Scene) (f : FrameId) (vs : List Value) (h : x ∈ xs) :
    ((V.setAll f xs vs).slot f x).isSome := by
  induction xs generalizing V vs with
  | nil => cases h
  | cons y xs ih =>
    by_cases hx : x ∈ xs
    · cases vs <;> exact ih _ _ hx
    · have hxy : x = y := (List.mem_cons.mp h).resolve_right hx
      subst hxy
      cases vs <;> simp [setAll, setAll_slot_of_not_mem _ _ hx]

end Scene

/-! ### Well-scoped scenes -/

/-- The names that a function needs from the frame in which it was made. -/
def Lambda.needs (lambda : Lambda) : List Name :=
  lambda.body.free.filter fun x => x ∉ lambda.params

section

variable (trusted : Nat → Prop) (live : FrameId → Prop)

/-- A function was made where the names that it needs can be seen, and a host function is trusted. -/
abbrev Scoped (V : Scene) : Value → Prop :=
  Value.Admitted trusted live fun lambda f => V.Covers live f lambda.needs

/-- Every value that is bound in a frame of `live` is scoped. -/
def WellScoped (V : Scene) : Prop := V.Holding (Scoped trusted live V) live

/-- A part of a run that began with the scene `V` has gone well, or has failed for another reason
than that a name is not bound. -/
def Ends {α : Type} (P : Scene → α → Prop) (V : Scene) : Outcome α → Prop
  | (.ok a, w) =>
    V.Keeps live w.store.scene ∧ WellScoped trusted live w.store.scene ∧ P w.store.scene a
  | (.error e, _) => ∀ x, e ≠ .undefinedVariable x

end

variable {hosts : Hosts} {trusted : Nat → Prop} {live : FrameId → Prop} {V W : Scene}
  {f i : FrameId} {x : Name} {v : Value} {names xs : List Name} {vs : List Value}

theorem scoped_absent (V : Scene) : Scoped trusted live V .absent := trivial

namespace WellScoped

theorem covers_keeps (hV : WellScoped trusted live V) (h : V.Keeps live W)
    (hf : V.Covers live f names) : W.Covers live f names := by
  refine ⟨hf.live, Nat.lt_of_lt_of_le hf.lt h.size_le, fun x hx => ?_⟩
  obtain ⟨g, hg, hs⟩ := hf.sees x hx
  refine ⟨g, ?_, h.bound g x (hV.chain f hf.live g hg) hs⟩
  rwa [h.chain hf.lt]

theorem scoped_keeps (hV : WellScoped trusted live V) (h : V.Keeps live W)
    (hv : Scoped trusted live V v) : Scoped trusted live W v :=
  hv.mono (fun _ _ => hV.covers_keeps h) v

theorem lookup (hV : WellScoped trusted live V) (hf : V.Covers live f names) (hx : x ∈ names) :
    ∃ v, V.lookup f x = some v ∧ Scoped trusted live V v := by
  obtain ⟨g, hg⟩ := Scene.resolve_of_inScope (hf.sees x hx)
  obtain ⟨v, hv⟩ := Option.isSome_iff_exists.mp (Scene.isSome_of_resolve hg)
  have hlookup : V.lookup f x = some v := by
    rw [Scene.lookup, hg]
    exact hv
  exact ⟨v, hlookup, Scene.Holding.lookup hV hf.live hlookup⟩

/-- What can be seen from a new frame: the names that it binds, and what can be seen from around
it. -/
theorem covers_enters {s : Store} (hs : WellScoped trusted live s.scene)
    (hi : s.scene.Covers live i names) (xs : List Name) (vs : List Value) {inner : List Name}
    (hinner : ∀ x ∈ inner, x ∉ xs → x ∈ names) :
    ((s.scene.push i).setAll s.scene.size xs vs).Covers live s.scene.size inner := by
  have henters := (Scene.enters_push s.scene i).setAll xs vs
  refine ⟨hs.fresh _ (Nat.le_refl _), ?_, fun x hx => ?_⟩
  · rw [henters.size]
    exact Nat.lt_succ_self _
  · by_cases hmem : x ∈ xs
    · refine ⟨s.scene.size, List.mem_cons_self, Scene.isSome_setAll_slot _ _ _ hmem⟩
    · obtain ⟨g, hg, hsome⟩ := hi.sees x (hinner x hx hmem)
      refine ⟨g, ?_, ?_⟩
      · rw [henters.chain]
        exact List.mem_cons_of_mem _ hg
      · rwa [henters.slot g (Nat.ne_of_lt (Store.lt_of_isSome_slot hsome))]

end WellScoped

/-! ### Parts of a run -/

section

variable {α β : Type} {P : Scene → α → Prop} {Q : Scene → β → Prop}

theorem Ends.after {out : Outcome α} (h : Ends trusted live P W out)
    (hkeeps : V.Keeps live W) : Ends trusted live P V out := by
  obtain ⟨result, w⟩ := out
  cases result with
  | error e => exact h
  | ok a => exact ⟨hkeeps.trans h.1, h.2⟩

/-- One part after another, where an error of the first is the result of both. -/
theorem ends_bind {x : Option (Outcome α)} {f : Outcome α → Option (Outcome β)} {out : Outcome β}
    (h : x.bind f = some out) (hx : ∀ out, x = some out → Ends trusted live P V out)
    (herror : ∀ e w, f (.error e, w) = some (.error e, w))
    (hok : ∀ a w, V.Keeps live w.store.scene → WellScoped trusted live w.store.scene →
      P w.store.scene a → f (.ok a, w) = some out → Ends trusted live Q w.store.scene out) :
    Ends trusted live Q V out := by
  rcases Direct.bind_cases h herror with ⟨e, w, hw, rfl⟩ | ⟨a, w, hw, h⟩
  · exact hx _ hw
  · obtain ⟨hkeeps, hsound, ha⟩ := hx _ hw
    exact (hok a w hkeeps hsound ha h).after hkeeps

end

namespace Direct

variable {convention : Convention} {w : World}

theorem ends_assign (hw : WellScoped trusted live w.store.scene)
    (hi : w.store.scene.Covers live i names) (hx : x ∈ names)
    (hv : Scoped trusted live w.store.scene v) :
    Ends trusted live (Scoped trusted live) w.store.scene (assign w i x v) := by
  obtain ⟨g, hg⟩ := Scene.resolve_of_inScope (hi.sees x hx)
  obtain ⟨s, hs, hscene⟩ := Store.set?_eq_some hg v
  have hkeeps : w.store.scene.Keeps live s.scene := by
    rw [hscene]
    exact (Scene.Keeps.refl _).set g x v
  rw [assign, hs]
  refine ⟨hkeeps, ?_, hw.scoped_keeps hkeeps hv⟩
  have hset : s.scene.Holding (Scoped trusted live w.store.scene) live := by
    rw [hscene]
    exact Scene.Holding.set hw hv
  exact hset.mono fun u => hw.scoped_keeps hkeeps

/-- Entering a frame that binds names to values that are scoped there. -/
theorem wellScoped_enters (hw : WellScoped trusted live w.store.scene)
    (hi : w.store.scene.Covers live i names) (xs : List Name) (vs : List Value)
    (hvs : ∀ v ∈ vs, Scoped trusted live
      ((w.store.scene.push i).setAll w.store.scene.size xs vs) v) :
    WellScoped trusted live ((w.store.scene.push i).setAll w.store.scene.size xs vs) := by
  have hkeeps := Scene.keeps_enters live w.store i xs vs
  have hpush := (Scene.Holding.mono hw fun u => hw.scoped_keeps hkeeps).push hi.live
  exact hpush.setAll xs (scoped_absent _) hvs

/-- Entering a frame that binds parameters. -/
theorem wellScoped_enter (hw : WellScoped trusted live w.store.scene)
    (hi : w.store.scene.Covers live i names) (xs : List Name) {vs : List Value}
    (hvs : ∀ v ∈ vs, Scoped trusted live w.store.scene v) (inner : List Name)
    (hinner : ∀ x ∈ inner, x ∉ xs → x ∈ names) :
    let entered := enter w i fun store frame => store.defineAll frame xs vs
    w.store.scene.Keeps live entered.2.store.scene ∧
      WellScoped trusted live entered.2.store.scene ∧
      entered.2.store.scene.Covers live entered.1 inner := by
  have hkeeps := Scene.keeps_enters live w.store i xs vs
  intro entered
  rw [show entered.2.store.scene = _ from enter_defineAll xs vs]
  refine ⟨hkeeps, ?_, hw.covers_enters hi xs vs hinner⟩
  exact wellScoped_enters hw hi xs vs fun v hv => hw.scoped_keeps hkeeps (hvs v hv)

theorem ends_close (hw : WellScoped trusted live w.store.scene) {lambda : Lambda}
    (hi : w.store.scene.Covers live i (lambda.needs.filter fun x => x ∉ lambda.name?.toList)) :
    Ends trusted live (Scoped trusted live) w.store.scene
      (.ok (close w lambda i).1, (close w lambda i).2) := by
  unfold close
  cases h : lambda.name? with
  | none =>
    refine ⟨.refl _, hw, hi.live, hi.mono fun x hx => ?_⟩
    simpa [h] using hx
  | some y =>
    have hself : ((w.store.scene.push i).setAll w.store.scene.size [y]
        [.closure lambda w.store.scene.size]).Covers live w.store.scene.size lambda.needs := by
      refine hw.covers_enters hi _ _ fun x hx hne => List.mem_filter.mpr ⟨hx, ?_⟩
      simpa [h] using hne
    have hkeeps := Scene.keeps_enters live w.store i [y] [.closure lambda w.store.scene.size]
    have hentered := wellScoped_enters hw hi [y] [.closure lambda w.store.scene.size]
      (List.forall_mem_singleton.mpr ⟨hself.live, hself⟩)
    change _ ∧ _ ∧ _
    rw [enter_defineSelf h]
    exact ⟨hkeeps, hentered, hself.live, hself⟩

theorem ends_host {host : HostFunction} (hfrugal : host.Frugal live trusted)
    (hreticent : host.Reticent) (hw : WellScoped trusted live w.store.scene)
    (hvs : ∀ v ∈ vs, Scoped trusted live w.store.scene v) {out : Outcome Value}
    (h : host vs w = out) :
    Ends trusted live (Scoped trusted live) w.store.scene out := by
  have hreworks := hfrugal.frames vs w (Scene.Holding.mono hw fun v hv => hv.within) fun v hv =>
    (hvs v hv).within
  have hkeeps := hreworks.keeps
  have hholding : WellScoped trusted live (host vs w).2.store.scene :=
    (Scene.Holding.mono hw fun v => hw.scoped_keeps hkeeps).reworks hreworks (fun v hv => hv.admitted)
      fun v hv => hw.scoped_keeps hkeeps (hvs v hv)
  have hreturns := hfrugal.returns vs w
  have herror := hreticent vs w
  rw [h] at hkeeps hholding hreturns herror
  obtain ⟨r, w₁⟩ := out
  cases r with
  | error e => exact fun x hx => herror x (by rw [hx])
  | ok v =>
    refine ⟨hkeeps, hholding, ?_⟩
    rcases hreturns v rfl with hdata | hmem
    · exact hdata.plain.admitted
    · exact hw.scoped_keeps hkeeps (hvs v hmem)

variable (hosts trusted convention live) in
/-- With this much fuel, what begins well-scoped ends well-scoped. -/
structure ScopedWith (fuel : Nat) : Prop where
  evaluate : ∀ {t i w out}, WellScoped trusted live w.store.scene →
    w.store.scene.Covers live i t.free → evaluate hosts convention fuel t i w = some out →
    Ends trusted live (Scoped trusted live) w.store.scene out
  sequence : ∀ {ts last i w out}, WellScoped trusted live w.store.scene →
    Scoped trusted live w.store.scene last → w.store.scene.Covers live i (Term.freeAll ts) →
    sequence hosts convention fuel ts last i w = some out →
    Ends trusted live (Scoped trusted live) w.store.scene out
  arguments : ∀ {ts i w out}, WellScoped trusted live w.store.scene →
    w.store.scene.Covers live i (Term.freeAll ts) →
    arguments hosts convention fuel ts i w = some out →
    Ends trusted live (fun V vs => ∀ v ∈ vs, Scoped trusted live V v) w.store.scene out
  declare : ∀ {bs body i w out}, WellScoped trusted live w.store.scene →
    w.store.scene.Covers live i (Term.freeLet bs body.free) →
    declare hosts convention fuel bs body i w = some out →
    Ends trusted live (Scoped trusted live) w.store.scene out
  apply : ∀ {f vs w out}, WellScoped trusted live w.store.scene →
    Scoped trusted live w.store.scene f → (∀ v ∈ vs, Scoped trusted live w.store.scene v) →
    apply hosts convention fuel f vs w = some out →
    Ends trusted live (Scoped trusted live) w.store.scene out

namespace ScopedWith

variable {fuel : Nat} {out : Outcome Value}
  (hhosts : ∀ id, trusted id → (hosts id).Frugal live trusted ∧ (hosts id).Reticent)

theorem sequence_succ (ih : ScopedWith hosts trusted live convention fuel) {ts : List Code}
    {last : Value} (hw : WellScoped trusted live w.store.scene)
    (hlast : Scoped trusted live w.store.scene last) (hi : w.store.scene.Covers live i (Term.freeAll ts))
    (h : Direct.sequence hosts convention (fuel + 1) ts last i w = some out) :
    Ends trusted live (Scoped trusted live) w.store.scene out := by
  cases ts with
  | nil =>
    cases h
    exact ⟨.refl _, hw, hlast⟩
  | cons t ts =>
    refine ends_bind h (fun _ => ih.evaluate hw (hi.mono fun x => List.mem_append_left _))
      (fun _ _ => rfl) fun v w₁ hkeeps hw₁ hv h => ?_
    have hi := hw.covers_keeps hkeeps (hi.mono fun x => List.mem_append_right _)
    exact ih.sequence hw₁ hv hi h

theorem arguments_succ (ih : ScopedWith hosts trusted live convention fuel) {ts : List Code}
    {out : Outcome (List Value)} (hw : WellScoped trusted live w.store.scene)
    (hi : w.store.scene.Covers live i (Term.freeAll ts))
    (h : Direct.arguments hosts convention (fuel + 1) ts i w = some out) :
    Ends trusted live (fun V vs => ∀ v ∈ vs, Scoped trusted live V v) w.store.scene out := by
  cases ts with
  | nil =>
    cases h
    exact ⟨.refl _, hw, nofun⟩
  | cons t ts =>
    refine ends_bind h (fun _ => ih.evaluate hw (hi.mono fun x => List.mem_append_left _))
      (fun _ _ => rfl) fun v w₁ hkeeps hw₁ hv h => ?_
    have hi := hw.covers_keeps hkeeps (hi.mono fun x => List.mem_append_right _)
    refine ends_bind h (fun _ => ih.arguments hw₁ hi) (fun _ _ => rfl)
      fun vs w₂ hkeeps₁ hw₂ hvs h => ?_
    cases h
    exact ⟨.refl _, hw₂, List.forall_mem_cons.mpr ⟨hw₁.scoped_keeps hkeeps₁ hv, hvs⟩⟩

theorem declare_succ (ih : ScopedWith hosts trusted live convention fuel) {bs : List (Binding Code)}
    {body : Code} (hw : WellScoped trusted live w.store.scene)
    (hi : w.store.scene.Covers live i (Term.freeLet bs body.free))
    (h : Direct.declare hosts convention (fuel + 1) bs body i w = some out) :
    Ends trusted live (Scoped trusted live) w.store.scene out := by
  cases bs with
  | nil => exact ih.evaluate hw hi h
  | cons b bs =>
    obtain ⟨x, d?⟩ := b
    cases d? with
    | none =>
      obtain ⟨hkeeps, hw₁, hi⟩ := wellScoped_enter hw hi [x]
        (List.forall_mem_singleton.mpr (scoped_absent _)) (Term.freeLet bs body.free)
        fun y hy hne => Term.mem_freeLet_none.mpr ⟨hy, List.ne_of_not_mem_cons hne⟩
      exact (ih.declare hw₁ hi h).after hkeeps
    | some d =>
      have hdefinition : w.store.scene.Covers live i d.free :=
        hi.mono fun y hy => Term.mem_freeLet_some.mpr (.inl hy)
      refine ends_bind h (fun _ => ih.evaluate hw hdefinition) (fun _ _ => rfl)
        fun v w₁ hkeeps hw₁ hv h => ?_
      -- Only then is the name bound: the definition does not see it.
      have hi := hw.covers_keeps hkeeps hi
      obtain ⟨hkeeps₁, hw₂, hi⟩ := wellScoped_enter hw₁ hi [x]
        (List.forall_mem_singleton.mpr hv) (Term.freeLet bs body.free) fun y hy hne =>
          Term.mem_freeLet_some.mpr (.inr ⟨hy, List.ne_of_not_mem_cons hne⟩)
      exact (ih.declare hw₂ hi h).after hkeeps₁

include hhosts in
theorem apply_succ (ih : ScopedWith hosts trusted live convention fuel) {f : Value}
    (hw : WellScoped trusted live w.store.scene) (hf : Scoped trusted live w.store.scene f)
    (hvs : ∀ v ∈ vs, Scoped trusted live w.store.scene v)
    (h : Direct.apply hosts convention (fuel + 1) f vs w = some out) :
    Ends trusted live (Scoped trusted live) w.store.scene out := by
  cases f with
  | int n | str s | bool b =>
    cases h
    exact fun _ => nofun
  | closure lambda j =>
    obtain ⟨hkeeps, hw₁, hi⟩ := wellScoped_enter hw hf.2 lambda.params hvs lambda.body.free
      fun x hx hne => List.mem_filter.mpr ⟨hx, decide_eq_true hne⟩
    exact (ih.evaluate hw₁ hi h).after hkeeps
  | host name id =>
    obtain ⟨hfrugal, hreticent⟩ := hhosts id hf
    cases convention with
    | implicit => exact ends_host hfrugal hreticent hw hvs (Option.some.inj h)
    | explicit =>
      cases vs with
      | nil => exact ends_host hfrugal hreticent hw hvs (Option.some.inj h)
      | cons continuation args =>
        -- The continuation is applied to the result in the store that the host function has left.
        obtain ⟨hk, hargs⟩ := List.forall_mem_cons.mp hvs
        rw [Direct.apply] at h
        cases hr : hosts id args w with
        | mk r w₁ =>
          have hhost := ends_host hfrugal hreticent hw hargs hr
          rw [hr] at h
          cases r with
          | error e =>
            cases h
            exact hhost
          | ok v =>
            obtain ⟨hkeeps, hw₁, hv⟩ := hhost
            have hk := hw.scoped_keeps hkeeps hk
            exact (ih.apply hw₁ hk (List.forall_mem_singleton.mpr hv) h).after hkeeps

theorem evaluate_succ (ih : ScopedWith hosts trusted live convention fuel) {t : Code}
    (hw : WellScoped trusted live w.store.scene) (hi : w.store.scene.Covers live i t.free)
    (h : Direct.evaluate hosts convention (fuel + 1) t i w = some out) :
    Ends trusted live (Scoped trusted live) w.store.scene out := by
  cases t with
  | int n | str s | bool b =>
    cases h
    exact ⟨.refl _, hw, trivial⟩
  | var x =>
    cases h
    obtain ⟨v, hv, hscoped⟩ := hw.lookup hi (List.mem_singleton.mpr rfl)
    rw [Store.scene_lookup] at hv
    rw [Store.get, hv]
    exact ⟨.refl _, hw, hscoped⟩
  | assign target t =>
    cases target with
    | var x =>
      refine ends_bind h (fun _ => ih.evaluate hw (hi.mono fun y => List.mem_append_right _))
        (fun _ _ => rfl) fun v w₁ hkeeps hw₁ hv h => ?_
      cases h
      exact ends_assign hw₁ (hw.covers_keeps hkeeps hi) List.mem_cons_self hv
    | _ =>
      cases h
      intro x hx
      cases hx
  | binary op left right =>
    refine ends_bind h (fun _ => ih.evaluate hw (hi.mono fun y => List.mem_append_left _))
      (fun _ _ => rfl) fun a w₁ hkeeps hw₁ ha h => ?_
    have hi := hw.covers_keeps hkeeps (hi.mono fun y => List.mem_append_right _)
    refine ends_bind h (fun _ => ih.evaluate hw₁ hi) (fun _ _ => rfl)
      fun b w₂ hkeeps₁ hw₂ hb h => ?_
    cases h
    have hop := Value.operated_operateSymbol op a b
    generalize Value.operateSymbol op a b = r at hop
    cases r with
    | error e => exact hop
    | ok v =>
      refine ⟨.refl _, hw₂, ?_⟩
      rcases hop with hv | rfl | rfl
      · exact hv.plain.admitted
      · exact hw₁.scoped_keeps hkeeps₁ ha
      · exact hb
  | negate t =>
    refine ends_bind h (fun _ => ih.evaluate hw hi) (fun _ _ => rfl) fun v w₁ hkeeps hw₁ hv h => ?_
    cases h
    exact ⟨.refl _, hw₁, trivial⟩
  | seq items => exact ih.sequence hw (scoped_absent _) hi h
  | call callee args =>
    refine ends_bind h (fun _ => ih.evaluate hw (hi.mono fun y => List.mem_append_left _))
      (fun _ _ => rfl) fun f w₁ hkeeps hw₁ hf h => ?_
    have hi := hw.covers_keeps hkeeps (hi.mono fun y => List.mem_append_right _)
    refine ends_bind h (fun _ => ih.arguments hw₁ hi) (fun _ _ => rfl)
      fun vs w₂ hkeeps₁ hw₂ hvs h => ?_
    exact ih.apply hw₂ (hw₁.scoped_keeps hkeeps₁ hf) hvs h
  | function label name? params body =>
    cases h
    refine ends_close hw (hi.mono fun x hx => ?_)
    simpa [Lambda.needs, Term.mem_free_function, and_assoc, and_comm] using hx
  | conditional test consequent alternative? =>
    have htest : w.store.scene.Covers live i test.free :=
      hi.mono fun y hy => Term.mem_free_conditional.mpr (.inl hy)
    refine ends_bind h (fun _ => ih.evaluate hw htest) (fun _ _ => rfl)
      fun v w₁ hkeeps hw₁ _ h => ?_
    have hi := hw.covers_keeps hkeeps hi
    dsimp only at h
    by_cases hv : v.isTruthy = true
    · rw [if_pos hv] at h
      refine ih.evaluate hw₁ (hi.mono fun y hy => ?_) h
      exact Term.mem_free_conditional.mpr (.inr (.inl hy))
    · rw [if_neg hv] at h
      cases alternative? with
      | none =>
        cases h
        exact ⟨.refl _, hw₁, trivial⟩
      | some alternative =>
        refine ih.evaluate hw₁ (hi.mono fun y hy => ?_) h
        exact Term.mem_free_conditional.mpr (.inr (.inr ⟨alternative, rfl, hy⟩))
  | declare bindings body => exact ih.declare hw hi h

include hhosts in
theorem all (fuel : Nat) : ScopedWith hosts trusted live convention fuel := by
  induction fuel with
  | zero =>
    exact ⟨fun _ _ h => (by cases h), fun _ _ _ h => (by cases h), fun _ _ h => (by cases h),
      fun _ _ h => (by cases h), fun _ _ _ h => (by cases h)⟩
  | succ fuel ih =>
    exact ⟨ih.evaluate_succ, ih.sequence_succ, ih.arguments_succ, ih.declare_succ,
      ih.apply_succ hhosts⟩

end ScopedWith

end Direct

/-! ### Runs -/

/-- **No run comes upon a name that is not bound**, if the free variables of the program can be seen
from the frame of its run: whatever convention and depth there are, and however long it takes. The
frames hold data and host functions only, and these bring in no functions of the language and report
no names. -/
theorem Machine.run_ne_undefinedVariable {world : World} {env : FrameId} {code : Code}
    (hbare : Bare hosts live trusted world.store.scene env)
    (hreticent : ∀ id, trusted id → (hosts id).Reticent)
    (hfree : ∀ x ∈ code.free, world.store.scene.InScope env x) (convention : Convention)
    (maxDepth fuel : Nat) {result : Except EvalError Value} {ended : Ended}
    (h : (Machine.new maxDepth convention).run hosts fuel world code env = some (result, ended))
    (x : Name) : result ≠ .error (.undefinedVariable x) := by
  rintro rfl
  have hrun : ∃ fuel ended', (Machine.new maxDepth convention).run hosts fuel world code env =
      some (.error (.undefinedVariable x), ended') ∧ ended'.world = ended.world :=
    ⟨fuel, ended, h, rfl⟩
  cases hcheck : code.check with
  | error fault =>
    obtain ⟨hresult, -⟩ := (Machine.run_iff_malformed maxDepth hcheck).mp hrun
    cases hresult
  | ok _ =>
    obtain ⟨fuel, h⟩ := (Machine.run_iff_evaluate maxDepth hcheck).mp hrun
    have hhosts (id : Nat) (hid : trusted id) := And.intro (hbare.frugal id hid) (hreticent id hid)
    have hends := (Direct.ScopedWith.all hhosts fuel).evaluate (hbare.holding _)
      ⟨hbare.inside, hbare.lt, hfree⟩ h
    exact hends x rfl

/-- A function that binds a global name, assigns to its own name and then calls what that stands
for. It is given to `a`, and called under the name `b` after the two have been exchanged. -/
def selfEffacing : Code :=
  .seq [
    .assign (.var "a") (.function 0 (some "f") []
      (.seq [.call (.var "keep") [.assign (.var "f") (.int 1)], .call (.var "f") []])),
    .call (.var "swap") [], .call (.var "b") []]

theorem Machine.run_ne_undefinedVariable_selfEffacing :
    Bare housekeeping.host (housekeeping.world.store.scene.Domain Interpreter.globals)
      (fun _ => True) housekeeping.world.store.scene Interpreter.globals ∧
    (∀ id, (housekeeping.host id).Reticent) ∧
    (∀ x ∈ selfEffacing.free, housekeeping.world.store.scene.InScope Interpreter.globals x) ∧
    ∃ ended, (Machine.new 2 .implicit).run housekeeping.host 50 housekeeping.world selfEffacing
      Interpreter.globals = some (.error (.cannotEvaluate "1"), ended) ∧
      ∀ x, (.error (.cannotEvaluate "1") : Except EvalError Value) ≠
        .error (.undefinedVariable x) := by
  have hreticent : ∀ id, (housekeeping.host id).Reticent := by
    refine host_housekeeping (fun write => ?_) ?_ ?_
    all_goals exact HostFunction.reticent_of_ok fun args w => ⟨_, rfl⟩
  have hfree : ∀ x ∈ selfEffacing.free,
      housekeeping.world.store.scene.InScope Interpreter.globals x := by
    have hbound : ∀ x ∈ selfEffacing.free,
        (housekeeping.world.store.scene.slot Interpreter.globals x).isSome := by decide +kernel
    exact fun x hx => ⟨Interpreter.globals, List.mem_cons_self, hbound x hx⟩
  refine ⟨bare_housekeeping, hreticent, hfree, _, rfl, ?_⟩
  exact Machine.run_ne_undefinedVariable bare_housekeeping (fun id _ => hreticent id) hfree
    .implicit 2 50 rfl

/-- Has `a` bound by the host function `plant`, and calls it. -/
def trusting : Code := .seq [.call (.var "plant") [], .call (.var "a") []]

/-- A function that reads a name which is bound nowhere. -/
def astray : Value := .closure ⟨0, none, [], .var "missing"⟩ Interpreter.globals

/-- **It does not suffice that host functions return data only**: one that leaves a function of its
own in the global frame can make a run come upon a name that is not bound, though all free variables
of the program are. -/
theorem Machine.undefinedVariable_planted :
    (planting astray).Harmless ∧
    (∀ x ∈ trusting.free,
      ((planting astray).world.store.scene.slot Interpreter.globals x).isSome) ∧
    ∃ ended, (Machine.new 2 .implicit).run (planting astray).host 50 (planting astray).world trusting
      Interpreter.globals = some (.error (.undefinedVariable "missing"), ended) :=
  ⟨harmless_planting astray, by decide +kernel, _, rfl⟩

end LetLambda
