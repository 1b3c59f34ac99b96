import LetLambda.Proofs.Custody

/-!
# A run does what its code says

Whatever happens in a run is the doing of some part of the code that it comes by. The code of a run
is the term that it was begun with and the bodies of the functions that can be come by from the
frame in which it was begun (`ReachesValue`); a run makes functions of no other code. So a name gets
another value only if some part of this code assigns to it, and an operator is unknown only if some
part of this code holds it.

A realm says which parts of code, which frames and which host functions a run may come by. What a
run keeps up is that it does not leave its realm (`Realm.Confined`), and that the frames that were
there before stand where they stood and bind the names that they bound (`Store.Keeps`). Both hold
however the run ends. Frames that cannot be come by may hold anything.
-/

namespace LetLambda

open Direct (Outcome)

/-! ### Frames that are kept -/

/-- Nothing has happened to a frame, but that names of `assigned` may have got other values. -/
structure Frame.Keeps (frame : Frame) (assigned : Name → Prop) (frame' : Frame) : Prop where
  outer : frame'.outer = frame.outer
  names : frame'.names = frame.names
  slot : ∀ x, frame'.slot? x = frame.slot? x ∨ assigned x

namespace Frame

variable {frame frame' frame'' : Frame} {assigned : Name → Prop} {x : Name} {slot : Slot}

theorem Keeps.refl (frame : Frame) : frame.Keeps assigned frame := ⟨rfl, rfl, fun _ => .inl rfl⟩

theorem Keeps.trans (h : frame.Keeps assigned frame') (h' : frame'.Keeps assigned frame'') :
    frame.Keeps assigned frame'' := by
  refine ⟨h'.outer.trans h.outer, h'.names.trans h.names, fun x => ?_⟩
  rcases h'.slot x with hx' | hx'
  · exact (h.slot x).imp hx'.trans id
  · exact .inr hx'

theorem map_fst_insert {slots : List (Name × Slot)} (h : (slots.lookup x).isSome) :
    (insert x slot slots).map (·.1) = slots.map (·.1) := by
  induction slots with
  | nil => cases h
  | cons entry rest ih =>
    obtain ⟨y, old⟩ := entry
    by_cases hy : y = x
    · simp [insert, hy]
    · have hx : (x == y) = false := beq_eq_false_iff_ne.mpr (Ne.symm hy)
      simp only [List.lookup_cons, hx] at h
      simp [insert, hy, ih h]

/-- Assigning to a name that is bound adds no name. -/
theorem keeps_bind (hx : (frame.slot? x).isSome) (ha : assigned x) :
    frame.Keeps assigned (frame.bind x slot) := by
  refine ⟨rfl, map_fst_insert hx, fun y => ?_⟩
  by_cases hy : y = x
  · exact .inr (hy ▸ ha)
  · left
    simp [slot?, bind, lookup_insert, hy]

end Frame

/-- All frames are still there, and nothing has happened to them, but that names of `assigned` may
have got other values. -/
def Store.Keeps (s : Store) (assigned : Name → Prop) (s' : Store) : Prop :=
  ∀ (f : FrameId) (frame : Frame), s.frames[f]? = some frame →
    ∃ frame', s'.frames[f]? = some frame' ∧ frame.Keeps assigned frame'

namespace Store

variable {s s' s'' : Store} {assigned : Name → Prop} {f : FrameId} {x : Name}

theorem Keeps.refl (s : Store) : s.Keeps assigned s := fun _ frame h => ⟨frame, h, .refl frame⟩

theorem Keeps.trans (h : s.Keeps assigned s') (h' : s'.Keeps assigned s'') :
    s.Keeps assigned s'' := by
  intro f frame hf
  obtain ⟨frame', hf', hk⟩ := h f frame hf
  obtain ⟨frame'', hf'', hk'⟩ := h' f frame' hf'
  exact ⟨frame'', hf'', hk.trans hk'⟩

theorem keeps_extend (s : Store) (f : FrameId) : s.Keeps assigned (s.extend f).2 := by
  intro g frame hg
  have hlt : g < s.frames.size := (Array.getElem?_eq_some_iff.mp hg).1
  refine ⟨frame, (Array.getElem?_push_lt hlt).trans ?_, .refl frame⟩
  rw [← hg, Array.getElem?_eq_getElem hlt]

/-- Nobody is disturbed by what is bound in a frame that has come in since. -/
theorem Keeps.fill (h : s.Keeps assigned s') (hf : s.frames.size ≤ f) (x : Name) (slot : Slot) :
    s.Keeps assigned (s'.fill f x slot) := by
  intro g frame hg
  have hne : f ≠ g := Nat.ne_of_gt (Nat.lt_of_lt_of_le (Array.getElem?_eq_some_iff.mp hg).1 hf)
  obtain ⟨frame', hg', hk⟩ := h g frame hg
  refine ⟨frame', ?_, hk⟩
  rw [← hg', Store.fill, Array.getElem?_modify, if_neg hne]

theorem Keeps.defineAll (h : s.Keeps assigned s') (hf : s.frames.size ≤ f) (xs : List Name)
    (vs : List Value) : s.Keeps assigned (s'.defineAll f xs vs) := by
  induction xs generalizing s' vs with
  | nil => exact h
  | cons x xs ih =>
    cases vs with
    | nil => exact ih (h.fill hf x _) []
    | cons v vs => exact ih (h.fill hf x _) vs

theorem Keeps.defineSelf (h : s.Keeps assigned s') (hf : s.frames.size ≤ f) (lambda : Lambda) :
    s.Keeps assigned (s'.defineSelf f lambda) := by
  unfold Store.defineSelf
  cases lambda.name? with
  | none => exact h
  | some x => exact h.fill hf x _

/-- An assignment is made where the name is bound already. -/
theorem keeps_define (h : (s.slot? f x).isSome) (ha : assigned x) (v : Value) :
    s.Keeps assigned (s.define f x v) := by
  intro g frame hg
  by_cases hfg : f = g
  · subst hfg
    refine ⟨frame.bind x (.value v), ?_, Frame.keeps_bind ?_ ha⟩
    · rw [define, fill, Array.getElem?_modify, if_pos rfl, hg]
      rfl
    · simpa [slot?, hg] using h
  · refine ⟨frame, ?_, .refl frame⟩
    rw [define, fill, Array.getElem?_modify, if_neg hfg, hg]

end Store

/-! ### Realms -/

/-- What a run may come by. -/
structure Realm where
  /-- The parts of code. -/
  part : Tree → Prop
  /-- The frames. -/
  live : FrameId → Prop
  /-- The host functions, by their numbers. -/
  host : Nat → Prop

namespace Realm

section

variable (R : Realm) (hosts : Hosts)

/-- A value that can be come by. A function of the language stands in a frame of the realm, and its
body is code of the realm. -/
def Holds : Value → Prop
  | .int _ | .str _ | .bool _ => True
  | .closure lambda f => R.live f ∧ Throughout R.part lambda.body.erase
  | .host _ id => R.host id

/-- Some part of the code assigns to a name. -/
def Assigned (x : Name) : Prop := ∃ s, R.part s ∧ s.assigned? = some x

/-- Nothing that is bound in a frame of the realm leads out of it. -/
structure Confined (V : Scene) : Prop where
  fresh : ∀ f, V.size ≤ f → R.live f
  chain : ∀ f, R.live f → ∀ g ∈ V.chain f, R.live g
  slots : ∀ f x v, R.live f → V.slot f x = some v → R.Holds v

/-- The host functions of the realm leave the frames alone, and what they give does not lead out of
the realm. -/
structure Hosted : Prop where
  store : ∀ id, R.host id → ∀ args w, (hosts id args w).2.store = w.store
  value : ∀ id, R.host id → ∀ args w v, (hosts id args w).1 = .ok v → v ∈ args ∨ R.Holds v

/-- What an error is owed to: a host function, or a part of the code that has an unknown operator or
assigns to something that is no variable. Evaluation finds no term malformed. -/
def Blames (e : EvalError) : Prop :=
  (∃ id args w, R.host id ∧ (hosts id args w).1 = .error e) ∨ match e with
    | .unknownOperator op =>
      BinaryOp.ofSymbol? op = none ∧ ∃ left right, R.part (.binary op left right)
    | .expectedVariable _ => ∃ s, R.part s ∧ s.isAssignment = true ∧ s.assigned? = none
    | .malformed _ => False
    | _ => True

/-- A part of a run that began with the store `s` has not left the realm. -/
def Within {α : Type} (P : α → Prop) (s : Store) : Outcome α → Prop
  | (.ok a, w) => s.Keeps R.Assigned w.store ∧ R.Confined w.store.scene ∧ P a
  | (.error e, w) => s.Keeps R.Assigned w.store ∧ R.Blames hosts e

end

variable {R : Realm} {hosts : Hosts} {V : Scene} {f i : FrameId} {x : Name} {v : Value}
  {vs : List Value}

theorem holds_of_isData (h : v.IsData) : R.Holds v := by
  cases v with
  | int n | str s | bool b => trivial
  | closure lambda f => cases h
  | host name id => cases h

namespace Confined

theorem holding (hV : R.Confined V) : V.Holding R.Holds R.live := ⟨hV.fresh, hV.chain, hV.slots⟩

theorem of_holding (hV : V.Holding R.Holds R.live) : R.Confined V := ⟨hV.fresh, hV.chain, hV.slots⟩

theorem set (hV : R.Confined V) (hv : R.Holds v) : R.Confined (V.set f x v) :=
  of_holding (hV.holding.set hv)

theorem setAll (hV : R.Confined V) (xs : List Name) (hvs : ∀ v ∈ vs, R.Holds v) :
    R.Confined (V.setAll f xs vs) := of_holding (hV.holding.setAll xs trivial hvs)

theorem push (hV : R.Confined V) (hi : R.live i) : R.Confined (V.push i) :=
  of_holding (hV.holding.push hi)

end Confined

/-! ### Parts of a run -/

section

variable {α β : Type} {P : α → Prop} {Q : β → Prop} {s s' : Store}

theorem Within.after {out : Outcome α} (h : R.Within hosts P s' out)
    (hk : s.Keeps R.Assigned s') : R.Within hosts P s out := by
  obtain ⟨result, w⟩ := out
  cases result with
  | error e => exact ⟨hk.trans h.1, h.2⟩
  | ok a => exact ⟨hk.trans h.1, h.2⟩

/-- One part after another, where an error of the first is the result of both. -/
theorem within_bind {x : Option (Outcome α)} {f : Outcome α → Option (Outcome β)}
    {out : Outcome β} (h : x.bind f = some out)
    (hx : ∀ out, x = some out → R.Within hosts P s out)
    (herror : ∀ e w, f (.error e, w) = some (.error e, w))
    (hok : ∀ a w, R.Confined w.store.scene → P a → f (.ok a, w) = some out →
      R.Within hosts Q w.store out) :
    R.Within hosts Q s out := by
  rcases Direct.bind_cases h herror with ⟨e, w, hw, rfl⟩ | ⟨a, w, hw, h⟩
  · exact hx _ hw
  · obtain ⟨hk, hconfined, ha⟩ := hx _ hw
    exact (hok a w hconfined ha h).after hk

end

end Realm

/-- The errors of arithmetic. -/
def EvalError.isArithmetic : EvalError → Bool
  | notANumber _ | zeroDivision | integerOverflow _ => true
  | _ => false

namespace Value

variable {a b : Value} {e : EvalError}

theorem isArithmetic_of_ofResult {operation : Arithmetic} {n : Int}
    (h : ofResult operation n = .error e) : e.isArithmetic = true := by
  unfold ofResult at h
  cases hn : Numeral.word? n with
  | none =>
    rw [hn] at h
    cases h
    rfl
  | some word =>
    rw [hn] at h
    cases h

theorem isArithmetic_of_onInts {f : Int → Int → Except EvalError Value}
    (hf : ∀ m n, f m n = .error e → e.isArithmetic = true) (h : onInts a b f = .error e) :
    e.isArithmetic = true := by
  cases a with
  | int m =>
    cases b with
    | int n => exact hf m.toInt n.toInt h
    | _ =>
      cases h
      rfl
  | _ =>
    cases h
    rfl

/-- An operator that is known fails for arithmetical reasons only. -/
theorem isArithmetic_of_operate {op : BinaryOp} (h : operate op a b = .error e) :
    e.isArithmetic = true := by
  cases op with
  | and | or | eq | ne => cases h
  | lt | le | gt | ge => exact isArithmetic_of_onInts (fun _ _ hn => by cases hn) h
  | add | sub | mul => exact isArithmetic_of_onInts (fun _ _ => isArithmetic_of_ofResult) h
  | div =>
    refine isArithmetic_of_onInts (fun m n hn => ?_) h
    by_cases hzero : n = 0
    · rw [if_pos hzero] at hn
      cases hn
      rfl
    · rw [if_neg hzero] at hn
      exact isArithmetic_of_ofResult hn
  | mod =>
    refine isArithmetic_of_onInts (fun m n hn => ?_) h
    by_cases hzero : n = 0
    · rw [if_pos hzero] at hn
      cases hn
      rfl
    · rw [if_neg hzero] at hn
      cases hq : ofResult .remainder (m.tdiv n) with
      | error e' =>
        rw [hq] at hn
        cases hn
        exact isArithmetic_of_ofResult hq
      | ok q =>
        rw [hq] at hn
        exact isArithmetic_of_ofResult hn

end Value

/-- An assignment is to a name if its target is a variable. -/
theorem Term.assigned?_erase {ι : Type} (target value : Term ι) :
    (assign target value).erase.assigned? = target.asVariable? := by
  cases target with
  | conditional test consequent alternative? => cases alternative? <;> rfl
  | _ => rfl

theorem throughout_conditional {ι : Type} {p : Tree → Prop} {test consequent : Term ι}
    {alternative? : Option (Term ι)}
    (h : Throughout p (Term.conditional test consequent alternative?).erase) :
    Throughout p test.erase ∧ Throughout p consequent.erase ∧
      ∀ alternative, alternative? = some alternative → Throughout p alternative.erase := by
  cases alternative? with
  | none => exact ⟨h.conditional.1, h.conditional.2.1, nofun⟩
  | some alternative =>
    refine ⟨h.conditional.1, h.conditional.2.1, ?_⟩
    rintro _ ⟨⟩
    exact h.conditional.2.2 _ rfl

namespace Direct

variable {R : Realm} {hosts : Hosts} {convention : Convention} {w : World} {i : FrameId} {x : Name}
  {v : Value} {vs : List Value}

theorem within_ok {α : Type} {P : α → Prop} {a : α} (hw : R.Confined w.store.scene) (ha : P a) :
    R.Within hosts P w.store (.ok a, w) := ⟨.refl _, hw, ha⟩

theorem within_error {α : Type} {P : α → Prop} {e : EvalError} (he : R.Blames hosts e) :
    R.Within hosts P w.store (.error e, w) := ⟨.refl _, he⟩

theorem within_assign (hw : R.Confined w.store.scene) (hx : R.Assigned x) (hv : R.Holds v) :
    R.Within hosts R.Holds w.store (assign w i x v) := by
  unfold assign Store.set?
  cases hg : w.store.resolve? i x with
  | none => exact within_error (.inr trivial)
  | some g =>
    rw [← Store.scene_resolve] at hg
    have hbound := Scene.isSome_of_resolve hg
    refine ⟨Store.keeps_define ?_ hx v, ?_, hv⟩
    · simpa [Store.scene_slot] using hbound
    · dsimp only
      rw [Store.scene_define (Store.lt_of_isSome_slot hbound)]
      exact hw.set hv

/-- Entering a frame that binds parameters. -/
theorem confined_enter (hw : R.Confined w.store.scene) (hi : R.live i) (xs : List Name)
    (hvs : ∀ v ∈ vs, R.Holds v) :
    let entered := enter w i fun store frame => store.defineAll frame xs vs
    w.store.Keeps R.Assigned entered.2.store ∧ R.Confined entered.2.store.scene ∧
      R.live entered.1 := by
  intro entered
  refine ⟨(w.store.keeps_extend i).defineAll (Nat.le_refl _) xs vs, ?_, hw.fresh _ (Nat.le_refl _)⟩
  rw [show entered.2.store.scene = _ from enter_defineAll xs vs]
  exact (hw.push hi).setAll xs hvs

theorem within_close (hw : R.Confined w.store.scene) (hi : R.live i) {lambda : Lambda}
    (hbody : Throughout R.part lambda.body.erase) :
    R.Within hosts R.Holds w.store (.ok (close w lambda i).1, (close w lambda i).2) := by
  unfold close
  cases hname : lambda.name? with
  | none => exact within_ok hw ⟨hi, hbody⟩
  | some y =>
    have hnew : R.live w.store.scene.size := hw.fresh _ (Nat.le_refl _)
    refine ⟨(w.store.keeps_extend i).defineSelf (Nat.le_refl _) lambda, ?_, hnew, hbody⟩
    dsimp only
    rw [enter_defineSelf hname]
    exact (hw.push hi).set ⟨hnew, hbody⟩

theorem within_host (hhosts : R.Hosted hosts) {id : Nat} (hid : R.host id)
    (hw : R.Confined w.store.scene) (hvs : ∀ v ∈ vs, R.Holds v) {out : Outcome Value}
    (h : hosts id vs w = out) : R.Within hosts R.Holds w.store out := by
  obtain ⟨r, w'⟩ := out
  have hstore : w'.store = w.store := by
    rw [← hhosts.store id hid vs w, h]
  cases r with
  | error e =>
    refine ⟨?_, .inl ⟨id, vs, w, hid, by rw [h]⟩⟩
    rw [hstore]
    exact .refl _
  | ok v =>
    have hv : R.Holds v := by
      rcases hhosts.value id hid vs w v (by rw [h]) with hmem | hv
      · exact hvs v hmem
      · exact hv
    refine ⟨?_, ?_, hv⟩
    · rw [hstore]
      exact .refl _
    · rw [hstore]
      exact hw

variable (R hosts convention) in
/-- With this much fuel, what begins in the realm stays in it. -/
structure ConfinedWith (fuel : Nat) : Prop where
  evaluate : ∀ {t i w out}, R.Confined w.store.scene → R.live i → Throughout R.part t.erase →
    evaluate hosts convention fuel t i w = some out → R.Within hosts R.Holds w.store out
  sequence : ∀ {ts last i w out}, R.Confined w.store.scene → R.Holds last → R.live i →
    (∀ t ∈ ts, Throughout R.part t.erase) →
    sequence hosts convention fuel ts last i w = some out → R.Within hosts R.Holds w.store out
  arguments : ∀ {ts i w out}, R.Confined w.store.scene → R.live i →
    (∀ t ∈ ts, Throughout R.part t.erase) → arguments hosts convention fuel ts i w = some out →
    R.Within hosts (fun vs => ∀ v ∈ vs, R.Holds v) w.store out
  declare : ∀ {bs body i w out}, R.Confined w.store.scene → R.live i →
    (∀ s ∈ Term.partsBindings true (Term.eraseBindings bs), R.part s) →
    Throughout R.part body.erase → declare hosts convention fuel bs body i w = some out →
    R.Within hosts R.Holds w.store out
  apply : ∀ {f vs w out}, R.Confined w.store.scene → R.Holds f → (∀ v ∈ vs, R.Holds v) →
    apply hosts convention fuel f vs w = some out → R.Within hosts R.Holds w.store out

namespace ConfinedWith

variable {fuel : Nat} {out : Outcome Value}

theorem sequence_succ (ih : ConfinedWith R hosts convention fuel) {ts : List Code} {last : Value}
    (hw : R.Confined w.store.scene) (hlast : R.Holds last) (hi : R.live i)
    (hts : ∀ t ∈ ts, Throughout R.part t.erase)
    (h : Direct.sequence hosts convention (fuel + 1) ts last i w = some out) :
    R.Within hosts R.Holds w.store out := by
  cases ts with
  | nil =>
    cases h
    exact within_ok hw hlast
  | cons t ts =>
    obtain ⟨ht, hts⟩ := List.forall_mem_cons.mp hts
    refine Realm.within_bind h (fun _ => ih.evaluate hw hi ht) (fun _ _ => rfl)
      fun v w₁ hw₁ hv h => ?_
    exact ih.sequence hw₁ hv hi hts h

theorem arguments_succ (ih : ConfinedWith R hosts convention fuel) {ts : List Code}
    {out : Outcome (List Value)} (hw : R.Confined w.store.scene) (hi : R.live i)
    (hts : ∀ t ∈ ts, Throughout R.part t.erase)
    (h : Direct.arguments hosts convention (fuel + 1) ts i w = some out) :
    R.Within hosts (fun vs => ∀ v ∈ vs, R.Holds v) w.store out := by
  cases ts with
  | nil =>
    cases h
    exact within_ok hw (List.forall_mem_nil _)
  | cons t ts =>
    obtain ⟨ht, hts⟩ := List.forall_mem_cons.mp hts
    refine Realm.within_bind h (fun _ => ih.evaluate hw hi ht) (fun _ _ => rfl)
      fun v w₁ hw₁ hv h => ?_
    refine Realm.within_bind h (fun _ => ih.arguments hw₁ hi hts) (fun _ _ => rfl)
      fun vs w₂ hw₂ hvs h => ?_
    cases h
    exact within_ok hw₂ (List.forall_mem_cons.mpr ⟨hv, hvs⟩)

theorem declare_succ (ih : ConfinedWith R hosts convention fuel) {bs : List (Binding Code)}
    {body : Code} (hw : R.Confined w.store.scene) (hi : R.live i)
    (hbs : ∀ s ∈ Term.partsBindings true (Term.eraseBindings bs), R.part s)
    (hbody : Throughout R.part body.erase)
    (h : Direct.declare hosts convention (fuel + 1) bs body i w = some out) :
    R.Within hosts R.Holds w.store out := by
  cases bs with
  | nil => exact ih.evaluate hw hi hbody h
  | cons b bs =>
    obtain ⟨x, d?⟩ := b
    cases d? with
    | none =>
      have habsent : R.Holds .absent := trivial
      have hbs : ∀ s ∈ Term.partsBindings true (Term.eraseBindings bs), R.part s := hbs
      obtain ⟨hk, hw₁, hi₁⟩ := confined_enter hw hi [x] (List.forall_mem_singleton.mpr habsent)
      exact (ih.declare hw₁ hi₁ hbs hbody h).after hk
    | some d =>
      obtain ⟨hd, hbs⟩ := List.forall_mem_append.mp hbs
      refine Realm.within_bind h (fun _ => ih.evaluate hw hi hd) (fun _ _ => rfl)
        fun v w₁ hw₁ hv h => ?_
      obtain ⟨hk, hw₂, hi₂⟩ := confined_enter hw₁ hi [x] (List.forall_mem_singleton.mpr hv)
      exact (ih.declare hw₂ hi₂ hbs hbody h).after hk

theorem apply_succ (hhosts : R.Hosted hosts) (ih : ConfinedWith R hosts convention fuel) {f : Value}
    (hw : R.Confined w.store.scene) (hf : R.Holds f) (hvs : ∀ v ∈ vs, R.Holds v)
    (h : Direct.apply hosts convention (fuel + 1) f vs w = some out) :
    R.Within hosts R.Holds w.store out := by
  cases f with
  | int n | str s | bool b =>
    cases h
    exact within_error (.inr trivial)
  | closure lambda j =>
    obtain ⟨hk, hw₁, hi⟩ := confined_enter hw hf.1 lambda.params hvs
    exact (ih.evaluate hw₁ hi hf.2 h).after hk
  | host name id =>
    cases convention with
    | implicit => exact within_host hhosts hf hw hvs (Option.some.inj h)
    | explicit =>
      cases vs with
      | nil => exact within_host hhosts hf hw hvs (Option.some.inj h)
      | cons continuation args =>
        obtain ⟨hcontinuation, hargs⟩ := List.forall_mem_cons.mp hvs
        rw [Direct.apply] at h
        cases hr : hosts id args w with
        | mk r w₁ =>
          have hhost := within_host hhosts hf hw hargs hr
          rw [hr] at h
          cases r with
          | error e =>
            cases h
            exact hhost
          | ok v =>
            obtain ⟨hk, hw₁, hv⟩ := hhost
            exact (ih.apply hw₁ hcontinuation (List.forall_mem_singleton.mpr hv) h).after hk

/-- What an operator makes of values of the realm. -/
theorem within_operate {op : String} {left right : Tree} {a b : Value}
    (hpart : R.part (.binary op left right)) (hw : R.Confined w.store.scene) (ha : R.Holds a)
    (hb : R.Holds b) : R.Within hosts R.Holds w.store (Value.operateSymbol op a b, w) := by
  cases hr : Value.operateSymbol op a b with
  | ok v =>
    have hop := Value.operated_operateSymbol op a b
    rw [hr] at hop
    rcases hop with hdata | rfl | rfl
    · exact within_ok hw (Realm.holds_of_isData hdata)
    · exact within_ok hw ha
    · exact within_ok hw hb
  | error e =>
    refine within_error (.inr ?_)
    unfold Value.operateSymbol at hr
    cases hop : BinaryOp.ofSymbol? op with
    | none =>
      rw [hop] at hr
      cases hr
      exact ⟨hop, left, right, hpart⟩
    | some known =>
      rw [hop] at hr
      have he := Value.isArithmetic_of_operate hr
      cases e with
      | notANumber _ | zeroDivision | integerOverflow _ => trivial
      | _ => cases he

theorem evaluate_succ (ih : ConfinedWith R hosts convention fuel) {t : Code}
    (hw : R.Confined w.store.scene) (hi : R.live i) (ht : Throughout R.part t.erase)
    (h : Direct.evaluate hosts convention (fuel + 1) t i w = some out) :
    R.Within hosts R.Holds w.store out := by
  cases t with
  | int n | str s | bool b =>
    cases h
    exact within_ok hw trivial
  | var x =>
    cases h
    unfold Store.get
    cases hx : w.store.lookup? i x with
    | none => exact within_error (.inr trivial)
    | some v => exact within_ok hw (hw.holding.lookup hi ((Store.scene_lookup _ _ _).trans hx))
  | assign target t =>
    cases target with
    | var x =>
      have hx : R.Assigned x := ⟨_, ht.self, rfl⟩
      refine Realm.within_bind h (fun _ => ih.evaluate hw hi ht.assign) (fun _ _ => rfl)
        fun v w₁ hw₁ hv h => ?_
      cases h
      exact within_assign hw₁ hx hv
    | _ =>
      cases h
      exact within_error (.inr ⟨_, ht.self, rfl, Term.assigned?_erase _ _⟩)
  | binary op left right =>
    refine Realm.within_bind h (fun _ => ih.evaluate hw hi ht.binary.1) (fun _ _ => rfl)
      fun a w₁ hw₁ ha h => ?_
    refine Realm.within_bind h (fun _ => ih.evaluate hw₁ hi ht.binary.2) (fun _ _ => rfl)
      fun b w₂ hw₂ hb h => ?_
    cases h
    exact within_operate ht.self hw₂ ha hb
  | negate t =>
    refine Realm.within_bind h (fun _ => ih.evaluate hw hi ht.negate) (fun _ _ => rfl)
      fun v w₁ hw₁ hv h => ?_
    cases h
    exact within_ok hw₁ trivial
  | seq items =>
    have habsent : R.Holds .absent := trivial
    have hparts := ht.seq
    rw [Term.eraseAll_eq_map, List.forall_mem_map] at hparts
    exact ih.sequence hw habsent hi hparts h
  | call callee args =>
    have hparts := ht.call
    rw [Term.eraseAll_eq_map, List.forall_mem_cons, List.forall_mem_map] at hparts
    refine Realm.within_bind h (fun _ => ih.evaluate hw hi hparts.1) (fun _ _ => rfl)
      fun f w₁ hw₁ hf h => ?_
    refine Realm.within_bind h (fun _ => ih.arguments hw₁ hi hparts.2) (fun _ _ => rfl)
      fun vs w₂ hw₂ hvs h => ?_
    exact ih.apply hw₂ hf hvs h
  | function label name? params body =>
    cases h
    exact within_close hw hi ht.function
  | conditional test consequent alternative? =>
    obtain ⟨htest, hconsequent, halternative⟩ := throughout_conditional ht
    refine Realm.within_bind h (fun _ => ih.evaluate hw hi htest) (fun _ _ => rfl)
      fun v w₁ hw₁ _ h => ?_
    dsimp only at h
    by_cases hv : v.isTruthy = true
    · rw [if_pos hv] at h
      exact ih.evaluate hw₁ hi hconsequent h
    · rw [if_neg hv] at h
      cases alternative? with
      | none =>
        cases h
        exact within_ok hw₁ trivial
      | some alternative => exact ih.evaluate hw₁ hi (halternative alternative rfl) h
  | declare bindings body =>
    refine ih.declare hw hi (fun s hs => ht s ?_) (fun s hs => ht s ?_) h
    · exact List.mem_cons_of_mem _ (List.mem_append_left _ hs)
    · exact List.mem_cons_of_mem _ (List.mem_append_right _ hs)

theorem all (hhosts : R.Hosted hosts) (fuel : Nat) : ConfinedWith R hosts convention fuel := by
  induction fuel with
  | zero =>
    exact ⟨fun _ _ _ h => (by cases h), fun _ _ _ _ h => (by cases h), fun _ _ _ h => (by cases h),
      fun _ _ _ _ h => (by cases h), fun _ _ _ h => (by cases h)⟩
  | succ fuel ih =>
    exact ⟨ih.evaluate_succ, ih.sequence_succ, ih.arguments_succ, ih.declare_succ,
      ih.apply_succ hhosts⟩

end ConfinedWith

end Direct

/-- A run that begins in a realm does not leave it, however it ends. -/
theorem Realm.within_of_finishes {R : Realm} {hosts : Hosts} (hhosts : R.Hosted hosts)
    {convention : Convention} {n : Nat} {code : Code} {env : FrameId} {world world' : World}
    {result : Except EvalError Value} (hworld : R.Confined world.store.scene) (henv : R.live env)
    (hcode : Throughout R.part code.erase)
    (h : (Task.start code env).Finishes hosts convention n world result world') :
    R.Within hosts R.Holds world.store (result, world') := by
  obtain ⟨fuel, h⟩ := start_finishes_iff.mp ⟨n, h⟩
  exact (Direct.ConfinedWith.all hhosts fuel).evaluate hworld henv hcode h

/-! ### What can be come by from a frame -/

section

variable (hosts : Hosts) (s : Store) (env : FrameId)

mutual

/-- A frame that can be come by from frame `env`. -/
inductive ReachesFrame : FrameId → Prop
  /-- The frame itself. -/
  | self : ReachesFrame env
  /-- A frame around one that can be come by. -/
  | outer {f g : FrameId} (h : ReachesFrame f) (hg : g ∈ s.outer f) : ReachesFrame g
  /-- The frame in which a function was made that can be come by. -/
  | closure {lambda : Lambda} {f : FrameId} (h : ReachesValue (.closure lambda f)) : ReachesFrame f

/-- A value that can be come by from frame `env`. -/
inductive ReachesValue : Value → Prop
  /-- What a name is bound to. -/
  | slot {f : FrameId} {x : Name} {slot : Slot} (h : ReachesFrame f)
      (hx : s.slot? f x = some slot) : ReachesValue (slot.read f)
  /-- What a host function hands out of its own accord. Data leads nowhere. -/
  | host {name : Name} {id : Nat} {args : List Value} {w : World} {v : Value}
      (h : ReachesValue (.host name id)) (hv : (hosts id args w).1 = .ok v) (hown : v ∉ args) :
      ReachesValue v

end

/-- The realm of a run of `code`. -/
def Realm.ofRun (code : Code) : Realm where
  part t := t ∈ code.erase.subterms ∨ ∃ lambda f,
    ReachesValue hosts s env (.closure lambda f) ∧ t ∈ lambda.body.erase.subterms
  live f := ReachesFrame hosts s env f ∨ s.frames.size ≤ f
  host id := ∃ name, ReachesValue hosts s env (.host name id)

end

/-- A host function that does not touch environments. -/
def HostFunction.LeavesFrames (host : HostFunction) : Prop :=
  ∀ args w, (host args w).2.store = w.store

section

variable {hosts : Hosts} {s : Store} {env : FrameId} {code : Code}

theorem ReachesValue.holds {v : Value} (h : ReachesValue hosts s env v) :
    (Realm.ofRun hosts s env code).Holds v := by
  cases v with
  | int n | str s | bool b => trivial
  | closure lambda f => exact ⟨.inl (.closure h), fun t ht => .inr ⟨lambda, f, h, ht⟩⟩
  | host name id => exact ⟨name, h⟩

theorem Realm.hosted_ofRun (hhosts : ∀ id, (hosts id).LeavesFrames) :
    (Realm.ofRun hosts s env code).Hosted hosts := by
  refine ⟨fun id _ => hhosts id, fun id hid args w v hv => ?_⟩
  obtain ⟨name, hname⟩ := hid
  by_cases hmem : v ∈ args
  · exact .inl hmem
  · exact .inr (ReachesValue.host hname hv hmem).holds

theorem Realm.confined_ofRun (hosts : Hosts) (s : Store) (env : FrameId) (code : Code) :
    (Realm.ofRun hosts s env code).Confined s.scene := by
  refine ⟨fun f hf => .inr hf, fun f hf g hg => ?_, fun f x v hf hv => ?_⟩
  · rcases hf with hf | hf
    · rcases List.mem_cons.mp hg with rfl | hg
      · exact .inl hf
      · exact .inl (.outer hf hg)
    · rw [Store.scene_chain_of_le hf, List.mem_singleton] at hg
      exact .inr (hg ▸ hf)
  · rcases hf with hf | hf
    · obtain ⟨slot, hx, rfl⟩ := Option.map_eq_some_iff.mp hv
      exact (ReachesValue.slot hf hx).holds
    · rw [Store.scene_blank s f x hf] at hv
      cases hv

end

/-- **Evaluation does not leak bindings.** However a run ends, every frame that was there before
stands inside the same frames and binds the same names; and one of these names is bound to something
else only if it is assigned to in the term, or in the body of a function that could be come by from
the frame in which the run began. -/
theorem Machine.execute_keeps_bindings {hosts : Hosts} (hhosts : ∀ id, (hosts id).LeavesFrames)
    (convention : Convention) (maxDepth : Nat) (final : Value → Except EvalError Unit) (fuel : Nat)
    {world : World} {code : Code} {env : FrameId} {ended : Ended}
    (h : (Machine.new maxDepth convention).execute hosts final fuel world code env = some ended)
    (f : FrameId) (frame : Frame) (hframe : world.store.frames[f]? = some frame) :
    ∃ frame', ended.world.store.frames[f]? = some frame' ∧ frame'.outer = frame.outer ∧
      frame'.names = frame.names ∧ ∀ x, frame'.slot? x ≠ frame.slot? x →
        x ∈ code.erase.mutated ∨ ∃ lambda i,
          ReachesValue hosts world.store env (.closure lambda i) ∧
            x ∈ lambda.body.erase.mutated := by
  have hkeeps : world.store.Keeps (Realm.ofRun hosts world.store env code).Assigned
      ended.world.store := by
    cases hcheck : code.check with
    | error fault =>
      rw [Machine.execute_of_malformed hcheck] at h
      cases h
      exact .refl _
    | ok _ =>
      obtain ⟨n, result, world', hn, rfl⟩ :=
        (Machine.execute_iff (Machine.new_idle maxDepth convention) hcheck).mp ⟨fuel, h⟩
      have hwithin := Realm.within_of_finishes (Realm.hosted_ofRun hhosts)
        (Realm.confined_ofRun hosts world.store env code) (.inl .self) (fun t ht => .inl ht) hn
      cases result with
      | ok v => exact hwithin.1
      | error e => exact hwithin.1
  obtain ⟨frame', hframe', hkept⟩ := hkeeps f frame hframe
  refine ⟨frame', hframe', hkept.outer, hkept.names, fun x hx => ?_⟩
  obtain ⟨t, ht, htx⟩ := (hkept.slot x).resolve_left hx
  rcases ht with ht | ⟨lambda, i, hreaches, ht⟩
  · exact .inl (List.mem_filterMap.mpr ⟨t, ht, htx⟩)
  · exact .inr ⟨lambda, i, hreaches, List.mem_filterMap.mpr ⟨t, ht, htx⟩⟩

/-- A world in which `total` cannot be seen from the global frame, but `add` assigns to it. -/
def ledger : World where
  store := ⟨#[
    ⟨[("println", .value (.host "println" 1)), ("rate", .value (.int 3)),
      ("add", .value (.closure ⟨9, none, ["n"],
        .assign (.var "total") (.binary "+" (.var "total") (.var "n"))⟩ 1))], []⟩,
    ⟨[("total", .value (.int 4))], [0]⟩]⟩
  console := .buffer ""

/-- A term that declares a name, calls a function that assigns to another one, and fails. -/
def posting : Code :=
  .declare [⟨"rate", some (.int 2)⟩]
    (.seq [.call (.var "println") [.call (.var "add") [.var "rate"]], .var "missing"])

theorem Machine.execute_keeps_bindings_posting :
    (∀ id, (printing.host id).LeavesFrames) ∧ posting.erase.mutated = [] ∧ ∃ ended frame',
      (Machine.new 2 .implicit).execute printing.host (fun _ => .ok ()) 50 ledger posting 0
        = some ended ∧
      ended.result = .error (.undefinedVariable "missing") ∧
      ended.world.store.frames[1]? = some frame' ∧ frame'.outer = [0] ∧
      frame'.names = ["total"] ∧ frame'.slot? "total" = some (.value (.int 6)) ∧
      ∃ lambda i, ReachesValue printing.host ledger.store 0 (.closure lambda i) ∧
        "total" ∈ lambda.body.erase.mutated := by
  have hhosts : ∀ id, (printing.host id).LeavesFrames := host_printing fun _ _ _ => rfl
  have hmutated : posting.erase.mutated = [] := by decide +kernel
  have hrun : (Machine.new 2 .implicit).execute printing.host (fun _ => .ok ()) 50 ledger posting 0
      = some _ := rfl
  refine ⟨hhosts, hmutated, _, _, hrun, rfl, rfl, rfl, rfl, rfl, ?_⟩
  obtain ⟨frame', hframe', -, -, hchanged⟩ := Machine.execute_keeps_bindings hhosts .implicit 2
    (fun _ => .ok ()) 50 hrun 1 ⟨[("total", .value (.int 4))], [0]⟩ rfl
  cases hframe'
  refine (hchanged "total" fun h => ?_).resolve_left ?_
  · cases h
  · rw [hmutated]
    exact List.not_mem_nil

end LetLambda
