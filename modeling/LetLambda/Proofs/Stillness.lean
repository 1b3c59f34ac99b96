import LetLambda.Proofs.Marks
import LetLambda.Proofs.Scene
import LetLambda.Term.Purity

/-!
# Pure terms leave everything as it is

Evaluating a pure term may make frames, but it changes nothing in those that were there and prints
nothing. So a pure term whose value is not asked for need not be evaluated.
-/

namespace LetLambda

/-- Frames have come in, and nothing else has happened. -/
structure World.Still (w w' : World) : Prop where
  grows : w.store.scene.Grows (fun _ _ => True) w'.store.scene
  console : w'.console = w.console

theorem World.Still.refl (w : World) : w.Still w := ⟨.refl _ _, rfl⟩

theorem World.Still.trans {w w' w'' : World} (h : w.Still w') (h' : w'.Still w'') : w.Still w'' :=
  ⟨h.grows.trans h'.grows, h'.console.trans h.console⟩

namespace Direct

variable {hosts : Hosts} {convention : Convention}

theorem still_enter_define (w : World) (i : FrameId) (x : Name) (v : Value) :
    w.Still (enter w i fun store frame => store.define frame x v).2 :=
  ⟨enter_define ▸ ((Scene.enters_push _ i).set x v).grows _, rfl⟩

theorem still_close (w : World) (lambda : Lambda) (i : FrameId) :
    w.Still (close w lambda i).2 := by
  unfold close
  cases h : lambda.name? with
  | none => exact .refl w
  | some x => exact ⟨enter_defineSelf h ▸ ((Scene.enters_push _ i).set x _).grows _, rfl⟩

variable (hosts convention) in
/-- With this much fuel, pure terms leave everything as it is. -/
structure StillWith (fuel : Nat) : Prop where
  evaluate : ∀ {t i w v w'}, t.erase.isPure = true →
    evaluate hosts convention fuel t i w = some (.ok v, w') → w.Still w'
  sequence : ∀ {ts last i w v w'}, Term.allPure (Term.eraseAll ts) = true →
    sequence hosts convention fuel ts last i w = some (.ok v, w') → w.Still w'
  declare : ∀ {bs body i w v w'}, Term.bindingsPure (Term.eraseBindings bs) = true →
    body.erase.isPure = true → declare hosts convention fuel bs body i w = some (.ok v, w') →
    w.Still w'

namespace StillWith

variable {fuel : Nat}

theorem evaluate_succ (ih : StillWith hosts convention fuel) {t : Code} {i : FrameId} {w w' : World}
    {v : Value} (hp : t.erase.isPure = true)
    (h : Direct.evaluate hosts convention (fuel + 1) t i w = some (.ok v, w')) : w.Still w' := by
  cases t with
  | int n | str s | bool b =>
    cases h
    exact .refl w
  | var x =>
    obtain ⟨-, rfl⟩ := evaluate_var_ok h
    exact .refl _
  | assign target value => cases hp
  | call callee args => cases hp
  | function label name? params body =>
    cases h
    exact still_close w _ i
  | negate body =>
    obtain ⟨a, hb, -⟩ := evaluate_negate_ok h
    exact ih.evaluate (t := body) hp hb
  | binary op left right =>
    obtain ⟨hpl, hpr⟩ := Bool.and_eq_true_iff.mp hp
    obtain ⟨a, b, w₁, hl, hr, -⟩ := evaluate_binary_ok h
    exact (ih.evaluate hpl hl).trans (ih.evaluate hpr hr)
  | seq items => exact ih.sequence hp h
  | declare bindings body =>
    obtain ⟨hpb, hp⟩ := Bool.and_eq_true_iff.mp hp
    exact ih.declare hpb hp h
  | conditional test consequent alternative? =>
    obtain ⟨a, w₁, ht, h⟩ := evaluate_conditional_ok h
    cases alternative? with
    | none =>
      obtain ⟨hpt, hpc⟩ := Bool.and_eq_true_iff.mp hp
      rcases h with ⟨-, h⟩ | ⟨-, _, h, -⟩ | ⟨-, -, -, rfl⟩
      · exact (ih.evaluate hpt ht).trans (ih.evaluate hpc h)
      · cases h
      · exact ih.evaluate hpt ht
    | some alternative =>
      obtain ⟨hp, hpa⟩ := Bool.and_eq_true_iff.mp hp
      obtain ⟨hpt, hpc⟩ := Bool.and_eq_true_iff.mp hp
      rcases h with ⟨-, h⟩ | ⟨-, _, ⟨⟩, h⟩ | ⟨-, h, -⟩
      · exact (ih.evaluate hpt ht).trans (ih.evaluate hpc h)
      · exact (ih.evaluate hpt ht).trans (ih.evaluate hpa h)
      · cases h

theorem sequence_succ (ih : StillWith hosts convention fuel) {ts : List Code} {last : Value}
    {i : FrameId} {w w' : World} {v : Value} (hp : Term.allPure (Term.eraseAll ts) = true)
    (h : Direct.sequence hosts convention (fuel + 1) ts last i w = some (.ok v, w')) :
    w.Still w' := by
  cases ts with
  | nil =>
    cases h
    exact .refl w
  | cons t ts =>
    obtain ⟨hpt, hp⟩ := Bool.and_eq_true_iff.mp hp
    obtain ⟨a, w₁, ht, h⟩ := sequence_cons_ok h
    exact (ih.evaluate hpt ht).trans (ih.sequence hp h)

theorem declare_succ (ih : StillWith hosts convention fuel) {bs : List (Binding Code)}
    {body : Code} {i : FrameId} {w w' : World} {v : Value}
    (hp : Term.bindingsPure (Term.eraseBindings bs) = true) (hpb : body.erase.isPure = true)
    (h : Direct.declare hosts convention (fuel + 1) bs body i w = some (.ok v, w')) :
    w.Still w' := by
  cases bs with
  | nil => exact ih.evaluate hpb h
  | cons b bs =>
    obtain ⟨x, t?⟩ := b
    cases t? with
    | none =>
      have hp : Term.bindingsPure (Term.eraseBindings bs) = true := hp
      exact (still_enter_define w i x .absent).trans (ih.declare hp hpb h)
    | some t =>
      obtain ⟨hpt, hp⟩ := Bool.and_eq_true_iff.mp hp
      obtain ⟨a, w₁, ht, h⟩ := declare_cons_ok h
      have hx := still_enter_define w₁ i x a
      exact ((ih.evaluate hpt ht).trans hx).trans (ih.declare hp hpb h)

theorem all (fuel : Nat) : StillWith hosts convention fuel := by
  induction fuel with
  | zero => exact ⟨fun _ h => (by cases h), fun _ h => (by cases h), fun _ _ h => (by cases h)⟩
  | succ fuel ih => exact ⟨ih.evaluate_succ, ih.sequence_succ, ih.declare_succ⟩

end StillWith

end Direct

end LetLambda
