import LetLambda.Proofs.Custody
import LetLambda.Proofs.PassingForm

/-!
# Links of a run in continuation-passing form

A link is put before what is left to do when a part of a term is evaluated that is not in tail
position, so the links of one term are fewer than the term is high. A call adds the links of a body
to those that wait for its value. In continuation-passing form calls stand in tail position only, so
that nothing waits for the value of a call, and the links never outgrow the height of the whole
program however long it runs and however deep it recurses.

What is kept up during a run is that the code still to be evaluated fits under the links that wait
(`Task.Fits`), and that the body of every function at hand fits under none.
-/

namespace LetLambda

/-! ### Height -/

namespace Term

mutual

/-- The height of a tree: how many nodes there are on its longest way down. -/
def height : Tree → Nat
  | int _ | str _ | bool _ | var _ => 1
  | assign target value => 1 + max target.height value.height
  | binary _ left right => 1 + max left.height right.height
  | negate body => 1 + body.height
  | seq items => 1 + heightAll items
  | call callee args => 1 + max callee.height (heightAll args)
  | function _ _ _ body => 1 + body.height
  | conditional test consequent none => 1 + max test.height consequent.height
  | conditional test consequent (some alternative) =>
    1 + max test.height (max consequent.height alternative.height)
  | declare bindings body => 1 + max (heightBindings bindings) body.height
termination_by structural t => t

/-- The height of the highest of some trees. -/
def heightAll : List Tree → Nat
  | [] => 0
  | t :: ts => max t.height (heightAll ts)
termination_by structural ts => ts

/-- The height of the highest of some definitions. -/
def heightBindings : List (Binding Tree) → Nat
  | [] => 0
  | ⟨_, none⟩ :: bs => heightBindings bs
  | ⟨_, some t⟩ :: bs => max t.height (heightBindings bs)
termination_by structural bs => bs

end

theorem height_pos (t : Tree) : 0 < t.height := by
  cases t with
  | int n | str s | bool b | var x => exact Nat.one_pos
  | conditional test consequent alternative? =>
    cases alternative? with
    | none => exact Nat.lt_add_right _ Nat.one_pos
    | some alternative => exact Nat.lt_add_right _ Nat.one_pos
  | _ => exact Nat.lt_add_right _ Nat.one_pos

/-- The term may be evaluated while `n` links wait: there is room for its own links below `bound`,
and it makes no call unless nothing waits. -/
structure Fits (bound n : Nat) (t : Code) : Prop where
  room : n + t.erase.height ≤ bound
  tail : t.erase.tailCalls (n == 0) = true

/-- The terms of a sequence may be evaluated while `n` links wait, and one more during all but the
last. -/
def FitsLast (bound n : Nat) : List Code → Prop
  | [] => True
  | [t] => t.Fits bound n
  | t :: u :: ts => t.Fits bound (n + 1) ∧ FitsLast bound n (u :: ts)

namespace Fits

variable {bound n : Nat}

theorem lt {t : Code} (h : t.Fits bound n) : n < bound := by
  have hroom := h.room
  have hpos := height_pos t.erase
  omega

theorem assign {x : Name} {t : Code} (h : (assign (var x) t).Fits bound n) :
    t.Fits bound (n + 1) := by
  obtain ⟨hroom, htail⟩ := h
  simp only [erase, height, tailCalls, Bool.true_and] at hroom htail
  exact ⟨by omega, htail⟩

theorem binary {op : String} {left right : Code} (h : (binary op left right).Fits bound n) :
    left.Fits bound (n + 1) ∧ right.Fits bound (n + 1) := by
  obtain ⟨hroom, htail⟩ := h
  simp only [erase, height, tailCalls, Bool.and_eq_true] at hroom htail
  exact ⟨⟨by omega, htail.1⟩, ⟨by omega, htail.2⟩⟩

theorem negate {t : Code} (h : (negate t).Fits bound n) : t.Fits bound (n + 1) := by
  obtain ⟨hroom, htail⟩ := h
  simp only [erase, height, tailCalls] at hroom htail
  exact ⟨by omega, htail⟩

theorem function {label : Nat} {name? : Option Name} {params : List Name} {body : Code}
    (h : (function label name? params body).Fits bound n) : body.Fits bound 0 := by
  obtain ⟨hroom, htail⟩ := h
  simp only [erase, height, tailCalls] at hroom htail
  exact ⟨by omega, htail⟩

theorem conditional {test consequent : Code} {alternative? : Option Code}
    (h : (conditional test consequent alternative?).Fits bound n) :
    test.Fits bound (n + 1) ∧ consequent.Fits bound n ∧
      ∃ alternative, alternative? = some alternative ∧ alternative.Fits bound n := by
  obtain ⟨hroom, htail⟩ := h
  cases alternative? with
  | none => cases htail
  | some alternative =>
    simp only [erase, height, tailCalls, Bool.and_eq_true] at hroom htail
    exact ⟨⟨by omega, htail.1.1⟩, ⟨by omega, htail.1.2⟩, alternative, rfl, by omega, htail.2⟩

theorem all {ts : List Code} (hroom : n + 1 + heightAll (eraseAll ts) ≤ bound)
    (htail : tailCallsAll (eraseAll ts) = true) : ∀ t ∈ ts, t.Fits bound (n + 1) := by
  induction ts with
  | nil => exact List.forall_mem_nil _
  | cons t ts ih =>
    simp only [eraseAll, heightAll, tailCallsAll, Bool.and_eq_true] at hroom htail
    exact List.forall_mem_cons.mpr ⟨⟨by omega, htail.1⟩, ih (by omega) htail.2⟩

/-- A call is made when nothing waits for its value. -/
theorem call {callee : Code} {args : List Code} (h : (call callee args).Fits bound n) :
    n = 0 ∧ callee.Fits bound 1 ∧ ∀ t ∈ args, t.Fits bound 1 := by
  obtain ⟨hroom, htail⟩ := h
  simp only [erase, height, tailCalls, Bool.and_eq_true, beq_iff_eq] at hroom htail
  obtain ⟨⟨rfl, hcallee⟩, hargs⟩ := htail
  exact ⟨rfl, ⟨by omega, hcallee⟩, all (by omega) hargs⟩

theorem last {ts : List Code} (hroom : n + 1 + heightAll (eraseAll ts) ≤ bound)
    (htail : tailCallsLast (n == 0) (eraseAll ts) = true) : FitsLast bound n ts := by
  induction ts with
  | nil => trivial
  | cons t ts ih =>
    cases ts with
    | nil =>
      simp only [eraseAll, heightAll, tailCallsLast] at hroom htail
      exact ⟨by omega, htail⟩
    | cons u ts =>
      simp only [eraseAll, heightAll, tailCallsLast, Bool.and_eq_true] at hroom htail ih
      exact ⟨⟨by omega, htail.1⟩, ih (by omega) htail.2⟩

theorem seq {items : List Code} (h : (seq items).Fits bound n) : FitsLast bound n items := by
  obtain ⟨hroom, htail⟩ := h
  simp only [erase, height, tailCalls] at hroom htail
  exact last (by omega) htail

end Fits

end Term

/-! ### Room for the code of a task -/

/-- The code of a link may be evaluated when its value has come, while `n` more links wait. -/
def Link.Fits (bound n : Nat) : Link → Prop
  | assign .. | operate .. | negate => True
  | right _ t _ => t.Fits bound (n + 1)
  | branch consequent alternative? _ => consequent.Fits bound n ∧
    ∃ alternative, alternative? = some alternative ∧ alternative.Fits bound n
  | sequence rest _ => Term.FitsLast bound n rest
  | callee args _ => n = 0 ∧ ∀ t ∈ args, t.Fits bound 1
  | argument _ _ rest _ => n = 0 ∧ ∀ t ∈ rest, t.Fits bound 1
  | define .. => False

/-- The code of every link may be evaluated when its turn has come. -/
def Continuation.Fits (bound : Nat) : Continuation → Prop
  | [] => True
  | link :: k => link.Fits bound k.length ∧ Continuation.Fits bound k

/-- The code of a task may be evaluated while its links wait. A function is applied when nothing
waits. -/
def Task.Fits (bound : Nat) : Task → Prop
  | start code _ => code.Fits bound 0
  | evaluate code _ k => code.Fits bound k.length ∧ Continuation.Fits bound k
  | resume k _ => k.length < bound ∧ Continuation.Fits bound k
  | declare .. => False
  | apply _ _ k => k = [] ∧ 0 < bound

/-- A value of a run in which every function of the language has a body that fits under no links. -/
abbrev Value.Fits (trusted : Nat → Prop) (live : FrameId → Prop) (bound : Nat) : Value → Prop :=
  Value.Admitted trusted live fun lambda _ => lambda.body.Fits bound 0

/-- The task that is called for fits. -/
def Move.Fits (bound : Nat) : Move → Prop
  | call next => next.Fits bound
  | answer _ | fail _ => True

namespace Move

variable {hosts : Hosts} {convention : Convention} {trusted : Nat → Prop} {live : FrameId → Prop}
  {bound : Nat} {w : World} {env : FrameId} {k : Continuation} {v callee : Value}
  {args : List Value}

theorem fits_ofResult (hlt : k.length < bound) (hk : k.Fits bound) (r : Except EvalError Value) :
    (ofResult k r).Fits bound := by
  cases r with
  | error e => trivial
  | ok v => exact ⟨hlt, hk⟩

theorem fits_sequence (hlt : k.length < bound) (hk : k.Fits bound) {items : List Code}
    (hitems : Term.FitsLast bound k.length items) : (sequence env v k items).Fits bound := by
  cases items with
  | nil => exact ⟨hlt, hk⟩
  | cons t rest =>
    cases rest with
    | nil => exact ⟨hitems, hk⟩
    | cons u rest => exact ⟨hitems.1, hitems.2, hk⟩

/-- A function is applied with nothing left to do. -/
theorem fits_apply (hpos : 0 < bound) (hcallee : callee.Fits trusted live bound) :
    (apply hosts convention w callee args []).1.Fits bound := by
  cases callee with
  | int n | str s | bool b => trivial
  | closure lambda f => exact ⟨hcallee.2, trivial⟩
  | host name id =>
    have hreturn := fits_ofResult (k := []) hpos trivial (hosts id args w).1
    cases convention with
    | implicit => exact hreturn
    | explicit =>
      cases args with
      | nil => exact hreturn
      | cons continuation args =>
        rw [apply]
        obtain ⟨⟨r, w'⟩, hr⟩ : ∃ p, hosts id args w = p := ⟨_, rfl⟩
        rw [hr]
        cases r with
        | error e => trivial
        | ok v => exact ⟨rfl, hpos⟩

theorem fits_arguments (hpos : 0 < bound) (hcallee : callee.Fits trusted live bound)
    {rest : List Code} (hrest : ∀ t ∈ rest, t.Fits bound 1) :
    (arguments hosts convention w callee args rest env []).1.Fits bound := by
  cases rest with
  | nil => exact fits_apply hpos hcallee
  | cons t rest =>
    obtain ⟨ht, hrest⟩ := List.forall_mem_cons.mp hrest
    exact ⟨ht, ⟨rfl, hrest⟩, trivial⟩

theorem fits_evaluate (hk : k.Fits bound) {code : Code} (h : code.Fits bound k.length) :
    (evaluate w code env k).1.Fits bound := by
  cases code with
  | int n | str s | bool b => exact ⟨h.lt, hk⟩
  | var x => exact fits_ofResult h.lt hk _
  | assign target t =>
    cases target with
    | var x => exact ⟨h.assign, trivial, hk⟩
    | _ => trivial
  | binary op left right => exact ⟨h.binary.1, h.binary.2, hk⟩
  | negate t => exact ⟨h.negate, trivial, hk⟩
  | seq items => exact fits_sequence h.lt hk h.seq
  | call callee args =>
    obtain ⟨hnone, hcallee, hargs⟩ := h.call
    obtain rfl := List.length_eq_zero_iff.mp hnone
    exact ⟨hcallee, ⟨rfl, hargs⟩, trivial⟩
  | conditional test consequent alternative? =>
    exact ⟨h.conditional.1, h.conditional.2, hk⟩
  | declare bindings body => cases h.tail
  | function label name? params body =>
    cases name? with
    | none => exact ⟨h.lt, hk⟩
    | some x => exact ⟨h.lt, hk⟩

theorem fits_resume {link : Link} (hheld : link.Held (Value.Fits trusted live bound) live)
    (hv : v.Fits trusted live bound) (hlt : k.length + 1 < bound)
    (hlink : link.Fits bound k.length) (hk : k.Fits bound) :
    (resume hosts convention w link k v).1.Fits bound := by
  have hlt' : k.length < bound := Nat.lt_of_succ_lt hlt
  cases link with
  | assign x env =>
    rw [resume]
    cases w.store.resolve? env x with
    | none => trivial
    | some f => exact ⟨hlt', hk⟩
  | right op right env => exact ⟨hlink, trivial, hk⟩
  | operate op left => exact fits_ofResult hlt' hk _
  | negate => exact ⟨hlt', hk⟩
  | branch consequent alternative? env =>
    obtain ⟨hconsequent, alternative, rfl, halternative⟩ := hlink
    unfold resume
    dsimp only
    split
    · exact ⟨hconsequent, hk⟩
    · exact ⟨halternative, hk⟩
  | sequence rest env => exact fits_sequence hlt' hk hlink
  | callee args env =>
    obtain rfl := List.length_eq_zero_iff.mp hlink.1
    exact fits_arguments hlt' hv hlink.2
  | argument callee done rest env =>
    obtain rfl := List.length_eq_zero_iff.mp hlink.1
    exact fits_arguments hlt' hheld.1 hlink.2
  | define x rest body env => cases hlink

end Move

namespace Task

variable {trusted : Nat → Prop} {live : FrameId → Prop} {bound : Nat} {w : World} {task : Task}

theorem Fits.perform (h : task.Fits bound) (hosts : Hosts) (convention : Convention) (w : World)
    (hheld : task.Held (Value.Fits trusted live bound) live) :
    (task.perform hosts convention w).1.Fits bound := by
  cases task with
  | start code env => exact ⟨h, trivial⟩
  | evaluate code env k => exact Move.fits_evaluate h.2 h.1
  | resume k v =>
    cases k with
    | nil => trivial
    | cons link k =>
      exact Move.fits_resume (hheld.2 link List.mem_cons_self) hheld.1 h.1 h.2.1 h.2.2
  | declare bindings body env k => cases h
  | apply callee args k =>
    obtain ⟨rfl, hpos⟩ := h
    exact Move.fits_apply hpos hheld.1

/-- The body of a function that is made of a literal fits under no links. -/
theorem Makes.fits {v : Value} (hmakes : task.Makes w v) (h : task.Fits bound)
    (hw : w.store.scene.Holding (Value.Fits trusted live bound) live)
    (hheld : task.Held (Value.Fits trusted live bound) live) : v.Fits trusted live bound := by
  obtain ⟨lambda, f, hmade, rfl⟩ := makes_iff.mp hmakes
  have hlive := hheld.live_of_made hw hmade
  obtain ⟨env, k, rfl, -⟩ := exists_of_made hmade
  exact ⟨hlive, h.1.function⟩

end Task

end LetLambda
