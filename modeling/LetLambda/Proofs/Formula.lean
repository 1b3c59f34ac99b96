import LetLambda.Proofs.PassingForm
import LetLambda.Value.Operate

/-!
# Formulas and two orders of evaluation

A formula is made of integers, variables, operators, negations and calls of function literals that
have no name. Its meaning is told twice. From left to right (`eager`), an operand is done with
before the next one is begun. With calls first (`late`), only the calls in an operand are made where
it stands; what is left of it then is arithmetic on values that are known, and it waits for the next
call that needs it or for the end.

Both orders give the same values (`deferred_eq_ok_iff`). They may give different errors, for what is
left of an operand may fail, and so may a call in a later operand. Where nothing that may fail waits
for a call, they give the same errors too (`deferred_of_prompt`).
-/

namespace LetLambda

/-- What the variables stand for. -/
abbrev Valuation := Name → Value

namespace Valuation

/-- What a name stands for to which nothing was bound. -/
def blank : Valuation := fun _ => .absent

/-- Binds a name. -/
def bind (ρ : Valuation) (x : Name) (v : Value) : Valuation := fun y => if y = x then v else ρ y

/-- Binds parameters to arguments, as frames do. -/
def bindAll (ρ : Valuation) : List Name → List Value → Valuation
  | [], _ => ρ
  | x :: xs, [] => bindAll (ρ.bind x .absent) xs []
  | x :: xs, v :: vs => bindAll (ρ.bind x v) xs vs

theorem bindAll_of_not_mem {xs : List Name} {x : Name} (h : x ∉ xs) (ρ : Valuation)
    (vs : List Value) : ρ.bindAll xs vs x = ρ x := by
  induction xs generalizing ρ vs with
  | nil => rfl
  | cons y xs ih =>
    obtain ⟨hne, hxs⟩ := not_or.mp (mt List.mem_cons.mpr h)
    cases vs with
    | nil => exact (ih hxs _ []).trans (if_neg hne)
    | cons v vs => exact (ih hxs _ vs).trans (if_neg hne)

/-- What a name stands for outside does not matter to a name that is bound. -/
theorem bindAll_congr {ρ ρ' : Valuation} {xs : List Name} {x : Name} (h : ρ x = ρ' x ∨ x ∈ xs)
    (vs : List Value) : ρ.bindAll xs vs x = ρ'.bindAll xs vs x := by
  induction xs generalizing ρ ρ' vs with
  | nil => exact h.resolve_right List.not_mem_nil
  | cons y xs ih =>
    have hbind (v : Value) : ρ.bind y v x = ρ'.bind y v x ∨ x ∈ xs := by
      by_cases hy : x = y
      · left
        rw [bind, bind, if_pos hy, if_pos hy]
      · rw [bind, bind, if_neg hy, if_neg hy]
        exact h.imp id fun hmem => (List.mem_cons.mp hmem).resolve_left hy
    cases vs with
    | nil => exact ih (hbind .absent) []
    | cons v vs => exact ih (hbind v) vs

end Valuation

/-- A formula. -/
inductive Formula where
  | int (n : Int64)
  | var (x : Name)
  | negate (body : Formula)
  | binary (op : BinaryOp) (left right : Formula)
  /-- The call of a function literal. -/
  | call (params : List Name) (body : Formula) (args : List Formula)

/-- An operator that takes anything. -/
def BinaryOp.isTotal : BinaryOp → Bool
  | and | or | eq | ne => true
  | _ => false

theorem Value.operate_of_isTotal {op : BinaryOp} (h : op.isTotal = true) (a b : Value) :
    ∃ v, Value.operate op a b = .ok v := by
  cases op with
  | and | or | eq | ne => exact ⟨_, rfl⟩
  | _ => cases h

namespace Formula

mutual

/-- The tree of a formula. -/
def tree : Formula → Tree
  | int n => .int n
  | var x => .var x
  | negate f => .negate f.tree
  | binary op f g => .binary op.symbol f.tree g.tree
  | call params body args => .call (.function () none params body.tree) (trees args)
termination_by structural f => f

/-- The trees of formulas. -/
def trees : List Formula → List Tree
  | [] => []
  | f :: fs => f.tree :: trees fs
termination_by structural fs => fs

end

mutual

/-- Whether the variables of a formula are parameters around them or names of the scope. -/
def usesOnly : List Name → Formula → Bool
  | _, int _ => true
  | scope, var x => scope.contains x
  | scope, negate f => f.usesOnly scope
  | scope, binary _ f g => f.usesOnly scope && g.usesOnly scope
  | scope, call params body args => body.usesOnly (params ++ scope) && usesOnlyAll scope args
termination_by structural _ f => f

/-- The same of formulas. -/
def usesOnlyAll : List Name → List Formula → Bool
  | _, [] => true
  | scope, f :: fs => f.usesOnly scope && usesOnlyAll scope fs
termination_by structural _ fs => fs

end

/-! ### From left to right -/

/-- What a negation makes of a value. -/
def negated (v : Value) : Value := .bool (!v.isTruthy)

mutual

/-- The meaning of a formula from left to right. -/
def eager : Formula → Valuation → Except EvalError Value
  | int n, _ => .ok (.int n)
  | var x, ρ => .ok (ρ x)
  | negate f, ρ => do
    let a ← f.eager ρ
    return negated a
  | binary op f g, ρ => do
    let a ← f.eager ρ
    let b ← g.eager ρ
    Value.operate op a b
  | call params body args, ρ => do
    let vs ← eagerAll args ρ
    body.eager (ρ.bindAll params vs)
termination_by structural f => f

/-- The meanings of formulas one after another. -/
def eagerAll : List Formula → Valuation → Except EvalError (List Value)
  | [], _ => .ok []
  | f :: fs, ρ => do
    let v ← f.eager ρ
    let vs ← eagerAll fs ρ
    return v :: vs
termination_by structural fs => fs

end

/-! ### Calls first -/

/-- What is left of an operand: the value or the error that it will come to. -/
abbrev Residue := Except EvalError Value

/-- The values of what is left of operands, one after another. -/
def force : List Residue → Except EvalError (List Value)
  | [] => .ok []
  | a :: as => do
    let v ← a
    let vs ← force as
    return v :: vs

mutual

/-- Makes the calls in a formula, and tells what is left of it. -/
def late : Formula → Valuation → Except EvalError Residue
  | int n, _ => .ok (.ok (.int n))
  | var x, ρ => .ok (.ok (ρ x))
  | negate f, ρ => do
    let a ← f.late ρ
    return do
      let v ← a
      return negated v
  | binary op f g, ρ => do
    let a ← f.late ρ
    let b ← g.late ρ
    return do
      let v ← a
      let u ← b
      Value.operate op v u
  | call params body args, ρ => do
    -- A call needs the values of its arguments, and hands on the value of its body.
    let as ← lateAll args ρ
    let vs ← force as
    let b ← body.late (ρ.bindAll params vs)
    let v ← b
    return .ok v
termination_by structural f => f

/-- Makes the calls in formulas one after another. -/
def lateAll : List Formula → Valuation → Except EvalError (List Residue)
  | [], _ => .ok []
  | f :: fs, ρ => do
    let a ← f.late ρ
    let as ← lateAll fs ρ
    return a :: as
termination_by structural fs => fs

end

/-- The meaning of a formula, calls first. -/
def deferred (f : Formula) (ρ : Valuation) : Except EvalError Value := do
  let a ← f.late ρ
  a

/-! ### Both orders give the same values -/

theorem force_cons_eq_ok_iff {a : Residue} {as : List Residue} {vs : List Value} :
    force (a :: as) = .ok vs ↔ ∃ v us, a = .ok v ∧ force as = .ok us ∧ vs = v :: us := by
  simp only [force, bind_eq_ok_iff_exists]
  constructor
  · rintro ⟨v, hv, us, hus, ⟨⟩⟩
    exact ⟨v, us, hv, hus, rfl⟩
  · rintro ⟨v, us, hv, hus, rfl⟩
    exact ⟨v, hv, us, hus, rfl⟩

mutual

theorem late_eq_ok_iff (f : Formula) {ρ : Valuation} {v : Value} :
    f.late ρ = .ok (.ok v) ↔ f.eager ρ = .ok v := by
  cases f with
  | int n => simp only [late, eager, Except.ok.injEq]
  | var x => simp only [late, eager, Except.ok.injEq]
  | negate f =>
    simp only [late, eager, bind_eq_ok_iff_exists, ← late_eq_ok_iff f]
    constructor
    · rintro ⟨a, ha, hv⟩
      obtain ⟨u, rfl, hu⟩ := bind_eq_ok_iff_exists.mp (Except.ok.inj hv)
      exact ⟨u, ha, hu⟩
    · rintro ⟨u, hu, ⟨⟩⟩
      exact ⟨.ok u, hu, rfl⟩
  | binary op f g =>
    simp only [late, eager, bind_eq_ok_iff_exists, ← late_eq_ok_iff f, ← late_eq_ok_iff g]
    constructor
    · rintro ⟨a, ha, b, hb, hv⟩
      obtain ⟨u, rfl, hu⟩ := bind_eq_ok_iff_exists.mp (Except.ok.inj hv)
      obtain ⟨r, rfl, hr⟩ := bind_eq_ok_iff_exists.mp hu
      exact ⟨u, ha, r, hb, hr⟩
    · rintro ⟨u, hu, r, hr, hv⟩
      exact ⟨.ok u, hu, .ok r, hr, congrArg Except.ok hv⟩
  | call params body args =>
    simp only [late, eager, bind_eq_ok_iff_exists, ← lateAll_force_eq_ok_iff args,
      ← late_eq_ok_iff body]
    constructor
    · rintro ⟨as, has, vs, hvs, b, hb, u, rfl, ⟨⟩⟩
      exact ⟨vs, ⟨as, has, hvs⟩, hb⟩
    · rintro ⟨vs, ⟨as, has, hvs⟩, hb⟩
      exact ⟨as, has, vs, hvs, .ok v, hb, v, rfl, rfl⟩
termination_by structural f

theorem lateAll_force_eq_ok_iff (fs : List Formula) {ρ : Valuation} {vs : List Value} :
    (lateAll fs ρ >>= force) = .ok vs ↔ eagerAll fs ρ = .ok vs := by
  cases fs with
  | nil => rfl
  | cons f fs =>
    simp only [lateAll, eagerAll, bind_eq_ok_iff_exists, ← late_eq_ok_iff f,
      ← lateAll_force_eq_ok_iff fs]
    constructor
    · rintro ⟨_, ⟨a, ha, as, has, ⟨⟩⟩, hforce⟩
      obtain ⟨v, us, rfl, hus, rfl⟩ := force_cons_eq_ok_iff.mp hforce
      exact ⟨v, ha, us, ⟨as, has, hus⟩, rfl⟩
    · rintro ⟨v, hv, us, ⟨as, has, hus⟩, ⟨⟩⟩
      have hforce : force (.ok v :: as) = .ok (v :: us) :=
        force_cons_eq_ok_iff.mpr ⟨v, us, rfl, hus, rfl⟩
      exact ⟨.ok v :: as, ⟨.ok v, hv, as, has, rfl⟩, hforce⟩
termination_by structural fs

end

/-- **Both orders give the same values.** -/
theorem deferred_eq_ok_iff (f : Formula) (ρ : Valuation) (v : Value) :
    f.deferred ρ = .ok v ↔ f.eager ρ = .ok v := by
  rw [← late_eq_ok_iff, deferred, bind_eq_ok_iff_exists]
  constructor
  · rintro ⟨_, ha, rfl⟩
    exact ha
  · intro h
    exact ⟨.ok v, h, rfl⟩

/-! ### Where they give the same errors -/

/-- Whether no call is made in a formula. -/
def callFree : Formula → Bool
  | int _ | var _ => true
  | negate f => f.callFree
  | binary _ f g => f.callFree && g.callFree
  | call .. => false

/-- Whether nothing that may fail is left of a formula when the calls in it have been made. -/
def sure : Formula → Bool
  | int _ | var _ | call .. => true
  | negate f => f.sure
  | binary op f g => op.isTotal && f.sure && g.sure

mutual

/-- Whether no operand of which something may be left that fails comes before one in which a call is
made. -/
def prompt : Formula → Bool
  | int _ | var _ => true
  | negate f => f.prompt
  | binary _ f g => f.prompt && g.prompt && (f.sure || g.callFree)
  | call _ body args => body.prompt && promptAll args
termination_by structural f => f

/-- The same of the arguments of a call. -/
def promptAll : List Formula → Bool
  | [] => true
  | f :: fs => f.prompt && promptAll fs && (f.sure || fs.all callFree)
termination_by structural fs => fs

end

theorem late_of_callFree (f : Formula) (h : f.callFree = true) (ρ : Valuation) :
    ∃ a, f.late ρ = .ok a := by
  cases f with
  | int n | var x => exact ⟨_, rfl⟩
  | negate f =>
    obtain ⟨a, ha⟩ := late_of_callFree f h ρ
    exact ⟨_, by rw [late, ha]; rfl⟩
  | binary op f g =>
    obtain ⟨hf, hg⟩ := Bool.and_eq_true_iff.mp h
    obtain ⟨a, ha⟩ := late_of_callFree f hf ρ
    obtain ⟨b, hb⟩ := late_of_callFree g hg ρ
    exact ⟨_, by rw [late, ha, hb]; rfl⟩
  | call params body args => cases h
termination_by structural f

theorem lateAll_of_callFree {fs : List Formula} (h : fs.all callFree = true) (ρ : Valuation) :
    ∃ as, lateAll fs ρ = .ok as := by
  induction fs with
  | nil => exact ⟨[], rfl⟩
  | cons f fs ih =>
    rw [List.all_cons, Bool.and_eq_true] at h
    obtain ⟨a, ha⟩ := late_of_callFree f h.1 ρ
    obtain ⟨as, has⟩ := ih h.2
    exact ⟨a :: as, by rw [lateAll, ha, has]; rfl⟩

/-- What is left of a formula that is sure is a value. -/
theorem residue_of_sure (f : Formula) (h : f.sure = true) {ρ : Valuation} {a : Residue}
    (ha : f.late ρ = .ok a) : ∃ v, a = .ok v := by
  cases f with
  | int n | var x =>
    cases ha
    exact ⟨_, rfl⟩
  | negate f =>
    obtain ⟨b, hb, ha⟩ := bind_eq_ok_iff_exists.mp ha
    obtain ⟨v, rfl⟩ := residue_of_sure f h hb
    cases ha
    exact ⟨_, rfl⟩
  | binary op f g =>
    simp only [sure, Bool.and_eq_true] at h
    obtain ⟨b, hb, ha⟩ := bind_eq_ok_iff_exists.mp ha
    obtain ⟨c, hc, ha⟩ := bind_eq_ok_iff_exists.mp ha
    obtain ⟨v, rfl⟩ := residue_of_sure f h.1.2 hb
    obtain ⟨u, rfl⟩ := residue_of_sure g h.2 hc
    cases ha
    exact Value.operate_of_isTotal h.1.1 v u
  | call params body args =>
    obtain ⟨as, -, ha⟩ := bind_eq_ok_iff_exists.mp ha
    obtain ⟨vs, -, ha⟩ := bind_eq_ok_iff_exists.mp ha
    obtain ⟨b, -, ha⟩ := bind_eq_ok_iff_exists.mp ha
    obtain ⟨v, -, ha⟩ := bind_eq_ok_iff_exists.mp ha
    cases ha
    exact ⟨v, rfl⟩
termination_by structural f

mutual

/-- **Where nothing that may fail waits for a call, both orders come to the same.** -/
theorem deferred_of_prompt (f : Formula) (h : f.prompt = true) (ρ : Valuation) :
    f.deferred ρ = f.eager ρ := by
  cases f with
  | int n | var x => rfl
  | negate f =>
    have ih := deferred_of_prompt f h ρ
    rw [eager, ← ih, deferred, deferred, late]
    cases f.late ρ with
    | error e => rfl
    | ok a => cases a <;> rfl
  | binary op f g =>
    simp only [prompt, Bool.and_eq_true, Bool.or_eq_true] at h
    obtain ⟨⟨hf, hg⟩, horder⟩ := h
    rw [eager, ← deferred_of_prompt f hf ρ, ← deferred_of_prompt g hg ρ, deferred, deferred,
      deferred, late]
    cases ha : f.late ρ with
    | error e => rfl
    | ok a =>
      cases hb : g.late ρ with
      | ok b => rfl
      | error e =>
        -- A call in the second operand fails: nothing that fails is left of the first.
        rcases horder with hsure | hfree
        · obtain ⟨v, rfl⟩ := residue_of_sure f hsure ha
          rfl
        · obtain ⟨b, hb'⟩ := late_of_callFree g hfree ρ
          rw [hb] at hb'
          cases hb'
  | call params body args =>
    obtain ⟨hbody, hargs⟩ := Bool.and_eq_true_iff.mp h
    rw [eager, ← lateAll_force_of_prompt args hargs ρ, deferred, late]
    cases lateAll args ρ with
    | error e => rfl
    | ok as =>
      cases hvs : force as with
      | error e => simp only [bind, Except.bind, hvs]
      | ok vs =>
        have ih := deferred_of_prompt body hbody (ρ.bindAll params vs)
        simp only [bind, Except.bind, hvs, ← ih, deferred]
        cases body.late (ρ.bindAll params vs) with
        | error e => rfl
        | ok b => cases b <;> rfl
termination_by structural f

theorem lateAll_force_of_prompt (fs : List Formula) (h : promptAll fs = true) (ρ : Valuation) :
    (lateAll fs ρ >>= force) = eagerAll fs ρ := by
  cases fs with
  | nil => rfl
  | cons f fs =>
    simp only [promptAll, Bool.and_eq_true, Bool.or_eq_true] at h
    obtain ⟨⟨hf, hfs⟩, horder⟩ := h
    rw [eagerAll, ← deferred_of_prompt f hf ρ, ← lateAll_force_of_prompt fs hfs ρ, deferred,
      lateAll]
    cases ha : f.late ρ with
    | error e => rfl
    | ok a =>
      cases has : lateAll fs ρ with
      | ok as => rfl
      | error e =>
        rcases horder with hsure | hfree
        · obtain ⟨v, rfl⟩ := residue_of_sure f hsure ha
          rfl
        · obtain ⟨as, has'⟩ := lateAll_of_callFree hfree ρ
          rw [has] at has'
          cases has'
termination_by structural fs

end

end Formula

end LetLambda
