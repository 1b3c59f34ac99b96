import LetLambda.Proofs.Confinement
import LetLambda.Proofs.Lexemes

/-!
# Exact arithmetic

What an operator makes of two values, told without words of 64 bits: a result is the exact one or
there is none, and which error there is then is decided in a fixed order. An unknown symbol comes
first, then the left operand, then the right one, then a divisor that is zero, and an overflow last.
The laws are those of a function of a symbol and two values (`ExactOperators`); `operateSymbol_exact`
says that the evaluation of operators obeys them.
-/

namespace LetLambda

/-! ### The laws -/

/-- The symbols of the operators. -/
def operatorSymbols : List String :=
  ["+", "-", "*", "/", "%", "<", "<=", ">", ">=", "==", "!=", "&&", "||"]

/-- The symbols of the operators that take integers only. -/
def integerSymbols : List String := ["+", "-", "*", "/", "%", "<", "<=", ">", ">="]

/-- The integers that fit in a word. -/
def FitsWord (n : Int) : Prop := -9223372036854775808 ≤ n ∧ n ≤ 9223372036854775807

/-- A value is an integer. -/
def Value.IsInt (v : Value) : Prop := ∃ n, v = .int n

namespace Arithmetic

/-- The symbol of an arithmetic operation. -/
def symbol : Arithmetic → String
  | addition => "+"
  | subtraction => "-"
  | multiplication => "*"
  | division => "/"
  | remainder => "%"

/-- The result of an arithmetic operation on integers of any size. A quotient is cut off toward
zero. -/
def exact : Arithmetic → Int → Int → Int
  | addition, a, b => a + b
  | subtraction, a, b => a - b
  | multiplication, a, b => a * b
  | division, a, b => a.tdiv b
  | remainder, a, b => a.tmod b

end Arithmetic

/-- A function that applies the operator of a symbol is exact. -/
structure ExactOperators (apply : String → Value → Value → Except EvalError Value) : Prop where
  /-- A symbol is refused just if it is none of the known ones, and it is named then. -/
  unknown : ∀ symbol a b found, apply symbol a b = .error (.unknownOperator found) ↔
    symbol ∉ operatorSymbols ∧ found = symbol
  /-- A left operand that is no integer is named, whatever the right one is. -/
  left : ∀ symbol ∈ integerSymbols, ∀ a b : Value, ¬ a.IsInt →
    apply symbol a b = .error (.notANumber a.text)
  /-- After an integer, a right operand that is none is named. -/
  right : ∀ symbol ∈ integerSymbols, ∀ (a : Int64) (b : Value), ¬ b.IsInt →
    apply symbol (.int a) b = .error (.notANumber b.text)
  /-- Of integers, division and remainder refuse the divisor zero and no other. -/
  zero : ∀ symbol ∈ ["/", "%"], ∀ a b : Int64,
    apply symbol (.int a) (.int b) = .error .zeroDivision ↔ b.toInt = 0
  /-- An exact result that fits in a word is the result. -/
  fits : ∀ operation : Arithmetic, operation ≠ .remainder → ∀ a b : Int64,
    (operation = .division → b.toInt ≠ 0) → FitsWord (operation.exact a.toInt b.toInt) →
    ∃ n : Int64, n.toInt = operation.exact a.toInt b.toInt ∧
      apply operation.symbol (.int a) (.int b) = .ok (.int n)
  /-- One that does not fit, and no other, is an overflow. -/
  overflow : ∀ operation : Arithmetic, operation ≠ .remainder → ∀ a b : Int64,
    (operation = .division → b.toInt ≠ 0) →
    (apply operation.symbol (.int a) (.int b) = .error (.integerOverflow operation) ↔
      ¬ FitsWord (operation.exact a.toInt b.toInt))
  /-- There is a remainder just if there is a quotient. -/
  remainder : ∀ a b, (∃ v, apply "%" a b = .ok v) ↔ ∃ v, apply "/" a b = .ok v
  /-- What quotient and remainder are to each other. -/
  division : ∀ a b v w, apply "/" a b = .ok v → apply "%" a b = .ok w →
    ∃ i j q m : Int64, a = .int i ∧ b = .int j ∧ v = .int q ∧ w = .int m ∧
      i.toInt = q.toInt * j.toInt + m.toInt ∧ m.toInt.natAbs < j.toInt.natAbs ∧
      (m.toInt = 0 ∨ m.toInt.sign = i.toInt.sign)
  /-- The order of words is that of the integers. -/
  order : ∀ a b : Int64,
    apply "<" (.int a) (.int b) = .ok (.bool (decide (a.toInt < b.toInt))) ∧
    apply "<=" (.int a) (.int b) = .ok (.bool (decide (a.toInt ≤ b.toInt))) ∧
    apply ">" (.int a) (.int b) = .ok (.bool (decide (b.toInt < a.toInt))) ∧
    apply ">=" (.int a) (.int b) = .ok (.bool (decide (b.toInt ≤ a.toInt)))
  /-- Conjunction: only `false` counts as false. -/
  and : ∀ a b, (a = .bool false → apply "&&" a b = .ok (.bool false)) ∧
    (a ≠ .bool false → apply "&&" a b = .ok b)
  /-- Disjunction, likewise. -/
  or : ∀ a b, (a = .bool false → apply "||" a b = .ok b) ∧
    (a ≠ .bool false → apply "||" a b = .ok a)
  /-- Two values are equal or unequal, and not both. -/
  negation : ∀ a b, ∃ t, apply "==" a b = .ok (.bool t) ∧ apply "!=" a b = .ok (.bool !t)
  /-- Being equal is an equivalence. -/
  equality : Equivalence fun a b => apply "==" a b = .ok (.bool true)

/-! ### Words -/

theorem fitsWord_toInt (n : Int64) : FitsWord n.toInt := by
  have hle := n.le_toInt
  have hlt := n.toInt_lt
  exact ⟨by omega, by omega⟩

/-- A remainder is nearer to zero than the divisor. -/
theorem natAbs_tmod_lt (a : Int) {b : Int} (hb : b ≠ 0) : (a.tmod b).natAbs < b.natAbs := by
  rw [Int.natAbs_tmod]
  exact Nat.mod_lt _ (Int.natAbs_pos.mpr hb)

/-- Where the divisor fits in a word, the remainder does. -/
theorem fitsWord_tmod (a : Int) {b : Int} (hb : FitsWord b) (hne : b ≠ 0) :
    FitsWord (a.tmod b) := by
  have hlt := natAbs_tmod_lt a hne
  unfold FitsWord at hb ⊢
  omega

/-- A remainder is zero or on the same side of zero as the dividend. -/
theorem tmod_eq_zero_or_sign (a b : Int) : a.tmod b = 0 ∨ (a.tmod b).sign = a.sign := by
  have hsign := Int.sign_tmod a b
  split at hsign
  · exact .inl (Int.sign_eq_zero_iff_zero.mp hsign)
  · exact .inr hsign

namespace Value

/-! ### Results -/

theorem ofResult_of_fits (operation : Arithmetic) {r : Int} (h : FitsWord r) :
    ∃ n : Int64, n.toInt = r ∧ ofResult operation r = .ok (int n) := by
  have hword : Numeral.word? r = some (Int64.ofInt r) := if_pos h
  refine ⟨_, Numeral.toInt_of_word? hword, ?_⟩
  rw [ofResult, hword]

theorem ofResult_of_not_fits {operation : Arithmetic} {r : Int} (h : ¬ FitsWord r) :
    ofResult operation r = .error (.integerOverflow operation) := by
  have hword : Numeral.word? r = none := if_neg h
  rw [ofResult, hword]

theorem ofResult_eq_error_iff {operation : Arithmetic} {r : Int} {e : EvalError} :
    ofResult operation r = .error e ↔ ¬ FitsWord r ∧ e = .integerOverflow operation := by
  by_cases hr : FitsWord r
  · obtain ⟨n, -, hn⟩ := ofResult_of_fits operation hr
    simp [hn, hr]
  · simp [ofResult_of_not_fits hr, hr, eq_comm]

theorem ofResult_ne_zeroDivision {operation : Arithmetic} {r : Int} :
    ofResult operation r ≠ .error .zeroDivision := by
  intro h
  cases (ofResult_eq_error_iff.mp h).2

theorem ofResult_eq_ok_iff {operation : Arithmetic} {r : Int} {v : Value} :
    ofResult operation r = .ok v ↔ ∃ n : Int64, n.toInt = r ∧ v = int n := by
  constructor
  · intro h
    by_cases hr : FitsWord r
    · obtain ⟨n, hn, hok⟩ := ofResult_of_fits operation hr
      cases hok.symm.trans h
      exact ⟨n, hn, rfl⟩
    · cases (ofResult_of_not_fits hr).symm.trans h
  · rintro ⟨n, rfl, rfl⟩
    rw [ofResult, Numeral.word?_toInt]

/-! ### Operators on integers -/

theorem toInt_of_not_isInt {v : Value} (h : ¬ v.IsInt) : v.toInt = .error (.notANumber v.text) := by
  cases v with
  | int n => exact absurd ⟨n, rfl⟩ h
  | _ => rfl

/-- The operators that take integers only do so in one way. -/
theorem exists_onInts {symbol : String} (h : symbol ∈ integerSymbols) :
    ∃ f, ∀ a b, operateSymbol symbol a b = onInts a b f := by
  simp only [integerSymbols, List.mem_cons, List.not_mem_nil, or_false] at h
  rcases h with rfl | rfl | rfl | rfl | rfl | rfl | rfl | rfl | rfl <;> exact ⟨_, fun _ _ => rfl⟩

theorem onInts_left {a : Value} (ha : ¬ a.IsInt) (b : Value)
    (f : Int → Int → Except EvalError Value) : onInts a b f = .error (.notANumber a.text) := by
  rw [onInts, toInt_of_not_isInt ha]
  rfl

theorem onInts_right (a : Int64) {b : Value} (hb : ¬ b.IsInt)
    (f : Int → Int → Except EvalError Value) :
    onInts (int a) b f = .error (.notANumber b.text) := by
  rw [onInts, toInt_of_not_isInt hb]
  rfl

/-- Where there is a result, both operands are integers. -/
theorem exists_int_of_operateSymbol {symbol : String} (h : symbol ∈ integerSymbols) {a b v : Value}
    (hv : operateSymbol symbol a b = .ok v) : ∃ i j : Int64, a = int i ∧ b = int j := by
  obtain ⟨f, hf⟩ := exists_onInts h
  rw [hf] at hv
  by_cases ha : a.IsInt
  · obtain ⟨i, rfl⟩ := ha
    by_cases hb : b.IsInt
    · obtain ⟨j, rfl⟩ := hb
      exact ⟨i, j, rfl, rfl⟩
    · cases (onInts_right i hb f).symm.trans hv
  · cases (onInts_left ha b f).symm.trans hv

section Integers

variable {a b : Int64} {v : Value}

theorem operateSymbol_arithmetic {operation : Arithmetic} (hne : operation ≠ .remainder)
    (hzero : operation = .division → b.toInt ≠ 0) :
    operateSymbol operation.symbol (int a) (int b) =
      ofResult operation (operation.exact a.toInt b.toInt) := by
  cases operation with
  | division => exact if_neg (hzero rfl)
  | remainder => exact absurd rfl hne
  | _ => rfl

theorem operateSymbol_div :
    operateSymbol "/" (int a) (int b) =
      if b.toInt = 0 then .error .zeroDivision
      else ofResult .division (a.toInt.tdiv b.toInt) :=
  rfl

theorem operateSymbol_mod :
    operateSymbol "%" (int a) (int b) =
      if b.toInt = 0 then .error .zeroDivision
      else ofResult .remainder (a.toInt.tdiv b.toInt) >>= fun _ =>
        ofResult .remainder (a.toInt.tmod b.toInt) :=
  rfl

theorem operateSymbol_zeroDivision_iff {symbol : String} (h : symbol ∈ ["/", "%"]) :
    operateSymbol symbol (int a) (int b) = .error .zeroDivision ↔ b.toInt = 0 := by
  by_cases hb : b.toInt = 0
  · simp only [hb, iff_true]
    rcases List.mem_pair.mp h with rfl | rfl
    · exact if_pos hb
    · exact if_pos hb
  · simp only [hb, iff_false]
    rcases List.mem_pair.mp h with rfl | rfl
    · rw [operateSymbol_div, if_neg hb]
      exact ofResult_ne_zeroDivision
    · rw [operateSymbol_mod, if_neg hb]
      cases hq : ofResult .remainder (a.toInt.tdiv b.toInt) with
      | ok q => exact ofResult_ne_zeroDivision
      | error e =>
        rintro ⟨⟩
        exact ofResult_ne_zeroDivision hq

theorem operateSymbol_div_eq_ok_iff :
    operateSymbol "/" (int a) (int b) = .ok v ↔
      b.toInt ≠ 0 ∧ ∃ q : Int64, q.toInt = a.toInt.tdiv b.toInt ∧ v = int q := by
  rw [operateSymbol_div]
  split
  · next hzero => simp [hzero]
  · next hzero => simp [hzero, ofResult_eq_ok_iff]

/-- A remainder is refused where the quotient is, and fits in a word elsewhere. -/
theorem operateSymbol_mod_eq_ok_iff :
    operateSymbol "%" (int a) (int b) = .ok v ↔
      b.toInt ≠ 0 ∧ FitsWord (a.toInt.tdiv b.toInt) ∧
        ∃ m : Int64, m.toInt = a.toInt.tmod b.toInt ∧ v = int m := by
  rw [operateSymbol_mod]
  split
  · next hzero => simp [hzero]
  · next hzero =>
    by_cases hfits : FitsWord (a.toInt.tdiv b.toInt)
    · obtain ⟨q, -, hq⟩ := ofResult_of_fits .remainder hfits
      rw [hq]
      simpa [hzero, hfits, bind, Except.bind] using ofResult_eq_ok_iff
    · rw [ofResult_of_not_fits hfits]
      simp [hfits, bind, Except.bind]

/-- There is a quotient just if it fits. -/
theorem exists_operateSymbol_div_iff :
    (∃ v, operateSymbol "/" (int a) (int b) = .ok v) ↔
      b.toInt ≠ 0 ∧ FitsWord (a.toInt.tdiv b.toInt) := by
  simp only [operateSymbol_div_eq_ok_iff]
  constructor
  · rintro ⟨v, hb, q, hq, -⟩
    exact ⟨hb, hq ▸ fitsWord_toInt q⟩
  · rintro ⟨hb, hfits⟩
    obtain ⟨q, hq, -⟩ := ofResult_of_fits .division hfits
    exact ⟨_, hb, q, hq, rfl⟩

theorem exists_operateSymbol_mod_iff :
    (∃ v, operateSymbol "%" (int a) (int b) = .ok v) ↔
      b.toInt ≠ 0 ∧ FitsWord (a.toInt.tdiv b.toInt) := by
  simp only [operateSymbol_mod_eq_ok_iff]
  constructor
  · rintro ⟨v, hb, hfits, -⟩
    exact ⟨hb, hfits⟩
  · rintro ⟨hb, hfits⟩
    have hmod := fitsWord_tmod a.toInt (fitsWord_toInt b) hb
    obtain ⟨m, hm, -⟩ := ofResult_of_fits .remainder hmod
    exact ⟨_, hb, hfits, m, hm, rfl⟩

end Integers

/-! ### Truth and equality -/

theorem isTruthy_of_ne {v : Value} (h : v ≠ bool false) : v.isTruthy = true := by
  cases v with
  | bool b =>
    cases b with
    | false => exact absurd rfl h
    | true => rfl
  | _ => rfl

theorem operateSymbol_and (a b : Value) :
    operateSymbol "&&" a b = .ok (if a.isTruthy then b else absent) :=
  rfl

theorem operateSymbol_or (a b : Value) :
    operateSymbol "||" a b = .ok (if a.isTruthy then a else b) :=
  rfl

/-- What equality looks at. -/
inductive Identity where
  | int (n : Int64)
  | str (s : String)
  | bool (b : Bool)
  | closure (label : Nat) (frame : FrameId)
  | host (id : Nat)

/-- What equality looks at in a value: of a function its literal and its frame. -/
def identity : Value → Identity
  | int n => .int n
  | str s => .str s
  | bool b => .bool b
  | closure lambda frame => .closure lambda.label frame
  | host _ id => .host id

theorem same_iff (a b : Value) : a.same b = true ↔ a.identity = b.identity := by
  cases a <;> cases b <;> simp [same, identity]

theorem operateSymbol_eq_same (a b : Value) :
    operateSymbol "==" a b = .ok (bool true) ↔ a.identity = b.identity := by
  have hdef : operateSymbol "==" a b = .ok (bool (a.same b)) := rfl
  rw [hdef, ← same_iff]
  simp

/-! ### Symbols -/

theorem symbol_of_ofSymbol? {symbol : String} {op : BinaryOp}
    (h : BinaryOp.ofSymbol? symbol = some op) : symbol = op.symbol := by
  unfold BinaryOp.ofSymbol? at h
  split at h <;> cases h <;> rfl

theorem ofSymbol?_eq_none_iff (symbol : String) :
    BinaryOp.ofSymbol? symbol = none ↔ symbol ∉ operatorSymbols := by
  constructor
  · intro h hmem
    have hknown : ∀ s ∈ operatorSymbols, (BinaryOp.ofSymbol? s).isSome := by decide
    simpa [h] using hknown symbol hmem
  · intro h
    cases hop : BinaryOp.ofSymbol? symbol with
    | none => rfl
    | some op =>
      rw [symbol_of_ofSymbol? hop] at h
      exact absurd (by cases op <;> decide) h

theorem operateSymbol_unknown_iff (symbol : String) (a b : Value) (found : String) :
    operateSymbol symbol a b = .error (.unknownOperator found) ↔
      symbol ∉ operatorSymbols ∧ found = symbol := by
  rw [← ofSymbol?_eq_none_iff]
  unfold operateSymbol
  cases hop : BinaryOp.ofSymbol? symbol with
  | none => simp [eq_comm]
  | some op =>
    simp only [reduceCtorEq, false_and, iff_false]
    intro h
    cases isArithmetic_of_operate h

/-! ### Exactness -/

/-- **The evaluation of operators is exact**, and there is a fixed order among its errors. -/
theorem operateSymbol_exact : ExactOperators operateSymbol where
  unknown := operateSymbol_unknown_iff
  left symbol hsymbol a b ha := by
    obtain ⟨f, hf⟩ := exists_onInts hsymbol
    rw [hf, onInts_left ha]
  right symbol hsymbol a b hb := by
    obtain ⟨f, hf⟩ := exists_onInts hsymbol
    rw [hf, onInts_right a hb]
  zero symbol hsymbol a b := operateSymbol_zeroDivision_iff hsymbol
  fits operation hne a b hzero hfits := by
    rw [operateSymbol_arithmetic hne hzero]
    exact ofResult_of_fits operation hfits
  overflow operation hne a b hzero := by
    rw [operateSymbol_arithmetic hne hzero, ofResult_eq_error_iff]
    simp
  remainder a b := by
    constructor
    · rintro ⟨v, hv⟩
      obtain ⟨i, j, rfl, rfl⟩ := exists_int_of_operateSymbol (by decide) hv
      exact exists_operateSymbol_div_iff.mpr (exists_operateSymbol_mod_iff.mp ⟨v, hv⟩)
    · rintro ⟨v, hv⟩
      obtain ⟨i, j, rfl, rfl⟩ := exists_int_of_operateSymbol (by decide) hv
      exact exists_operateSymbol_mod_iff.mpr (exists_operateSymbol_div_iff.mp ⟨v, hv⟩)
  division a b v w hv hw := by
    obtain ⟨i, j, rfl, rfl⟩ := exists_int_of_operateSymbol (by decide) hv
    obtain ⟨hj, q, hq, rfl⟩ := operateSymbol_div_eq_ok_iff.mp hv
    obtain ⟨-, -, m, hm, rfl⟩ := operateSymbol_mod_eq_ok_iff.mp hw
    refine ⟨i, j, q, m, rfl, rfl, rfl, rfl, ?_⟩
    rw [hq, hm]
    exact ⟨(Int.tdiv_mul_add_tmod i.toInt j.toInt).symm, natAbs_tmod_lt i.toInt hj,
      tmod_eq_zero_or_sign i.toInt j.toInt⟩
  order a b := ⟨rfl, rfl, rfl, rfl⟩
  and a b := by
    rw [operateSymbol_and]
    refine ⟨?_, fun ha => by rw [if_pos (isTruthy_of_ne ha)]⟩
    rintro rfl
    rfl
  or a b := by
    rw [operateSymbol_or]
    refine ⟨?_, fun ha => by rw [if_pos (isTruthy_of_ne ha)]⟩
    rintro rfl
    rfl
  negation a b := ⟨a.same b, rfl, rfl⟩
  equality := by
    simp only [operateSymbol_eq_same]
    exact ⟨fun _ => rfl, Eq.symm, Eq.trans⟩

end Value

end LetLambda
