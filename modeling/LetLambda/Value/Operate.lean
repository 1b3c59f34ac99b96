import LetLambda.EvalError
import LetLambda.Numeral
import LetLambda.Operator
import LetLambda.Value

/-!
# Operators on values

Arithmetic and order take integers, and arithmetic is exact or fails: a result that does not fit
in a word is an overflow. Equality and the logical operators take anything; the latter give back
one of their operands. Both operands have been evaluated before an operator sees them.
-/

namespace LetLambda.Value

/-- The integer that a value is. -/
def toInt : Value → Except EvalError Int
  | int n => .ok n.toInt
  | v => .error (.notANumber v.text)

/-- The result of an arithmetic operation, unless it does not fit in a word. -/
def ofResult (operation : Arithmetic) (result : Int) : Except EvalError Value :=
  match Numeral.word? result with
  | some n => .ok (int n)
  | none => .error (.integerOverflow operation)

/-- Applies an operator to two integers, of which the left one is looked at first. -/
def onInts (left right : Value) (f : Int → Int → Except EvalError Value) :
    Except EvalError Value := do
  let a ← left.toInt
  let b ← right.toInt
  f a b

/-- The result of an operator. Division goes toward zero, and a remainder is refused where the
quotient is. -/
def operate (op : BinaryOp) (left right : Value) : Except EvalError Value :=
  match op with
  | .and => .ok (if left.isTruthy then right else absent)
  | .or => .ok (if left.isTruthy then left else right)
  | .eq => .ok (bool (left.same right))
  | .ne => .ok (bool (!left.same right))
  | .add => onInts left right fun a b => ofResult .addition (a + b)
  | .sub => onInts left right fun a b => ofResult .subtraction (a - b)
  | .mul => onInts left right fun a b => ofResult .multiplication (a * b)
  | .div => onInts left right fun a b =>
    if b = 0 then .error .zeroDivision else ofResult .division (a.tdiv b)
  | .mod => onInts left right fun a b =>
    if b = 0 then .error .zeroDivision
    else do
      let _ ← ofResult .remainder (a.tdiv b)
      ofResult .remainder (a.tmod b)
  | .lt => onInts left right fun a b => .ok (bool (a < b))
  | .le => onInts left right fun a b => .ok (bool (a ≤ b))
  | .gt => onInts left right fun a b => .ok (bool (a > b))
  | .ge => onInts left right fun a b => .ok (bool (a ≥ b))

/-- The result of the operator that a symbol stands for. -/
def operateSymbol (symbol : String) (left right : Value) : Except EvalError Value :=
  match BinaryOp.ofSymbol? symbol with
  | some op => operate op left right
  | none => .error (.unknownOperator symbol)

end LetLambda.Value
