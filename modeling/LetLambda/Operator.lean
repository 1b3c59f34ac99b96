/-!
# Binary operators

The operators that a binary term may be evaluated with. A term keeps its operator as a symbol;
this table decides which symbols mean something and how tightly they bind.
-/

namespace LetLambda

/-- An operator with two operands. -/
inductive BinaryOp where
  | add | sub | mul | div | mod
  | eq | ne | lt | le | gt | ge
  | and | or
deriving DecidableEq, Repr

namespace BinaryOp

/-- The operator written as a symbol, if there is one. -/
def ofSymbol? : String → Option BinaryOp
  | "+" => some add
  | "-" => some sub
  | "*" => some mul
  | "/" => some div
  | "%" => some mod
  | "==" => some eq
  | "!=" => some ne
  | "<" => some lt
  | "<=" => some le
  | ">" => some gt
  | ">=" => some ge
  | "&&" => some and
  | "||" => some or
  | _ => none

/-- How the operator is written. -/
def symbol : BinaryOp → String
  | add => "+"
  | sub => "-"
  | mul => "*"
  | div => "/"
  | mod => "%"
  | eq => "=="
  | ne => "!="
  | lt => "<"
  | le => "<="
  | gt => ">"
  | ge => ">="
  | and => "&&"
  | or => "||"

/-- How tightly the operator binds. -/
def precedence : BinaryOp → Nat
  | or => 2
  | and => 3
  | eq | ne | lt | le | gt | ge => 7
  | add | sub => 10
  | mul | div | mod => 20

theorem ofSymbol?_symbol (op : BinaryOp) : ofSymbol? op.symbol = some op := by
  cases op <;> rfl

end BinaryOp

/-- The symbol of assignment, which stands between its two sides as an operator does. -/
def assignSymbol : String := "="

/-- How tightly a symbol binds between two operands, if it can stand there. Assignment binds
less tightly than every operator. -/
def bindingPower? (symbol : String) : Option Nat :=
  if symbol = assignSymbol then some 1 else (BinaryOp.ofSymbol? symbol).map BinaryOp.precedence

end LetLambda
