import LetLambda.Grammar.Parser
import LetLambda.Operator
import LetLambda.Term.Basic

/-!
# The grammar of expressions

Expressions are read by descent, operators by how tightly they bind. Every parser here takes a
bound on the depth of the descent as its first argument.
-/

namespace LetLambda.Parser

/-- The term for a symbol between two operands. -/
def combine (symbol : String) (left right : Tree) : Tree :=
  if symbol = assignSymbol then .assign left right else .binary symbol left right

/-- The term for a block: nothing is `false`, and one item stands for itself. -/
def block : List Tree → Tree
  | [] => .absent
  | [t] => t
  | ts => .seq ts

/-- A name with its definition, if one follows. Another operator than that of assignment is
refused. -/
def binding (expression : Parser Tree) : Parser (Binding Tree) := do
  let x ← name
  match ← peek with
  | .operator symbol =>
    if symbol = assignSymbol then do
      skip
      let t ← expression
      return ⟨x, some t⟩
    else refuse (.operator assignSymbol)
  | _ => return ⟨x, none⟩

/-- The definitions of bindings, those left out being `false`. -/
def definitions (bindings : List (Binding Tree)) : List Tree :=
  bindings.map fun b => b.value?.getD .absent

/-- The term for a `let`. One that has a name is a function of that name applied at once: its
parameters are the names that are bound and its arguments are their definitions. -/
def letTerm (f? : Option Name) (bindings : List (Binding Tree)) (body : Tree) : Tree :=
  match f? with
  | some f => .call (.function () (some f) (bindings.map (·.name)) body) (definitions bindings)
  | none => .declare bindings body

/-- A name, if one is ahead. -/
def optionalName : Parser (Option Name) := do
  match ← peek with
  | .ident f =>
    skip
    return some f
  | _ => return none

/-- The word between a test and what follows it, which may be left out before a block. -/
def thenWord : Parser Unit := do
  if (← peek) = .punct .leftBrace then return () else keyword .then

mutual

/-- An expression: an operand, the operators after it, and the argument lists after all that. -/
def expression : Nat → Parser Tree
  | 0 => starve
  | n + 1 => do
    let operand ← atom n
    let t ← operators n operand 0
    calls n t

/-- Goes on after the operand `left` with the operators that bind more tightly than `floor`. -/
def operators : Nat → Tree → Nat → Parser Tree
  | 0, _, _ => starve
  | n + 1, left, floor => do
    match ← peek with
    | .operator symbol =>
      match bindingPower? symbol with
      | none => return left
      | some power =>
        if power ≤ floor then return left
        else
          skip
          let operand ← atom n
          let right ← operators n operand power
          operators n (combine symbol left right) floor
    | _ => return left

/-- The argument lists that follow a term, each making it a call. -/
def calls : Nat → Tree → Parser Tree
  | 0, _ => starve
  | n + 1, callee => do
    if (← peek) = .punct .leftParen then
      let args ← delimited n .leftParen .rightParen .comma (expression n)
      calls n (.call callee args)
    else return callee

/-- An operand with the argument lists after it. -/
def atom : Nat → Parser Tree
  | 0 => starve
  | n + 1 => do
    let t ← primary n
    calls n t

/-- An operand that is not a call. -/
def primary : Nat → Parser Tree
  | 0 => starve
  | n + 1 => do
    match ← peek with
    | .punct .leftParen =>
      skip
      let t ← expression n
      punct .rightParen
      return t
    | .punct .leftBrace =>
      let ts ← delimited n .leftBrace .rightBrace .semicolon (expression n)
      return block ts
    | .operator "!" =>
      skip
      let t ← expression n
      return .negate t
    | .keyword .let =>
      skip
      let f? ← optionalName
      let bs ← delimited n .leftParen .rightParen .comma (binding (expression n))
      let body ← expression n
      return letTerm f? bs body
    | .keyword .if =>
      skip
      let test ← expression n
      thenWord
      let consequent ← expression n
      if (← peek) = .keyword .else then
        skip
        let alternative ← expression n
        return .conditional test consequent (some alternative)
      else return .conditional test consequent none
    | .keyword .true =>
      skip
      return .bool true
    | .keyword .false =>
      skip
      return .bool false
    | .keyword .lambda =>
      skip
      let f? ← optionalName
      let params ← delimited n .leftParen .rightParen .comma name
      let body ← expression n
      return .function () f? params body
    | .ident x =>
      skip
      return .var x
    | .int value =>
      skip
      return .int value
    | .str value =>
      skip
      return .str value
    | _ => refuse .expression

end

/-- The expressions of a program up to the end of input. -/
def program : Nat → Parser (List Tree)
  | 0 => starve
  | n + 1 => do
    if (← peek) = .eof then return []
    else
      let t ← expression n
      if (← peek) = .eof then pure () else punct .semicolon
      let ts ← program n
      return t :: ts

/-- A depth that the program in `ts` never reaches. -/
def depthBound (ts : List Token) : Nat := 4 * ts.length + 4

end LetLambda.Parser
