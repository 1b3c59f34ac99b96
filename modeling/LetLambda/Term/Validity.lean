import LetLambda.Term.Basic

/-!
# Well-formed terms

A term that did not come from a text may hold an empty name. Such a term is neither run nor
transformed; the first empty name, in the order in which the parts of a term are written, is
what is reported.
-/

namespace LetLambda

/-- Which name of a malformed term is empty. -/
inductive Malformed where
  | variableName | operator | functionName | parameterName | bindingName
deriving DecidableEq, Repr

namespace Malformed

/-- The kind of the term that holds the empty name. -/
def kind : Malformed → String
  | variableName => "variable"
  | operator => "binary"
  | functionName | parameterName => "function"
  | bindingName => "let"

/-- What is wrong with it. -/
def reason : Malformed → String
  | variableName => "empty variable name"
  | operator => "empty operator"
  | functionName => "empty function name"
  | parameterName => "empty parameter name"
  | bindingName => "empty binding name"

/-- What is said of it. -/
def message (m : Malformed) : String := "malformed " ++ m.kind ++ " node: " ++ m.reason

/-- Refuses an empty name. -/
def unlessNamed (m : Malformed) (name : Name) : Except Malformed Unit :=
  if name = "" then .error m else .ok ()

/-- Refuses an empty name in a list of parameters. -/
def checkParams : List Name → Except Malformed Unit
  | [] => .ok ()
  | x :: xs => do
    parameterName.unlessNamed x
    checkParams xs

/-- Refuses a function that is named by an empty name. -/
def checkFunctionName : Option Name → Except Malformed Unit
  | none => .ok ()
  | some f => functionName.unlessNamed f

end Malformed

namespace Term

variable {ι : Type}

mutual

/-- Finds the first empty name of a term. -/
def check : Term ι → Except Malformed Unit
  | int _ | str _ | bool _ => .ok ()
  | var x => Malformed.variableName.unlessNamed x
  | assign target value => do
    target.check
    value.check
  | binary op left right => do
    Malformed.operator.unlessNamed op
    left.check
    right.check
  | negate body => body.check
  | seq items => checkAll items
  | call callee args => do
    callee.check
    checkAll args
  | function _ name? params body => do
    Malformed.checkFunctionName name?
    Malformed.checkParams params
    body.check
  | conditional test consequent none => do
    test.check
    consequent.check
  | conditional test consequent (some alternative) => do
    test.check
    consequent.check
    alternative.check
  | declare bindings body => do
    checkBindings bindings
    body.check
termination_by structural t => t

/-- Finds the first empty name of a list of terms. -/
def checkAll : List (Term ι) → Except Malformed Unit
  | [] => .ok ()
  | t :: ts => do
    t.check
    checkAll ts
termination_by structural ts => ts

/-- Finds the first empty name of a list of bindings. -/
def checkBindings : List (Binding (Term ι)) → Except Malformed Unit
  | [] => .ok ()
  | ⟨x, none⟩ :: bs => do
    Malformed.bindingName.unlessNamed x
    checkBindings bs
  | ⟨x, some t⟩ :: bs => do
    Malformed.bindingName.unlessNamed x
    t.check
    checkBindings bs
termination_by structural bs => bs

end

end Term

end LetLambda
