import LetLambda.Term.Basic
import LetLambda.Text.Quoted

/-!
# Values

What a term evaluates to. A function is a literal together with the frame in which it was met;
a host function is supplied from outside and known by its number.
-/

namespace LetLambda

/-- The number of a frame in the store. -/
abbrev FrameId := Nat

/-- A function literal of a numbered tree. -/
structure Lambda where
  /-- The number of the literal. -/
  label : Nat
  /-- The name by which the function calls itself. -/
  name? : Option Name
  /-- The parameters. -/
  params : List Name
  /-- The body. -/
  body : Code

/-- A value. -/
inductive Value where
  | int (value : Int64)
  | str (value : String)
  | bool (value : Bool)
  | closure (lambda : Lambda) (frame : FrameId)
  | host (name : Name) (id : Nat)

namespace Value

/-- The value that stands for every part left out. -/
def absent : Value := bool false

/-- Every value but `false` counts as true. -/
def isTruthy : Value → Bool
  | bool false => false
  | _ => true

/-- The word for the kind of a value. -/
def kind : Value → String
  | int _ => "integer"
  | str _ => "string"
  | bool _ => "boolean"
  | closure .. => "function"
  | host .. => "host function"

/-- Equality of values: by content, except that functions are equal when they come from the same
literal in the same frame, and host functions when they are one and the same. -/
def same : Value → Value → Bool
  | int a, int b => a = b
  | str a, str b => a = b
  | bool a, bool b => a = b
  | closure f i, closure g j => f.label = g.label && i = j
  | host _ i, host _ j => i = j
  | _, _ => false

/-- How a value is shown. -/
def text : Value → String
  | int n => toString n.toInt
  | str s => s
  | bool true => "true"
  | bool false => "false"
  | closure f _ =>
    match f.name? with
    | some name => "<lambda " ++ name ++ ">"
    | none => "<lambda>"
  | host name _ => "<host " ++ name ++ ">"

/-- How a value is shown where strings are told from other texts by their quotes. -/
def quotedText : Value → String
  | str s => Text.quoted s
  | v => v.text

end Value

end LetLambda
