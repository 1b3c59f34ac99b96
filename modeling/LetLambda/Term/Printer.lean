import LetLambda.Term.Basic
import LetLambda.Text.Literal

/-!
# Written terms

The text of a term. Everything made of parts stands in its own brackets, so how a text reads
never depends on how tightly its operators bind.
-/

namespace LetLambda.Term

variable {ι : Type}

mutual

/-- The text of a term. -/
def text : Term ι → String
  | int n => toString n.toInt
  | str s => Text.literal s
  | bool true => "true"
  | bool false => "false"
  | var x => x
  | assign target value => "(" ++ target.text ++ " = " ++ value.text ++ ")"
  | binary op left right => "(" ++ left.text ++ " " ++ op ++ " " ++ right.text ++ ")"
  | negate body => "(!" ++ body.text ++ ")"
  | seq [] => "\x7b\x7d"
  | seq (item :: items) =>
    "\x7b " ++ String.intercalate "; " (item.text :: texts items) ++ " \x7d"
  | call callee args => callee.text ++ "(" ++ String.intercalate ", " (texts args) ++ ")"
  | function _ none params body =>
    "(lambda (" ++ String.intercalate ", " params ++ ") " ++ body.text ++ ")"
  | function _ (some name) params body =>
    "(lambda " ++ name ++ " (" ++ String.intercalate ", " params ++ ") " ++ body.text ++ ")"
  | conditional test consequent none =>
    "(if " ++ test.text ++ " then " ++ consequent.text ++ ")"
  | conditional test consequent (some alternative) =>
    "(if " ++ test.text ++ " then " ++ consequent.text ++ " else " ++ alternative.text ++ ")"
  | declare bindings body =>
    "(let (" ++ String.intercalate ", " (bindingTexts bindings) ++ ") " ++ body.text ++ ")"
termination_by structural t => t

/-- The texts of terms. -/
def texts : List (Term ι) → List String
  | [] => []
  | t :: ts => t.text :: texts ts
termination_by structural ts => ts

/-- The texts of bindings. -/
def bindingTexts : List (Binding (Term ι)) → List String
  | [] => []
  | ⟨x, none⟩ :: bs => x :: bindingTexts bs
  | ⟨x, some t⟩ :: bs => (x ++ " = " ++ t.text) :: bindingTexts bs
termination_by structural bs => bs

end

end LetLambda.Term
