/-!
# String literals

The form in which a text stands in a program: between double quotes, with a backslash before
every quote and every backslash in it. All other characters, line ends among them, stand for
themselves.
-/

namespace LetLambda.Text

/-- One character of a string literal. -/
def literalChar (c : Char) : List Char :=
  if c = '"' ∨ c = '\\' then ['\\', c] else [c]

/-- A text as a string literal. -/
def literal (s : String) : String :=
  String.ofList ('"' :: s.toList.flatMap literalChar ++ ['"'])

end LetLambda.Text
