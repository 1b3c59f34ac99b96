/-!
# Names

Names of variables, parameters and functions. A name in a source text is an ASCII letter or an
underscore followed by letters, digits and underscores; trees that do not come from a text, and
generated names, may use any text.
-/

namespace LetLambda

/-- The name of a variable, a parameter, a binding or a function. -/
abbrev Name := String

namespace Name

/-- A character with which a name of a source text starts. -/
def isStart (c : Char) : Bool :=
  ('a' ≤ c && c ≤ 'z') || ('A' ≤ c && c ≤ 'Z') || c == '_'

/-- A character of a name of a source text after its first. -/
def isPart (c : Char) : Bool := isStart c || ('0' ≤ c && c ≤ '9')

end Name

end LetLambda
