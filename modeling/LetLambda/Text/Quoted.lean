import LetLambda.Text.Unprintable

/-!
# Quoted text

The form in which a text stands inside a message: between double quotes, on one line, with
nothing in it that a terminal would swallow. A quote or a backslash is written after a
backslash, the four common control characters have a letter, and every other character without
a picture is written by its number in hexadecimal digits between braces.
-/

namespace LetLambda.Text

/-- A character written by its number, such as `\u{301}`. -/
def byNumber (c : Char) : List Char :=
  ['\\', 'u', '\x7b'] ++ Nat.toDigits 16 c.toNat ++ ['\x7d']

/-- One character of a quoted text. -/
def quotedChar (c : Char) : List Char :=
  if c = '"' then ['\\', '"']
  else if c = '\\' then ['\\', '\\']
  else if c = '\x00' then ['\\', '0']
  else if c = '\t' then ['\\', 't']
  else if c = '\r' then ['\\', 'r']
  else if c = '\n' then ['\\', 'n']
  else if isUnprintable c then byNumber c
  else [c]

/-- A text between double quotes. -/
def quoted (s : String) : String :=
  String.ofList ('"' :: s.toList.flatMap quotedChar ++ ['"'])

end LetLambda.Text
