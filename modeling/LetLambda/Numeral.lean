/-!
# Decimal numerals

Reading decimal digits, and the two ranges that numbers of the language and its settings are
kept in: signed and unsigned 64-bit words.
-/

namespace LetLambda.Numeral

/-- A decimal digit. -/
def isDigit (c : Char) : Bool := '0' ≤ c && c ≤ '9'

/-- The number that a row of digits denotes. -/
def value (digits : List Char) : Nat :=
  digits.foldl (fun n c => 10 * n + (c.toNat - '0'.toNat)) 0

/-- An integer as a signed 64-bit word, if it is one. -/
def word? (n : Int) : Option Int64 :=
  if -9223372036854775808 ≤ n ∧ n ≤ 9223372036854775807 then some (Int64.ofInt n) else none

/-- The largest count: the largest unsigned 64-bit word. -/
def maxCount : Nat := 18446744073709551615

/-- Digits as a count, if there is one at least and the count is not too large. -/
def ofDigits? (digits : List Char) : Option Nat :=
  if digits.isEmpty || !digits.all isDigit then none
  else if value digits ≤ maxCount then some (value digits) else none

/-- A count written in digits, a plus sign before them being allowed. -/
def count? (text : List Char) : Option Nat :=
  match text with
  | '+' :: digits => ofDigits? digits
  | digits => ofDigits? digits

end LetLambda.Numeral
