import LetLambda.Name

/-!
# Generated names

Names for the functions that a transform makes. A generated name starts with a letter that no
name of a source text contains, and ends in a number that is given out once.
-/

namespace LetLambda

/-- A supply of names. -/
structure Symbols where
  /-- How many names have been given out. -/
  issued : Nat
deriving DecidableEq, Repr

namespace Symbols

/-- The supply that has given out nothing. -/
def new : Symbols := ⟨0⟩

/-- What every generated name starts with. -/
def sign : String := "β_"

/-- The name with a stem and a number. -/
def nameOf (stem : String) (number : Nat) : Name := sign ++ stem ++ toString number

/-- Gives out the next name with a stem. -/
def fresh (stem : String) (symbols : Symbols) : Name × Symbols :=
  (nameOf stem (symbols.issued + 1), ⟨symbols.issued + 1⟩)

end Symbols

end LetLambda
