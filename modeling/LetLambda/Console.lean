/-!
# The console

Where printed text goes: it is kept, or it is dropped.
-/

namespace LetLambda

/-- A place for printed text. -/
inductive Console where
  /-- Keeps the text printed so far. -/
  | buffer (text : String)
  /-- Drops all text. -/
  | silent
deriving DecidableEq, Repr

namespace Console

/-- A console that has kept nothing yet. -/
def empty : Console := buffer ""

/-- Prints a text. -/
def print (s : String) : Console → Console
  | buffer text => buffer (text ++ s)
  | silent => silent

/-- Prints a text and ends the line. -/
def printLine (s : String) (console : Console) : Console := (console.print s).print "\n"

/-- The text kept so far. -/
def captured : Console → String
  | buffer text => text
  | silent => ""

/-- Forgets the text kept so far. -/
def clear : Console → Console
  | buffer _ => empty
  | silent => silent

end Console

end LetLambda
