import LetLambda.Machine.Task

/-!
# The host functions of every program

`print` and `println` show their arguments with single spaces between them and return `false`.
-/

namespace LetLambda.HostFunction

/-- The texts of values with single spaces between them. -/
def spaced (args : List Value) : String := String.intercalate " " (args.map Value.text)

/-- Prints the arguments. -/
def print : HostFunction := fun args world =>
  (.ok .absent, { world with console := world.console.print (spaced args) })

/-- Prints the arguments and ends the line. -/
def println : HostFunction := fun args world =>
  (.ok .absent, { world with console := world.console.printLine (spaced args) })

end LetLambda.HostFunction
