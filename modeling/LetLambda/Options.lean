import LetLambda.Machine.Trampoline
import LetLambda.Numeral
import LetLambda.Text.Blank

/-!
# Options of a run

What may stand before and after the path of a program, and where the limit on nested calls comes
from: an option, else a setting of the surroundings, else a fixed number.
-/

namespace LetLambda

/-- How a program is to be run. -/
structure RunOptions where
  /-- Whether it is brought into continuation-passing form first. -/
  cps : Bool
  /-- The limit on nested calls, if one is asked for. -/
  maxDepth? : Option Nat
  /-- Whether the names of the prelude are bound. -/
  prelude : Bool
deriving DecidableEq, Repr

/-- What is wrong with the arguments of a run. -/
inductive UsageError where
  | invalidDepth (text : String)
  | unknownOption (arg : String)
  | unexpectedArgument (arg : String)
  | missingPath
deriving DecidableEq, Repr

/-- What is said of it. -/
def UsageError.message : UsageError → String
  | invalidDepth text => "invalid --max-depth value '" ++ text ++ "'"
  | unknownOption arg => "unknown option '" ++ arg ++ "'"
  | unexpectedArgument arg => "unexpected argument '" ++ arg ++ "'"
  | missingPath => "missing file path"

namespace RunOptions

/-- The options when none are given. -/
def default : RunOptions := { cps := false, maxDepth? := none, prelude := true }

/-- What an option for the limit on nested calls starts with. -/
def depthOption : String := "--max-depth="

/-- Reads the arguments that are left, given the options and the path so far. -/
def read (options : RunOptions) (path? : Option String) :
    List String → Except UsageError (RunOptions × String)
  | [] =>
    match path? with
    | some path => .ok (options, path)
    | none => .error .missingPath
  | arg :: args =>
    if arg = "--cps" then read { options with cps := true } path? args
    else if arg = "--no-prelude" then read { options with prelude := false } path? args
    else match depthOption.toList.isPrefixOf? arg.toList with
      | some text =>
        match Numeral.count? text with
        | some depth => read { options with maxDepth? := some depth } path? args
        | none => .error (.invalidDepth (String.ofList text))
      | none =>
        if arg.toList.head? = some '-' then .error (.unknownOption arg)
        else match path? with
          | some _ => .error (.unexpectedArgument arg)
          | none => read options (some arg) args

/-- Reads options, in any order, around one path. -/
def ofArgs (args : List String) : Except UsageError (RunOptions × String) :=
  read default none args

/-- The limit that a setting of the surroundings asks for; blanks around it do not count, and a
text that is no number asks for nothing. -/
def settingDepth? (setting? : Option String) : Option Nat := do
  let setting ← setting?
  Numeral.count? (Text.trimmed setting.toList)

/-- The limit on nested calls: the one asked for, else that of the setting, else the default. -/
def maxDepth (options : RunOptions) (setting? : Option String) : Nat :=
  (options.maxDepth?.or (settingDepth? setting?)).getD Machine.defaultDepth

end RunOptions

end LetLambda
