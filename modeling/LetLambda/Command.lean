import LetLambda.Cps.Transform
import LetLambda.Grammar.Program
import LetLambda.Interpreter
import LetLambda.Options

/-!
# Commands on source texts

What can be done with the text of a program: run it, or show its tokens, its tree or its
continuation-passing form.
-/

namespace LetLambda

/-- Why a file could not be read as a text. -/
inductive ReadError where
  | notFound
  | isDirectory
  | notText
  | other (reason : String)
deriving DecidableEq, Repr

/-- What is said of it. -/
def ReadError.message : ReadError → String
  | notFound => "No such file or directory (os error 2)"
  | isDirectory => "Is a directory (os error 21)"
  | notText => "stream did not contain valid UTF-8"
  | other reason => reason

/-- Why a command failed. -/
inductive CommandError where
  | read (path : String) (cause : ReadError)
  | usage (cause : UsageError)
  | parse (cause : ParseError)
  | eval (cause : EvalError)
  | transform (cause : TransformError)

/-- What is said of it. -/
def CommandError.message : CommandError → String
  | read path cause => "cannot read '" ++ path ++ "': " ++ cause.message
  | usage cause => cause.message
  | parse cause => "parse error: " ++ cause.message
  | eval cause => "runtime error: " ++ cause.message
  | transform cause => "transform error: " ++ cause.message

namespace Command

/-- Reads a program. -/
def parse (source : String) : Except CommandError Tree := (Tree.ofText source).mapError .parse

/-- Brings a program into continuation-passing form. -/
def transform (t : Tree) : Except CommandError Tree := t.transform.mapError .transform

/-- The tokens of a text, each with its position, without the end of input. -/
def lexLines (source : String) : Except CommandError (List String) := do
  let tokens ← (Token.ofText source).mapError (fun e => .parse (.ofLexError e))
  let shown := tokens.filter (fun t => t.kind ≠ .eof)
  return shown.map fun t => t.position.text ++ " " ++ t.kind.text

/-- The text of the tree of a program. -/
def parseText (source : String) : Except CommandError String := do
  let t ← parse source
  return t.text

/-- The text of the continuation-passing form of a program. -/
def cpsText (source : String) : Except CommandError String := do
  let t ← parse source
  let u ← transform t
  return u.text

/-- An interpreter for programs that were brought into continuation-passing form or were not. -/
def interpreter (options : RunOptions) (setting? : Option String) : Interpreter :=
  let convention : Convention := if options.cps then .explicit else .implicit
  let i := Interpreter.new (options.maxDepth setting?) convention .empty
  if options.prelude then i.withPrelude else i

/-- Begins to run a program. -/
def start (options : RunOptions) (setting? : Option String) (source : String) :
    Except CommandError (Run × Interpreter) := do
  let t ← parse source
  let t ← if options.cps then transform t else pure t
  ((interpreter options setting?).start t).mapError .eval

/-- The value of a run that has ended. -/
def value (run : Ended) : Except CommandError Value :=
  run.value.mapError .eval

/-- Runs a program for its value, which comes with what was printed. There is nothing to tell if
the run has not ended after `fuel` steps. -/
def run (fuel : Nat) (options : RunOptions) (setting? : Option String) (source : String) :
    Option (Except CommandError Value × String) :=
  match start options setting? source with
  | .error e => some (.error e, "")
  | .ok (run, i) =>
    match run.advance i.host (fun _ => .ok ()) fuel with
    | .running _ => none
    | .ended run => some (value run, run.world.console.captured)

end Command

end LetLambda
