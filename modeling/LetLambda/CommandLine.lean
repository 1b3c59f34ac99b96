import LetLambda.Command

/-!
# The command line

Arguments ask for something (`Request`), which leads to a job: an answer, or a run that is still
going on. An answer is a status and what is written to the two output streams.
-/

namespace LetLambda

/-- An answer to a command line. -/
structure Answer where
  /-- Zero if all went well. -/
  status : Nat
  /-- What is written to the output. -/
  output : String
  /-- What is written about errors. -/
  errors : String
deriving DecidableEq, Repr

namespace Answer

/-- An answer to something that went well. -/
def success (output : String) : Answer := ⟨0, output, ""⟩

/-- Lines as a text. -/
def lines (ls : List String) : String := String.join (ls.map (· ++ "\n"))

/-- How the program is used. -/
def usage : String := lines
  ["lam - a small expression language",
    "",
    "Usage: lam <command> [options]",
    "",
    "Commands:",
    "  run <file>       Evaluate a program and print its value",
    "  cps <file>       Print the continuation-passing form of a program",
    "  parse <file>     Print the parsed tree",
    "  lex <file>       Print the token stream",
    "  help             Show this help message",
    "  version          Show version information",
    "",
    "Run options:",
    "  --cps            Transform to continuation-passing form before running",
    "  --max-depth=N    Nested steps allowed before the evaluator bounces",
    "                   (default: $LAM_MAX_DEPTH, then 200)",
    "  --no-prelude     Do not define print and println",
    "",
    "Set RUST_LOG (e.g. RUST_LOG=lam_eval=debug) to trace evaluation."]

/-- How the command for runs is used. -/
def runUsage : String := "Usage: lam run [--cps] [--max-depth=N] [--no-prelude] <file>"

/-- An answer to something that failed after some output. How to use the command for runs is told
to whoever used it wrongly. -/
def failure (output : String) (e : CommandError) : Answer :=
  let hint := match e with
    | .usage _ => [runUsage]
    | _ => []
  ⟨1, output, lines (("error: " ++ e.message) :: hint)⟩

/-- The answer to a command that has nothing to say but its result. -/
def ofResult : Except CommandError String → Answer
  | .ok output => success output
  | .error e => failure "" e

end Answer

/-- What can be shown of a text without running it. -/
inductive View where
  | cps | parse | lex
deriving DecidableEq, Repr

namespace View

/-- The view that a command asks for. -/
def ofCommand? : String → Option View
  | "cps" => some cps
  | "parse" => some parse
  | "lex" => some lex
  | _ => none

/-- What is shown of a text. -/
def render (source : String) : View → Except CommandError String
  | cps => do
    let text ← Command.cpsText source
    return text ++ "\n"
  | parse => do
    let text ← Command.parseText source
    return text ++ "\n"
  | lex => do
    let ls ← Command.lexLines source
    return Answer.lines ls

end View

/-- What a command line asks for. -/
inductive Request where
  /-- Something that needs no file. -/
  | answer (answer : Answer)
  /-- To run a program. -/
  | run (options : RunOptions) (path : String)
  /-- To show something of a text. -/
  | view (view : View) (path : String)

namespace Request

/-- What the arguments after the name of the program ask for. Arguments after the path of a text
to be shown are not looked at. -/
def ofArgs : List String → Request
  | [] => answer (.success Answer.usage)
  | command :: args =>
    if command = "run" then
      match RunOptions.ofArgs args with
      | .ok (options, path) => run options path
      | .error e => answer (.failure "" (.usage e))
    else if command = "help" ∨ command = "--help" ∨ command = "-h" then
      answer (.success Answer.usage)
    else if command = "version" ∨ command = "--version" ∨ command = "-v" then
      answer (.success "lam 0.1.0\n")
    else match View.ofCommand? command, args with
      | some v, path :: _ => view v path
      | some _, [] => answer ⟨1, "", Answer.lines ["Usage: lam " ++ command ++ " <file>"]⟩
      | none, _ => answer ⟨1, Answer.usage, Answer.lines ["Unknown command: " ++ command, ""]⟩

/-- The file that is to be read. -/
def path? : Request → Option String
  | answer _ => none
  | run _ path => some path
  | view _ path => some path

end Request

/-- Work on a request: it is done, or a program is running. -/
inductive Job where
  | done (answer : Answer)
  | running (run : Run) (interpreter : Interpreter)

namespace Job

/-- Begins to work on a request, given the setting for the limit on nested calls and the contents
of the file. -/
def start (setting? : Option String) (contents : Except ReadError String) : Request → Job
  | .answer a => done a
  | .view v path =>
    done (.ofResult (do
      let source ← contents.mapError (.read path)
      v.render source))
  | .run options path =>
    let begun : Except CommandError (Run × Interpreter) := do
      let source ← contents.mapError (.read path)
      Command.start options setting? source
    match begun with
    | .ok (run, i) => running run i
    | .error e => done (.failure "" e)

/-- The answer when a run has ended: what it printed, and then its value. -/
def ended (run : Ended) : Answer :=
  let output := run.world.console.captured
  match Command.value run with
  | .ok v => .success (output ++ v.text ++ "\n")
  | .error e => .failure output e

/-- Works on for at most `n` steps. -/
def advance (n : Nat) : Job → Job
  | done a => done a
  | running run i =>
    match run.advance i.host (fun _ => .ok ()) n with
    | .running run => running run i
    | .ended run => done (ended run)

/-- Takes what a running program has printed so far. -/
def takeOutput : Job → String × Job
  | done a => ("", done a)
  | running run i =>
    (run.world.console.captured,
      running { run with world := { run.world with console := run.world.console.clear } } i)

/-- The answer to a request, unless a program does not end within `fuel` steps. -/
def answer? (fuel : Nat) (job : Job) : Option Answer :=
  match job.advance fuel with
  | done a => some a
  | running .. => none

end Job

end LetLambda
