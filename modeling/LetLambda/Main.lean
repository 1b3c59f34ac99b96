import LetLambda.CommandLine

/-!
# The program

Reads the file that the arguments name, does what they ask for, and writes what a running
program prints while it runs.
-/

namespace LetLambda

/-- Reads a file as a text. -/
def readText (path : String) : IO (Except ReadError String) := do
  try
    let bytes ← IO.FS.readBinFile path
    match String.fromUTF8? bytes with
    | some text => return .ok text
    | none => return .error .notText
  catch e =>
    match e with
    | .noFileOrDirectory .. => return .error .notFound
    | .inappropriateType .. => return .error .isDirectory
    | e => return .error (.other (toString e))

/-- The contents of the file that a request names, if it names one. -/
def Request.readFile (request : Request) : IO (Except ReadError String) :=
  match request.path? with
  | some path => readText path
  | none => return .error .notFound

/-- Works on a job to its end. -/
partial def Job.drive (output errors : IO.FS.Stream) (job : Job) : IO UInt32 := do
  match job.advance 65536 with
  | .done a =>
    output.putStr a.output
    output.flush
    errors.putStr a.errors
    return UInt32.ofNat a.status
  | job =>
    let (text, job) := job.takeOutput
    output.putStr text
    output.flush
    job.drive output errors

end LetLambda

open LetLambda in
/-- Does what the arguments ask for. -/
def main (args : List String) : IO UInt32 := do
  let request := Request.ofArgs args
  let setting? ← IO.getEnv "LAM_MAX_DEPTH"
  let contents ← request.readFile
  (Job.start setting? contents request).drive (← IO.getStdout) (← IO.getStderr)
