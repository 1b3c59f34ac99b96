import LetLambda.Machine.Finale
import LetLambda.Prelude
import LetLambda.Term.Label
import LetLambda.Term.Validity

/-!
# Interpreters

An interpreter is a machine with a global frame, host functions and a console. What one program
defines there is seen by the next.
-/

namespace LetLambda

/-- An interpreter. -/
structure Interpreter where
  /-- The machine. -/
  machine : Machine
  /-- The frames and the console. -/
  world : World
  /-- The host functions, each at its number. -/
  hosts : Array HostFunction
  /-- The number of the next function literal. -/
  nextLabel : Nat

namespace Interpreter

/-- The global frame. -/
def globals : FrameId := 0

/-- An interpreter whose global frame is empty. -/
def new (maxDepth : Nat) (convention : Convention) (console : Console) : Interpreter :=
  { machine := Machine.new maxDepth convention
    world := { store := Store.empty.fresh.2, console }
    hosts := #[]
    nextLabel := 0 }

/-- Binds a global name. -/
def define (i : Interpreter) (x : Name) (v : Value) : Interpreter :=
  { i with world := { i.world with store := i.world.store.define globals x v } }

/-- Binds a global name to a new host function. -/
def defineHost (i : Interpreter) (x : Name) (f : HostFunction) : Interpreter :=
  { i.define x (.host x i.hosts.size) with hosts := i.hosts.push f }

/-- Binds the names of the prelude. -/
def withPrelude (i : Interpreter) : Interpreter :=
  (i.defineHost "print" HostFunction.print).defineHost "println" HostFunction.println

/-- The host functions by their numbers; a number that was never given out does nothing. -/
def host (i : Interpreter) : Hosts := fun id args world =>
  match i.hosts[id]? with
  | some f => f args world
  | none => (.ok .absent, world)

/-- The value of a global name. -/
def get (i : Interpreter) (x : Name) : Except EvalError Value := i.world.store.get globals x

/-- The console. -/
def console (i : Interpreter) : Console := i.world.console

/-- Forgets what has been printed. -/
def clearConsole (i : Interpreter) : Interpreter :=
  { i with world := { i.world with console := i.world.console.clear } }

/-- Numbers the function literals of a tree. What is loaded once and run twice has the same literals
both times. -/
def load (i : Interpreter) (t : Tree) : Code × Interpreter :=
  let (code, nextLabel) := t.label.run i.nextLabel
  (code, { i with nextLabel })

/-- Begins to run a tree in the global frame. A malformed tree is refused. -/
def start (i : Interpreter) (t : Tree) : Except EvalError (Run × Interpreter) :=
  let (code, i) := i.load t
  match i.machine.start i.world code globals with
  | .error e => .error e
  | .ok run => .ok (run, i)

/-- The interpreter after a run. -/
def after (i : Interpreter) (run : Ended) : Interpreter :=
  { i with machine := run.machine, world := run.world }

/-- What came of running a tree. -/
structure Outcome where
  /-- Whether everything went well. -/
  result : Except EvalError Unit
  /-- The answers that were handed out, in order. -/
  seen : List Value

/-- Runs a tree that has been loaded in the global frame, and leaves its value to `final`. There is
nothing to tell if the run has not ended after `fuel` steps. -/
def executeCode (i : Interpreter) (fuel : Nat) (final : Value → Finale) (code : Code) :
    Option (Outcome × Interpreter) :=
  (i.machine.executeWith i.host final fuel i.world code globals).map fun run =>
    (⟨run.result, run.seen.reverse⟩, i.after run)

/-- Runs a tree that has been loaded in the global frame, for its value. -/
def runCode (i : Interpreter) (fuel : Nat) (code : Code) :
    Option (Except EvalError Value × Interpreter) :=
  (i.machine.run i.host fuel i.world code globals).map fun (value, run) => (value, i.after run)

/-- Runs a tree in the global frame and asks `final` about its value. -/
def execute (i : Interpreter) (fuel : Nat) (final : Value → Except EvalError Unit) (t : Tree) :
    Option (Outcome × Interpreter) :=
  let (code, i) := i.load t
  i.executeCode fuel (fun v => .verdict (final v)) code

/-- Runs a tree in the global frame for its value. -/
def run (i : Interpreter) (fuel : Nat) (t : Tree) :
    Option (Except EvalError Value × Interpreter) :=
  let (code, i) := i.load t
  i.runCode fuel code

end Interpreter

end LetLambda
