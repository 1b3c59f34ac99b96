import LetLambda.Machine.Perform

/-!
# The trampoline

Every call of one task by another nests one level deeper. When the nesting has reached its
limit, the called task is put aside instead of being run; control then goes all the way back,
the task is taken up again at depth zero, and the run goes on as if nothing had happened. How
often this happens is counted.
-/

namespace LetLambda

/-- What remains of a machine from one run to the next, together with its settings. -/
structure Machine where
  /-- The depth at which calls are put aside. -/
  maxDepth : Nat
  /-- A task that is taken up at depth zero is not put aside at once. -/
  maxDepth_pos : 0 < maxDepth
  /-- How functions are told where to go on. -/
  convention : Convention
  /-- How deep calls are nested at present. -/
  depth : Nat
  /-- The tasks that have been put aside. -/
  pending : List Task
  /-- How often a task has been put aside. -/
  bounces : Nat

namespace Machine

/-- The depth at which calls are put aside unless another is asked for. -/
def defaultDepth : Nat := 200

/-- A new machine. A limit of zero counts as one. -/
def new (maxDepth : Nat) (convention : Convention) : Machine :=
  { maxDepth := max 1 maxDepth
    maxDepth_pos := by omega
    convention
    depth := 0
    pending := []
    bounces := 0 }

end Machine

/-- Where control is. -/
inductive Control where
  /-- In a task. -/
  | perform (task : Task)
  /-- On its way back, after everything went well or after an error. -/
  | unwind (result : Except EvalError Unit)

/-- Calls for a task. If calls are nested too deeply already, the task is put aside and control
goes back. -/
def Machine.guard (machine : Machine) (task : Task) : Machine × Control :=
  if machine.depth < machine.maxDepth then
    ({ machine with depth := machine.depth + 1 }, .perform task)
  else
    ({ machine with
        pending := machine.pending ++ [task]
        bounces := machine.bounces + 1 },
      .unwind (.ok ()))

/-- A run that has not ended. -/
structure Run where
  /-- The machine. -/
  machine : Machine
  /-- The frames and the console. -/
  world : World
  /-- Where control is. -/
  control : Control
  /-- The answers handed out so far, the latest first. -/
  seen : List Value

/-- A run that has ended. -/
structure Ended where
  /-- Whether everything went well. -/
  result : Except EvalError Unit
  /-- The machine. -/
  machine : Machine
  /-- The frames and the console. -/
  world : World
  /-- The answers handed out, the latest first. -/
  seen : List Value

/-- What has become of a run. -/
inductive Progress where
  | running (run : Run)
  | ended (run : Ended)

namespace Run

/-- A run about to evaluate a term. -/
def begin (machine : Machine) (world : World) (code : Code) (env : FrameId) : Run :=
  { machine := { machine with pending := machine.pending ++ [.start code env] }
    world
    control := .unwind (.ok ())
    seen := [] }

/-- One step of a run, whose answer is handed to `final`. Of the final continuation there is only what
it says of the answer: it sees neither the machine nor the world, and it does nothing to them. One
that does is a `Finale`, and `Machine.executeWith` leaves the answer to it. -/
def step (hosts : Hosts) (final : Value → Except EvalError Unit) : Run → Progress
  | { machine, world, control, seen } =>
    match control with
    | .perform task =>
      let (move, world) := task.perform hosts machine.convention world
      match move with
      | .call task =>
        let (machine, control) := machine.guard task
        .running { machine, world, control, seen }
      | .answer v => .running { machine, world, control := .unwind (final v), seen := v :: seen }
      | .fail e => .running { machine, world, control := .unwind (.error e), seen }
    | .unwind (.error e) =>
      .ended
        { result := .error e, machine := { machine with depth := 0, pending := [] }, world, seen }
    | .unwind (.ok ()) =>
      match machine.pending with
      | [] => .ended { result := .ok (), machine := { machine with depth := 0 }, world, seen }
      | task :: pending =>
        .running
          { machine := { machine with depth := 0, pending }, world, control := .perform task, seen }

/-- At most `n` steps of a run. As in a single step, `final` is what the final continuation says of
the answer, without the machine and without effects. -/
def advance (hosts : Hosts) (final : Value → Except EvalError Unit) : Nat → Run → Progress
  | 0, run => .running run
  | n + 1, run =>
    match run.step hosts final with
    | .running run => advance hosts final n run
    | .ended run => .ended run

end Run

/-- The value of a run: the answer that was handed out. -/
def Ended.value (run : Ended) : Except EvalError Value :=
  match run.result with
  | .ok () => .ok (run.seen.head?.getD .absent)
  | .error e => .error e

namespace Machine

/-- Begins to run a term in frame `env`. A malformed term is refused. -/
def start (machine : Machine) (world : World) (code : Code) (env : FrameId) :
    Except EvalError Run :=
  match code.check with
  | .error fault => .error (.malformed fault)
  | .ok () => .ok (Run.begin machine world code env)

/-- Runs a term in frame `env` and hands its value to `final`. A malformed term is refused and
changes nothing. There is nothing to tell if the run has not ended after `fuel` steps. -/
def execute (machine : Machine) (hosts : Hosts) (final : Value → Except EvalError Unit)
    (fuel : Nat) (world : World) (code : Code) (env : FrameId) : Option Ended :=
  match machine.start world code env with
  | .error e => some { result := .error e, machine, world, seen := [] }
  | .ok run =>
    match run.advance hosts final fuel with
    | .running _ => none
    | .ended run => some run

/-- Runs a term in frame `env` for its value. -/
def run (machine : Machine) (hosts : Hosts) (fuel : Nat) (world : World) (code : Code)
    (env : FrameId) : Option (Except EvalError Value × Ended) :=
  (machine.execute hosts (fun _ => .ok ()) fuel world code env).map fun run => (run.value, run)

end Machine

end LetLambda
