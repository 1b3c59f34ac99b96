import LetLambda.Machine.Trampoline

/-!
# Final continuations

The answer of a run is handed to a final continuation. To the run it matters only what this
continuation says of the answer, and `Run.step` knows no more of it. But the continuation is handed
the machine, too, and may do a good deal before it has its say: it can look at the count of bounces
and at the world, change the world, and run other terms on the same machine.

It is called when there is nothing else left to do. So what it does is told after the run.
-/

namespace LetLambda

/-- What a final continuation does once it has its answer. -/
inductive Finale where
  /-- It says whether all went well, and that is all. -/
  | verdict (result : Except EvalError Unit)
  /-- It looks at the count of bounces and at the world. -/
  | look (next : Nat → World → Finale)
  /-- It leaves the world otherwise than it was. -/
  | change (world : World) (next : Finale)
  /-- It runs a term in a frame, for its value. -/
  | run (code : Code) (env : FrameId) (next : Except EvalError Value → Finale)

/-- Does what a final continuation does, on a machine and in a world. There is nothing to tell if a
run that it makes has not ended after `fuel` steps. -/
def Finale.perform (hosts : Hosts) (fuel : Nat) :
    Finale → Machine → World → Option (Except EvalError Unit × Machine × World)
  | verdict result, machine, world => some (result, machine, world)
  | look next, machine, world => (next machine.bounces world).perform hosts fuel machine world
  | change world next, machine, _ => next.perform hosts fuel machine world
  | run code env next, machine, world =>
    (machine.run hosts fuel world code env).bind fun (value, ended) =>
      (next value).perform hosts fuel ended.machine ended.world

/-- What becomes of a run that has ended when its answer, if there is one, is left to `final`. -/
def Ended.conclude (hosts : Hosts) (fuel : Nat) (final : Value → Finale) (run : Ended) :
    Option Ended :=
  match run.result, run.seen with
  | .ok (), v :: _ =>
    ((final v).perform hosts fuel run.machine run.world).map fun (result, machine, world) =>
      { run with result, machine, world }
  | _, _ => some run

/-- Runs a term in frame `env` and leaves its value to `final`. -/
def Machine.executeWith (machine : Machine) (hosts : Hosts) (final : Value → Finale) (fuel : Nat)
    (world : World) (code : Code) (env : FrameId) : Option Ended :=
  (machine.execute hosts (fun _ => .ok ()) fuel world code env).bind
    (Ended.conclude hosts fuel final)

end LetLambda
