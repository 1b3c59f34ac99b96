import LetLambda.Proofs.Trampoline

/-!
# The moments of a run

What holds of a run at every moment is shown step by step. A run that was begun on an idle machine
has one task at hand, in which control is or which has been put aside, until it answers or fails. So
from one moment to the next either that task is performed, or it is taken up and nothing else
happens (`Run.Moves`).
-/

namespace LetLambda

variable {hosts : Hosts} {final : Value → Except EvalError Unit}

/-- What is left to do when the value of a task has been found. -/
def Task.continuation : Task → Continuation
  | start .. => []
  | evaluate _ _ k | resume k _ | declare _ _ _ k | apply _ _ k => k

namespace Move

/-- The task that is called for. -/
def tasks : Move → List Task
  | call next => [next]
  | answer _ | fail _ => []

/-- The answer that is given. -/
def answers : Move → List Value
  | answer v => [v]
  | call _ | fail _ => []

end Move

namespace Run

/-- The tasks at hand: the one in which control is, and those that have been put aside. -/
def tasks (run : Run) : List Task :=
  match run.control with
  | .perform task => task :: run.machine.pending
  | .unwind _ => run.machine.pending

/-- What may happen from one moment to the next. -/
inductive Moves (hosts : Hosts) (run next : Run) : Prop
  /-- The task at hand is performed. -/
  | perform {task : Task} {move : Move} (control : run.control = .perform task)
      (alone : run.tasks = [task])
      (perform : task.perform hosts run.machine.convention run.world = (move, next.world))
      (tasks : next.tasks = move.tasks) (seen : next.seen = move.answers ++ run.seen)
  /-- The task that was put aside is taken up. -/
  | takeUp {result : Except EvalError Unit} (control : run.control = .unwind result)
      (world : next.world = run.world) (tasks : next.tasks = run.tasks) (seen : next.seen = run.seen)

/-- A step of a run with at most one task at hand. -/
theorem moves_of_step {run next : Run} (h : run.tasks.length ≤ 1)
    (hs : run.step hosts final = .running next) :
    run.Moves hosts next ∧ next.tasks.length ≤ 1 ∧
      next.machine.convention = run.machine.convention := by
  obtain ⟨machine, world, control, seen⟩ := run
  cases control with
  | perform task =>
    have hpending : machine.pending = [] := List.length_eq_zero_iff.mp (Nat.le_zero.mp
      (Nat.le_of_succ_le_succ h))
    have halone : (⟨machine, world, .perform task, seen⟩ : Run).tasks = [task] :=
      congrArg (task :: ·) hpending
    obtain ⟨⟨move, world₁⟩, hp⟩ : ∃ p, task.perform hosts machine.convention world = p := ⟨_, rfl⟩
    cases move with
    | call later =>
      by_cases hlt : machine.depth < machine.maxDepth
      · simp only [step, hp, Machine.guard, if_pos hlt] at hs
        cases hs
        have htasks : (⟨{ machine with depth := machine.depth + 1 }, world₁, .perform later,
            seen⟩ : Run).tasks = [later] := by
          rw [tasks, hpending]
        exact ⟨.perform rfl halone hp htasks rfl, by rw [htasks]; exact Nat.le_refl _, rfl⟩
      · simp only [step, hp, Machine.guard, if_neg hlt, hpending, List.nil_append] at hs
        cases hs
        exact ⟨.perform rfl halone hp rfl rfl, Nat.le_refl _, rfl⟩
    | answer v =>
      simp only [step, hp] at hs
      cases hs
      exact ⟨.perform rfl halone hp hpending rfl, Nat.le_of_lt h, rfl⟩
    | fail e =>
      simp only [step, hp] at hs
      cases hs
      exact ⟨.perform rfl halone hp hpending rfl, Nat.le_of_lt h, rfl⟩
  | unwind result =>
    cases result with
    | error e =>
      simp only [step] at hs
      cases hs
    | ok u =>
      cases hpending : machine.pending with
      | nil =>
        simp only [step, hpending] at hs
        cases hs
      | cons task pending =>
        simp only [step, hpending] at hs
        cases hs
        have htasks : (⟨{ machine with depth := 0, pending }, world, .perform task, seen⟩ : Run).tasks =
            (⟨machine, world, .unwind (.ok u), seen⟩ : Run).tasks := hpending.symm
        exact ⟨.takeUp rfl rfl htasks rfl, htasks ▸ h, rfl⟩

/-- A moment after the first one comes after another. -/
theorem advance_succ_iff {n : Nat} {run next : Run} :
    run.advance hosts final (n + 1) = .running next ↔
      ∃ last, run.advance hosts final n = .running last ∧ last.step hosts final = .running next := by
  induction n generalizing run with
  | zero =>
    simp only [advance]
    cases hs : run.step hosts final with
    | running r => simp [hs]
    | ended e => simp [hs]
  | succ n ih =>
    rw [advance]
    cases hs : run.step hosts final with
    | running r =>
      dsimp only
      rw [ih]
      simp only [advance, hs]
    | ended e => simp [advance, hs]

/-- **What holds at first and is kept by every move holds at every moment.** -/
theorem always {P : Nat → Run → Prop} {start : Run} (htasks : start.tasks.length ≤ 1)
    (hbegin : P 0 start)
    (hmove : ∀ n run next, start.advance hosts final n = .running run →
      run.machine.convention = start.machine.convention → P n run → run.Moves hosts next →
      P (n + 1) next)
    (n : Nat) {run : Run} (h : start.advance hosts final n = .running run) : P n run := by
  have hall : P n run ∧ run.tasks.length ≤ 1 ∧
      run.machine.convention = start.machine.convention := by
    induction n generalizing run with
    | zero =>
      cases h
      exact ⟨hbegin, htasks, rfl⟩
    | succ n ih =>
      obtain ⟨last, hlast, hs⟩ := advance_succ_iff.mp h
      obtain ⟨hp, hlength, hconvention⟩ := ih hlast
      obtain ⟨hmoves, hlength', hconvention'⟩ := moves_of_step hlength hs
      exact ⟨hmove n last run hlast hconvention hp hmoves, hlength',
        hconvention'.trans hconvention⟩
  exact hall.1

theorem tasks_begin {machine : Machine} (idle : machine.Idle) (world : World) (code : Code)
    (env : FrameId) : (begin machine world code env).tasks = [.start code env] := by
  unfold Machine.Idle at idle
  simp [begin, tasks, idle]

end Run

end LetLambda
