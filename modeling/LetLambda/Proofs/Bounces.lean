import LetLambda.Proofs.Moments

/-!
# How often a run bounces

Whenever one task calls for another, the guard is asked, and it puts the called task aside if calls
are nested too deeply. So the bounces of a run follow from the calls in it alone. The first task of
a run is taken up at depth zero, and so is every task that was put aside; from there `maxDepth`
calls are made one inside another, and the next one bounces. That is one bounce for every
`maxDepth + 1` calls.

Which calls those are depends on the term, the frames, the convention and the host functions, but
not on the machine: they are the tasks that follow one another when each task is performed after
the one that calls for it (`Run.calls_of_finishes`).
-/

namespace LetLambda

variable {hosts : Hosts} {convention : Convention} {final : Value → Except EvalError Unit}

/-! ### Calls -/

/-- The tasks that are called for after a task, each by the one before it, at most `n` of them. -/
def Task.calls (hosts : Hosts) (convention : Convention) : Nat → Task → World → List Task
  | 0, _, _ => []
  | n + 1, task, world =>
    match task.perform hosts convention world with
    | (.call next, world) => next :: next.calls hosts convention n world
    | (.answer _, _) | (.fail _, _) => []

namespace Run

/-- The task for which the guard is asked in the next step of a run, if there is one. -/
def called (hosts : Hosts) (run : Run) : List Task :=
  match run.control with
  | .perform task => (task.perform hosts run.machine.convention run.world).1.tasks
  | .unwind _ => []

/-- The tasks for which the guard is asked in at most `n` steps of a run, in order. -/
def calls (hosts : Hosts) (final : Value → Except EvalError Unit) : Nat → Run → List Task
  | 0, _ => []
  | n + 1, run =>
    run.called hosts ++
      match run.step hosts final with
      | .running next => next.calls hosts final n
      | .ended _ => []

end Run

/-- The tasks for which the guard is asked when a term is executed, in order: every evaluation, every
value that is handed on, every binding without definition and every application to the result of a
host function. A malformed term is refused before there is any. -/
def Machine.calls (machine : Machine) (hosts : Hosts) (final : Value → Except EvalError Unit)
    (fuel : Nat) (world : World) (code : Code) (env : FrameId) : List Task :=
  match machine.start world code env with
  | .error _ => []
  | .ok run => run.calls hosts final fuel

/-! ### The calls of a run -/

theorem Task.Finishes.length_calls {n : Nat} {task : Task} {world world' : World}
    {result : Except EvalError Value} (h : task.Finishes hosts convention n world result world') :
    (task.calls hosts convention n world).length = n := by
  induction h with
  | answer _ => rfl
  | fail _ => rfl
  | call h _ ih => simp only [calls, h, List.length_cons, ih]

namespace Run

theorem calls_of_step {run next : Run} (h : run.step hosts final = .running next) (n : Nat) :
    run.calls hosts final (n + 1) = run.called hosts ++ next.calls hosts final n := by
  simp only [calls, h]

/-- No task is called for on the way back, unless one has been put aside. -/
theorem calls_unwind {machine : Machine} (idle : machine.pending = []) (world : World)
    (result : Except EvalError Unit) (seen : List Value) (n : Nat) :
    calls hosts final n ⟨machine, world, .unwind result, seen⟩ = [] := by
  cases n with
  | zero => rfl
  | succ n =>
    cases result with
    | error e => rfl
    | ok u => simp only [calls, called, step, idle, List.append_nil]

/-- **The calls of a run are those of a chain of tasks**, on every idle machine. -/
theorem calls_of_finishes {n : Nat} {task : Task} {world world' : World}
    {result : Except EvalError Value} (h : task.Finishes hosts convention n world result world')
    {machine : Machine} (idle : machine.pending = []) (hc : machine.convention = convention)
    {seen : List Value} {fuel : Nat} {e : Ended}
    (he : advance hosts final fuel ⟨machine, world, .perform task, seen⟩ = .ended e) :
    calls hosts final fuel ⟨machine, world, .perform task, seen⟩ =
      task.calls hosts convention n world := by
  induction h generalizing machine fuel with
  | @answer task world world' v h =>
    cases fuel with
    | zero => rfl
    | succ fuel => simp only [calls, called, step, hc, h, Move.tasks, calls_unwind idle, Task.calls,
        List.append_nil]
  | @fail task world world' e h =>
    cases fuel with
    | zero => rfl
    | succ fuel => simp only [calls, called, step, hc, h, Move.tasks, calls_unwind idle, Task.calls,
        List.append_nil]
  | @call n task next world world₁ world' result h _ ih =>
    have hcalled (seen : List Value) :
        called hosts ⟨machine, world, .perform task, seen⟩ = [next] := by
      simp only [called, hc, h, Move.tasks]
    have htask : task.calls hosts convention (n + 1) world =
        [next] ++ next.calls hosts convention n world₁ := by
      simp only [Task.calls, h, List.singleton_append]
    cases fuel with
    | zero => cases he
    | succ fuel =>
      by_cases hlt : machine.depth < machine.maxDepth
      · -- the called task is run where it is called for
        have hstep : step hosts final ⟨machine, world, .perform task, seen⟩ =
            .running ⟨{ machine with depth := machine.depth + 1 }, world₁, .perform next, seen⟩ := by
          simp only [step, hc, h, Machine.guard, if_pos hlt]
        simp only [advance, hstep] at he
        have idle₁ : { machine with depth := machine.depth + 1 }.pending = [] := idle
        rw [calls_of_step hstep, hcalled, htask, ih idle₁ hc he]
      · -- the called task is put aside; taking it up again is not a call
        have hstep : step hosts final ⟨machine, world, .perform task, seen⟩ =
            .running ⟨{ machine with pending := [next], bounces := machine.bounces + 1 }, world₁,
              .unwind (.ok ()), seen⟩ := by
          simp only [step, hc, h, Machine.guard, if_neg hlt, idle, List.nil_append]
        simp only [advance, hstep] at he
        cases fuel with
        | zero => cases he
        | succ fuel =>
          simp only [advance, step] at he
          have idle₁ : { machine with
              depth := 0, pending := [], bounces := machine.bounces + 1 }.pending = [] := rfl
          rw [calls_of_step hstep, hcalled, htask, ← ih idle₁ hc he]
          rfl

end Run

namespace Machine

theorem rest_bounces (machine : Machine) (n : Nat) :
    (machine.rest n).bounces = machine.bounces + n / (machine.maxDepth + 1) := by
  simp only [rest, Run.settle, Nat.zero_add]

theorem calls_of_malformed {machine : Machine} {fuel : Nat} {world : World} {code : Code}
    {env : FrameId} {fault : Malformed} (h : code.check = .error fault) :
    machine.calls hosts final fuel world code env = [] := by
  simp only [calls, start, h]

/-- The calls that are made when a well-formed term is executed, in terms of tasks alone. -/
theorem calls_of_execute {machine : Machine} (idle : machine.Idle) {n : Nat} {world world' : World}
    {code : Code} {env : FrameId} {result : Except EvalError Value} (hcode : code.check = .ok ())
    (h : (Task.start code env).Finishes hosts machine.convention n world result world') {fuel : Nat}
    {e : Ended} (he : machine.execute hosts final fuel world code env = some e) :
    machine.calls hosts final fuel world code env =
      (Task.start code env).calls hosts machine.convention n world := by
  simp only [execute, start, hcode] at he
  simp only [calls, start, hcode]
  cases hadvance : (Run.begin machine world code env).advance hosts final fuel with
  | running run =>
    rw [hadvance] at he
    cases he
  | ended run =>
    cases fuel with
    | zero => cases hadvance
    | succ fuel =>
      simp only [Run.advance, step_begin idle] at hadvance
      rw [Run.calls_of_step (step_begin idle world code env)]
      have idle₁ : { machine with depth := 0, pending := [] }.pending = [] := rfl
      exact Run.calls_of_finishes h idle₁ rfl hadvance

/-- **One bounce for every `maxDepth + 1` calls.** However executing a term ends, the bounces that it
adds are the calls that it makes, divided by one more than the depth at which the machine puts tasks
aside. These calls are the same on every idle machine with the same convention, whatever its depth,
whatever it has run before and whatever the value is handed to. -/
theorem bounces_eq_calls_div {machine : Machine} (idle : machine.Idle) {fuel : Nat} {world : World}
    {code : Code} {env : FrameId} {e : Ended}
    (h : machine.execute hosts final fuel world code env = some e) :
    e.machine.bounces = machine.bounces +
      (machine.calls hosts final fuel world code env).length / (machine.maxDepth + 1) ∧
    ∀ machine' : Machine, machine'.Idle → machine'.convention = machine.convention →
      ∀ final' fuel' e', machine'.execute hosts final' fuel' world code env = some e' →
        machine'.calls hosts final' fuel' world code env =
          machine.calls hosts final fuel world code env := by
  cases hcode : code.check with
  | error fault =>
    rw [execute_of_malformed hcode] at h
    cases h
    rw [calls_of_malformed hcode, List.length_nil, Nat.zero_div]
    exact ⟨rfl, fun machine' _ _ final' fuel' e' _ => calls_of_malformed hcode⟩
  | ok u =>
    obtain ⟨n, result, world', hn, rfl⟩ := (execute_iff idle hcode).mp ⟨fuel, h⟩
    rw [calls_of_execute idle hcode hn h]
    refine ⟨?_, fun machine' idle' hconvention final' fuel' e' h' => ?_⟩
    · rw [hn.length_calls]
      exact machine.rest_bounces n
    · rw [← hconvention] at hn ⊢
      exact calls_of_execute idle' hcode hn h'

/-- The calls that are made when `countdown` is run in an empty frame, at a given depth. -/
def countdownCalls (maxDepth : Nat) : List Task :=
  (new maxDepth .implicit).calls (fun _ _ world => (.ok .absent, world)) (fun _ => .ok ()) 200
    ⟨Store.empty.fresh.2, .empty⟩ countdown 0

/-- `countdown` on a machine with depth seven that has bounced five times before, its value being
refused in the end. -/
def refusedRun : Option Ended :=
  execute { new 7 .implicit with bounces := 5 } (fun _ _ world => (.ok .absent, world))
    (fun _ => .error .zeroDivision) 200 ⟨Store.empty.fresh.2, .empty⟩ countdown 0

/-- The sixty-two calls of one term make a bounce every second time at depth one, and every eighth
time at depth seven. -/
theorem bounces_eq_calls_div_countdown :
    ∃ run₁ run₂, countdownRun 0 = some run₁ ∧ refusedRun = some run₂ ∧
      (countdownCalls 0).length = 62 ∧
      run₁.machine.bounces = 0 + 62 / (1 + 1) ∧ run₂.machine.bounces = 5 + 62 / (7 + 1) := by
  have hcount : (countdownCalls 0).length = 62 := by decide +kernel
  have h₁ : (countdownRun 0).isSome = true := by decide +kernel
  have h₂ : refusedRun.isSome = true := by decide +kernel
  obtain ⟨run₁, hrun₁⟩ := Option.isSome_iff_exists.mp h₁
  obtain ⟨run₂, hrun₂⟩ := Option.isSome_iff_exists.mp h₂
  have idle₂ : Idle { new 7 .implicit with bounces := 5 } := rfl
  obtain ⟨hbounces₁, hsame⟩ := bounces_eq_calls_div (new_idle 0 .implicit) hrun₁
  have hbounces₂ := (bounces_eq_calls_div idle₂ hrun₂).1
  rw [hsame _ idle₂ rfl _ _ _ hrun₂] at hbounces₂
  change _ = _ + (countdownCalls 0).length / _ at hbounces₁ hbounces₂
  rw [hcount] at hbounces₁ hbounces₂
  exact ⟨run₁, run₂, hrun₁, hrun₂, hcount, hbounces₁, hbounces₂⟩

end Machine

end LetLambda
