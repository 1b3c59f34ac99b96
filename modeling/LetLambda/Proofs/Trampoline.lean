import LetLambda.Machine.Trampoline

/-!
# The trampoline is transparent

A task may be run where it is called for, or be put aside and taken up again once control has
gone all the way back. `Task.Finishes` is the account without a depth: a task is performed, then
the task that it calls for, and so on to an answer or an error. Every run on an idle machine is
such a chain of tasks (`Run.finishes_of_advance`), and every such chain is a run on every idle
machine, whatever the depth at which it puts tasks aside (`Run.advance_of_finishes`); so what a
run comes to does not depend on that depth.

The chain also says how often a task was put aside: calls are counted from the depth of the first
one, and every `maxDepth + 1` of them make one bounce.
-/

namespace LetLambda

variable {hosts : Hosts} {convention : Convention} {final : Value → Except EvalError Unit}

/-! ### Tasks one after another -/

/-- `task.Finishes hosts convention n world result world'`: performed in `world`, and followed by
whatever tasks are called for, `task` comes to `result` and leaves `world'`, after `n` calls. -/
inductive Task.Finishes (hosts : Hosts) (convention : Convention) :
    Nat → Task → World → Except EvalError Value → World → Prop
  /-- The task gives the answer. -/
  | answer {task : Task} {world world' : World} {v : Value}
      (h : task.perform hosts convention world = (.answer v, world')) :
      Finishes hosts convention 0 task world (.ok v) world'
  /-- The task fails. -/
  | fail {task : Task} {world world' : World} {e : EvalError}
      (h : task.perform hosts convention world = (.fail e, world')) :
      Finishes hosts convention 0 task world (.error e) world'
  /-- The task calls for another. -/
  | call {n : Nat} {task next : Task} {world world₁ world' : World}
      {result : Except EvalError Value}
      (h : task.perform hosts convention world = (.call next, world₁))
      (rest : Finishes hosts convention n next world₁ result world') :
      Finishes hosts convention (n + 1) task world result world'

/-- What a run comes to as a whole, if its tasks come to `result`. -/
def Run.verdict (final : Value → Except EvalError Unit) :
    Except EvalError Value → Except EvalError Unit
  | .ok v => final v
  | .error e => .error e

/-- The answers that a run hands out if its tasks come to `result`. -/
def Run.answers : Except EvalError Value → List Value
  | .ok v => [v]
  | .error _ => []

/-! ### From tasks to runs -/

namespace Run

/-- Fuel that is not needed does nothing. -/
theorem advance_add {n : Nat} {run : Run} {e : Ended} (h : run.advance hosts final n = .ended e)
    (m : Nat) : run.advance hosts final (n + m) = .ended e := by
  induction n generalizing run with
  | zero => cases h
  | succ n ih =>
    rw [Nat.add_right_comm]
    simp only [advance] at h ⊢
    cases hs : run.step hosts final with
    | running next => rw [hs] at h; exact ih h
    | ended next => rw [hs] at h; exact h

/-- A run ends in one way. -/
theorem advance_unique {n m : Nat} {run : Run} {e₁ e₂ : Ended}
    (h₁ : run.advance hosts final n = .ended e₁) (h₂ : run.advance hosts final m = .ended e₂) :
    e₁ = e₂ := by
  have h := advance_add h₁ m
  rw [Nat.add_comm, advance_add h₂ n] at h
  cases h
  rfl

/-- One step more in front of a run. -/
theorem advance_succ_of_step {n : Nat} {run : Run} (next : Run) {e : Ended}
    (hs : run.step hosts final = .running next) (h : next.advance hosts final n = .ended e) :
    run.advance hosts final (n + 1) = .ended e := by
  simp only [advance, hs, h]

/-- The machine after a run of `n` calls that began in a task at the machine's depth. -/
def settle (machine : Machine) (n : Nat) : Machine :=
  { machine with
    depth := 0
    pending := []
    bounces := machine.bounces + (machine.depth + n) / (machine.maxDepth + 1) }

/-- A call that is not put aside counts as one level more. -/
theorem settle_deeper (machine : Machine) (n : Nat) :
    settle { machine with depth := machine.depth + 1 } n = settle machine (n + 1) := by
  simp only [settle, Nat.add_right_comm _ 1 n, Nat.add_assoc]

/-- A call that is put aside counts as a bounce, and the depth begins at zero again. -/
theorem settle_bounce {machine : Machine} (full : machine.depth = machine.maxDepth) (n : Nat) :
    settle { machine with depth := 0, pending := [], bounces := machine.bounces + 1 } n =
      settle machine (n + 1) := by
  have h : (machine.maxDepth + (n + 1)) / (machine.maxDepth + 1) =
      1 + n / (machine.maxDepth + 1) := by
    rw [show machine.maxDepth + (n + 1) = n + (machine.maxDepth + 1) by omega,
      Nat.add_div_right n (by omega)]
    omega
  simp only [settle, full, h, Nat.zero_add, Nat.add_assoc]

/-- **Every chain of tasks is a run** on every idle machine: it comes to the same, hands out the
same answers and leaves the same world. -/
theorem advance_of_finishes {n : Nat} {task : Task} {world world' : World}
    {result : Except EvalError Value} (h : task.Finishes hosts convention n world result world')
    (machine : Machine) (idle : machine.pending = []) (hc : machine.convention = convention)
    (hd : machine.depth ≤ machine.maxDepth) (seen : List Value) :
    ∃ fuel, advance hosts final fuel ⟨machine, world, .perform task, seen⟩ =
      .ended ⟨verdict final result, settle machine n, world', answers result ++ seen⟩ := by
  induction h generalizing machine with
  | @answer task world world' v h =>
    have hzero : machine.depth / (machine.maxDepth + 1) = 0 := Nat.div_eq_of_lt (by omega)
    refine ⟨2, advance_succ_of_step ⟨machine, world', .unwind (final v), v :: seen⟩
      (by simp only [step, hc, h]) ?_⟩
    cases hf : final v with
    | ok u => simp [advance, step, verdict, answers, settle, idle, hf, hzero]
    | error e => simp [advance, step, verdict, answers, settle, hf, hzero]
  | @fail task world world' e h =>
    have hzero : machine.depth / (machine.maxDepth + 1) = 0 := Nat.div_eq_of_lt (by omega)
    refine ⟨2, advance_succ_of_step ⟨machine, world', .unwind (.error e), seen⟩
      (by simp only [step, hc, h]) ?_⟩
    simp [advance, step, verdict, answers, settle, hzero]
  | @call n task next world world₁ world' result h _ ih =>
    by_cases hlt : machine.depth < machine.maxDepth
    · -- the called task is run where it is called for
      obtain ⟨fuel, hfuel⟩ := ih { machine with depth := machine.depth + 1 } idle
        hc (Nat.succ_le_of_lt hlt)
      refine ⟨fuel + 1, ?_⟩
      rw [settle_deeper] at hfuel
      exact advance_succ_of_step _ (by simp only [step, hc, h, Machine.guard, if_pos hlt]) hfuel
    · -- the called task is put aside and taken up again at depth zero
      obtain ⟨fuel, hfuel⟩ := ih
        { machine with depth := 0, pending := [], bounces := machine.bounces + 1 } rfl
        hc (Nat.zero_le _)
      refine ⟨fuel + 2, ?_⟩
      rw [settle_bounce (by omega)] at hfuel
      refine advance_succ_of_step ⟨{ machine with
          pending := [next], bounces := machine.bounces + 1 }, world₁, .unwind (.ok ()), seen⟩
        (by simp only [step, hc, h, Machine.guard, if_neg hlt, idle, List.nil_append]) ?_
      exact advance_succ_of_step _ (by simp only [step]) hfuel

/-! ### From runs to tasks -/

/-- **Every run that ends is a chain of tasks.** -/
theorem finishes_of_advance {fuel : Nat} {machine : Machine} {world : World} {task : Task}
    {seen : List Value} {e : Ended} (idle : machine.pending = [])
    (h : advance hosts final fuel ⟨machine, world, .perform task, seen⟩ = .ended e) :
    ∃ n result world', task.Finishes hosts machine.convention n world result world' := by
  induction fuel using Nat.strongRecOn generalizing machine world task with
  | _ fuel ih =>
    cases fuel with
    | zero => cases h
    | succ fuel =>
      obtain ⟨⟨move, world₁⟩, hp⟩ : ∃ m, task.perform hosts machine.convention world = m := ⟨_, rfl⟩
      cases move with
      | answer v => exact ⟨0, .ok v, world₁, .answer hp⟩
      | fail e => exact ⟨0, .error e, world₁, .fail hp⟩
      | call next =>
        by_cases hlt : machine.depth < machine.maxDepth
        · simp only [advance, step, hp, Machine.guard, if_pos hlt] at h
          have idle₁ : { machine with depth := machine.depth + 1 }.pending = [] := idle
          obtain ⟨n, result, world', hn⟩ := ih fuel (by omega) idle₁ h
          exact ⟨n + 1, result, world', .call hp hn⟩
        · simp only [advance, step, hp, Machine.guard, if_neg hlt, idle, List.nil_append] at h
          -- the next step takes up the task that was put aside
          cases fuel with
          | zero => cases h
          | succ fuel =>
            simp only [advance, step] at h
            have idle₁ : { machine with
                depth := 0, pending := [], bounces := machine.bounces + 1 }.pending = [] := rfl
            obtain ⟨n, result, world', hn⟩ := ih fuel (by omega) idle₁ h
            exact ⟨n + 1, result, world', .call hp hn⟩

end Run

/-! ### Runs of terms -/

namespace Machine

/-- A machine between two runs: no task has been put aside. -/
def Idle (machine : Machine) : Prop := machine.pending = []

theorem new_idle (maxDepth : Nat) (convention : Convention) : (new maxDepth convention).Idle := rfl

/-- The machine after a run of `n` calls. -/
def rest (machine : Machine) (n : Nat) : Machine :=
  Run.settle { machine with depth := 0, pending := [] } n

/-- The first step of a run takes up the term that it was begun with. -/
theorem step_begin {machine : Machine} (idle : machine.Idle) (world : World) (code : Code)
    (env : FrameId) :
    (Run.begin machine world code env).step hosts final =
      .running ⟨{ machine with depth := 0, pending := [] }, world, .perform (.start code env), []⟩ := by
  unfold Idle at idle
  simp only [Run.begin, Run.step, idle, List.nil_append]

/-- What a run that was begun with a term comes to, in terms of tasks alone. -/
theorem advance_begin_iff {machine : Machine} (idle : machine.Idle) {world : World} {code : Code}
    {env : FrameId} {e : Ended} :
    (∃ fuel, (Run.begin machine world code env).advance hosts final fuel = .ended e) ↔
      ∃ n result world', (Task.start code env).Finishes hosts machine.convention n world result world' ∧
        e = ⟨Run.verdict final result, machine.rest n, world', Run.answers result⟩ := by
  constructor
  · rintro ⟨fuel, h⟩
    cases fuel with
    | zero => cases h
    | succ fuel =>
      simp only [Run.advance, step_begin idle] at h
      obtain ⟨n, result, world', hn⟩ := Run.finishes_of_advance rfl h
      obtain ⟨fuel', h'⟩ := Run.advance_of_finishes hn
        { machine with depth := 0, pending := [] } rfl rfl (Nat.zero_le _) []
      rw [List.append_nil] at h'
      exact ⟨n, result, world', hn, Run.advance_unique h h'⟩
  · rintro ⟨n, result, world', hn, rfl⟩
    obtain ⟨fuel, h⟩ := Run.advance_of_finishes hn
      { machine with depth := 0, pending := [] } rfl rfl (Nat.zero_le _) []
    rw [List.append_nil] at h
    exact ⟨fuel + 1, Run.advance_succ_of_step _ (step_begin idle world code env) h⟩

/-- What comes of executing a malformed term. -/
theorem execute_of_malformed {machine : Machine} {world : World} {code : Code} {env : FrameId}
    {fault : Malformed} (h : code.check = .error fault) (fuel : Nat) :
    machine.execute hosts final fuel world code env =
      some ⟨.error (.malformed fault), machine, world, []⟩ := by
  simp only [execute, start, h]

/-- What comes of executing a well-formed term, in terms of tasks alone. -/
theorem execute_iff {machine : Machine} (idle : machine.Idle) {world : World} {code : Code}
    {env : FrameId} (h : code.check = .ok ()) {e : Ended} :
    (∃ fuel, machine.execute hosts final fuel world code env = some e) ↔
      ∃ n result world', (Task.start code env).Finishes hosts machine.convention n world result world' ∧
        e = ⟨Run.verdict final result, machine.rest n, world', Run.answers result⟩ := by
  rw [← advance_begin_iff idle]
  refine exists_congr fun fuel => ?_
  simp only [execute, start, h]
  cases (Run.begin machine world code env).advance hosts final fuel with
  | running run => simp
  | ended run => simp

/-- Executing a term on one idle machine and on another: if the first run ends, so does the
second, and what can be seen of the two is the same. -/
theorem execute_transfer {machine₁ machine₂ : Machine} (idle₁ : machine₁.Idle)
    (idle₂ : machine₂.Idle) (hc : machine₁.convention = machine₂.convention) {fuel : Nat}
    {world : World} {code : Code} {env : FrameId} {run₁ : Ended}
    (h : machine₁.execute hosts final fuel world code env = some run₁) :
    ∃ fuel run₂, machine₂.execute hosts final fuel world code env = some run₂ ∧
      run₁.result = run₂.result ∧ run₁.seen = run₂.seen ∧ run₁.world = run₂.world := by
  cases hk : code.check with
  | error fault =>
    rw [execute_of_malformed hk] at h
    cases h
    exact ⟨0, _, execute_of_malformed hk 0, rfl, rfl, rfl⟩
  | ok u =>
    obtain ⟨n, result, world', hn, rfl⟩ := (execute_iff idle₁ hk).mp ⟨fuel, h⟩
    rw [hc] at hn
    obtain ⟨fuel₂, h₂⟩ := (execute_iff idle₂ hk).mpr ⟨n, result, world', hn, rfl⟩
    exact ⟨fuel₂, _, h₂, rfl, rfl, rfl⟩

/-- Executing a term comes to one end, however much fuel there is. -/
theorem execute_unique {machine : Machine} {fuel₁ fuel₂ : Nat} {world : World} {code : Code}
    {env : FrameId} {run₁ run₂ : Ended}
    (h₁ : machine.execute hosts final fuel₁ world code env = some run₁)
    (h₂ : machine.execute hosts final fuel₂ world code env = some run₂) : run₁ = run₂ := by
  unfold execute at h₁ h₂
  cases hs : machine.start world code env with
  | error e =>
    rw [hs] at h₁ h₂
    cases h₁
    cases h₂
    rfl
  | ok run =>
    simp only [hs] at h₁ h₂
    cases ha : run.advance hosts final fuel₁ with
    | running _ => rw [ha] at h₁; cases h₁
    | ended e₁ =>
      cases hb : run.advance hosts final fuel₂ with
      | running _ => rw [hb] at h₂; cases h₂
      | ended e₂ =>
        rw [ha] at h₁
        rw [hb] at h₂
        cases h₁
        cases h₂
        exact Run.advance_unique ha hb

/-- **The trampoline is transparent.** Whether executing a term ends does not depend on the depth
at which the machine puts tasks aside; and if it ends, neither do the result, the values handed to
`final`, what was printed and what the frames hold. -/
theorem execute_depth_independent (hosts : Hosts) (convention : Convention)
    (final : Value → Except EvalError Unit) (world : World) (code : Code) (env : FrameId)
    (d₁ d₂ : Nat) :
    ((∃ fuel run, (new d₁ convention).execute hosts final fuel world code env = some run) ↔
      ∃ fuel run, (new d₂ convention).execute hosts final fuel world code env = some run) ∧
    ∀ fuel₁ fuel₂ run₁ run₂,
      (new d₁ convention).execute hosts final fuel₁ world code env = some run₁ →
      (new d₂ convention).execute hosts final fuel₂ world code env = some run₂ →
      run₁.result = run₂.result ∧ run₁.seen = run₂.seen ∧
        run₁.world.console = run₂.world.console ∧ run₁.world.store = run₂.world.store := by
  refine ⟨⟨?_, ?_⟩, ?_⟩
  · rintro ⟨fuel, run, h⟩
    obtain ⟨fuel', run', h', -⟩ := execute_transfer (new_idle d₁ _) (new_idle d₂ _) rfl h
    exact ⟨fuel', run', h'⟩
  · rintro ⟨fuel, run, h⟩
    obtain ⟨fuel', run', h', -⟩ := execute_transfer (new_idle d₂ _) (new_idle d₁ _) rfl h
    exact ⟨fuel', run', h'⟩
  · intro fuel₁ fuel₂ run₁ run₂ h₁ h₂
    obtain ⟨fuel, run, h, hr, hs, hw⟩ := execute_transfer (new_idle d₁ _) (new_idle d₂ _) rfl h₁
    obtain rfl := execute_unique h h₂
    exact ⟨hr, hs, by rw [hw], by rw [hw]⟩

/-- A function that calls itself until its argument is zero, called with three. -/
def countdown : Code :=
  .call
    (.function 0 (some "f") ["n"]
      (.conditional (.binary "==" (.var "n") (.int 0)) (.str "done")
        (some (.call (.var "f") [.binary "-" (.var "n") (.int 1)]))))
    [.int 3]

/-- What `countdown` comes to in an empty frame, at a given depth. -/
def countdownRun (maxDepth : Nat) : Option Ended :=
  (new maxDepth .implicit).execute (fun _ _ world => (.ok .absent, world)) (fun _ => .ok ()) 200
    ⟨Store.empty.fresh.2, .empty⟩ countdown 0

/-- At depth one and at depth seven a run bounces a different number of times, and all else is the
same. -/
theorem execute_depth_independent_countdown :
    ∃ run₁ run₂, countdownRun 0 = some run₁ ∧ countdownRun 7 = some run₂ ∧
      run₁.machine.bounces = 31 ∧ run₂.machine.bounces = 7 ∧
      run₁.result = run₂.result ∧ run₁.seen = run₂.seen ∧
        run₁.world.console = run₂.world.console ∧ run₁.world.store = run₂.world.store := by
  have h₁ : (countdownRun 0).map (·.machine.bounces) = some 31 := by decide +kernel
  have h₂ : (countdownRun 7).map (·.machine.bounces) = some 7 := by decide +kernel
  obtain ⟨run₁, hr₁, hb₁⟩ := Option.map_eq_some_iff.mp h₁
  obtain ⟨run₂, hr₂, hb₂⟩ := Option.map_eq_some_iff.mp h₂
  exact ⟨run₁, run₂, hr₁, hr₂, hb₁, hb₂,
    (execute_depth_independent _ _ _ _ _ _ 0 7).2 200 200 run₁ run₂ hr₁ hr₂⟩

end Machine

end LetLambda
