import LetLambda.Proofs.Moments
import LetLambda.Proofs.Sessions

/-!
# The levels of a run

A call that is not put aside lasts until the task that was called comes back, and while it lasts it
takes room on the stack. Here are the moments of a run with that in view: each of them knows how many
calls have not come back, and coming back from a call is a step of its own (`Moment.step`). The guard
may also find that the stack is running low; then it puts tasks aside sooner, but never the one that
is called at the bottom. Whether it does may depend on anything, so a run is given by a list that
says, for each of its steps, whether the stack is low then (`Moment.advance`).

At every moment the depth of the machine is the number of calls that have not come back, and at most
one task has been put aside; where there is one, control is on its way back (`Moment.Orderly`). So
there is nothing to do but to come back until that task is taken up at depth zero.

If the stack is never low, these are the runs that the machine makes: every moment of a run is one of
them (`Moment.reached_of_advance`), and every end too (`Moment.ended_of_advance`).
-/

namespace LetLambda

variable {hosts : Hosts} {final : Value → Except EvalError Unit}

/-! ### The guard and the stack -/

namespace Machine

/-- Calls for a task when the stack may be low. The task is put aside if calls are nested too deeply
already, or if the stack is low and there is a call to come back from. -/
def guardOn (low : Bool) (machine : Machine) (task : Task) : Machine × Control :=
  if machine.maxDepth ≤ machine.depth ∨ 0 < machine.depth ∧ low = true then
    ({ machine with
        pending := machine.pending ++ [task]
        bounces := machine.bounces + 1 },
      .unwind (.ok ()))
  else
    ({ machine with depth := machine.depth + 1 }, .perform task)

/-- While the stack is not low, this is the guard of the machine. -/
theorem guardOn_false (machine : Machine) (task : Task) :
    machine.guardOn false task = machine.guard task := by
  rcases Nat.lt_or_ge machine.depth machine.maxDepth with hlt | hle
  · rw [guard_of_lt hlt, guardOn, if_neg]
    rintro (hle | ⟨-, hlow⟩)
    · exact Nat.not_lt.mpr hle hlt
    · cases hlow
  · rw [guard_of_le hle, guardOn, if_pos (.inl hle)]

/-- At the bottom no task is put aside. -/
theorem guardOn_bottom {machine : Machine} (h : machine.depth = 0) (low : Bool) (task : Task) :
    machine.guardOn low task = ({ machine with depth := machine.depth + 1 }, .perform task) := by
  rw [guardOn, if_neg]
  rintro (hle | ⟨hpos, -⟩)
  · exact absurd machine.maxDepth_pos (by omega)
  · omega

/-- What the guard can do. -/
theorem guardOn_cases (low : Bool) (machine : Machine) (task : Task) :
    machine.depth < machine.maxDepth ∧
        machine.guardOn low task = ({ machine with depth := machine.depth + 1 }, .perform task) ∨
      machine.guardOn low task = ({ machine with
        pending := machine.pending ++ [task], bounces := machine.bounces + 1 }, .unwind (.ok ())) := by
  by_cases h : machine.maxDepth ≤ machine.depth ∨ 0 < machine.depth ∧ low = true
  · exact .inr (if_pos h)
  · exact .inl ⟨Nat.lt_of_not_le fun hle => h (.inl hle), if_neg h⟩

end Machine

/-! ### Moments -/

/-- A moment of a run, with the calls in view that it is inside of. -/
structure Moment where
  /-- The run at this moment. -/
  run : Run
  /-- How many calls have not come back. -/
  inside : Nat

namespace Moment

/-- The moment before a term is evaluated. -/
def begin (machine : Machine) (world : World) (code : Code) (env : FrameId) : Moment :=
  ⟨Run.begin machine world code env, 0⟩

/-- What comes after a moment: another one, or the end. Coming back from a call takes off its level;
once control is at the bottom, the tasks that have been put aside are taken up, unless there was an
error. -/
def step (hosts : Hosts) (final : Value → Except EvalError Unit) (low : Bool) :
    Moment → Moment ⊕ Ended
  | ⟨⟨machine, world, .perform task, seen⟩, inside⟩ =>
    match task.perform hosts machine.convention world with
    | (.call next, world) =>
      match machine.guardOn low next with
      | (machine, .perform task) => .inl ⟨⟨machine, world, .perform task, seen⟩, inside + 1⟩
      | (machine, .unwind result) => .inl ⟨⟨machine, world, .unwind result, seen⟩, inside⟩
    | (.answer v, world) => .inl ⟨⟨machine, world, .unwind (final v), v :: seen⟩, inside⟩
    | (.fail e, world) => .inl ⟨⟨machine, world, .unwind (.error e), seen⟩, inside⟩
  | ⟨⟨machine, world, .unwind result, seen⟩, inside + 1⟩ =>
    .inl ⟨⟨machine.leave, world, .unwind result, seen⟩, inside⟩
  | ⟨⟨machine, world, .unwind (.error e), seen⟩, 0⟩ =>
    .inr { result := .error e, machine := { machine with pending := [] }, world, seen }
  | ⟨⟨machine, world, .unwind (.ok ()), seen⟩, 0⟩ =>
    match machine.pending with
    | [] => .inr { result := .ok (), machine, world, seen }
    | task :: pending =>
      .inl ⟨⟨{ machine with depth := 0, pending }, world, .perform task, seen⟩, 0⟩

/-- What comes after as many steps as the list is long, if the stack is low where the list says so. -/
def advance (hosts : Hosts) (final : Value → Except EvalError Unit) :
    List Bool → Moment → Moment ⊕ Ended
  | [], moment => .inl moment
  | low :: lows, moment =>
    match moment.step hosts final low with
    | .inl next => next.advance hosts final lows
    | .inr e => .inr e

/-- The moment when `n` more calls have come back, and nothing else has happened. -/
def back (n : Nat) (moment : Moment) : Moment :=
  { run := { moment.run with
      machine := { moment.run.machine with depth := moment.run.machine.depth - n } }
    inside := moment.inside - n }

/-- What one step may do. -/
inductive Turns (hosts : Hosts) (final : Value → Except EvalError Unit) : Moment → Moment → Prop
  /-- A task is called for, one level deeper. -/
  | enter {machine : Machine} {world world₁ : World} {seen : List Value} {inside : Nat}
      {task next : Task} (hp : task.perform hosts machine.convention world = (.call next, world₁))
      (hlt : machine.depth < machine.maxDepth) :
      Turns hosts final ⟨⟨machine, world, .perform task, seen⟩, inside⟩
        ⟨⟨{ machine with depth := machine.depth + 1 }, world₁, .perform next, seen⟩, inside + 1⟩
  /-- A task is called for and put aside. -/
  | aside {machine : Machine} {world world₁ : World} {seen : List Value} {inside : Nat}
      {task next : Task} (hp : task.perform hosts machine.convention world = (.call next, world₁)) :
      Turns hosts final ⟨⟨machine, world, .perform task, seen⟩, inside⟩
        ⟨⟨{ machine with pending := machine.pending ++ [next], bounces := machine.bounces + 1 },
          world₁, .unwind (.ok ()), seen⟩, inside⟩
  /-- The answer is handed out. -/
  | answer {machine : Machine} {world world₁ : World} {seen : List Value} {inside : Nat}
      {task : Task} {v : Value}
      (hp : task.perform hosts machine.convention world = (.answer v, world₁)) :
      Turns hosts final ⟨⟨machine, world, .perform task, seen⟩, inside⟩
        ⟨⟨machine, world₁, .unwind (final v), v :: seen⟩, inside⟩
  /-- A task fails. -/
  | fail {machine : Machine} {world world₁ : World} {seen : List Value} {inside : Nat}
      {task : Task} {e : EvalError}
      (hp : task.perform hosts machine.convention world = (.fail e, world₁)) :
      Turns hosts final ⟨⟨machine, world, .perform task, seen⟩, inside⟩
        ⟨⟨machine, world₁, .unwind (.error e), seen⟩, inside⟩
  /-- A call comes back. -/
  | leave {machine : Machine} {world : World} {seen : List Value} {inside : Nat}
      {result : Except EvalError Unit} :
      Turns hosts final ⟨⟨machine, world, .unwind result, seen⟩, inside + 1⟩
        ⟨⟨machine.leave, world, .unwind result, seen⟩, inside⟩
  /-- A task that was put aside is taken up. -/
  | takeUp {machine : Machine} {world : World} {seen : List Value} {task : Task}
      {pending : List Task} (hpending : machine.pending = task :: pending) :
      Turns hosts final ⟨⟨machine, world, .unwind (.ok ()), seen⟩, 0⟩
        ⟨⟨{ machine with depth := 0, pending }, world, .perform task, seen⟩, 0⟩

/-- A step makes a turn, or it is the last one and leaves the world as it is. -/
theorem step_elim (low : Bool) (moment : Moment) :
    (moment.step hosts final low).elim (Turns hosts final moment)
      (fun e => e.world = moment.run.world) := by
  obtain ⟨⟨machine, world, control, seen⟩, inside⟩ := moment
  cases control with
  | perform task =>
    obtain ⟨⟨move, world₁⟩, hp⟩ : ∃ p, task.perform hosts machine.convention world = p := ⟨_, rfl⟩
    cases move with
    | call later =>
      rcases machine.guardOn_cases low later with ⟨hlt, hguard⟩ | hguard
      · simp only [step, hp, hguard]
        exact .enter hp hlt
      · simp only [step, hp, hguard]
        exact .aside hp
    | answer v =>
      simp only [step, hp]
      exact .answer hp
    | fail e =>
      simp only [step, hp]
      exact .fail hp
  | unwind result =>
    cases inside with
    | succ inside => exact .leave
    | zero =>
      cases result with
      | error e => rfl
      | ok u =>
        cases hpending : machine.pending with
        | nil =>
          simp only [step, hpending]
          rfl
        | cons task pending =>
          simp only [step, hpending]
          exact .takeUp hpending

theorem turns_of_step {low : Bool} {moment next : Moment}
    (h : moment.step hosts final low = .inl next) : Turns hosts final moment next := by
  have hstep : (moment.step hosts final low).elim _ _ := step_elim low moment
  rwa [h] at hstep

/-- The end of a run leaves the world as it is. -/
theorem world_of_step {low : Bool} {moment : Moment} {e : Ended}
    (h : moment.step hosts final low = .inr e) : e.world = moment.run.world := by
  have hstep : (moment.step hosts final low).elim _ _ := step_elim low moment
  rwa [h] at hstep

theorem advance_append (lows lows' : List Bool) (moment : Moment) :
    moment.advance hosts final (lows ++ lows') =
      (moment.advance hosts final lows).elim (advance hosts final lows') .inr := by
  induction lows generalizing moment with
  | nil => rfl
  | cons low lows ih =>
    simp only [List.cons_append, advance]
    cases moment.step hosts final low with
    | inl next => exact ih next
    | inr e => rfl

theorem advance_append_of_inl {lows : List Bool} {moment next : Moment}
    (h : moment.advance hosts final lows = .inl next) (lows' : List Bool) :
    moment.advance hosts final (lows ++ lows') = next.advance hosts final lows' := by
  rw [advance_append, h]
  rfl

theorem advance_append_of_inr {lows : List Bool} {moment : Moment} {e : Ended}
    (h : moment.advance hosts final lows = .inr e) (lows' : List Bool) :
    moment.advance hosts final (lows ++ lows') = .inr e := by
  rw [advance_append, h]
  rfl

/-! ### What holds at every moment -/

/-- The depth is the number of calls that have not come back, and at most one task has been put
aside, in which case control is on its way back. -/
structure Orderly (moment : Moment) : Prop where
  depth : moment.run.machine.depth = moment.inside
  inside_le : moment.inside ≤ moment.run.machine.maxDepth
  pending : moment.run.machine.pending = [] ∨
    ∃ task, moment.run.machine.pending = [task] ∧ moment.run.control = .unwind (.ok ())

theorem orderly_begin {machine : Machine} (h : machine.AtRest) (world : World) (code : Code)
    (env : FrameId) : (begin machine world code env).Orderly where
  depth := h.depth
  inside_le := Nat.zero_le _
  pending := .inr ⟨.start code env, by simp only [begin, Run.begin, h.pending, List.nil_append], rfl⟩

/-- While a task is performed, none has been put aside. -/
theorem Orderly.alone {machine : Machine} {world : World} {task : Task} {seen : List Value}
    {inside : Nat} (h : Orderly ⟨⟨machine, world, .perform task, seen⟩, inside⟩) :
    machine.pending = [] := by
  rcases h.pending with hpending | ⟨later, -, hcontrol⟩
  · exact hpending
  · cases hcontrol

/-- A step keeps order, and the settings of the machine. -/
theorem Orderly.turns {moment next : Moment} (h : moment.Orderly)
    (hturns : Turns hosts final moment next) :
    next.Orderly ∧ next.run.machine.maxDepth = moment.run.machine.maxDepth ∧
      next.run.machine.convention = moment.run.machine.convention := by
  cases hturns with
  | enter hp hlt =>
    have hdepth := h.depth
    refine ⟨⟨congrArg (· + 1) hdepth, ?_, .inl h.alone⟩, rfl, rfl⟩
    simp only at hdepth ⊢
    omega
  | @aside machine world world₁ seen inside task later hp =>
    refine ⟨⟨h.depth, h.inside_le, .inr ⟨later, ?_, rfl⟩⟩, rfl, rfl⟩
    simp only [h.alone, List.nil_append]
  | answer hp => exact ⟨⟨h.depth, h.inside_le, .inl h.alone⟩, rfl, rfl⟩
  | fail hp => exact ⟨⟨h.depth, h.inside_le, .inl h.alone⟩, rfl, rfl⟩
  | @leave machine world seen inside result =>
    refine ⟨⟨?_, Nat.le_of_succ_le h.inside_le, h.pending⟩, rfl, rfl⟩
    have hdepth := h.depth
    simp only [Machine.leave] at hdepth ⊢
    omega
  | @takeUp machine world seen task pending hpending =>
    refine ⟨⟨rfl, Nat.zero_le _, .inl ?_⟩, rfl, rfl⟩
    rcases h.pending with hnone | ⟨later, hone, -⟩
    · rw [hpending] at hnone
      cases hnone
    · rw [hpending] at hone
      cases hone
      rfl

/-- **Every moment of a run is orderly.** -/
theorem Orderly.always {lows : List Bool} {moment next : Moment} (h : moment.Orderly)
    (hnext : moment.advance hosts final lows = .inl next) :
    next.Orderly ∧ next.run.machine.maxDepth = moment.run.machine.maxDepth ∧
      next.run.machine.convention = moment.run.machine.convention := by
  induction lows generalizing moment with
  | nil =>
    cases hnext
    exact ⟨h, rfl, rfl⟩
  | cons low lows ih =>
    rw [advance] at hnext
    cases hs : moment.step hosts final low with
    | inr e =>
      rw [hs] at hnext
      cases hnext
    | inl later =>
      rw [hs] at hnext
      obtain ⟨hlater, hmax, hconvention⟩ := h.turns (turns_of_step hs)
      obtain ⟨hnext, hmax', hconvention'⟩ := ih hlater hnext
      exact ⟨hnext, hmax'.trans hmax, hconvention'.trans hconvention⟩

/-! ### The way back -/

variable {machine : Machine} {world : World} {seen : List Value} {inside : Nat}

/-- On the way back nothing happens but that calls come back. -/
theorem advance_back (result : Except EvalError Unit) {lows : List Bool}
    (h : lows.length ≤ inside) :
    advance hosts final lows ⟨⟨machine, world, .unwind result, seen⟩, inside⟩ =
      .inl (back lows.length ⟨⟨machine, world, .unwind result, seen⟩, inside⟩) := by
  induction lows generalizing machine inside with
  | nil => rfl
  | cons low lows ih =>
    cases inside with
    | zero => cases h
    | succ inside =>
      rw [advance, step]
      dsimp only
      rw [ih (Nat.le_of_succ_le_succ h)]
      simp only [back, Machine.leave, List.length_cons, Nat.sub_sub, Nat.add_sub_add_right,
        Nat.add_comm 1]

/-- Once all calls have come back, the run goes on from the bottom. -/
theorem advance_bottom (result : Except EvalError Unit) {lows : List Bool}
    (h : lows.length = inside + 1) :
    ∃ low, advance hosts final lows ⟨⟨machine, world, .unwind result, seen⟩, inside⟩ =
      advance hosts final [low] ⟨⟨{ machine with depth := machine.depth - inside }, world,
        .unwind result, seen⟩, 0⟩ := by
  obtain rfl | ⟨lows, low, rfl⟩ := lows.eq_nil_or_concat
  · cases h
  · rw [List.concat_eq_append, List.length_append, List.length_singleton, Nat.add_right_cancel_iff] at h
    refine ⟨low, ?_⟩
    rw [List.concat_eq_append, advance_append_of_inl (advance_back result (Nat.le_of_eq h))]
    simp only [back, h, Nat.sub_self]

/-- A task that was put aside is taken up at depth zero when all calls have come back. -/
theorem advance_takeUp {task : Task} (hpending : machine.pending = [task]) {lows : List Bool}
    (h : lows.length = inside + 1) :
    advance hosts final lows ⟨⟨machine, world, .unwind (.ok ()), seen⟩, inside⟩ =
      .inl ⟨⟨{ machine with depth := 0, pending := [] }, world, .perform task, seen⟩, 0⟩ := by
  obtain ⟨low, hlow⟩ := advance_bottom (.ok ()) h
  rw [hlow]
  simp only [advance, step, hpending]

/-- If no task was put aside, the run ends when all calls have come back. -/
theorem advance_end (hpending : machine.pending = []) (hdepth : machine.depth = inside)
    (result : Except EvalError Unit) {lows : List Bool} (h : lows.length = inside + 1) :
    advance hosts final lows ⟨⟨machine, world, .unwind result, seen⟩, inside⟩ =
      .inr ⟨result, { machine with depth := 0, pending := [] }, world, seen⟩ := by
  obtain ⟨low, hlow⟩ := advance_bottom result h
  rw [hlow, hdepth, Nat.sub_self]
  cases result with
  | error e => rfl
  | ok u => simp only [advance, step, hpending]

/-! ### The runs of the machine -/

/-- A step of the machine, as steps from moment to moment while the stack is not low. -/
theorem Orderly.exists_advance {run next : Run} (h : Orderly ⟨run, inside⟩)
    (hs : run.step hosts final = .running next) :
    ∃ lows inside', advance hosts final lows ⟨run, inside⟩ = .inl ⟨next, inside'⟩ := by
  obtain ⟨machine, world, control, seen⟩ := run
  cases control with
  | perform task =>
    obtain ⟨⟨move, world₁⟩, hp⟩ : ∃ p, task.perform hosts machine.convention world = p := ⟨_, rfl⟩
    cases move with
    | call later =>
      simp only [Run.step, hp] at hs
      rcases machine.guardOn_cases false later with ⟨-, hguard⟩ | hguard
      · refine ⟨[false], inside + 1, ?_⟩
        rw [← Machine.guardOn_false, hguard] at hs
        cases hs
        simp only [advance, step, hp, hguard]
      · refine ⟨[false], inside, ?_⟩
        rw [← Machine.guardOn_false, hguard] at hs
        cases hs
        simp only [advance, step, hp, hguard]
    | answer v =>
      simp only [Run.step, hp] at hs
      cases hs
      exact ⟨[false], inside, by simp only [advance, step, hp]⟩
    | fail e =>
      simp only [Run.step, hp] at hs
      cases hs
      exact ⟨[false], inside, by simp only [advance, step, hp]⟩
  | unwind result =>
    cases result with
    | error e => cases hs
    | ok u =>
      rcases h.pending with hpending | ⟨task, hpending, -⟩
      · simp only at hpending
        simp only [Run.step, hpending] at hs
        cases hs
      · simp only at hpending
        simp only [Run.step, hpending] at hs
        cases hs
        exact ⟨List.replicate (inside + 1) false, 0, advance_takeUp hpending List.length_replicate⟩

/-- The last step of a run of the machine, as steps from moment to moment. -/
theorem Orderly.exists_advance_end {run : Run} {e : Ended} (h : Orderly ⟨run, inside⟩)
    (hs : run.step hosts final = .ended e) :
    ∃ lows, advance hosts final lows ⟨run, inside⟩ = .inr e := by
  obtain ⟨machine, world, control, seen⟩ := run
  refine ⟨List.replicate (inside + 1) false, ?_⟩
  cases control with
  | perform task =>
    obtain ⟨⟨move, world₁⟩, hp⟩ : ∃ p, task.perform hosts machine.convention world = p := ⟨_, rfl⟩
    cases move <;> simp only [Run.step, hp, reduceCtorEq] at hs
  | unwind result =>
    rcases h.pending with hpending | ⟨task, hpending, hcontrol⟩
    · simp only at hpending
      rw [advance_end hpending h.depth result List.length_replicate]
      cases result with
      | error err =>
        cases hs
        rfl
      | ok u =>
        simp only [Run.step, hpending] at hs
        cases hs
        rfl
    · cases hcontrol
      simp only at hpending
      simp only [Run.step, hpending] at hs
      cases hs

end Moment

/-- A run that has ended has had a last step. -/
theorem Run.exists_last_step {n : Nat} {run : Run} {e : Ended}
    (h : run.advance hosts final n = .ended e) :
    ∃ m last, run.advance hosts final m = .running last ∧ last.step hosts final = .ended e := by
  induction n generalizing run with
  | zero => cases h
  | succ n ih =>
    rw [advance] at h
    cases hs : run.step hosts final with
    | ended e' =>
      rw [hs] at h
      cases h
      exact ⟨0, run, rfl, hs⟩
    | running next =>
      rw [hs] at h
      obtain ⟨m, last, hlast, hend⟩ := ih h
      exact ⟨m + 1, last, by simp only [advance, hs, hlast], hend⟩

namespace Moment

section

variable {machine : Machine} (hrest : machine.AtRest) {world : World} {code : Code} {env : FrameId}

include hrest

/-- **Every moment of a run of the machine is a moment here.** -/
theorem reached_of_advance {n : Nat} {run : Run}
    (h : (Run.begin machine world code env).advance hosts final n = .running run) :
    ∃ lows inside, (begin machine world code env).advance hosts final lows = .inl ⟨run, inside⟩ := by
  induction n generalizing run with
  | zero =>
    cases h
    exact ⟨[], 0, rfl⟩
  | succ n ih =>
    obtain ⟨last, hlast, hs⟩ := Run.advance_succ_iff.mp h
    obtain ⟨lows, inside, hlows⟩ := ih hlast
    have horder := ((orderly_begin hrest world code env).always hlows).1
    obtain ⟨lows', inside', hlows'⟩ := horder.exists_advance hs
    exact ⟨lows ++ lows', inside', (advance_append_of_inl hlows lows').trans hlows'⟩

/-- **Every end of a run of the machine is an end here.** -/
theorem ended_of_advance {n : Nat} {e : Ended}
    (h : (Run.begin machine world code env).advance hosts final n = .ended e) :
    ∃ lows, (begin machine world code env).advance hosts final lows = .inr e := by
  obtain ⟨m, last, hlast, hs⟩ := Run.exists_last_step h
  obtain ⟨lows, inside, hlows⟩ := reached_of_advance hrest hlast
  have horder := ((orderly_begin hrest world code env).always hlows).1
  obtain ⟨lows', hlows'⟩ := horder.exists_advance_end hs
  exact ⟨lows ++ lows', (advance_append_of_inl hlows lows').trans hlows'⟩

end

/-- Control goes back to the bottom, and `task` is taken up there: for as many steps as there are
calls to come back from, these calls come back and nothing else happens, so that no task is called
for; and with the next step `task` is performed at depth zero. -/
structure GoesBackTo (hosts : Hosts) (final : Value → Except EvalError Unit) (task : Task)
    (moment : Moment) : Prop where
  control : moment.run.control = .unwind (.ok ())
  back : ∀ lows, lows.length ≤ moment.inside →
    moment.advance hosts final lows = .inl (moment.back lows.length)
  takeUp : ∀ lows, lows.length = moment.inside + 1 → moment.advance hosts final lows =
    .inl ⟨⟨{ moment.run.machine with depth := 0, pending := [] }, moment.run.world, .perform task,
      moment.run.seen⟩, 0⟩

theorem Orderly.goesBackTo {moment : Moment} (h : moment.Orderly) {task : Task}
    (htask : task ∈ moment.run.machine.pending) : moment.GoesBackTo hosts final task := by
  obtain ⟨⟨machine, world, control, seen⟩, inside⟩ := moment
  rcases h.pending with hpending | ⟨later, hpending, hcontrol⟩
  · rw [hpending] at htask
    cases htask
  · rw [hpending] at htask
    obtain rfl := List.mem_singleton.mp htask
    simp only at hcontrol hpending
    subst hcontrol
    exact ⟨rfl, fun lows hlows => advance_back _ hlows, fun lows hlows => advance_takeUp hpending hlows⟩

/-- A task that is performed at depth zero runs, and so does the task that it calls for. -/
theorem step_bottom {moment : Moment} {task next : Task} {world : World}
    (hcontrol : moment.run.control = .perform task) (hdepth : moment.run.machine.depth = 0)
    (hp : task.perform hosts moment.run.machine.convention moment.run.world = (.call next, world))
    (low : Bool) :
    moment.step hosts final low = .inl ⟨⟨{ moment.run.machine with depth := 1 }, world,
      .perform next, moment.run.seen⟩, moment.inside + 1⟩ := by
  obtain ⟨⟨machine, world₀, control, seen⟩, inside⟩ := moment
  simp only at hcontrol hdepth hp
  subst hcontrol
  simp only [step, hp, Machine.guardOn_bottom hdepth, hdepth, Nat.zero_add]

end Moment

/-- **The bounds of the stack and of the work list hold at every moment.** Whatever is run on a
machine between two runs, and whenever the stack is found to be low: the depth is the number of calls
that have not come back and never more than the machine allows; at most one task has been put aside;
from there on calls only come back, until that task is taken up at depth zero; and a task that is
performed at depth zero is not put aside again, nor is the one that it calls for. The moments of a run
of the machine are among these. -/
theorem Machine.moments_bounded {machine : Machine} (hrest : machine.AtRest) (hosts : Hosts)
    (final : Value → Except EvalError Unit) (world : World) (code : Code) (env : FrameId) :
    (∀ n run, (Run.begin machine world code env).advance hosts final n = .running run →
      ∃ lows inside,
        (Moment.begin machine world code env).advance hosts final lows = .inl ⟨run, inside⟩) ∧
    ∀ lows moment, (Moment.begin machine world code env).advance hosts final lows = .inl moment →
      moment.run.machine.depth ≤ machine.maxDepth ∧
      moment.run.machine.depth = moment.inside ∧
      moment.run.machine.pending.length ≤ 1 ∧
      (∀ task ∈ moment.run.machine.pending, moment.GoesBackTo hosts final task) ∧
      ∀ task next world', moment.run.control = .perform task → moment.run.machine.depth = 0 →
        task.perform hosts moment.run.machine.convention moment.run.world = (.call next, world') →
        ∀ low, moment.step hosts final low = .inl ⟨⟨{ moment.run.machine with depth := 1 }, world',
          .perform next, moment.run.seen⟩, moment.inside + 1⟩ := by
  refine ⟨fun n run h => Moment.reached_of_advance hrest h, fun lows moment h => ?_⟩
  obtain ⟨horder, hmax, -⟩ := (Moment.orderly_begin hrest world code env).always h
  have hmax : moment.run.machine.maxDepth = machine.maxDepth := hmax
  refine ⟨?_, horder.depth, ?_, fun task htask => horder.goesBackTo htask,
    fun task next world' hcontrol hdepth hp low => Moment.step_bottom hcontrol hdepth hp low⟩
  · rw [horder.depth, ← hmax]
    exact horder.inside_le
  · rcases horder.pending with hpending | ⟨task, hpending, -⟩
    · simp only [hpending, List.length_nil, Nat.zero_le]
    · simp only [hpending, List.length_singleton, Nat.le_refl]

/-- What comes of the first steps of `countdown` in an empty frame at depth seven, if the stack is low
where `lows` says so. -/
def countdownMoment (lows : List Bool) : Moment ⊕ Ended :=
  (Moment.begin (Machine.new 7 .implicit) ⟨Store.empty.fresh.2, .empty⟩ Machine.countdown 0).advance
    (fun _ _ world => (.ok .absent, world)) (fun _ => .ok ()) lows

/-- The second call of a run is put aside if the stack is low, long before depth seven. -/
theorem Machine.moments_bounded_countdown :
    ∃ moment task, countdownMoment [false, false, true] = .inl moment ∧ moment.inside = 1 ∧
      moment.run.machine.pending = [task] ∧ moment.run.machine.depth = 1 ∧
      moment.GoesBackTo (fun _ _ world => (.ok .absent, world)) (fun _ => .ok ()) task := by
  have hseen : (countdownMoment [false, false, true]).getLeft?.map (fun moment =>
      (moment.inside, moment.run.machine.pending.length)) = some (1, 1) := by decide +kernel
  obtain ⟨moment, hmoment, hcounts⟩ := Option.map_eq_some_iff.mp hseen
  rw [Sum.getLeft?_eq_some_iff] at hmoment
  obtain ⟨hinside, hlength⟩ := Prod.mk.inj hcounts
  obtain ⟨task, htask⟩ := List.length_eq_one_iff.mp hlength
  obtain ⟨-, hdepth, -, hback, -⟩ :=
    (moments_bounded (new_atRest 7 .implicit) _ _ _ _ _).2 _ moment hmoment
  exact ⟨moment, task, hmoment, hinside, htask, hdepth.trans hinside,
    hback task (htask ▸ List.mem_singleton_self task)⟩

end LetLambda
