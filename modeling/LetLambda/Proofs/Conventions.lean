import LetLambda.Proofs.Confinement
import LetLambda.Proofs.Handover

/-!
# The convention matters for host functions only

How functions are told where to go on makes a difference where a host function is applied, and
nowhere else. So a run that cannot come by a host function is the same run under both conventions,
step by step: it ends after the same number of steps or not at all, with the same value or error, in
the same world and with the same number of bounces (`Machine.conventions_agree`).

A run cannot come by a host function if none can be come by from the frame in which it begins, be it
bound there or in a frame around it, or in a frame that a function stands in which can be come by
(`ReachesValue`). What is kept up then is that none of the frames that the run may come by holds a
host function, and neither does any task that is at hand, nor a link that waits in one of them
(`Run.Hostless`).
-/

namespace LetLambda

variable {hosts : Hosts} {final : Value → Except EvalError Unit} {live : FrameId → Prop}

/-! ### Values, frames and tasks without host functions -/

/-- A value that is no host function; if it is a function of the language, it stands in a frame of
`live`. -/
def Value.Hostless (live : FrameId → Prop) : Value → Prop
  | .int _ | .str _ | .bool _ => True
  | .closure _ f => live f
  | .host .. => False

theorem custody_hostless (hosts : Hosts) (live : FrameId → Prop) :
    Custody hosts (fun _ => False) (Value.Hostless live) live where
  plain v h := by
    cases v with
    | int n | str s | bool b => trivial
    | closure lambda f => cases h
    | host name id => cases h
  closure _ _ h := h
  host _ _ h := h.elim

/-- What is applied is no host function, so nobody asks for the convention. -/
theorem Move.apply_hostless {callee : Value} (h : callee.Hostless live) (c c' : Convention)
    (w : World) (args : List Value) (k : Continuation) :
    Move.apply hosts c w callee args k = Move.apply hosts c' w callee args k := by
  cases callee with
  | host name id => exact h.elim
  | int n | str s | bool b | closure lambda f => rfl

theorem Move.arguments_hostless {callee : Value} (h : callee.Hostless live) (c c' : Convention)
    (w : World) (done : List Value) (rest : List Code) (env : FrameId) (k : Continuation) :
    Move.arguments hosts c w callee done rest env k =
      Move.arguments hosts c' w callee done rest env k := by
  cases rest with
  | nil => exact Move.apply_hostless h c c' w done k
  | cons t rest => rfl

/-- **A task without host functions does the same under all conventions.** -/
theorem Task.perform_hostless {task : Task} (h : task.Held (Value.Hostless live) live)
    (hosts : Hosts) (c c' : Convention) (w : World) :
    task.perform hosts c w = task.perform hosts c' w := by
  cases task with
  | start code env => rfl
  | evaluate code env k => rfl
  | declare bindings body env k => rfl
  | apply callee args k => exact Move.apply_hostless h.1 c c' w args k
  | resume k v =>
    cases k with
    | nil => rfl
    | cons link k =>
      cases link with
      | callee args env => exact Move.arguments_hostless h.1 c c' w [] args env k
      | argument callee done rest env =>
        have hcallee := (h.2 _ List.mem_cons_self).1
        exact Move.arguments_hostless hcallee c c' w (done ++ [v]) rest env k
      | _ => rfl

/-- A task without host functions leaves none behind. -/
theorem Task.guarded_hostless {task : Task} {w : World} (hosts : Hosts) (c : Convention)
    (hw : w.store.scene.Holding (Value.Hostless live) live)
    (htask : task.Held (Value.Hostless live) live) :
    Move.Guarded (Value.Hostless live) live (task.perform hosts c w) := by
  refine (custody_hostless hosts live).perform c hw htask fun v hv => ?_
  obtain ⟨lambda, f, hmade, rfl⟩ := Task.makes_iff.mp hv
  exact htask.live_of_made hw hmade

/-! ### Runs without host functions -/

/-- The machine under another convention. -/
def Machine.under (machine : Machine) (c : Convention) : Machine := { machine with convention := c }

/-- The run under another convention. -/
def Run.under (run : Run) (c : Convention) : Run := { run with machine := run.machine.under c }

/-- The end of a run, under another convention. What the run came to, the world that it left and the
answers are the same, and so is everything else of the machine. -/
def Ended.under (e : Ended) (c : Convention) : Ended := { e with machine := e.machine.under c }

/-- What has become of a run, under another convention. -/
def Progress.under (progress : Progress) (c : Convention) : Progress :=
  match progress with
  | .running run => .running (run.under c)
  | .ended e => .ended (e.under c)

theorem Machine.guardOn_under (low : Bool) (machine : Machine) (c : Convention) (task : Task) :
    (machine.under c).guardOn low task =
      ((machine.guardOn low task).1.under c, (machine.guardOn low task).2) := by
  unfold guardOn
  by_cases h : machine.maxDepth ≤ machine.depth ∨ 0 < machine.depth ∧ low = true
  · rw [if_pos h]
    exact if_pos h
  · rw [if_neg h]
    exact if_neg h

theorem Machine.guard_under (machine : Machine) (c : Convention) (task : Task) :
    (machine.under c).guard task = ((machine.guard task).1.under c, (machine.guard task).2) := by
  rw [← guardOn_false, ← guardOn_false]
  exact guardOn_under false machine c task

/-- Neither the frames of `live` nor the tasks at hand hold a host function. -/
structure Run.Hostless (live : FrameId → Prop) (run : Run) : Prop where
  world : run.world.store.scene.Holding (Value.Hostless live) live
  tasks : ∀ task ∈ run.tasks, task.Held (Value.Hostless live) live

namespace Run.Hostless

variable {run next : Run} {machine : Machine} {world : World} {task : Task}
  {seen : List Value} {move : Move}

theorem of_tasks (h : run.Hostless live) (hworld : next.world = run.world)
    (htasks : ∀ task ∈ next.tasks, task ∈ run.tasks) : next.Hostless live :=
  ⟨hworld ▸ h.world, fun task hmem => h.tasks task (htasks task hmem)⟩

/-- After a task has been performed, there are no other tasks at hand than those that had been put
aside and the one that it called for. -/
theorem of_perform (h : Hostless live ⟨machine, world, .perform task, seen⟩)
    (hp : task.perform hosts machine.convention world = (move, next.world))
    (htasks : ∀ task ∈ next.tasks, task ∈ machine.pending ∨ task ∈ move.tasks) :
    next.Hostless live := by
  obtain ⟨htask, hpending⟩ := List.forall_mem_cons.mp h.tasks
  have hguarded := Task.guarded_hostless hosts machine.convention h.world htask
  rw [hp] at hguarded
  exact ⟨hguarded.holding, fun task hmem => (htasks task hmem).elim (hpending task)
    (hguarded.held task)⟩

/-- The task at hand does the same under another convention. -/
theorem perform_under (h : Hostless live ⟨machine, world, .perform task, seen⟩) (hosts : Hosts)
    (c : Convention) : task.perform hosts (machine.under c).convention world =
      task.perform hosts machine.convention world :=
  Task.perform_hostless (h.tasks task List.mem_cons_self) hosts c machine.convention world

/-- A step keeps host functions away. -/
theorem step (h : run.Hostless live) (hs : run.step hosts final = .running next) :
    next.Hostless live := by
  obtain ⟨machine, world, control, seen⟩ := run
  cases control with
  | perform task =>
    obtain ⟨⟨move, world₁⟩, hp⟩ : ∃ p, task.perform hosts machine.convention world = p := ⟨_, rfl⟩
    cases move with
    | call later =>
      by_cases hlt : machine.depth < machine.maxDepth
      · simp only [Run.step, hp, Machine.guard, if_pos hlt] at hs
        cases hs
        exact h.of_perform hp fun t ht => (List.mem_cons.mp ht).symm.imp id fun ht =>
          List.mem_singleton.mpr ht
      · simp only [Run.step, hp, Machine.guard, if_neg hlt] at hs
        cases hs
        exact h.of_perform hp fun t ht => List.mem_append.mp ht
    | answer v =>
      simp only [Run.step, hp] at hs
      cases hs
      exact h.of_perform hp fun t ht => .inl ht
    | fail e =>
      simp only [Run.step, hp] at hs
      cases hs
      exact h.of_perform hp fun t ht => .inl ht
  | unwind result =>
    cases result with
    | error e => cases hs
    | ok u =>
      cases hpending : machine.pending with
      | nil =>
        simp only [Run.step, hpending] at hs
        cases hs
      | cons task pending =>
        simp only [Run.step, hpending] at hs
        cases hs
        exact h.of_tasks rfl fun t ht => by rw [Run.tasks, hpending]; exact ht

/-- A step is the same under all conventions. -/
theorem step_under (h : run.Hostless live) (c : Convention) :
    (run.under c).step hosts final = (run.step hosts final).under c := by
  obtain ⟨machine, world, control, seen⟩ := run
  cases control with
  | perform task =>
    have hsame := h.perform_under hosts c
    obtain ⟨⟨move, world₁⟩, hp⟩ : ∃ p, task.perform hosts machine.convention world = p := ⟨_, rfl⟩
    rw [hp] at hsame
    cases move with
    | call later =>
      simp only [Run.step, Run.under, hsame, hp, Machine.guard_under, Progress.under]
    | answer v => simp only [Run.step, Run.under, hsame, hp, Progress.under]
    | fail e => simp only [Run.step, Run.under, hsame, hp, Progress.under]
  | unwind result =>
    cases result with
    | error e => rfl
    | ok u =>
      have hpending' : (machine.under c).pending = machine.pending := rfl
      cases hpending : machine.pending with
      | nil =>
        simp only [Run.step, Run.under, hpending', hpending, Progress.under]
        rfl
      | cons task pending =>
        simp only [Run.step, Run.under, hpending', hpending, Progress.under]
        rfl

/-- **A run without host functions is the same under all conventions**, step by step. -/
theorem advance_under (h : run.Hostless live) (c : Convention) (n : Nat) :
    (run.under c).advance hosts final n = (run.advance hosts final n).under c := by
  induction n generalizing run with
  | zero => rfl
  | succ n ih =>
    rw [advance, advance, h.step_under c]
    cases hs : run.step hosts final with
    | running next => exact ih (h.step hs)
    | ended e => rfl

end Run.Hostless

/-! ### Whenever the stack is low -/

/-- The moment under another convention. -/
def Moment.under (moment : Moment) (c : Convention) : Moment :=
  { moment with run := moment.run.under c }

namespace Moment

variable {moment next : Moment}

/-- A step keeps host functions away, whether or not the stack is low. -/
theorem hostless_of_step {low : Bool} (h : moment.run.Hostless live)
    (hs : moment.step hosts final low = .inl next) : next.run.Hostless live := by
  cases turns_of_step hs with
  | enter hp hlt => exact h.of_perform hp fun t ht => (List.mem_cons.mp ht).symm.imp id fun ht =>
      List.mem_singleton.mpr ht
  | aside hp => exact h.of_perform hp fun t ht => List.mem_append.mp ht
  | answer hp => exact h.of_perform hp fun t ht => .inl ht
  | fail hp => exact h.of_perform hp fun t ht => .inl ht
  | leave => exact h.of_tasks rfl fun t ht => ht
  | takeUp hpending => exact h.of_tasks rfl fun t ht => by rw [Run.tasks, hpending]; exact ht

/-- A step is the same under all conventions, whether or not the stack is low. -/
theorem step_under (h : moment.run.Hostless live) (c : Convention) (low : Bool) :
    (moment.under c).step hosts final low =
      (moment.step hosts final low).map (·.under c) (·.under c) := by
  obtain ⟨⟨machine, world, control, seen⟩, inside⟩ := moment
  cases control with
  | perform task =>
    have hsame := h.perform_under hosts c
    obtain ⟨⟨move, world₁⟩, hp⟩ : ∃ p, task.perform hosts machine.convention world = p := ⟨_, rfl⟩
    rw [hp] at hsame
    cases move with
    | call later =>
      obtain ⟨⟨machine₁, control⟩, hguard⟩ : ∃ p, machine.guardOn low later = p := ⟨_, rfl⟩
      cases control with
      | perform task =>
        simp only [step, under, Run.under, hsame, hp, Machine.guardOn_under, hguard, Sum.map_inl]
      | unwind result =>
        simp only [step, under, Run.under, hsame, hp, Machine.guardOn_under, hguard, Sum.map_inl]
    | answer v => simp only [step, under, Run.under, hsame, hp, Sum.map_inl]
    | fail e => simp only [step, under, Run.under, hsame, hp, Sum.map_inl]
  | unwind result =>
    cases inside with
    | succ inside => rfl
    | zero =>
      cases result with
      | error e => rfl
      | ok u =>
        have hpending' : (machine.under c).pending = machine.pending := rfl
        cases hpending : machine.pending with
        | nil =>
          simp only [step, under, Run.under, hpending', hpending, Sum.map_inr]
          rfl
        | cons task pending =>
          simp only [step, under, Run.under, hpending', hpending, Sum.map_inl]
          rfl

/-- A run without host functions is the same under all conventions, whenever the stack is low. -/
theorem advance_under (h : moment.run.Hostless live) (c : Convention) (lows : List Bool) :
    (moment.under c).advance hosts final lows =
      (moment.advance hosts final lows).map (·.under c) (·.under c) := by
  induction lows generalizing moment with
  | nil => rfl
  | cons low lows ih =>
    rw [advance, advance, step_under h c low]
    cases hs : moment.step hosts final low with
    | inl next => exact ih (hostless_of_step h hs)
    | inr e => rfl

end Moment

/-! ### Worlds without host functions -/

section

variable {s : Store} {env : FrameId}

mutual

theorem ReachesFrame.live (hs : s.scene.Holding (Value.Hostless live) live) (henv : live env)
    {f : FrameId} : ReachesFrame hosts s env f → live f
  | .self => henv
  | .outer h hg => hs.chain _ (h.live hs henv) _ (List.mem_cons_of_mem _ hg)
  | .closure h => h.hostless hs henv

theorem ReachesValue.hostless (hs : s.scene.Holding (Value.Hostless live) live) (henv : live env)
    {v : Value} : ReachesValue hosts s env v → v.Hostless live
  | .slot h hx => hs.slots _ _ _ (h.live hs henv) (Option.map_eq_some_iff.mpr ⟨_, hx, rfl⟩)
  | .host h _ _ => (h.hostless hs henv).elim

end

/-- No host function can be come by from a frame if and only if it is among frames that no value
leads out of, and that hold no host function. -/
theorem hostless_iff :
    (∀ name id, ¬ ReachesValue hosts s env (.host name id)) ↔
      ∃ live : FrameId → Prop, live env ∧ s.scene.Holding (Value.Hostless live) live := by
  constructor
  · intro hfree
    refine ⟨_, .inl .self, (Realm.confined_ofRun hosts s env (.int 0)).holding.mono fun v hv => ?_⟩
    cases v with
    | int n | str s | bool b => trivial
    | closure lambda f => exact hv.1
    | host name id =>
      obtain ⟨name, hname⟩ := hv
      exact hfree name id hname
  · rintro ⟨live, henv, hs⟩ name id h
    exact h.hostless hs henv

end

/-- It is enough to look at the frames one by one. -/
theorem Store.holding_of_frames {s : Store} (hfresh : ∀ f, s.frames.size ≤ f → live f)
    (hframes : ∀ f (frame : Frame), s.frames[f]? = some frame → live f →
      (∀ g ∈ frame.outer, live g) ∧ ∀ entry ∈ frame.slots, (entry.2.read f).Hostless live) :
    s.scene.Holding (Value.Hostless live) live := by
  refine ⟨hfresh, fun f hf g hg => ?_, fun f x v hf hv => ?_⟩
  · rcases List.mem_cons.mp hg with rfl | hg
    · exact hf
    · change g ∈ s.outer f at hg
      unfold Store.outer at hg
      split at hg
      · next frame hframe => exact (hframes f frame hframe hf).1 g hg
      · exact absurd hg List.not_mem_nil
  · obtain ⟨slot, hx, rfl⟩ := Option.map_eq_some_iff.mp hv
    unfold Store.slot? at hx
    split at hx
    · next frame hframe =>
      obtain ⟨before, after, hslots, -⟩ := List.lookup_eq_some_iff.mp hx
      exact (hframes f frame hframe hf).2 (x, slot) (hslots ▸ List.mem_append_cons_self)
    · cases hx

theorem Run.hostless_begin {machine : Machine} (idle : machine.Idle) {world : World}
    {env : FrameId} (hworld : world.store.scene.Holding (Value.Hostless live) live)
    (henv : live env) (code : Code) : (Run.begin machine world code env).Hostless live := by
  refine ⟨hworld, ?_⟩
  rw [tasks_begin idle]
  exact List.forall_mem_singleton.mpr henv

namespace Machine

variable {machine : Machine} {world : World} {env : FrameId}

theorem execute_under (idle : machine.Idle)
    (hworld : world.store.scene.Holding (Value.Hostless live) live) (henv : live env)
    (c : Convention) (fuel : Nat) (code : Code) :
    (machine.under c).execute hosts final fuel world code env =
      (machine.execute hosts final fuel world code env).map (·.under c) := by
  cases hcheck : code.check with
  | error fault =>
    rw [execute_of_malformed hcheck, execute_of_malformed hcheck]
    rfl
  | ok u =>
    have hrun : (Run.begin (machine.under c) world code env).advance hosts final fuel =
        ((Run.begin machine world code env).advance hosts final fuel).under c :=
      (Run.hostless_begin idle hworld henv code).advance_under c fuel
    simp only [execute, start, hcheck, hrun]
    cases (Run.begin machine world code env).advance hosts final fuel with
    | running run => rfl
    | ended e => rfl

theorem executeOn_under (idle : machine.Idle)
    (hworld : world.store.scene.Holding (Value.Hostless live) live) (henv : live env)
    (c : Convention) (lows : List Bool) (code : Code) :
    (machine.under c).executeOn hosts final lows world code env =
      (machine.executeOn hosts final lows world code env).map (·.under c) := by
  cases hcheck : code.check with
  | error fault =>
    simp only [executeOn, hcheck]
    rfl
  | ok u =>
    have hbegin : (Moment.begin machine world code env).run.Hostless live :=
      Run.hostless_begin idle hworld henv code
    have hrun : (Moment.begin (machine.under c) world code env).advance hosts final lows =
        ((Moment.begin machine world code env).advance hosts final lows).map (·.under c)
          (·.under c) :=
      Moment.advance_under hbegin c lows
    simp only [executeOn, hcheck, hrun]
    cases (Moment.begin machine world code env).advance hosts final lows with
    | inl moment => rfl
    | inr e => rfl

/-- **The convention matters for host functions only.** If no host function can be come by from the
frame in which a run begins, then the run is the same under all conventions, for every term, every
depth at which calls are put aside, and whenever the stack is low: it ends after the same number of
steps or not at all, having come to the same value or error, in the same world, with as many
bounces. Nothing is left different but the convention itself. -/
theorem conventions_agree {machine : Machine} (idle : machine.Idle) (hosts : Hosts)
    (final : Value → Except EvalError Unit) (world : World) (code : Code) (env : FrameId)
    (hfree : ∀ name id, ¬ ReachesValue hosts world.store env (.host name id))
    (c c' : Convention) :
    (∀ fuel, (machine.under c').execute hosts final fuel world code env =
      ((machine.under c).execute hosts final fuel world code env).map (·.under c')) ∧
    (∀ lows, (machine.under c').executeOn hosts final lows world code env =
      ((machine.under c).executeOn hosts final lows world code env).map (·.under c')) ∧
    ∀ fuel,
      ((machine.under c').run hosts fuel world code env).map
          (fun (result, e) => (result, e.world, e.machine.bounces)) =
        ((machine.under c).run hosts fuel world code env).map
          (fun (result, e) => (result, e.world, e.machine.bounces)) := by
  obtain ⟨live, henv, hworld⟩ := hostless_iff.mp hfree
  have hidle : (machine.under c).Idle := idle
  refine ⟨fun fuel => execute_under hidle hworld henv c' fuel code,
    fun lows => executeOn_under hidle hworld henv c' lows code, fun fuel => ?_⟩
  have hexecute : (machine.under c').execute hosts (fun _ => .ok ()) fuel world code env = _ :=
    execute_under hidle hworld henv c' fuel code
  rw [run, run, hexecute, Option.map_map, Option.map_map, Option.map_map]
  rfl

/-- Frames of which the first holds a host function. None of the others leads there: `add` stands in
the last one, inside the second. -/
def cellar : World where
  store := ⟨#[
    ⟨[("println", .value (.host "println" 1))], []⟩,
    ⟨[("limit", .value (.int 10)), ("add", .value (.closure ⟨7, none, ["n"],
        .seq [.assign (.var "total") (.binary "+" (.var "total") (.var "n")),
          .conditional (.binary "<" (.var "total") (.var "limit"))
            (.call (.var "add") [.binary "+" (.var "n") (.int 1)])
            (some (.var "total"))]⟩ 2))], []⟩,
    ⟨[("total", .value (.int 0))], [1]⟩]⟩
  console := .buffer ""

theorem cellar_holding : cellar.store.scene.Holding (Value.Hostless (· ≠ 0)) (· ≠ 0) := by
  refine Store.holding_of_frames (fun f hf => Nat.ne_zero_of_lt hf) fun f frame hframe hf => ?_
  obtain _ | _ | _ | f := f
  · exact absurd rfl hf
  · cases hframe
    refine ⟨List.forall_mem_nil _, List.forall_mem_cons.mpr ⟨trivial, ?_⟩⟩
    exact List.forall_mem_singleton.mpr (Nat.succ_ne_zero 1)
  · cases hframe
    exact ⟨List.forall_mem_singleton.mpr Nat.one_ne_zero, List.forall_mem_singleton.mpr trivial⟩
  · cases hframe

/-- The call of `add` in the second frame. -/
def tally : Code := .call (.var "add") [.int 1]

theorem conventions_agree_cellar :
    (∀ name id, ¬ ReachesValue printing.host cellar.store 1 (.host name id)) ∧ ∃ e e',
      (new 4 .implicit).run printing.host 120 cellar tally 1 = some (.ok (.int 10), e) ∧
      e.machine.bounces = 19 ∧ e.world.store.slot? 2 "total" = some (.value (.int 10)) ∧
      (new 4 .explicit).run printing.host 120 cellar tally 1 = some (.ok (.int 10), e') ∧
      e'.machine.bounces = e.machine.bounces ∧ e'.world = e.world := by
  have hfree : ∀ name id, ¬ ReachesValue printing.host cellar.store 1 (.host name id) :=
    hostless_iff.mpr ⟨_, Nat.one_ne_zero, cellar_holding⟩
  have hrun : (new 4 .implicit).run printing.host 120 cellar tally 1 =
      some (.ok (.int 10), _) := rfl
  obtain ⟨-, -, hsame⟩ := conventions_agree (new_idle 4 .implicit) printing.host (fun _ => .ok ())
    cellar tally 1 hfree .implicit .explicit
  obtain ⟨⟨result, e'⟩, hrun', heq⟩ :=
    Option.map_eq_some_iff.mp ((hsame 120).trans (congrArg (Option.map _) hrun))
  simp only [Prod.mk.injEq] at heq
  obtain ⟨rfl, hworld, hbounces⟩ := heq
  exact ⟨hfree, _, e', hrun, rfl, rfl, hrun', hbounces, hworld⟩

/-- In the first frame the convention does matter: there the number is taken for the function that
is to go on with what `println` returns. -/
example :
    ((new 4 .implicit).run printing.host 50 cellar (.call (.var "println") [.int 1]) 0).map
        (·.1.isOk) = some true ∧
      ((new 4 .explicit).run printing.host 50 cellar (.call (.var "println") [.int 1]) 0).map
        (·.1.isOk) = some false := by
  decide +kernel

end Machine

end LetLambda
