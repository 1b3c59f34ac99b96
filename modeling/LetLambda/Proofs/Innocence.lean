import LetLambda.Proofs.Handover
import LetLambda.Term.Purity

/-!
# Pure terms are innocent

A pure term may be dropped because nobody can tell that it was evaluated. While it is evaluated, no
function is applied, be it one of the language or of the host; nothing is printed; and all frames
that were there stay as they were, though new ones may be made. And its evaluation ends, with a
value or with an error (`Machine.pure_run`).

All of that comes from what one task does. A task is `Pure` if only pure terms are left to evaluate
in it and no link of its continuation waits for a function, an argument or the value of an
assignment. What such a task calls for is such a task again, and a lighter one
(`Task.Pure.harmless`).
-/

namespace LetLambda

variable {hosts : Hosts} {convention : Convention} {final : Value → Except EvalError Unit}

/-! ### Worlds that are spared -/

/-- Nothing was printed, and the frames that were there are as they were. -/
structure World.Spares (world world' : World) : Prop where
  console : world'.console = world.console
  frames : ∀ (f : FrameId) (frame : Frame),
    world.store.frames[f]? = some frame → world'.store.frames[f]? = some frame

theorem World.Spares.refl (world : World) : world.Spares world := ⟨rfl, fun _ _ h => h⟩

theorem World.Spares.trans {world world₁ world₂ : World} (h : world.Spares world₁)
    (h' : world₁.Spares world₂) : world.Spares world₂ :=
  ⟨h'.console.trans h.console, fun f frame hf => h'.frames f frame (h.frames f frame hf)⟩

/-- A slot is filled in a new frame only. -/
theorem World.spares_fill_new (world : World) (env : FrameId) (x : Name) (slot : Slot) :
    world.Spares { world with
      store := (world.store.extend env).2.fill (world.store.extend env).1 x slot } := by
  refine ⟨rfl, fun f frame hf => ?_⟩
  have hlt : f < world.store.frames.size := (Array.getElem?_eq_some_iff.mp hf).1
  have hne : (world.store.extend env).1 ≠ f := Nat.ne_of_gt hlt
  rw [Store.fill, Array.getElem?_modify, if_neg hne, ← hf]
  exact (Array.getElem?_push_lt hlt).trans (Array.getElem?_eq_getElem hlt).symm

/-! ### Pure tasks -/

/-- The link waits for a value that is neither assigned nor part of a call, and has only pure terms
evaluated after that. -/
def Link.Pure : Link → Prop
  | assign .. | callee .. | argument .. => False
  | operate .. | negate => True
  | right _ t _ => t.isPure = true
  | branch consequent alternative? _ =>
    consequent.isPure = true ∧ ∀ alternative ∈ alternative?, alternative.isPure = true
  | sequence rest _ => Term.allPure rest = true
  | define _ rest body _ => Term.bindingsPure rest = true ∧ body.isPure = true

/-- The task has only pure terms evaluated, and applies nothing. -/
def Task.Pure : Task → Prop
  | start code _ => code.isPure = true
  | evaluate code _ k => code.isPure = true ∧ ∀ link ∈ k, link.Pure
  | resume k _ => ∀ link ∈ k, link.Pure
  | declare bindings body _ k =>
    (Term.bindingsPure bindings = true ∧ body.isPure = true) ∧ ∀ link ∈ k, link.Pure
  | apply .. => False

/-- The task applies the function `callee` to `args`. -/
inductive Task.Applies : Task → Value → List Value → Prop
  /-- It is called without arguments. -/
  | callee (callee : Value) (env : FrameId) (k : Continuation) :
      Applies (.resume (.callee [] env :: k) callee) callee []
  /-- The last argument has been evaluated. -/
  | argument (callee : Value) (done : List Value) (v : Value) (env : FrameId) (k : Continuation) :
      Applies (.resume (.argument callee done [] env :: k) v) callee (done ++ [v])
  /-- It is given the result of a host function. -/
  | apply (callee : Value) (args : List Value) (k : Continuation) :
      Applies (.apply callee args k) callee args

/-- A function is applied where a task applies it. -/
theorem Task.Applies.perform {task : Task} {callee : Value} {args : List Value}
    (h : task.Applies callee args) :
    ∃ k, ∀ hosts convention world, task.perform hosts convention world =
      Move.apply hosts convention world callee args k := by
  cases h with
  | callee callee env k => exact ⟨k, fun _ _ _ => rfl⟩
  | argument callee done v env k => exact ⟨k, fun _ _ _ => rfl⟩
  | apply callee args k => exact ⟨k, fun _ _ _ => rfl⟩

/-- What a task does that applies nothing depends neither on the host functions nor on how functions
are told where to go on. -/
theorem Task.perform_eq_of_not_applies {task : Task} (h : ∀ callee args, ¬ task.Applies callee args)
    (hosts hosts' : Hosts) (convention convention' : Convention) (world : World) :
    task.perform hosts convention world = task.perform hosts' convention' world := by
  cases task with
  | apply callee args k => exact absurd (.apply callee args k) (h callee args)
  | resume k v =>
    cases k with
    | nil => rfl
    | cons link k =>
      cases link with
      | callee args env =>
        cases args with
        | nil => exact absurd (.callee v env k) (h v [])
        | cons => rfl
      | argument callee done rest env =>
        cases rest with
        | nil => exact absurd (.argument callee done v env k) (h callee (done ++ [v]))
        | cons => rfl
      | _ => rfl
  | _ => rfl

theorem Task.Pure.not_applies {task : Task} (h : task.Pure) (callee : Value) (args : List Value) :
    ¬ task.Applies callee args := by
  intro happlies
  cases happlies with
  | callee => exact h _ List.mem_cons_self
  | argument => exact h _ List.mem_cons_self
  | apply => exact h

/-! ### The weight of a task -/

namespace Term

mutual

/-- How many tasks it takes to evaluate a pure term, at most. -/
def work : Code → Nat
  | int _ | str _ | bool _ | var _ | assign .. | call .. | function .. => 1
  | binary _ left right => left.work + right.work + 3
  | negate body => body.work + 2
  | seq items => workAll items + 1
  | conditional test consequent none => test.work + consequent.work + 2
  | conditional test consequent (some alternative) =>
    test.work + consequent.work + alternative.work + 2
  | declare bindings body => workBindings bindings + body.work + 1
termination_by structural t => t

/-- How many tasks a sequence of pure terms takes. -/
def workAll : List Code → Nat
  | [] => 0
  | t :: ts => t.work + 1 + workAll ts
termination_by structural ts => ts

/-- How many tasks definitions take. -/
def workBindings : List (Binding Code) → Nat
  | [] => 0
  | ⟨_, none⟩ :: bs => 1 + workBindings bs
  | ⟨_, some t⟩ :: bs => t.work + 1 + workBindings bs
termination_by structural bs => bs

end

end Term

/-- How many tasks follow when the link is given a value, up to the next link. -/
def Link.weight : Link → Nat
  | assign .. | operate .. | negate | callee .. | argument .. => 1
  | right _ t _ => t.work + 2
  | branch consequent alternative? _ => consequent.work + (alternative?.map Term.work).getD 0 + 1
  | sequence rest _ => Term.workAll rest + 1
  | define _ rest body _ => Term.workBindings rest + body.work + 1

/-- How many tasks follow when the continuation is given a value. -/
def Continuation.weight : Continuation → Nat
  | [] => 0
  | link :: k => link.weight + weight k

open Continuation (weight)

/-- How many tasks follow a task, as long as nothing is applied. -/
def Task.weight : Task → Nat
  | start code _ => code.work + 1
  | evaluate code _ k => code.work + Continuation.weight k
  | resume k _ | apply _ _ k => Continuation.weight k
  | declare bindings body _ k => Term.workBindings bindings + body.work + 1 + Continuation.weight k

/-! ### What a pure task does -/

/-- A move that spares the world and calls for nothing but pure tasks that weigh less than `n`. -/
def Move.Harmless (world : World) (n : Nat) (p : Move × World) : Prop :=
  world.Spares p.2 ∧ ∀ next ∈ p.1.tasks, next.Pure ∧ next.weight < n

namespace Move

variable {world world₁ : World} {n : Nat} {env : FrameId} {k : Continuation}

theorem harmless_call {task : Task} (hpure : task.Pure) (hlt : task.weight < n)
    (hworld : world.Spares world₁) : Harmless world n (.call task, world₁) :=
  ⟨hworld, List.forall_mem_singleton.mpr ⟨hpure, hlt⟩⟩

theorem harmless_ofResult (result : Except EvalError Value) (hk : ∀ link ∈ k, link.Pure)
    (hn : weight k < n) : Harmless world n (ofResult k result, world) := by
  cases result with
  | ok v => exact harmless_call hk hn (.refl world)
  | error e => exact ⟨.refl world, List.forall_mem_nil _⟩

theorem harmless_sequence {items : List Code} (last : Value) (hitems : Term.allPure items = true)
    (hk : ∀ link ∈ k, link.Pure) (hn : Term.workAll items + weight k < n) :
    Harmless world n (sequence env last k items, world) := by
  rcases items with _ | ⟨t, _ | ⟨t', items⟩⟩
  · refine harmless_call hk ?_ (.refl world)
    simp only [Task.weight, Term.workAll] at hn ⊢
    omega
  · rw [Term.allPure, Bool.and_eq_true] at hitems
    refine harmless_call ⟨hitems.1, hk⟩ ?_ (.refl world)
    simp only [Task.weight, Term.workAll] at hn ⊢
    omega
  · rw [Term.allPure, Bool.and_eq_true] at hitems
    refine harmless_call ⟨hitems.1, List.forall_mem_cons.mpr ⟨hitems.2, hk⟩⟩ ?_ (.refl world)
    simp only [Task.weight, Continuation.weight, Link.weight]
    rw [Term.workAll] at hn
    omega

theorem harmless_declare {bindings : List (Binding Code)} {body : Code}
    (hspares : world.Spares world₁)
    (hpure : Term.bindingsPure bindings = true ∧ body.isPure = true) (hk : ∀ link ∈ k, link.Pure)
    (hn : Term.workBindings bindings + body.work + weight k < n) :
    Harmless world n (declare world₁ bindings body env k) := by
  obtain ⟨hbindings, hbody⟩ := hpure
  cases bindings with
  | nil =>
    refine harmless_call ⟨hbody, hk⟩ ?_ hspares
    simp only [Task.weight, Term.workBindings] at hn ⊢
    omega
  | cons b rest =>
    obtain ⟨x, t?⟩ := b
    cases t? with
    | none =>
      refine harmless_call ⟨⟨hbindings, hbody⟩, hk⟩ ?_
        (hspares.trans (world₁.spares_fill_new env x (.value .absent)))
      simp only [Task.weight, Term.workBindings] at hn ⊢
      omega
    | some t =>
      rw [Term.bindingsPure, Bool.and_eq_true] at hbindings
      refine harmless_call ⟨hbindings.1, List.forall_mem_cons.mpr ⟨⟨hbindings.2, hbody⟩, hk⟩⟩ ?_
        hspares
      simp only [Task.weight, Continuation.weight, Link.weight, Term.workBindings] at hn ⊢
      omega

theorem harmless_function (lambda : Lambda) (hk : ∀ link ∈ k, link.Pure) (hn : weight k < n) :
    Harmless world n (function world lambda env k) := by
  obtain ⟨label, name?, params, body⟩ := lambda
  cases name? with
  | none => exact harmless_call hk hn (.refl world)
  | some x =>
    exact harmless_call hk hn (world.spares_fill_new env x (.self ⟨label, some x, params, body⟩))

/-- A pure term that is evaluated. -/
theorem harmless_evaluate {code : Code} (hcode : code.isPure = true) (hk : ∀ link ∈ k, link.Pure)
    (hn : code.work + weight k ≤ n) : Harmless world n (evaluate world code env k) := by
  -- The first part of a term is evaluated with one more link that waits for its value.
  have hpart : ∀ {t : Code} {link : Link}, t.isPure = true → link.Pure →
      t.work + link.weight + weight k < n →
      Harmless world n (.call (.evaluate t env (link :: k)), world) := by
    intro t link ht hlink hlt
    refine harmless_call ⟨ht, List.forall_mem_cons.mpr ⟨hlink, hk⟩⟩ ?_ (.refl world)
    simp only [Task.weight, Continuation.weight]
    omega
  cases code with
  | int m =>
    rw [Term.work] at hn
    exact harmless_call hk (by simp only [Task.weight]; omega) (.refl world)
  | str s =>
    rw [Term.work] at hn
    exact harmless_call hk (by simp only [Task.weight]; omega) (.refl world)
  | bool b =>
    rw [Term.work] at hn
    exact harmless_call hk (by simp only [Task.weight]; omega) (.refl world)
  | var x =>
    rw [Term.work] at hn
    exact harmless_ofResult _ hk (by omega)
  | assign target value => cases hcode
  | call callee args => cases hcode
  | function label name? params body =>
    rw [Term.work] at hn
    exact harmless_function _ hk (by omega)
  | binary op left right =>
    rw [Term.isPure, Bool.and_eq_true] at hcode
    rw [Term.work] at hn
    exact hpart hcode.1 hcode.2 (by simp only [Link.weight]; omega)
  | negate body =>
    rw [Term.work] at hn
    exact hpart hcode trivial (by simp only [Link.weight]; omega)
  | seq items =>
    rw [Term.work] at hn
    exact harmless_sequence _ hcode hk (by omega)
  | conditional test consequent alternative? =>
    cases alternative? with
    | none =>
      rw [Term.isPure, Bool.and_eq_true] at hcode
      rw [Term.work] at hn
      refine hpart hcode.1 ⟨hcode.2, nofun⟩ ?_
      simp only [Link.weight, Option.map_none, Option.getD_none]
      omega
    | some alternative =>
      rw [Term.isPure, Bool.and_eq_true, Bool.and_eq_true] at hcode
      rw [Term.work] at hn
      refine hpart hcode.1.1 ⟨hcode.1.2, ?_⟩ ?_
      · rintro _ ⟨⟩
        exact hcode.2
      · simp only [Link.weight, Option.map_some, Option.getD_some]
        omega
  | declare bindings body =>
    rw [Term.isPure, Bool.and_eq_true] at hcode
    rw [Term.work] at hn
    exact harmless_declare (.refl world) hcode hk (by omega)

/-- A value that is handed to a link of a pure continuation. -/
theorem harmless_resume {link : Link} {v : Value} (hlink : link.Pure) (hk : ∀ link ∈ k, link.Pure)
    (hn : link.weight + weight k ≤ n) :
    Harmless world n (resume hosts convention world link k v) := by
  cases link with
  | assign | callee | argument => exact hlink.elim
  | right op right env =>
    simp only [Link.weight] at hn
    refine harmless_call ⟨hlink, List.forall_mem_cons.mpr ⟨trivial, hk⟩⟩ ?_ (.refl world)
    simp only [Task.weight, Continuation.weight, Link.weight]
    omega
  | operate op left =>
    simp only [Link.weight] at hn
    exact harmless_ofResult _ hk (by omega)
  | negate =>
    simp only [Link.weight] at hn
    exact harmless_call hk (by simp only [Task.weight]; omega) (.refl world)
  | branch consequent alternative? env =>
    obtain ⟨hconsequent, halternative⟩ := hlink
    simp only [Link.weight] at hn
    unfold resume
    dsimp only
    split
    · exact harmless_call ⟨hconsequent, hk⟩ (by simp only [Task.weight]; omega) (.refl world)
    · cases alternative? with
      | none => exact harmless_call hk (by simp only [Task.weight]; omega) (.refl world)
      | some alternative =>
        refine harmless_call ⟨halternative alternative rfl, hk⟩ ?_ (.refl world)
        simp only [Task.weight, Option.map_some, Option.getD_some] at hn ⊢
        omega
  | sequence rest env =>
    simp only [Link.weight] at hn
    exact harmless_sequence _ hlink hk (by omega)
  | define x rest body env =>
    simp only [Link.weight] at hn
    exact harmless_declare (world.spares_fill_new env x (.value v)) hlink hk (by omega)

end Move

/-- **A pure task spares the world and calls for a lighter pure task, if for any.** -/
theorem Task.Pure.harmless {task : Task} (h : task.Pure) (hosts : Hosts) (convention : Convention)
    (world : World) : Move.Harmless world task.weight (task.perform hosts convention world) := by
  cases task with
  | start code env =>
    exact Move.harmless_call ⟨h, List.forall_mem_nil _⟩ (Nat.lt_succ_self _) (.refl world)
  | evaluate code env k => exact Move.harmless_evaluate h.1 h.2 (Nat.le_refl _)
  | resume k v =>
    cases k with
    | nil => exact ⟨.refl world, List.forall_mem_nil _⟩
    | cons link k =>
      obtain ⟨hlink, hk⟩ := List.forall_mem_cons.mp h
      exact Move.harmless_resume hlink hk (Nat.le_refl _)
  | declare bindings body env k =>
    refine Move.harmless_declare (.refl world) h.1 h.2 ?_
    simp only [weight]
    omega
  | apply callee args k => exact h.elim

/-- The tasks of a pure term come to an end. -/
theorem Task.Pure.exists_finishes {task : Task} (h : task.Pure) (world : World) :
    ∃ n result world', task.Finishes hosts convention n world result world' := by
  induction hweight : task.weight using Nat.strong_induction_on generalizing task world with
  | h m ih =>
    obtain ⟨⟨move, world₁⟩, hp⟩ : ∃ p, task.perform hosts convention world = p := ⟨_, rfl⟩
    have hharmless := h.harmless hosts convention world
    rw [hp] at hharmless
    cases move with
    | answer v => exact ⟨0, .ok v, world₁, .answer hp⟩
    | fail e => exact ⟨0, .error e, world₁, .fail hp⟩
    | call next =>
      obtain ⟨hpure, hlt⟩ := hharmless.2 next List.mem_cons_self
      obtain ⟨n, result, world', hn⟩ := ih next.weight (hweight ▸ hlt) hpure world₁ rfl
      exact ⟨n + 1, result, world', .call hp hn⟩

/-! ### Moments of a run that meets only pure tasks -/

/-- More than the weight of tasks. -/
def Task.weightAll : List Task → Nat
  | [] => 0
  | task :: tasks => task.weight + 1 + weightAll tasks

namespace Moment

/-- How many steps are left, at most: for each task that may follow, the step that performs it and
the way back if it is put aside. -/
def rank (moment : Moment) : Nat :=
  (moment.run.machine.maxDepth + 2) * Task.weightAll moment.run.tasks +
    match moment.run.control with
    | .perform _ => 0
    | .unwind _ => moment.inside + 1

/-- The tasks at hand are pure, and the world is spared so far. -/
structure Innocent (world : World) (moment : Moment) : Prop where
  orderly : moment.Orderly
  spares : world.Spares moment.run.world
  pure : ∀ task ∈ moment.run.tasks, task.Pure

variable {world : World} {moment next : Moment}

section Rank

variable {machine : Machine} {seen : List Value} {inside : Nat} {task : Task}

theorem rank_perform (h : machine.pending = []) :
    rank ⟨⟨machine, world, .perform task, seen⟩, inside⟩ =
      (machine.maxDepth + 2) * (task.weight + 1) := by
  simp only [rank, Run.tasks, h, Task.weightAll, Nat.add_zero]

theorem rank_aside (task : Task) (h : machine.pending = [task]) (result : Except EvalError Unit) :
    rank ⟨⟨machine, world, .unwind result, seen⟩, inside⟩ =
      (machine.maxDepth + 2) * (task.weight + 1) + (inside + 1) := by
  simp only [rank, Run.tasks, h, Task.weightAll, Nat.add_zero]

theorem rank_unwind (h : machine.pending = []) (result : Except EvalError Unit) :
    rank ⟨⟨machine, world, .unwind result, seen⟩, inside⟩ = inside + 1 := by
  simp only [rank, Run.tasks, h, Task.weightAll, Nat.mul_zero, Nat.zero_add]

end Rank

theorem Innocent.rank_pos (h : moment.Innocent world) : 0 < moment.rank := by
  obtain ⟨⟨machine, world₁, control, seen⟩, inside⟩ := moment
  cases control with
  | perform task =>
    rw [rank_perform h.orderly.alone]
    exact Nat.mul_pos (Nat.succ_pos _) (Nat.succ_pos _)
  | unwind result => exact Nat.succ_pos _

/-- While a task is performed, there is no other, and it does no harm. -/
theorem Innocent.perform {machine : Machine} {world₀ : World} {seen : List Value} {inside : Nat}
    {task : Task} (h : Innocent world ⟨⟨machine, world₀, .perform task, seen⟩, inside⟩)
    (hosts : Hosts) :
    machine.pending = [] ∧ inside ≤ machine.maxDepth ∧
      Move.Harmless world₀ task.weight (task.perform hosts machine.convention world₀) :=
  ⟨h.orderly.alone, h.orderly.inside_le,
    (h.pure task List.mem_cons_self).harmless hosts machine.convention world₀⟩

/-- For every task that may follow there is room for the way back. -/
theorem room_lt {depth inside m n : Nat} (hlt : m < n) (hle : inside ≤ depth) :
    (depth + 2) * (m + 1) + (inside + 1) < (depth + 2) * (n + 1) := by
  calc (depth + 2) * (m + 1) + (inside + 1)
    _ < (depth + 2) * (m + 1) + (depth + 2) := by omega
    _ = (depth + 2) * (m + 1 + 1) := (Nat.mul_succ ..).symm
    _ ≤ (depth + 2) * (n + 1) := Nat.mul_le_mul_left _ (by omega)

theorem back_lt {depth inside : Nat} (hle : inside ≤ depth) (n : Nat) :
    inside + 1 < (depth + 2) * (n + 1) :=
  Nat.lt_of_lt_of_le (Nat.succ_lt_succ (Nat.lt_succ_of_le hle))
    (Nat.le_mul_of_pos_right _ (Nat.succ_pos n))

/-- **One step.** From an innocent moment the run goes on to another one, of lower rank. -/
theorem Innocent.turns (h : moment.Innocent world) (hturns : Turns hosts final moment next) :
    next.Innocent world ∧ next.rank < moment.rank := by
  have horderly := (h.orderly.turns hturns).1
  cases hturns with
  | @enter machine world₀ world₁ seen inside task later hp hlt =>
    obtain ⟨halone, hinside, hharmless⟩ := h.perform hosts
    rw [hp] at hharmless
    obtain ⟨hpure, hlight⟩ := hharmless.2 later List.mem_cons_self
    refine ⟨⟨horderly, h.spares.trans hharmless.1, by simpa [Run.tasks, halone] using hpure⟩, ?_⟩
    rw [rank_perform halone]
    have hroom := room_lt hlight hinside
    exact Nat.lt_of_le_of_lt (Nat.le_of_eq (rank_perform halone))
      (Nat.lt_of_le_of_lt (Nat.le_add_right _ _) hroom)
  | @aside machine world₀ world₁ seen inside task later hp =>
    obtain ⟨halone, hinside, hharmless⟩ := h.perform hosts
    rw [hp] at hharmless
    obtain ⟨hpure, hlight⟩ := hharmless.2 later List.mem_cons_self
    refine ⟨⟨horderly, h.spares.trans hharmless.1, by simpa [Run.tasks, halone] using hpure⟩, ?_⟩
    rw [rank_perform halone, rank_aside later (by simp [halone])]
    exact room_lt hlight hinside
  | @answer machine world₀ world₁ seen inside task v hp =>
    obtain ⟨halone, hinside, hharmless⟩ := h.perform hosts
    rw [hp] at hharmless
    refine ⟨⟨horderly, h.spares.trans hharmless.1, by simp [Run.tasks, halone]⟩, ?_⟩
    rw [rank_perform halone, rank_unwind halone]
    exact back_lt hinside task.weight
  | @fail machine world₀ world₁ seen inside task e hp =>
    obtain ⟨halone, hinside, hharmless⟩ := h.perform hosts
    rw [hp] at hharmless
    refine ⟨⟨horderly, h.spares.trans hharmless.1, by simp [Run.tasks, halone]⟩, ?_⟩
    rw [rank_perform halone, rank_unwind halone]
    exact back_lt hinside task.weight
  | leave => exact ⟨⟨horderly, h.spares, h.pure⟩, Nat.lt_succ_self _⟩
  | @takeUp machine world₀ seen task pending hpending =>
    have htasks : task :: pending = machine.pending := hpending.symm
    refine ⟨⟨horderly, h.spares, fun t ht => h.pure t (by simpa [Run.tasks, htasks] using ht)⟩, ?_⟩
    simp only [rank, Run.tasks, hpending]
    omega

/-- No host function has a part in what comes next. -/
theorem Innocent.step_eq (h : moment.Innocent world) (hosts hosts' : Hosts) (low : Bool) :
    moment.step hosts final low = moment.step hosts' final low := by
  obtain ⟨⟨machine, world₁, control, seen⟩, inside⟩ := moment
  cases control with
  | perform task =>
    have hperform := Task.perform_eq_of_not_applies
      (h.pure task List.mem_cons_self).not_applies hosts hosts' machine.convention
      machine.convention world₁
    simp only [step, hperform]
  | unwind result =>
    cases inside with
    | succ inside => rfl
    | zero => cases result <;> rfl

/-- **A whole run.** Every moment of it is innocent, it ends before the rank of its first moment is
used up, the world is spared in the end, and no host function has a part in it. -/
theorem Innocent.advance (h : moment.Innocent world) (lows : List Bool) :
    (∀ next, moment.advance hosts final lows = .inl next →
      next.Innocent world ∧ next.rank + lows.length ≤ moment.rank) ∧
    (∀ e, moment.advance hosts final lows = .inr e → world.Spares e.world) ∧
    ∀ hosts', moment.advance hosts' final lows = moment.advance hosts final lows := by
  induction lows generalizing moment with
  | nil =>
    refine ⟨?_, by simp [Moment.advance], fun _ => rfl⟩
    rintro next ⟨⟩
    exact ⟨h, Nat.le_refl _⟩
  | cons low lows ih =>
    simp only [Moment.advance, h.step_eq _ hosts]
    cases hs : moment.step hosts final low with
    | inr e =>
      refine ⟨by simp, ?_, fun _ => rfl⟩
      rintro _ ⟨⟩
      rw [world_of_step hs]
      exact h.spares
    | inl later =>
      obtain ⟨hlater, hrank⟩ := h.turns (turns_of_step hs)
      obtain ⟨hnext, hend, hhosts⟩ := ih hlater
      refine ⟨fun next hadvance => ?_, hend, hhosts⟩
      obtain ⟨hinnocent, hle⟩ := hnext next hadvance
      refine ⟨hinnocent, ?_⟩
      rw [List.length_cons]
      omega

/-- The run ends, if it is given as many steps as its rank. -/
theorem Innocent.exists_end (h : moment.Innocent world) {lows : List Bool}
    (hlows : moment.rank ≤ lows.length) : ∃ e, moment.advance hosts final lows = .inr e := by
  cases hadvance : moment.advance hosts final lows with
  | inr e => exact ⟨e, rfl⟩
  | inl next =>
    obtain ⟨hnext, hle⟩ := (h.advance lows).1 next hadvance
    have hpos := hnext.rank_pos
    omega

theorem innocent_begin {machine : Machine} (hrest : machine.AtRest) (world : World) {code : Code}
    (hpure : code.isPure = true) (env : FrameId) :
    (begin machine world code env).Innocent world where
  orderly := orderly_begin hrest world code env
  spares := .refl world
  pure := by
    have htasks : (begin machine world code env).run.tasks = [.start code env] :=
      Run.tasks_begin hrest.pending world code env
    rw [htasks]
    exact List.forall_mem_singleton.mpr hpure

/-- The rank of the first moment is known from the machine and the term. -/
theorem rank_begin {machine : Machine} (hrest : machine.AtRest) (world : World) (code : Code)
    (env : FrameId) :
    (begin machine world code env).rank = (machine.maxDepth + 2) * (code.work + 2) + 1 := by
  rw [begin, Run.begin, rank_aside (.start code env) (by simp [hrest.pending])]
  rfl

end Moment

/-- **Purity is sound.** Take a well-formed pure term and a machine between two runs. There is a
bound such that, whatever the host functions, the frames and the console are, in whatever frame the
term is evaluated and whenever the stack is found to be low: the run ends within so many steps; it
ends with a value, which is handed over once, or with an error; it spares the world, in the end and
at every moment before; no task at any moment applies a function; and no host function has a part in
it. The machine's own run is among these, and it ends too. -/
theorem Machine.pure_run {machine : Machine} (hrest : machine.AtRest) {code : Code}
    (hcode : code.check = .ok ()) (hpure : code.isPure = true) :
    ∃ bound, ∀ (hosts : Hosts) (final : Value → Except EvalError Unit) (world : World)
        (env : FrameId),
      (∃ fuel e lows, machine.execute hosts final fuel world code env = some e ∧
        machine.executeOn hosts final lows world code env = some e) ∧
      (∀ lows, bound ≤ lows.length →
        ∃ e, machine.executeOn hosts final lows world code env = some e) ∧
      (∀ lows e, machine.executeOn hosts final lows world code env = some e →
        ((∃ v, e.seen = [v] ∧ e.result = final v) ∨ ∃ err, e.seen = [] ∧ e.result = .error err) ∧
          world.Spares e.world) ∧
      (∀ lows moment, (Moment.begin machine world code env).advance hosts final lows = .inl moment →
        world.Spares moment.run.world ∧
          ∀ task ∈ moment.run.tasks, ∀ callee args, ¬ task.Applies callee args) ∧
      ∀ hosts' lows, machine.executeOn hosts' final lows world code env =
        machine.executeOn hosts final lows world code env := by
  refine ⟨(machine.maxDepth + 2) * (code.work + 2) + 1, fun hosts final world env => ?_⟩
  have hbegin := Moment.innocent_begin hrest world hpure env
  have hexecuteOn : ∀ hosts lows, machine.executeOn hosts final lows world code env =
      ((Moment.begin machine world code env).advance hosts final lows).getRight? := by
    intro hosts lows
    simp only [executeOn, hcode]
  refine ⟨?_, fun lows hlows => ?_, fun lows e he => ?_, fun lows moment hmoment => ?_,
    fun hosts' lows => ?_⟩
  · have hpure : (Task.start code env).Pure := hpure
    obtain ⟨n, result, world', hn⟩ := hpure.exists_finishes world
    obtain ⟨fuel, hfuel⟩ := (execute_iff hrest.pending hcode).mpr ⟨n, result, world', hn, rfl⟩
    obtain ⟨lows, hlows⟩ := executeOn_of_execute hrest hfuel
    exact ⟨fuel, _, lows, hfuel, hlows⟩
  · rw [← Moment.rank_begin hrest world code env] at hlows
    obtain ⟨e, he⟩ := hbegin.exists_end hlows
    exact ⟨e, by rw [hexecuteOn, he]; rfl⟩
  · obtain ⟨fuel, result, -, hsettles⟩ := executeOn_settles hrest he
    rw [hexecuteOn, Sum.getRight?_eq_some_iff] at he
    refine ⟨?_, (hbegin.advance lows).2.1 e he⟩
    cases result with
    | ok v => exact .inl ⟨v, hsettles.seen, hsettles.result⟩
    | error err => exact .inr ⟨err, hsettles.2, hsettles.1⟩
  · obtain ⟨hinnocent, -⟩ := (hbegin.advance lows).1 moment hmoment
    exact ⟨hinnocent.spares, fun task htask => (hinnocent.pure task htask).not_applies⟩
  · rw [hexecuteOn, hexecuteOn, (hbegin.advance lows).2.2 hosts']

/-- A pure term with a `let`, a conditional and a sequence, whose value is a function that prints
and assigns when it is called. -/
def dormant : Code :=
  .declare [⟨"x", some (.int 1)⟩, ⟨"y", none⟩,
      ⟨"f", some (.function 0 (some "f") ["v"]
        (.seq [.call (.var "println") [.var "v"], .assign (.var "x") (.call (.var "f") [])]))⟩]
    (.conditional (.negate (.var "y")) (.seq [.binary "+" (.var "x") (.int 1), .var "f"]) none)

/-- Runs `dormant` on a machine that puts every second task aside, with a host that would leave
nothing of the world. -/
def dormantRun (fuel : Nat) : Option Ended :=
  (Machine.new 1 .explicit).execute (fun _ _ _ => (.error .zeroDivision, ⟨.empty, .empty⟩))
    (fun _ => .ok ()) fuel ⟨Store.empty.fresh.2, .empty⟩ dormant 0

theorem Machine.pure_run_dormant :
    (dormant.check = .ok () ∧ dormant.isPure = true) ∧
    ∃ fuel e, dormantRun fuel = some e ∧ e.seen.map Value.text = ["<lambda f>"] ∧
      World.Spares ⟨Store.empty.fresh.2, .empty⟩ e.world := by
  have hcode : dormant.check = .ok () := by decide
  have hpure : dormant.isPure = true := by decide
  obtain ⟨bound, hrun⟩ := pure_run (new_atRest 1 .explicit) hcode hpure
  obtain ⟨⟨fuel, e, lows, hfuel, hlows⟩, -, hends, -, -⟩ :=
    hrun (fun _ _ _ => (.error .zeroDivision, ⟨.empty, .empty⟩)) (fun _ => .ok ())
      ⟨Store.empty.fresh.2, .empty⟩ 0
  have htexts : (dormantRun 100).map (fun e => e.seen.map Value.text) = some ["<lambda f>"] := by
    decide +kernel
  obtain ⟨e', he', htext⟩ := Option.map_eq_some_iff.mp htexts
  obtain rfl := execute_unique hfuel he'
  exact ⟨⟨hcode, hpure⟩, fuel, e, hfuel, htext, (hends lows e hlows).2⟩

end LetLambda
