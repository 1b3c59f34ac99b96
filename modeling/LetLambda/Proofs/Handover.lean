import LetLambda.Proofs.Levels
import LetLambda.Proofs.Refinement

/-!
# The value of a run is handed over once

A run is given a final continuation, and the value of the term is to be handed to it. Only the task
that resumes with nothing left to do answers (`Task.eq_of_answer`), and a run has one task at hand at
a time; so a run that comes to an answer hands it over at one moment, after which calls only come
back (`Moment.HandsOver`), and a run that comes to an error never does. What the final continuation
says is what the run comes to, be it an error.

This holds whenever the stack is found to be low, so runs are taken from moment to moment here
(`Machine.executeOn`). The runs of the machine are among them (`Machine.executeOn_of_execute`).
-/

namespace LetLambda

variable {hosts : Hosts} {convention : Convention} {final : Value → Except EvalError Unit}

/-! ### Who answers -/

namespace Move

variable (world : World) (env : FrameId) (k : Continuation)

theorem answers_ofResult (result : Except EvalError Value) : (ofResult k result).answers = [] := by
  cases result with
  | ok v => rfl
  | error e => rfl

theorem answers_sequence (last : Value) (items : List Code) :
    (sequence env last k items).answers = [] := by
  unfold sequence
  split <;> rfl

theorem answers_declare (bindings : List (Binding Code)) (body : Code) :
    (declare world bindings body env k).1.answers = [] := by
  unfold declare
  split <;> rfl

theorem answers_apply (callee : Value) (args : List Value) :
    (apply hosts convention world callee args k).1.answers = [] := by
  unfold apply
  split
  · rfl
  · split
    · dsimp only
      split <;> rfl
    · exact answers_ofResult k _
  · rfl

theorem answers_arguments (callee : Value) (done : List Value) (rest : List Code) :
    (arguments hosts convention world callee done rest env k).1.answers = [] := by
  cases rest with
  | nil => exact answers_apply world k callee done
  | cons t rest => rfl

theorem answers_evaluate (code : Code) : (evaluate world code env k).1.answers = [] := by
  cases code with
  | var x => exact answers_ofResult k _
  | seq items => exact answers_sequence env k _ items
  | declare bindings body => exact answers_declare world env k bindings body
  | assign target t => cases target <;> rfl
  | function label name? params body => cases name? <;> rfl
  | int | str | bool | binary | negate | call | conditional => rfl

theorem answers_resume (link : Link) (v : Value) :
    (resume hosts convention world link k v).1.answers = [] := by
  cases link with
  | assign x env =>
    unfold resume
    dsimp only
    split <;> rfl
  | operate op left => exact answers_ofResult k _
  | branch consequent alternative? env =>
    unfold resume
    dsimp only
    split
    · rfl
    · split <;> rfl
  | sequence rest env => exact answers_sequence env k v rest
  | callee args env => exact answers_arguments world env k v [] args
  | argument callee done rest env => exact answers_arguments world env k callee (done ++ [v]) rest
  | define x rest body env => exact answers_declare _ _ k rest body
  | right | negate => rfl

end Move

namespace Task

/-- The task that answers is the one that resumes with nothing left to do, and it does nothing
else. -/
theorem eq_of_answer {task : Task} {world world' : World} {v : Value}
    (h : task.perform hosts convention world = (.answer v, world')) :
    task = .resume [] v ∧ world' = world := by
  have hanswers : (task.perform hosts convention world).1.answers = [v] := by rw [h]; rfl
  cases task with
  | start code env => cases h
  | evaluate code env k =>
    rw [perform, Move.answers_evaluate] at hanswers
    cases hanswers
  | resume k u =>
    cases k with
    | nil =>
      cases h
      exact ⟨rfl, rfl⟩
    | cons link k =>
      rw [perform, Move.answers_resume] at hanswers
      cases hanswers
  | declare bindings body env k =>
    rw [perform, Move.answers_declare] at hanswers
    cases hanswers
  | apply callee args k =>
    rw [perform, Move.answers_apply] at hanswers
    cases hanswers

/-- Tasks one after another come to one end. -/
theorem Finishes.unique {n m : Nat} {task : Task} {world world₁ world₂ : World}
    {result₁ result₂ : Except EvalError Value}
    (h₁ : task.Finishes hosts convention n world result₁ world₁)
    (h₂ : task.Finishes hosts convention m world result₂ world₂) :
    result₁ = result₂ ∧ world₁ = world₂ := by
  induction h₁ generalizing m with
  | answer hp =>
    have h := finishes_iff.mp h₂
    rw [hp] at h
    exact ⟨h.2.1.symm, h.2.2.symm⟩
  | fail hp =>
    have h := finishes_iff.mp h₂
    rw [hp] at h
    exact ⟨h.2.1.symm, h.2.2.symm⟩
  | call hp _ ih =>
    have h := finishes_iff.mp h₂
    rw [hp] at h
    obtain ⟨l, -, hl⟩ := h
    exact ih hl

end Task

/-- Evaluation in direct style comes to one end. -/
theorem Direct.run_unique {fuel₁ fuel₂ : Nat} {code : Code} {env : FrameId}
    {world world₁ world₂ : World} {result₁ result₂ : Except EvalError Value}
    (h₁ : Direct.run hosts convention fuel₁ code env world = some (result₁, world₁))
    (h₂ : Direct.run hosts convention fuel₂ code env world = some (result₂, world₂)) :
    result₁ = result₂ ∧ world₁ = world₂ := by
  unfold Direct.run at h₁ h₂
  cases hcheck : code.check with
  | error fault =>
    rw [hcheck] at h₁ h₂
    cases h₁
    cases h₂
    exact ⟨rfl, rfl⟩
  | ok u =>
    rw [hcheck] at h₁ h₂
    obtain ⟨n, hn⟩ := start_finishes_iff.mpr ⟨fuel₁, h₁⟩
    obtain ⟨m, hm⟩ := start_finishes_iff.mpr ⟨fuel₂, h₂⟩
    exact hn.unique hm

/-! ### The moment of handing over -/

namespace Moment

/-- At this moment `v` is handed to `final`, and that is the last that is done: afterwards calls come
back, with what `final` said, until the run ends. -/
structure Closes (hosts : Hosts) (final : Value → Except EvalError Unit) (v : Value) (e : Ended)
    (moment : Moment) : Prop where
  control : moment.run.control = .perform (.resume [] v)
  world : moment.run.world = e.world
  result : e.result = final v
  seen : e.seen = v :: moment.run.seen
  back : ∀ low lows later, moment.advance hosts final (low :: lows) = .inl later →
    later.run.control = .unwind e.result ∧ later.run.world = e.world ∧ later.run.seen = e.seen

/-- On the way from this moment to the end of the run, `v` is handed to `final` at the last moment
where anything is done. Until then nothing is handed over, and nothing depends on `final`. -/
def HandsOver (hosts : Hosts) (final : Value → Except EvalError Unit) (lows : List Bool) (v : Value)
    (e : Ended) (moment : Moment) : Prop :=
  ∃ before after last, lows = before ++ after ∧
    (∀ final', moment.advance hosts final' before = .inl last) ∧
    last.run.seen = moment.run.seen ∧
    last.advance hosts final after = .inr e ∧
    last.Closes hosts final v e

/-- How the run ends after this moment if its tasks come to `result`: an answer is handed over, and
an error is returned. -/
def Settles (hosts : Hosts) (final : Value → Except EvalError Unit) (lows : List Bool)
    (result : Except EvalError Value) (e : Ended) (moment : Moment) : Prop :=
  match result with
  | .ok v => moment.HandsOver hosts final lows v e
  | .error err => e.result = .error err ∧ e.seen = moment.run.seen

theorem HandsOver.result {moment : Moment} {lows : List Bool} {v : Value} {e : Ended}
    (h : moment.HandsOver hosts final lows v e) : e.result = final v := by
  obtain ⟨_, _, _, _, _, _, _, hcloses⟩ := h
  exact hcloses.result

theorem HandsOver.seen {moment : Moment} {lows : List Bool} {v : Value} {e : Ended}
    (h : moment.HandsOver hosts final lows v e) : e.seen = v :: moment.run.seen := by
  obtain ⟨_, _, _, _, _, hlast, _, hcloses⟩ := h
  rw [hcloses.seen, hlast]

/-- A step that hands nothing over may be put in front. -/
theorem Settles.cons {moment next : Moment} {low : Bool} {lows : List Bool}
    {result : Except EvalError Value} {e : Ended} (h : next.Settles hosts final lows result e)
    (hstep : ∀ final', moment.step hosts final' low = .inl next)
    (hseen : next.run.seen = moment.run.seen) :
    moment.Settles hosts final (low :: lows) result e := by
  cases result with
  | error err => exact ⟨h.1, h.2.trans hseen⟩
  | ok v =>
    obtain ⟨before, after, last, rfl, hbefore, hlast, hafter, hcloses⟩ := h
    refine ⟨low :: before, after, last, rfl, fun final' => ?_, hlast.trans hseen, hafter, hcloses⟩
    simp only [advance, hstep final', hbefore final']

section

variable {machine : Machine} {world : World} {seen : List Value} {inside : Nat}

/-- When no task is at hand, calls come back and then the run ends. -/
theorem advance_unwind (hpending : machine.pending = []) (hdepth : machine.depth = inside)
    (result : Except EvalError Unit) (lows : List Bool) :
    advance hosts final lows ⟨⟨machine, world, .unwind result, seen⟩, inside⟩ =
      if lows.length ≤ inside then
        .inl (back lows.length ⟨⟨machine, world, .unwind result, seen⟩, inside⟩)
      else .inr ⟨result, { machine with depth := 0, pending := [] }, world, seen⟩ := by
  split
  case isTrue hle => exact advance_back result hle
  case isFalse hlt =>
    have hlength : (lows.take (inside + 1)).length = inside + 1 :=
      List.length_take_of_le (Nat.lt_of_not_le hlt)
    rw [← List.take_append_drop (inside + 1) lows]
    exact advance_append_of_inr (advance_end hpending hdepth result hlength) _

theorem eq_of_advance_unwind (hpending : machine.pending = []) (hdepth : machine.depth = inside)
    {result : Except EvalError Unit} {lows : List Bool} {e : Ended}
    (h : advance hosts final lows ⟨⟨machine, world, .unwind result, seen⟩, inside⟩ = .inr e) :
    e = ⟨result, { machine with depth := 0, pending := [] }, world, seen⟩ := by
  rw [advance_unwind hpending hdepth] at h
  split at h
  · cases h
  · cases h
    rfl

/-- The moment of an answer is the last one at which anything is done. -/
theorem Orderly.closes {v : Value} {low : Bool} {lows : List Bool} {e : Ended}
    (h : Orderly ⟨⟨machine, world, .perform (.resume [] v), seen⟩, inside⟩)
    (he : advance hosts final (low :: lows)
      ⟨⟨machine, world, .perform (.resume [] v), seen⟩, inside⟩ = .inr e) :
    Closes hosts final v e ⟨⟨machine, world, .perform (.resume [] v), seen⟩, inside⟩ := by
  obtain rfl := eq_of_advance_unwind h.alone h.depth he
  refine ⟨rfl, rfl, rfl, rfl, fun low lows later hlater => ?_⟩
  have hlater : advance hosts final lows
    ⟨⟨machine, world, .unwind (final v), v :: seen⟩, inside⟩ = .inl later := hlater
  rw [advance_unwind h.alone h.depth] at hlater
  split at hlater
  · cases hlater
    exact ⟨rfl, rfl, rfl⟩
  · cases hlater

end

/-- A run does not end while a task is at hand. -/
theorem Orderly.step_ne_inr {moment : Moment} {task : Task} (h : moment.Orderly)
    (htask : moment.run.tasks = [task]) (low : Bool) (e : Ended) :
    moment.step hosts final low ≠ .inr e := by
  obtain ⟨⟨machine, world, control, seen⟩, inside⟩ := moment
  cases control with
  | perform task =>
    obtain ⟨⟨move, world₁⟩, hp⟩ : ∃ p, task.perform hosts machine.convention world = p := ⟨_, rfl⟩
    cases move with
    | call later =>
      rcases machine.guardOn_cases low later with ⟨-, hguard⟩ | hguard <;>
        simp only [step, hp, hguard, ne_eq, reduceCtorEq, not_false_eq_true]
    | answer v => simp only [step, hp, ne_eq, reduceCtorEq, not_false_eq_true]
    | fail err => simp only [step, hp, ne_eq, reduceCtorEq, not_false_eq_true]
  | unwind result =>
    rcases h.pending with hpending | ⟨later, hpending, hcontrol⟩
    · rw [Run.tasks, hpending] at htask
      cases htask
    · cases hcontrol
      cases inside with
      | succ inside => simp only [step, ne_eq, reduceCtorEq, not_false_eq_true]
      | zero =>
        simp only at hpending
        simp only [step, hpending, ne_eq, reduceCtorEq, not_false_eq_true]

/-- **From a moment with a task at hand, a run ends as its tasks say**: their answer is handed over,
or their error is returned and nothing is handed over. -/
theorem Orderly.settles {moment : Moment} {task : Task} {lows : List Bool} {e : Ended}
    (h : moment.Orderly) (htask : moment.run.tasks = [task])
    (he : moment.advance hosts final lows = .inr e) :
    ∃ n result, task.Finishes hosts moment.run.machine.convention n moment.run.world result e.world ∧
      moment.Settles hosts final lows result e := by
  induction lows generalizing moment task with
  | nil => cases he
  | cons low lows ih =>
    cases hs : moment.step hosts final low with
    | inr e' => exact absurd hs (h.step_ne_inr htask low e')
    | inl next =>
      have hrest : next.advance hosts final lows = .inr e := by rwa [advance, hs] at he
      have hturns := turns_of_step hs
      have hnext := (h.turns hturns).1
      -- only an answer asks `final`, so every other step is the same for all of them
      cases hturns with
      | enter hp hlt =>
        obtain ⟨rfl, -⟩ := List.cons.inj htask
        obtain ⟨n, result, hn, hsettles⟩ := ih hnext (congrArg (_ :: ·) h.alone) hrest
        refine ⟨n + 1, result, .call hp hn, hsettles.cons (fun final' => ?_) rfl⟩
        simp only [step, hp] at hs ⊢
        exact hs
      | @aside machine world world₁ seen inside task later hp =>
        obtain ⟨rfl, -⟩ := List.cons.inj htask
        have hlater : machine.pending ++ [later] = [later] := by rw [h.alone, List.nil_append]
        obtain ⟨n, result, hn, hsettles⟩ := ih hnext hlater hrest
        refine ⟨n + 1, result, .call hp hn, hsettles.cons (fun final' => ?_) rfl⟩
        simp only [step, hp] at hs ⊢
        exact hs
      | answer hp =>
        obtain ⟨rfl, -⟩ := List.cons.inj htask
        obtain ⟨rfl, rfl⟩ := Task.eq_of_answer hp
        -- this is the moment: nothing has come before it, and the rest is the way back
        have hcloses := h.closes he
        exact ⟨0, .ok _, hcloses.world ▸ .answer hp, [], low :: lows, _, rfl, fun _ => rfl, rfl, he,
          hcloses⟩
      | fail hp =>
        obtain ⟨rfl, -⟩ := List.cons.inj htask
        obtain rfl := eq_of_advance_unwind h.alone h.depth hrest
        exact ⟨0, .error _, .fail hp, rfl, rfl⟩
      | leave =>
        obtain ⟨n, result, hn, hsettles⟩ := ih hnext htask hrest
        exact ⟨n, result, hn, hsettles.cons (fun _ => rfl) rfl⟩
      | takeUp hpending =>
        obtain ⟨n, result, hn, hsettles⟩ := ih hnext (hpending.symm.trans htask) hrest
        refine ⟨n, result, hn, hsettles.cons (fun final' => ?_) rfl⟩
        simp only [step, hpending]

end Moment

/-! ### Runs from beginning to end -/

namespace Machine

/-- Runs a term in frame `env` and hands its value to `final`, where the stack is low as `lows` says.
A malformed term is refused and changes nothing. There is nothing to tell if the run has not ended
when the list has. -/
def executeOn (machine : Machine) (hosts : Hosts) (final : Value → Except EvalError Unit)
    (lows : List Bool) (world : World) (code : Code) (env : FrameId) : Option Ended :=
  match code.check with
  | .error fault => some { result := .error (.malformed fault), machine, world, seen := [] }
  | .ok () => ((Moment.begin machine world code env).advance hosts final lows).getRight?

variable {machine : Machine} {world : World} {code : Code} {env : FrameId} {e : Ended}

/-- While the stack is not low, these are the runs of the machine. -/
theorem executeOn_of_execute (hrest : machine.AtRest) {fuel : Nat}
    (h : machine.execute hosts final fuel world code env = some e) :
    ∃ lows, machine.executeOn hosts final lows world code env = some e := by
  cases hcheck : code.check with
  | error fault =>
    rw [execute_of_malformed hcheck] at h
    exact ⟨[], by simpa only [executeOn, hcheck] using h⟩
  | ok u =>
    simp only [execute, start, hcheck] at h
    split at h
    · cases h
    · next hended =>
      cases h
      obtain ⟨lows, hlows⟩ := Moment.ended_of_advance hrest hended
      exact ⟨lows, by rw [executeOn, hcheck]; exact Sum.getRight?_eq_some_iff.mpr hlows⟩

/-- A run ends as evaluation in direct style does. -/
theorem executeOn_settles (hrest : machine.AtRest) {lows : List Bool}
    (h : machine.executeOn hosts final lows world code env = some e) :
    ∃ fuel result, Direct.run hosts machine.convention fuel code env world = some (result, e.world) ∧
      (Moment.begin machine world code env).Settles hosts final lows result e := by
  unfold executeOn at h
  unfold Direct.run
  cases hcheck : code.check with
  | error fault =>
    rw [hcheck] at h
    cases h
    exact ⟨0, .error (.malformed fault), rfl, rfl, rfl⟩
  | ok u =>
    rw [hcheck] at h
    have hadvance := Sum.getRight?_eq_some_iff.mp h
    have htask : (Moment.begin machine world code env).run.tasks = [.start code env] := by
      simp only [Moment.begin, Run.begin, Run.tasks, hrest.pending, List.nil_append]
    obtain ⟨n, result, hn, hsettles⟩ :=
      (Moment.orderly_begin hrest world code env).settles htask hadvance
    obtain ⟨fuel, hfuel⟩ := start_finishes_iff.mp ⟨n, hn⟩
    exact ⟨fuel, result, hfuel, hsettles⟩

/-- The value that a run returns is the one that was handed over. -/
theorem seen_of_run (idle : machine.Idle) {fuel : Nat} {v : Value}
    (h : machine.run hosts fuel world code env = some (.ok v, e)) : e.seen = [v] := by
  obtain ⟨ended, hended, heq⟩ := Option.map_eq_some_iff.mp h
  cases hcheck : code.check with
  | error fault =>
    rw [execute_of_malformed hcheck] at hended
    cases hended
    cases heq
  | ok u =>
    obtain ⟨n, result, world', -, rfl⟩ := (execute_iff idle hcheck).mp ⟨fuel, hended⟩
    rw [Ended.value_of_verdict] at heq
    cases heq
    rfl

/-- **The final continuation is called once if there is a value, and never otherwise.** A run that
succeeds has called it once, with the value of the term. If the term is malformed or its evaluation
fails, the run returns that error and has not called it. If the term has a value, the run returns what
the final continuation said of this value, be it an error; it was called once, and nothing was done
after that. So a run for a value never returns the one that stands for a value that is missing. -/
theorem final_called_once {machine : Machine} (hrest : machine.AtRest) (hosts : Hosts)
    (final : Value → Except EvalError Unit) (world : World) (code : Code) (env : FrameId) :
    (∀ fuel e, machine.execute hosts final fuel world code env = some e →
      ∃ lows, machine.executeOn hosts final lows world code env = some e) ∧
    (∀ lows e, machine.executeOn hosts final lows world code env = some e →
      (e.result = .ok () → ∃ fuel v,
        Direct.run hosts machine.convention fuel code env world = some (.ok v, e.world) ∧
          final v = .ok () ∧ e.seen = [v]) ∧
      (∃ fuel result,
        Direct.run hosts machine.convention fuel code env world = some (result, e.world)) ∧
      (∀ fuel err world',
        Direct.run hosts machine.convention fuel code env world = some (.error err, world') →
          e.result = .error err ∧ e.seen = []) ∧
      ∀ fuel v world',
        Direct.run hosts machine.convention fuel code env world = some (.ok v, world') →
          e.result = final v ∧ e.seen = [v] ∧
            (Moment.begin machine world code env).HandsOver hosts final lows v e) ∧
    ∀ fuel v e, machine.run hosts fuel world code env = some (.ok v, e) → e.seen = [v] := by
  refine ⟨fun fuel e h => executeOn_of_execute hrest h, fun lows e h => ?_,
    fun fuel v e h => seen_of_run hrest.pending h⟩
  obtain ⟨fuel, result, hdirect, hsettles⟩ := executeOn_settles hrest h
  refine ⟨fun hok => ?_, ⟨fuel, result, hdirect⟩, fun fuel' err world' h' => ?_,
    fun fuel' v world' h' => ?_⟩
  · cases result with
    | error err =>
      rw [hsettles.1] at hok
      cases hok
    | ok v => exact ⟨fuel, v, hdirect, hsettles.result.symm.trans hok, hsettles.seen⟩
  · obtain ⟨rfl, -⟩ := Direct.run_unique hdirect h'
    exact hsettles
  · obtain ⟨rfl, -⟩ := Direct.run_unique hdirect h'
    exact ⟨hsettles.result, hsettles.seen, hsettles⟩

/-- `countdown` at depth seven on a stack that is always low, its value being refused in the end. -/
def refusedOnLow : Option Ended :=
  (new 7 .implicit).executeOn (fun _ _ world => (.ok .absent, world))
    (fun _ => .error .zeroDivision) (List.replicate 200 true) ⟨Store.empty.fresh.2, .empty⟩ countdown 0

/-- The value is refused once, although every second task of the run was put aside. -/
theorem final_called_once_countdown :
    ∃ e v, refusedOnLow = some e ∧ e.machine.bounces = 31 ∧ e.seen = [v] ∧ v.text = "done" ∧
      e.result = .error .zeroDivision := by
  have hcounts : refusedOnLow.map (fun e => (e.machine.bounces, e.seen.map Value.text)) =
      some (31, ["done"]) := by decide +kernel
  obtain ⟨e, he, heq⟩ := Option.map_eq_some_iff.mp hcounts
  obtain ⟨hbounces, htexts⟩ := Prod.mk.inj heq
  obtain ⟨-, ⟨fuel, result, hdirect⟩, hnever, honce⟩ :=
    (final_called_once (new_atRest 7 .implicit) _ _ _ _ _).2.1 _ e he
  cases result with
  | error err =>
    rw [(hnever fuel err e.world hdirect).2] at htexts
    cases htexts
  | ok v =>
    obtain ⟨hresult, hseen, -⟩ := honce fuel v e.world hdirect
    rw [hseen] at htexts
    exact ⟨e, v, he, hbounces, hseen, (List.cons.inj htexts).1, hresult⟩

end Machine

end LetLambda
