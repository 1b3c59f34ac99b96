import LetLambda.Proofs.Reference
import LetLambda.Proofs.Trampoline

/-!
# The machine evaluates as the direct evaluator does

The machine never returns a value: it hands each one to a continuation. Two facts tie it to the
direct evaluator. If the evaluator gives a result, the machine, under any continuation, comes to
the point where that result is handed to the continuation (`Delivered.all`). If the machine
comes to an end, it has passed through such a point, and from there it had fewer tasks to go
(`Explained.all`).

Most of what a task does is said by the functions of `Move`, so both facts are about moves.
-/

namespace LetLambda

open Direct (Outcome)

variable {hosts : Hosts} {convention : Convention}

/-! ### Moves that come to an end -/

/-- What follows a move comes to `result` and leaves `world'`, after `n` calls. -/
def Move.Finishes (hosts : Hosts) (convention : Convention) (n : Nat) :
    Move × World → Except EvalError Value → World → Prop
  | (.answer v, world), result, world' => n = 0 ∧ result = .ok v ∧ world' = world
  | (.fail e, world), result, world' => n = 0 ∧ result = .error e ∧ world' = world
  | (.call task, world), result, world' =>
    ∃ m, n = m + 1 ∧ task.Finishes hosts convention m world result world'

theorem Task.finishes_iff {n : Nat} {task : Task} {world world' : World}
    {result : Except EvalError Value} :
    task.Finishes hosts convention n world result world' ↔
      Move.Finishes hosts convention n (task.perform hosts convention world) result world' := by
  constructor
  · intro h
    cases h with
    | answer h => rw [h]; exact ⟨rfl, rfl, rfl⟩
    | fail h => rw [h]; exact ⟨rfl, rfl, rfl⟩
    | call h rest => rw [h]; exact ⟨_, rfl, rest⟩
  · intro h
    obtain ⟨⟨move, world₁⟩, hp⟩ : ∃ m, task.perform hosts convention world = m := ⟨_, rfl⟩
    rw [hp] at h
    cases move with
    | answer v => obtain ⟨rfl, rfl, rfl⟩ := h; exact .answer hp
    | fail e => obtain ⟨rfl, rfl, rfl⟩ := h; exact .fail hp
    | call next => obtain ⟨m, rfl, rest⟩ := h; exact .call hp rest

/-- The answer of a run is the value for which nothing is left to do. -/
theorem resume_nil_finishes_iff {n : Nat} {v : Value} {world world' : World}
    {result : Except EvalError Value} :
    (Task.resume [] v).Finishes hosts convention n world result world' ↔
      n = 0 ∧ result = .ok v ∧ world' = world :=
  Task.finishes_iff

/-! ### From the evaluator to the machine -/

/-- The move leads to the point where the outcome is handed to `k`; an error ends the run at
once. -/
def Move.Delivers (hosts : Hosts) (convention : Convention) (p : Move × World)
    (k : Continuation) : Outcome Value → Prop
  | (.error e, world') => ∃ n, Move.Finishes hosts convention n p (.error e) world'
  | (.ok v, world₁) => ∀ m result world',
    (Task.resume k v).Finishes hosts convention m world₁ result world' →
      ∃ n, Move.Finishes hosts convention n p result world'

namespace Move.Delivers

variable {k : Continuation} {world world₁ : World} {v : Value} {e : EvalError}
  {out : Outcome Value} {p : Move × World}

theorem resume : Delivers hosts convention (.call (.resume k v), world) k (.ok v, world) :=
  fun m _ _ h => ⟨m + 1, m, rfl, h⟩

theorem fail : Delivers hosts convention (.fail e, world) k (.error e, world) :=
  ⟨0, rfl, rfl, rfl⟩

/-- A result goes on to the continuation, and an error ends the run. -/
theorem ofResult (r : Except EvalError Value) :
    Delivers hosts convention (Move.ofResult k r, world) k (r, world) := by
  cases r with
  | ok v => exact resume
  | error e => exact fail

/-- What a task leads to, a call of it leads to. -/
theorem call {task : Task} (h : Delivers hosts convention (task.perform hosts convention world) k out) :
    Delivers hosts convention (.call task, world) k out := by
  obtain ⟨r, world₁⟩ := out
  cases r with
  | error e =>
    obtain ⟨n, hn⟩ := h
    exact ⟨n + 1, n, rfl, Task.finishes_iff.mpr hn⟩
  | ok v =>
    intro m result world' hm
    obtain ⟨n, hn⟩ := h m result world' hm
    exact ⟨n + 1, n, rfl, Task.finishes_iff.mpr hn⟩

/-- A value that is delivered goes on as the continuation it is handed to. -/
theorem trans {k₁ : Continuation} (h : Delivers hosts convention p k₁ (.ok v, world₁))
    (hr : Delivers hosts convention (.call (.resume k₁ v), world₁) k out) :
    Delivers hosts convention p k out := by
  obtain ⟨r, world₂⟩ := out
  cases r with
  | error e =>
    obtain ⟨n, m, rfl, hm⟩ := hr
    exact h m _ _ hm
  | ok u =>
    intro m result world' hm
    obtain ⟨n, m', rfl, hm'⟩ := hr m result world' hm
    exact h m' _ _ hm'

/-- An error passes every link by, and a value goes on as the link says. -/
theorem link {link : Link} {r : Except EvalError Value}
    (h : Delivers hosts convention p (link :: k) (r, world₁))
    (herror : ∀ e, r = .error e → out = (.error e, world₁))
    (hok : ∀ v, r = .ok v →
      Delivers hosts convention (Move.resume hosts convention world₁ link k v) k out) :
    Delivers hosts convention p k out := by
  cases r with
  | error e => rw [herror e rfl]; exact h
  | ok v => exact h.trans (.call (hok v rfl))

end Move.Delivers

/-- Arguments that are still to be evaluated lead on to the call with all of them; an error among
them ends the run. -/
def Move.DeliversAll (hosts : Hosts) (convention : Convention) (world : World) (rest : List Code)
    (env : FrameId) : Outcome (List Value) → Prop
  | (.error e, world') => ∀ callee done k, Move.Delivers hosts convention
      (Move.arguments hosts convention world callee done rest env k) k (.error e, world')
  | (.ok vs, world₁) => ∀ callee done k out, Move.Delivers hosts convention
      (Move.apply hosts convention world₁ callee (done ++ vs) k) k out →
        Move.Delivers hosts convention
          (Move.arguments hosts convention world callee done rest env k) k out

/-- An assignment is made where the name is found, as a link does it. -/
theorem Move.delivers_assign (world : World) (env : FrameId) (x : Name) (k : Continuation)
    (v : Value) :
    Move.Delivers hosts convention (Move.resume hosts convention world (.assign x env) k v) k
      (Direct.assign world env x v) := by
  simp only [Move.resume, Direct.assign, Store.set?]
  cases world.store.resolve? env x with
  | none => exact .fail
  | some frame => exact .resume

/-- A function is made of a literal at once. -/
theorem Move.delivers_function (world : World) (lambda : Lambda) (env : FrameId)
    (k : Continuation) :
    Move.Delivers hosts convention (Move.function world lambda env k) k
      (.ok (Direct.close world lambda env).1, (Direct.close world lambda env).2) := by
  unfold Move.function Direct.close
  cases lambda.name? with
  | none => exact .resume
  | some x => exact .resume

/-- What the evaluator gives with some fuel, the machine delivers under every continuation. -/
structure Delivered (hosts : Hosts) (convention : Convention) (fuel : Nat) : Prop where
  evaluate : ∀ {t env world out}, Direct.evaluate hosts convention fuel t env world = some out →
    ∀ k, Move.Delivers hosts convention (Move.evaluate world t env k) k out
  declare : ∀ {bindings body env world out},
    Direct.declare hosts convention fuel bindings body env world = some out →
    ∀ k, Move.Delivers hosts convention (Move.declare world bindings body env k) k out
  apply : ∀ {f args world out}, Direct.apply hosts convention fuel f args world = some out →
    ∀ k, Move.Delivers hosts convention (Move.apply hosts convention world f args k) k out
  arguments : ∀ {ts env world out}, Direct.arguments hosts convention fuel ts env world = some out →
    Move.DeliversAll hosts convention world ts env out
  sequence : ∀ {ts last env world out},
    Direct.sequence hosts convention fuel ts last env world = some out →
    ∀ k, Move.Delivers hosts convention (Move.sequence env last k ts, world) k out

namespace Delivered

variable {fuel : Nat} {env : FrameId} {world : World} {out : Outcome Value}

theorem evaluate_succ (ih : Delivered hosts convention fuel) {t : Code}
    (h : Direct.evaluate hosts convention (fuel + 1) t env world = some out) (k : Continuation) :
    Move.Delivers hosts convention (Move.evaluate world t env k) k out := by
  cases t with
  | int n => cases h; exact .resume
  | str s => cases h; exact .resume
  | bool b => cases h; exact .resume
  | var x => cases h; exact .ofResult _
  | assign target t =>
    cases target with
    | var x =>
      rw [Direct.evaluate] at h
      obtain ⟨⟨r, world₁⟩, hx, h⟩ := Option.bind_eq_some_iff.mp h
      refine .call (.link (ih.evaluate hx _) (by rintro e rfl; cases h; rfl) ?_)
      rintro v rfl
      cases h
      exact Move.delivers_assign world₁ env x k v
    | _ => cases h; exact .fail
  | binary op left right =>
    rw [Direct.evaluate] at h
    obtain ⟨⟨r, world₁⟩, hx, h⟩ := Option.bind_eq_some_iff.mp h
    refine .call (.link (ih.evaluate hx _) (by rintro e rfl; cases h; rfl) ?_)
    rintro a rfl
    obtain ⟨⟨r, world₂⟩, hy, h⟩ := Option.bind_eq_some_iff.mp h
    refine .call (.link (ih.evaluate hy _) (by rintro e rfl; cases h; rfl) ?_)
    rintro b rfl
    cases h
    exact .ofResult _
  | negate t =>
    rw [Direct.evaluate] at h
    obtain ⟨⟨r, world₁⟩, hx, h⟩ := Option.bind_eq_some_iff.mp h
    refine .call (.link (ih.evaluate hx _) (by rintro e rfl; cases h; rfl) ?_)
    rintro v rfl
    cases h
    exact .resume
  | seq items => exact ih.sequence h k
  | call callee args =>
    rw [Direct.evaluate] at h
    obtain ⟨⟨r, world₁⟩, hx, h⟩ := Option.bind_eq_some_iff.mp h
    refine .call (.link (ih.evaluate hx _) (by rintro e rfl; cases h; rfl) ?_)
    rintro f rfl
    obtain ⟨⟨r, world₂⟩, hy, h⟩ := Option.bind_eq_some_iff.mp h
    have hall := ih.arguments hy
    cases r with
    | error e => cases h; exact hall f [] k
    | ok vs => exact hall f [] k out (ih.apply h k)
  | function label name? params body =>
    cases h
    exact Move.delivers_function world _ env k
  | conditional test consequent alternative? =>
    rw [Direct.evaluate] at h
    obtain ⟨⟨r, world₁⟩, hx, h⟩ := Option.bind_eq_some_iff.mp h
    refine .call (.link (ih.evaluate hx _) (by rintro e rfl; cases h; rfl) ?_)
    rintro v rfl
    unfold Move.resume
    by_cases hv : v.isTruthy
    · simp only [hv, if_true] at h ⊢
      exact .call (ih.evaluate h k)
    · simp only [hv] at h ⊢
      cases alternative? with
      | some alternative => exact .call (ih.evaluate h k)
      | none => cases h; exact .resume
  | declare bindings body => exact ih.declare h k

theorem declare_succ (ih : Delivered hosts convention fuel) {bindings : List (Binding Code)}
    {body : Code} (h : Direct.declare hosts convention (fuel + 1) bindings body env world = some out)
    (k : Continuation) :
    Move.Delivers hosts convention (Move.declare world bindings body env k) k out := by
  cases bindings with
  | nil => exact .call (ih.evaluate h k)
  | cons b bindings =>
    obtain ⟨x, t?⟩ := b
    cases t? with
    | none => exact .call (ih.declare h k)
    | some t =>
      rw [Direct.declare] at h
      obtain ⟨⟨r, world₁⟩, hx, h⟩ := Option.bind_eq_some_iff.mp h
      refine .call (.link (ih.evaluate hx _) (by rintro e rfl; cases h; rfl) ?_)
      rintro v rfl
      exact ih.declare h k

theorem apply_succ (ih : Delivered hosts convention fuel) {f : Value} {args : List Value}
    (h : Direct.apply hosts convention (fuel + 1) f args world = some out) (k : Continuation) :
    Move.Delivers hosts convention (Move.apply hosts convention world f args k) k out := by
  cases f with
  | closure lambda env => exact .call (ih.evaluate h k)
  | host name id =>
    cases convention with
    | implicit => cases h; exact .ofResult _
    | explicit =>
      cases args with
      | nil => cases h; exact .ofResult _
      | cons continuation args =>
        rw [Direct.apply] at h
        unfold Move.apply
        obtain ⟨⟨r, world₁⟩, hr⟩ : ∃ r, hosts id args world = r := ⟨_, rfl⟩
        simp only [hr] at h ⊢
        cases r with
        | error e => cases h; exact .fail
        | ok v => exact .call (ih.apply h k)
  | _ => cases h; exact .fail

theorem arguments_succ (ih : Delivered hosts convention fuel) {ts : List Code}
    {outs : Outcome (List Value)}
    (h : Direct.arguments hosts convention (fuel + 1) ts env world = some outs) :
    Move.DeliversAll hosts convention world ts env outs := by
  cases ts with
  | nil =>
    cases h
    intro callee done k out hout
    rwa [List.append_nil] at hout
  | cons t ts =>
    rw [Direct.arguments] at h
    obtain ⟨⟨r, world₁⟩, hx, h⟩ := Option.bind_eq_some_iff.mp h
    cases r with
    | error e =>
      cases h
      exact fun callee done k => .call (ih.evaluate hx (.argument callee done ts env :: k))
    | ok v =>
      obtain ⟨⟨r, world₂⟩, hy, h⟩ := Option.bind_eq_some_iff.mp h
      have hall := ih.arguments hy
      cases r with
      | error e =>
        cases h
        intro callee done k
        exact .call ((ih.evaluate hx _).trans (.call (hall callee (done ++ [v]) k)))
      | ok vs =>
        cases h
        intro callee done k out hout
        rw [List.append_cons] at hout
        exact .call ((ih.evaluate hx _).trans (.call (hall callee (done ++ [v]) k out hout)))

theorem sequence_succ (ih : Delivered hosts convention fuel) {ts : List Code} {last : Value}
    (h : Direct.sequence hosts convention (fuel + 1) ts last env world = some out)
    (k : Continuation) :
    Move.Delivers hosts convention (Move.sequence env last k ts, world) k out := by
  cases ts with
  | nil => cases h; exact .resume
  | cons t ts =>
    rw [Direct.sequence] at h
    obtain ⟨⟨r, world₁⟩, hx, h⟩ := Option.bind_eq_some_iff.mp h
    cases r with
    | error e =>
      cases h
      cases ts with
      | nil => exact .call (ih.evaluate hx k)
      | cons u ts => exact .call (ih.evaluate hx (.sequence (u :: ts) env :: k))
    | ok v =>
      cases ts with
      | nil => exact .call ((ih.evaluate hx k).trans (ih.sequence h k))
      | cons u ts => exact .call ((ih.evaluate hx _).trans (.call (ih.sequence h k)))

/-- **What the evaluator gives, the machine delivers.** -/
theorem all (hosts : Hosts) (convention : Convention) (fuel : Nat) :
    Delivered hosts convention fuel := by
  induction fuel with
  | zero => exact ⟨nofun, nofun, nofun, nofun, nofun⟩
  | succ fuel ih =>
    exact ⟨evaluate_succ ih, declare_succ ih, apply_succ ih, arguments_succ ih, sequence_succ ih⟩

end Delivered

/-! ### From the machine to the evaluator -/

/-- The rest of a run of `n` calls once an outcome is there: after an error there is nothing left
to do, and a value is handed to `k`, with fewer calls to go. -/
def Resumed (hosts : Hosts) (convention : Convention) (k : Continuation) (n : Nat)
    (result : Except EvalError Value) (world' : World) : Outcome Value → Prop
  | (.error e, world₁) => result = .error e ∧ world' = world₁
  | (.ok v, world₁) =>
    ∃ m, m < n ∧ (Task.resume k v).Finishes hosts convention m world₁ result world'

theorem Resumed.mono {k : Continuation} {m n : Nat} {result : Except EvalError Value}
    {world' : World} {out : Outcome Value} (h : Resumed hosts convention k m result world' out)
    (hmn : m ≤ n) : Resumed hosts convention k n result world' out := by
  obtain ⟨r, world₁⟩ := out
  cases r with
  | error e => exact h
  | ok v =>
    obtain ⟨l, hl, h⟩ := h
    exact ⟨l, Nat.lt_of_lt_of_le hl hmn, h⟩

/-- A result that goes on to the continuation is the outcome. -/
theorem Resumed.ofResult {k : Continuation} {n : Nat} {r result : Except EvalError Value}
    {world world' : World}
    (h : Move.Finishes hosts convention n (Move.ofResult k r, world) result world') :
    Resumed hosts convention k n result world' (r, world) := by
  cases r with
  | error e => exact h.2
  | ok v =>
    obtain ⟨m, rfl, hm⟩ := h
    exact ⟨m, Nat.lt_succ_self m, hm⟩

/-- The rest of a run of `n` calls once the arguments of a call have been evaluated. -/
def Called (hosts : Hosts) (convention : Convention) (callee : Value) (done : List Value)
    (k : Continuation) (n : Nat) (result : Except EvalError Value) (world' : World) :
    Outcome (List Value) → Prop
  | (.error e, world₁) => result = .error e ∧ world' = world₁
  | (.ok vs, world₁) => ∃ m, m ≤ n ∧ Move.Finishes hosts convention m
      (Move.apply hosts convention world₁ callee (done ++ vs) k) result world'

/-- A move that comes to an end after `n` calls does what the evaluator says. Each call takes two
levels of fuel at most, since the evaluator has a level for a term and one for its parts. -/
structure Explained (hosts : Hosts) (convention : Convention) (n : Nat) : Prop where
  evaluate : ∀ {t env world k result world'},
    Move.Finishes hosts convention n (Move.evaluate world t env k) result world' →
    ∃ out, (∀ fuel, 2 * n + 1 < fuel →
        Direct.evaluate hosts convention fuel t env world = some out) ∧
      Resumed hosts convention k n result world' out
  declare : ∀ {bindings body env world k result world'},
    Move.Finishes hosts convention n (Move.declare world bindings body env k) result world' →
    ∃ out, (∀ fuel, 2 * n < fuel →
        Direct.declare hosts convention fuel bindings body env world = some out) ∧
      Resumed hosts convention k n result world' out
  apply : ∀ {f args world k result world'},
    Move.Finishes hosts convention n (Move.apply hosts convention world f args k) result world' →
    ∃ out, (∀ fuel, 2 * n < fuel → Direct.apply hosts convention fuel f args world = some out) ∧
      Resumed hosts convention k n result world' out
  arguments : ∀ {callee done ts env world k result world'},
    Move.Finishes hosts convention n
      (Move.arguments hosts convention world callee done ts env k) result world' →
    ∃ out, (∀ fuel, 2 * n < fuel → Direct.arguments hosts convention fuel ts env world = some out) ∧
      Called hosts convention callee done k n result world' out
  sequence : ∀ {ts last env world k result world'},
    Move.Finishes hosts convention n (Move.sequence env last k ts, world) result world' →
    ∃ out, (∀ fuel, 2 * n < fuel →
        Direct.sequence hosts convention fuel ts last env world = some out) ∧
      Resumed hosts convention k n result world' out

namespace Explained

/-- To have more than `n` levels is to have one and at least `n` below it. -/
theorem of_succ {p : Nat → Prop} {n : Nat} (h : ∀ fuel, n ≤ fuel → p (fuel + 1)) :
    ∀ fuel, n < fuel → p fuel := by
  intro fuel hf
  cases fuel with
  | zero => omega
  | succ fuel => exact h fuel (by omega)

variable {n : Nat} {t body : Code} {env : FrameId} {world world' : World} {k : Continuation}
  {result : Except EvalError Value}

/-- A term is called for with nothing else to do first. -/
theorem tail (ih : ∀ m, m < n → Explained hosts convention m)
    (h : Move.Finishes hosts convention n (.call (.evaluate t env k), world) result world') :
    ∃ out, (∀ fuel, 2 * n ≤ fuel → Direct.evaluate hosts convention fuel t env world = some out) ∧
      Resumed hosts convention k n result world' out := by
  obtain ⟨m, rfl, hm⟩ := h
  obtain ⟨out, hout, hr⟩ := (ih m (Nat.lt_succ_self m)).evaluate (Task.finishes_iff.mp hm)
  exact ⟨out, fun fuel hf => hout fuel (by omega), hr.mono (Nat.le_succ m)⟩

/-- A term is called for, and its value is handed to a link. -/
theorem link (ih : ∀ m, m < n → Explained hosts convention m) {link : Link}
    (h : Move.Finishes hosts convention n (.call (.evaluate t env (link :: k)), world) result
      world') :
    (∃ e world₁, (∀ fuel, 2 * n ≤ fuel →
        Direct.evaluate hosts convention fuel t env world = some (.error e, world₁)) ∧
      result = .error e ∧ world' = world₁) ∨
    ∃ v world₁ m, (∀ fuel, 2 * n ≤ fuel →
        Direct.evaluate hosts convention fuel t env world = some (.ok v, world₁)) ∧ m < n ∧
      Move.Finishes hosts convention m (Move.resume hosts convention world₁ link k v) result
        world' := by
  obtain ⟨⟨r, world₁⟩, hout, hr⟩ := tail ih h
  cases r with
  | error e => exact .inl ⟨e, world₁, hout, hr⟩
  | ok v =>
    obtain ⟨m, hlt, hm⟩ := hr
    exact .inr ⟨v, world₁, m, hout, hlt, Task.finishes_iff.mp hm⟩

theorem sequence_of_below (ih : ∀ m, m < n → Explained hosts convention m) {ts : List Code}
    {last : Value}
    (h : Move.Finishes hosts convention n (Move.sequence env last k ts, world) result world') :
    ∃ out, (∀ fuel, 2 * n < fuel →
        Direct.sequence hosts convention fuel ts last env world = some out) ∧
      Resumed hosts convention k n result world' out := by
  cases ts with
  | nil => exact ⟨_, of_succ fun fuel _ => rfl, Resumed.ofResult h⟩
  | cons t ts =>
    cases ts with
    | nil =>
      obtain ⟨⟨r, world₁⟩, hout, hr⟩ := tail ih h
      refine ⟨_, of_succ fun fuel hf => ?_, hr⟩
      rw [Direct.sequence, hout fuel hf]
      cases r with
      | error e => rfl
      | ok v =>
        -- the value of the only term is the value of the empty rest
        obtain ⟨m, rfl, -⟩ := h
        cases fuel with
        | zero => omega
        | succ fuel => rfl
    | cons u ts =>
      rcases link ih h with ⟨e, world₁, ht, rfl, rfl⟩ | ⟨v, world₁, m, ht, hlt, hm⟩
      · exact ⟨(.error e, world'), of_succ fun fuel hf => by rw [Direct.sequence, ht fuel hf]; rfl,
          rfl, rfl⟩
      · obtain ⟨out, hout, hr⟩ := (ih m hlt).sequence hm
        refine ⟨out, of_succ fun fuel hf => ?_, hr.mono (Nat.le_of_lt hlt)⟩
        rw [Direct.sequence, ht fuel hf]
        exact hout fuel (by omega)

theorem declare_of_below (ih : ∀ m, m < n → Explained hosts convention m)
    {bindings : List (Binding Code)}
    (h : Move.Finishes hosts convention n (Move.declare world bindings body env k) result world') :
    ∃ out, (∀ fuel, 2 * n < fuel →
        Direct.declare hosts convention fuel bindings body env world = some out) ∧
      Resumed hosts convention k n result world' out := by
  cases bindings with
  | nil =>
    obtain ⟨out, hout, hr⟩ := tail ih h
    exact ⟨out, of_succ hout, hr⟩
  | cons b bindings =>
    obtain ⟨x, t?⟩ := b
    cases t? with
    | none =>
      obtain ⟨m, rfl, hm⟩ := h
      obtain ⟨out, hout, hr⟩ := (ih m (Nat.lt_succ_self m)).declare (Task.finishes_iff.mp hm)
      exact ⟨out, of_succ fun fuel hf => hout fuel (by omega), hr.mono (Nat.le_succ m)⟩
    | some t =>
      rcases link ih h with ⟨e, world₁, ht, rfl, rfl⟩ | ⟨v, world₁, m, ht, hlt, hm⟩
      · exact ⟨(.error e, world'), of_succ fun fuel hf => by rw [Direct.declare, ht fuel hf]; rfl,
          rfl, rfl⟩
      · obtain ⟨out, hout, hr⟩ := (ih m hlt).declare hm
        refine ⟨out, of_succ fun fuel hf => ?_, hr.mono (Nat.le_of_lt hlt)⟩
        rw [Direct.declare, ht fuel hf]
        exact hout fuel (by omega)

theorem apply_of_below (ih : ∀ m, m < n → Explained hosts convention m) {f : Value}
    {args : List Value}
    (h : Move.Finishes hosts convention n (Move.apply hosts convention world f args k) result
      world') :
    ∃ out, (∀ fuel, 2 * n < fuel → Direct.apply hosts convention fuel f args world = some out) ∧
      Resumed hosts convention k n result world' out := by
  cases f with
  | closure lambda env =>
    obtain ⟨out, hout, hr⟩ := tail ih h
    exact ⟨out, of_succ hout, hr⟩
  | host name id =>
    cases convention with
    | implicit => exact ⟨_, of_succ fun fuel _ => rfl, Resumed.ofResult h⟩
    | explicit =>
      cases args with
      | nil => exact ⟨_, of_succ fun fuel _ => rfl, Resumed.ofResult h⟩
      | cons continuation args =>
        unfold Move.apply at h
        obtain ⟨⟨r, world₁⟩, hhost⟩ : ∃ r, hosts id args world = r := ⟨_, rfl⟩
        simp only [hhost] at h
        cases r with
        | error e =>
          exact ⟨(.error e, world₁), of_succ fun fuel _ => by simp only [Direct.apply, hhost], h.2⟩
        | ok v =>
          obtain ⟨m, rfl, hm⟩ := h
          obtain ⟨out, hout, hr⟩ := (ih m (Nat.lt_succ_self m)).apply (Task.finishes_iff.mp hm)
          refine ⟨out, of_succ fun fuel hf => ?_, hr.mono (Nat.le_succ m)⟩
          simp only [Direct.apply, hhost]
          exact hout fuel (by omega)
  | _ => exact ⟨_, of_succ fun fuel _ => rfl, h.2⟩

theorem arguments_of_below (ih : ∀ m, m < n → Explained hosts convention m) {callee : Value}
    {done : List Value} {ts : List Code}
    (h : Move.Finishes hosts convention n
      (Move.arguments hosts convention world callee done ts env k) result world') :
    ∃ out, (∀ fuel, 2 * n < fuel → Direct.arguments hosts convention fuel ts env world = some out) ∧
      Called hosts convention callee done k n result world' out := by
  cases ts with
  | nil =>
    exact ⟨(.ok [], world), of_succ fun fuel _ => rfl, n, Nat.le_refl n, by rwa [List.append_nil]⟩
  | cons t ts =>
    rcases link ih h with ⟨e, world₁, ht, rfl, rfl⟩ | ⟨v, world₁, m, ht, hlt, hm⟩
    · exact ⟨(.error e, world'), of_succ fun fuel hf => by rw [Direct.arguments, ht fuel hf]; rfl,
        rfl, rfl⟩
    · obtain ⟨⟨r, world₂⟩, hout, hr⟩ := (ih m hlt).arguments hm
      cases r with
      | error e =>
        refine ⟨(.error e, world₂), of_succ fun fuel hf => ?_, hr⟩
        simp only [Direct.arguments, ht fuel hf, hout fuel (by omega), Option.bind_eq_bind,
          Option.bind_some]
      | ok vs =>
        obtain ⟨l, hl, hr⟩ := hr
        rw [← List.append_cons] at hr
        refine ⟨(.ok (v :: vs), world₂), of_succ fun fuel hf => ?_,
          l, Nat.le_trans hl (Nat.le_of_lt hlt), hr⟩
        simp only [Direct.arguments, ht fuel hf, hout fuel (by omega), Option.bind_eq_bind,
          Option.bind_some]

/-- A choice is made by the value of the test, and one arm is evaluated. -/
theorem branch_of_below (ih : ∀ m, m < n → Explained hosts convention m) {v : Value}
    {consequent : Code} {alternative? : Option Code}
    (h : Move.Finishes hosts convention n
      (Move.resume hosts convention world (.branch consequent alternative? env) k v) result
      world') :
    ∃ out, (∀ fuel, 2 * n ≤ fuel → ∀ test world₀,
        Direct.evaluate hosts convention fuel test env world₀ = some (.ok v, world) →
        Direct.evaluate hosts convention (fuel + 1) (.conditional test consequent alternative?) env
          world₀ = some out) ∧
      Resumed hosts convention k n result world' out := by
  unfold Move.resume at h
  by_cases hv : v.isTruthy
  · simp only [hv, if_true] at h
    obtain ⟨out, hout, hr⟩ := tail ih h
    refine ⟨out, fun fuel hf test world₀ ht => ?_, hr⟩
    simp only [Direct.evaluate, ht, Option.bind_eq_bind, Option.bind_some, hv, if_true]
    exact hout fuel hf
  · simp only [hv] at h
    cases alternative? with
    | some alternative =>
      obtain ⟨out, hout, hr⟩ := tail ih h
      refine ⟨out, fun fuel hf test world₀ ht => ?_, hr⟩
      simp only [Direct.evaluate, ht, Option.bind_eq_bind, Option.bind_some, hv]
      exact hout fuel hf
    | none =>
      refine ⟨(.ok .absent, world), fun fuel hf test world₀ ht => ?_, Resumed.ofResult h⟩
      simp only [Direct.evaluate, ht, Option.bind_eq_bind, Option.bind_some, hv]
      rfl

theorem evaluate_of_below (ih : ∀ m, m < n → Explained hosts convention m)
    (h : Move.Finishes hosts convention n (Move.evaluate world t env k) result world') :
    ∃ out, (∀ fuel, 2 * n + 1 < fuel →
        Direct.evaluate hosts convention fuel t env world = some out) ∧
      Resumed hosts convention k n result world' out := by
  cases t with
  | int i => exact ⟨_, of_succ fun fuel _ => rfl, Resumed.ofResult h⟩
  | str s => exact ⟨_, of_succ fun fuel _ => rfl, Resumed.ofResult h⟩
  | bool b => exact ⟨_, of_succ fun fuel _ => rfl, Resumed.ofResult h⟩
  | var x => exact ⟨_, of_succ fun fuel _ => rfl, Resumed.ofResult h⟩
  | assign target t =>
    cases target with
    | var x =>
      rcases link ih h with ⟨e, world₁, ht, rfl, rfl⟩ | ⟨v, world₁, m, ht, hlt, hm⟩
      · exact ⟨(.error e, world'), of_succ fun fuel hf => by rw [Direct.evaluate, ht fuel (by omega)]; rfl,
          rfl, rfl⟩
      · refine ⟨Direct.assign world₁ env x v,
          of_succ fun fuel hf => by rw [Direct.evaluate, ht fuel (by omega)]; rfl,
          Resumed.mono ?_ (Nat.le_of_lt hlt)⟩
        simp only [Move.resume, Direct.assign, Store.set?] at hm ⊢
        cases hf : world₁.store.resolve? env x with
        | none => rw [hf] at hm; exact hm.2
        | some frame => rw [hf] at hm; exact Resumed.ofResult hm
    | _ => exact ⟨_, of_succ fun fuel _ => rfl, h.2⟩
  | binary op left right =>
    rcases link ih h with ⟨e, world₁, ha, rfl, rfl⟩ | ⟨a, world₁, m, ha, hlt, hm⟩
    · exact ⟨(.error e, world'), of_succ fun fuel hf => by rw [Direct.evaluate, ha fuel (by omega)]; rfl,
        rfl, rfl⟩
    have below : ∀ l, l < m → Explained hosts convention l :=
      fun l hl => ih l (Nat.lt_trans hl hlt)
    rcases link below hm with ⟨e, world₂, hb, rfl, rfl⟩ | ⟨b, world₂, l, hb, hl, hm⟩
    · refine ⟨(.error e, world'), of_succ fun fuel hf => ?_, rfl, rfl⟩
      simp only [Direct.evaluate, ha fuel (by omega), hb fuel (by omega), Option.bind_eq_bind,
        Option.bind_some]
    · refine ⟨(Value.operateSymbol op a b, world₂), of_succ fun fuel hf => ?_,
        (Resumed.ofResult hm).mono (by omega)⟩
      simp only [Direct.evaluate, ha fuel (by omega), hb fuel (by omega), Option.bind_eq_bind,
        Option.bind_some]
  | negate t =>
    rcases link ih h with ⟨e, world₁, ht, rfl, rfl⟩ | ⟨v, world₁, m, ht, hlt, hm⟩
    · exact ⟨(.error e, world'), of_succ fun fuel hf => by rw [Direct.evaluate, ht fuel (by omega)]; rfl,
        rfl, rfl⟩
    · exact ⟨_, of_succ fun fuel hf => by rw [Direct.evaluate, ht fuel (by omega)]; rfl,
        (Resumed.ofResult hm).mono (Nat.le_of_lt hlt)⟩
  | seq items =>
    obtain ⟨out, hout, hr⟩ := sequence_of_below ih h
    exact ⟨out, of_succ fun fuel hf => hout fuel hf, hr⟩
  | call callee args =>
    rcases link ih h with ⟨e, world₁, hf, rfl, rfl⟩ | ⟨f, world₁, m, hf, hlt, hm⟩
    · exact ⟨(.error e, world'), of_succ fun fuel hn => by rw [Direct.evaluate, hf fuel (by omega)]; rfl,
        rfl, rfl⟩
    obtain ⟨⟨r, world₂⟩, hargs, hr⟩ := (ih m hlt).arguments hm
    cases r with
    | error e =>
      refine ⟨(.error e, world₂), of_succ fun fuel hn => ?_, hr⟩
      simp only [Direct.evaluate, hf fuel (by omega), hargs fuel (by omega), Option.bind_eq_bind,
        Option.bind_some]
    | ok vs =>
      obtain ⟨l, hl, hr⟩ := hr
      obtain ⟨out, hout, hr⟩ := (ih l (by omega)).apply hr
      refine ⟨out, of_succ fun fuel hn => ?_, hr.mono (by omega)⟩
      simp only [Direct.evaluate, hf fuel (by omega), hargs fuel (by omega), Option.bind_eq_bind,
        Option.bind_some]
      exact hout fuel (by omega)
  | function label name? params body =>
    unfold Move.evaluate Move.function at h
    cases name? with
    | none => exact ⟨_, of_succ fun fuel _ => rfl, Resumed.ofResult h⟩
    | some x => exact ⟨_, of_succ fun fuel _ => rfl, Resumed.ofResult h⟩
  | conditional test consequent alternative? =>
    rcases link ih h with ⟨e, world₁, ht, rfl, rfl⟩ | ⟨v, world₁, m, ht, hlt, hm⟩
    · exact ⟨(.error e, world'), of_succ fun fuel hf => by rw [Direct.evaluate, ht fuel (by omega)]; rfl,
        rfl, rfl⟩
    · obtain ⟨out, hout, hr⟩ := branch_of_below (fun l hl => ih l (Nat.lt_trans hl hlt)) hm
      exact ⟨out, of_succ fun fuel hf => hout fuel (by omega) _ _ (ht fuel (by omega)),
        hr.mono (Nat.le_of_lt hlt)⟩
  | declare bindings body =>
    obtain ⟨out, hout, hr⟩ := declare_of_below ih h
    exact ⟨out, of_succ fun fuel hf => hout fuel hf, hr⟩

/-- **Every run that ends passes through what the evaluator gives.** -/
theorem all (hosts : Hosts) (convention : Convention) (n : Nat) : Explained hosts convention n := by
  induction n using Nat.strongRecOn with
  | _ n ih =>
    exact ⟨evaluate_of_below ih, declare_of_below ih, apply_of_below ih, arguments_of_below ih,
      sequence_of_below ih⟩

end Explained

/-! ### Runs -/

/-- What the tasks of a run come to is what the evaluator gives. -/
theorem start_finishes_iff {code : Code} {env : FrameId} {world world' : World}
    {result : Except EvalError Value} :
    (∃ n, (Task.start code env).Finishes hosts convention n world result world') ↔
      ∃ fuel, Direct.evaluate hosts convention fuel code env world = some (result, world') := by
  constructor
  · rintro ⟨n, hn⟩
    obtain ⟨m, rfl, hm⟩ := Task.finishes_iff.mp hn
    obtain ⟨⟨r, world₁⟩, hout, hr⟩ :=
      (Explained.all hosts convention m).evaluate (Task.finishes_iff.mp hm)
    have hout := hout (2 * m + 2) (by omega)
    cases r with
    | error e =>
      obtain ⟨rfl, rfl⟩ := hr
      exact ⟨_, hout⟩
    | ok v =>
      obtain ⟨l, -, hl⟩ := hr
      obtain ⟨rfl, rfl, rfl⟩ := resume_nil_finishes_iff.mp hl
      exact ⟨_, hout⟩
  · rintro ⟨fuel, h⟩
    have hd : Move.Delivers hosts convention (.call (.evaluate code env []), world) []
        (result, world') := .call ((Delivered.all hosts convention fuel).evaluate h [])
    suffices hf : ∃ n, Move.Finishes hosts convention n (.call (.evaluate code env []), world)
        result world' by
      obtain ⟨n, hn⟩ := hf
      exact ⟨n, Task.finishes_iff.mpr hn⟩
    cases result with
    | error e => exact hd
    | ok v => exact hd 0 _ _ (resume_nil_finishes_iff.mpr ⟨rfl, rfl, rfl⟩)

/-- The value of a run is the answer that its tasks come to. -/
theorem Ended.value_of_verdict (result : Except EvalError Value) (machine : Machine)
    (world : World) :
    Ended.value ⟨Run.verdict (fun _ => .ok ()) result, machine, world, Run.answers result⟩ =
      result := by
  cases result with
  | ok v => rfl
  | error e => rfl

/-- Of a well-formed term, the machine finds what the evaluator gives. -/
theorem Machine.run_iff_evaluate (maxDepth : Nat) {code : Code} (hcode : code.check = .ok ())
    {env : FrameId} {world world' : World} {result : Except EvalError Value} :
    (∃ fuel run, (Machine.new maxDepth convention).run hosts fuel world code env =
        some (result, run) ∧ run.world = world') ↔
      ∃ fuel, Direct.evaluate hosts convention fuel code env world = some (result, world') := by
  have hidle := Machine.new_idle maxDepth convention
  constructor
  · rintro ⟨fuel, run, h, rfl⟩
    obtain ⟨ended, he, hr⟩ := Option.map_eq_some_iff.mp h
    obtain ⟨n, r, world₁, hn, rfl⟩ := (Machine.execute_iff hidle hcode).mp ⟨fuel, he⟩
    rw [Ended.value_of_verdict] at hr
    cases hr
    exact start_finishes_iff.mp ⟨n, hn⟩
  · intro h
    obtain ⟨n, hn⟩ := start_finishes_iff.mpr h
    obtain ⟨fuel, hf⟩ := (Machine.execute_iff hidle hcode).mpr ⟨n, result, world', hn, rfl⟩
    refine ⟨fuel, ⟨Run.verdict (fun _ => .ok ()) result, (Machine.new maxDepth convention).rest n,
      world', Run.answers result⟩, ?_, rfl⟩
    rw [Machine.run, hf, Option.map_some, Ended.value_of_verdict]

/-- A malformed term is refused, however it is run. -/
theorem Machine.run_iff_malformed (maxDepth : Nat) {code : Code} {fault : Malformed}
    (hcode : code.check = .error fault) {env : FrameId} {world world' : World}
    {result : Except EvalError Value} :
    (∃ fuel run, (Machine.new maxDepth convention).run hosts fuel world code env =
        some (result, run) ∧ run.world = world') ↔
      result = .error (.malformed fault) ∧ world' = world := by
  simp only [Machine.run, Machine.execute_of_malformed hcode]
  constructor
  · rintro ⟨fuel, run, h, rfl⟩
    cases h
    exact ⟨rfl, rfl⟩
  · rintro ⟨rfl, rfl⟩
    exact ⟨0, _, rfl, rfl⟩

/-- **The machine refines evaluation in direct style.** Whatever the depth at which it puts tasks
aside, a run of a term on the machine ends with a value or an error and leaves a world, what was
printed and what the frames hold included, just if evaluation in direct style gives this value or
this error and leaves this world. -/
theorem Machine.run_iff_direct (hosts : Hosts) (convention : Convention) (maxDepth : Nat)
    (world : World) (code : Code) (env : FrameId) (result : Except EvalError Value)
    (world' : World) :
    (∃ fuel run, (Machine.new maxDepth convention).run hosts fuel world code env =
        some (result, run) ∧ run.world = world') ↔
      ∃ fuel, Direct.run hosts convention fuel code env world = some (result, world') := by
  unfold Direct.run
  cases hk : code.check with
  | error fault =>
    rw [Machine.run_iff_malformed maxDepth hk]
    constructor
    · rintro ⟨rfl, rfl⟩
      exact ⟨0, rfl⟩
    · rintro ⟨fuel, h⟩
      cases h
      exact ⟨rfl, rfl⟩
  | ok u => exact Machine.run_iff_evaluate maxDepth hk

end LetLambda
