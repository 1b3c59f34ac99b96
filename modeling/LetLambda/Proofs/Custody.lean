import LetLambda.Proofs.Moments
import LetLambda.Proofs.Scoping

/-!
# What comes into a run

A value that a run comes by at some moment has been made in it, or has been in the frames from which
it began, or a host function has brought it in. So what holds of plain values, of what the frames
hold at first and of every function that is made holds of all values that are at hand at any moment
(`Custody.perform`), if the host functions are frugal.
-/

namespace LetLambda

/-- What is to be known of `P` and `live`: `P` holds of plain values, a function of the language for
which it holds stands in a frame of `live`, and a host function for which it holds is frugal. -/
structure Custody (hosts : Hosts) (trusted : Nat → Prop) (P : Value → Prop)
    (live : FrameId → Prop) : Prop where
  plain : ∀ v, v.Plain trusted → P v
  closure : ∀ lambda f, P (.closure lambda f) → live f
  host : ∀ name id, P (.host name id) → (hosts id).Frugal live trusted

theorem custody_admitted {hosts : Hosts} {trusted : Nat → Prop} {live : FrameId → Prop}
    (hhosts : ∀ id, trusted id → (hosts id).Frugal live trusted) (Q : Lambda → FrameId → Prop) :
    Custody hosts trusted (Value.Admitted trusted live Q) live :=
  ⟨fun _ h => h.admitted, fun _ _ h => h.1, fun _ id hid => hhosts id hid⟩

/-! ### What tasks hold -/

/-- What a link waits with. -/
def Link.Held (P : Value → Prop) (live : FrameId → Prop) : Link → Prop
  | assign _ env | right _ _ env | branch _ _ env | sequence _ env | callee _ env
  | define _ _ _ env => live env
  | operate _ left => P left
  | negate => True
  | argument f done _ env => P f ∧ (∀ v ∈ done, P v) ∧ live env

/-- The values of a task satisfy `P`, and its frames are frames of `live`. -/
def Task.Held (P : Value → Prop) (live : FrameId → Prop) : Task → Prop
  | start _ env => live env
  | evaluate _ env k | declare _ _ env k => live env ∧ ∀ link ∈ k, link.Held P live
  | resume k v => P v ∧ ∀ link ∈ k, link.Held P live
  | apply f args k => P f ∧ (∀ v ∈ args, P v) ∧ ∀ link ∈ k, link.Held P live

theorem Link.Held.mono {P Q : Value → Prop} {live : FrameId → Prop} (h : ∀ v, P v → Q v)
    {link : Link} (hlink : link.Held P live) : link.Held Q live := by
  cases link with
  | operate op left => exact h left hlink
  | argument f done rest env =>
    exact ⟨h f hlink.1, fun v hv => h v (hlink.2.1 v hv), hlink.2.2⟩
  | _ => exact hlink

theorem Task.Held.mono {P Q : Value → Prop} {live : FrameId → Prop} (h : ∀ v, P v → Q v)
    {task : Task} (htask : task.Held P live) : task.Held Q live := by
  cases task with
  | start code env => exact htask
  | evaluate code env k => exact ⟨htask.1, fun link hl => (htask.2 link hl).mono h⟩
  | declare bindings body env k => exact ⟨htask.1, fun link hl => (htask.2 link hl).mono h⟩
  | resume k v => exact ⟨h v htask.1, fun link hl => (htask.2 link hl).mono h⟩
  | apply f args k =>
    exact ⟨h f htask.1, fun v hv => h v (htask.2.1 v hv), fun link hl => (htask.2.2 link hl).mono h⟩

/-- The values with which a link waits. -/
def Link.values : Link → List Value
  | operate _ left => [left]
  | argument f done _ _ => f :: done
  | assign .. | right .. | negate | branch .. | sequence .. | callee .. | define .. => []

/-- The values that a task has, and those that wait after it. -/
def Task.values : Task → List Value
  | start .. => []
  | evaluate _ _ k | declare _ _ _ k => k.flatMap Link.values
  | resume k v => v :: k.flatMap Link.values
  | apply f args k => f :: (args ++ k.flatMap Link.values)

theorem Link.Held.values {P : Value → Prop} {live : FrameId → Prop} {link : Link}
    (h : link.Held P live) : ∀ v ∈ link.values, P v := by
  cases link with
  | operate op left => exact List.forall_mem_singleton.mpr h
  | argument f done rest env => exact List.forall_mem_cons.mpr ⟨h.1, h.2.1⟩
  | _ => exact List.forall_mem_nil _

theorem Task.Held.values {P : Value → Prop} {live : FrameId → Prop} {task : Task}
    (h : task.Held P live) : ∀ v ∈ task.values, P v := by
  have hlinks {k : Continuation} (hk : ∀ link ∈ k, link.Held P live) :
      ∀ v ∈ k.flatMap Link.values, P v :=
    List.forall_mem_flatMap.mpr fun link hlink => (hk link hlink).values
  cases task with
  | start code env => exact List.forall_mem_nil _
  | evaluate code env k => exact hlinks h.2
  | declare bindings body env k => exact hlinks h.2
  | resume k v => exact List.forall_mem_cons.mpr ⟨h.1, hlinks h.2⟩
  | apply f args k =>
    exact List.forall_mem_cons.mpr ⟨h.1, List.forall_mem_append.mpr ⟨h.2.1, hlinks h.2.2⟩⟩

/-- The task makes the function `v`: it evaluates a literal and hands `v` on. -/
def Task.Makes (world : World) (task : Task) (v : Value) : Prop :=
  ∃ label name? params body env k world',
    task = .evaluate (.function label name? params body) env k ∧
    Move.evaluate world (.function label name? params body) env k = (.call (.resume k v), world')

/-- The literal of which a task makes a function, and the frame in which the function stands. -/
def Task.made? (world : World) : Task → Option (Lambda × FrameId)
  | evaluate (.function label none params body) env _ => some (⟨label, none, params, body⟩, env)
  | evaluate (.function label (some x) params body) _ _ =>
    some (⟨label, some x, params, body⟩, world.store.scene.size)
  | _ => none

/-- A function is made of a literal, and stands in the frame of this literal or in a new one. -/
theorem Task.exists_of_made {w : World} {task : Task} {lambda : Lambda} {f : FrameId}
    (h : task.made? w = some (lambda, f)) :
    ∃ env k, task = .evaluate (.function lambda.label lambda.name? lambda.params lambda.body) env k ∧
      (f = env ∨ f = w.store.scene.size) := by
  cases task with
  | evaluate code env k =>
    cases code with
    | function label name? params body =>
      cases name? with
      | none =>
        cases h
        exact ⟨_, k, rfl, .inl rfl⟩
      | some x =>
        cases h
        exact ⟨_, k, rfl, .inr rfl⟩
    | _ => cases h
  | _ => cases h

theorem Task.makes_iff {world : World} {task : Task} {v : Value} :
    task.Makes world v ↔ ∃ lambda f, task.made? world = some (lambda, f) ∧ v = .closure lambda f := by
  constructor
  · rintro ⟨label, name?, params, body, env, k, world', rfl, h⟩
    cases name? <;> cases h <;> exact ⟨_, _, rfl, rfl⟩
  · rintro ⟨⟨label, name?, params, body⟩, f, h, rfl⟩
    obtain ⟨env, k, rfl, -⟩ := Task.exists_of_made h
    cases name? <;> cases h <;> exact ⟨_, _, _, _, _, _, _, rfl, rfl⟩

theorem Task.Held.live_of_made {P : Value → Prop} {live : FrameId → Prop} {w : World} {task : Task}
    (h : task.Held P live) (hw : w.store.scene.Holding P live) {lambda : Lambda} {f : FrameId}
    (hmade : task.made? w = some (lambda, f)) : live f := by
  obtain ⟨env, k, rfl, rfl | rfl⟩ := Task.exists_of_made hmade
  · exact h.1
  · exact hw.fresh _ (Nat.le_refl _)

/-- What a task leaves behind is in custody: the frames, and the task that it calls for or the answer
that it gives. -/
def Move.Guarded (P : Value → Prop) (live : FrameId → Prop) : Move × World → Prop
  | (call next, w) => w.store.scene.Holding P live ∧ next.Held P live
  | (answer v, w) => w.store.scene.Holding P live ∧ P v
  | (fail _, w) => w.store.scene.Holding P live

namespace Move.Guarded

variable {P : Value → Prop} {live : FrameId → Prop} {move : Move} {w : World}

theorem holding (h : Move.Guarded P live (move, w)) : w.store.scene.Holding P live := by
  cases move with
  | call next => exact h.1
  | answer v => exact h.1
  | fail e => exact h

theorem held (h : Move.Guarded P live (move, w)) : ∀ task ∈ move.tasks, task.Held P live := by
  cases move with
  | call next => exact List.forall_mem_singleton.mpr h.2
  | answer v => exact List.forall_mem_nil _
  | fail e => exact List.forall_mem_nil _

theorem answers (h : Move.Guarded P live (move, w)) : ∀ v ∈ move.answers, P v := by
  cases move with
  | call next => exact List.forall_mem_nil _
  | answer v => exact List.forall_mem_singleton.mpr h.2
  | fail e => exact List.forall_mem_nil _

end Move.Guarded

namespace Custody

variable {hosts : Hosts} {trusted : Nat → Prop} {convention : Convention} {P : Value → Prop}
  {live : FrameId → Prop} {w : World} {env : FrameId} {k : Continuation} {v callee : Value}
  {args : List Value}

theorem absent (hP : Custody hosts trusted P live) : P .absent := hP.plain _ trivial

theorem ofResult {r : Except EvalError Value} (hw : w.store.scene.Holding P live)
    (hr : ∀ v, r = .ok v → P v) (hk : ∀ link ∈ k, link.Held P live) :
    Move.Guarded P live (Move.ofResult k r, w) := by
  cases r with
  | error e => exact hw
  | ok v => exact ⟨hw, hr v rfl, hk⟩

theorem sequence (hw : w.store.scene.Holding P live) (henv : live env) (hv : P v)
    (hk : ∀ link ∈ k, link.Held P live) (items : List Code) :
    Move.Guarded P live (Move.sequence env v k items, w) := by
  cases items with
  | nil => exact ⟨hw, hv, hk⟩
  | cons t rest =>
    cases rest with
    | nil => exact ⟨hw, henv, hk⟩
    | cons u rest => exact ⟨hw, henv, List.forall_mem_cons.mpr ⟨henv, hk⟩⟩

/-- A frame comes in that binds names to values in custody. -/
theorem enter (hP : Custody hosts trusted P live) (hw : w.store.scene.Holding P live)
    (henv : live env) (xs : List Name) (hargs : ∀ v ∈ args, P v) :
    ((w.store.extend env).2.defineAll (w.store.extend env).1 xs args).scene.Holding P live ∧
      live (w.store.extend env).1 := by
  refine ⟨?_, hw.fresh _ (Nat.le_refl _)⟩
  have hentered := (hw.push henv).setAll (f := w.store.scene.size) xs hP.absent hargs
  rw [← Direct.enter_defineAll xs args] at hentered
  exact hentered

theorem declare (hP : Custody hosts trusted P live) (hw : w.store.scene.Holding P live)
    (henv : live env) (hk : ∀ link ∈ k, link.Held P live) (bindings : List (Binding Code))
    (body : Code) :
    Move.Guarded P live (Move.declare w bindings body env k) := by
  cases bindings with
  | nil => exact ⟨hw, henv, hk⟩
  | cons b rest =>
    obtain ⟨x, t?⟩ := b
    cases t? with
    | some t => exact ⟨hw, henv, List.forall_mem_cons.mpr ⟨henv, hk⟩⟩
    | none =>
      obtain ⟨hw', henv'⟩ := hP.enter hw henv [x] (List.forall_mem_singleton.mpr hP.absent)
      exact ⟨hw', henv', hk⟩

theorem within (hP : Custody hosts trusted P live) (hv : P v) : v.Within live := by
  cases v with
  | closure lambda f => exact hP.closure lambda f hv
  | int n | str s | bool b | host name id => trivial

/-- What a host function may make of frames in custody, with values in custody. -/
theorem reworks (hP : Custody hosts trusted P live) (hw : w.store.scene.Holding P live) {id : Nat}
    (hhost : (hosts id).Frugal live trusted) (hargs : ∀ v ∈ args, P v) :
    w.store.scene.Reworks live trusted args (hosts id args w).2.store.scene :=
  hhost.frames args w (hw.mono fun _ => hP.within) fun v hv => hP.within (hargs v hv)

/-- A host function is called. -/
theorem call (hP : Custody hosts trusted P live) (hw : w.store.scene.Holding P live) {id : Nat}
    (hhost : (hosts id).Frugal live trusted) (hargs : ∀ v ∈ args, P v) :
    (hosts id args w).2.store.scene.Holding P live ∧
      ∀ v, (hosts id args w).1 = .ok v → P v := by
  refine ⟨hw.reworks (hP.reworks hw hhost hargs) hP.plain hargs, fun v hv => ?_⟩
  rcases hhost.returns args w v hv with hdata | hmem
  · exact hP.plain v hdata.plain
  · exact hargs v hmem

theorem apply (hP : Custody hosts trusted P live) (hw : w.store.scene.Holding P live)
    (hcallee : P callee) (hargs : ∀ v ∈ args, P v) (hk : ∀ link ∈ k, link.Held P live) :
    Move.Guarded P live (Move.apply hosts convention w callee args k) := by
  cases callee with
  | int n | str s | bool b => exact hw
  | closure lambda f =>
    obtain ⟨hw', henv'⟩ := hP.enter hw (hP.closure _ _ hcallee) lambda.params hargs
    exact ⟨hw', henv', hk⟩
  | host name id =>
    have hhost := hP.host name id hcallee
    have hreturn : Move.Guarded P live
        (Move.ofResult k (hosts id args w).1, (hosts id args w).2) :=
      ofResult (hP.call hw hhost hargs).1 (hP.call hw hhost hargs).2 hk
    cases convention with
    | implicit => exact hreturn
    | explicit =>
      cases args with
      | nil => exact hreturn
      | cons continuation args =>
        obtain ⟨hcontinuation, hargs⟩ := List.forall_mem_cons.mp hargs
        have hcall := hP.call hw hhost hargs
        rw [Move.apply]
        obtain ⟨⟨r, w'⟩, hr⟩ : ∃ p, hosts id args w = p := ⟨_, rfl⟩
        rw [hr] at hcall ⊢
        cases r with
        | error e => exact hcall.1
        | ok v => exact ⟨hcall.1, hcontinuation, List.forall_mem_singleton.mpr (hcall.2 v rfl), hk⟩

theorem arguments (hP : Custody hosts trusted P live) (hw : w.store.scene.Holding P live)
    (hcallee : P callee) (hargs : ∀ v ∈ args, P v) (rest : List Code) (henv : live env)
    (hk : ∀ link ∈ k, link.Held P live) :
    Move.Guarded P live (Move.arguments hosts convention w callee args rest env k) := by
  cases rest with
  | nil => exact hP.apply hw hcallee hargs hk
  | cons t rest => exact ⟨hw, henv, List.forall_mem_cons.mpr ⟨⟨hcallee, hargs, henv⟩, hk⟩⟩

theorem evaluate (hP : Custody hosts trusted P live) (hw : w.store.scene.Holding P live)
    (henv : live env) (hk : ∀ link ∈ k, link.Held P live) (code : Code)
    (hmade : ∀ v, Task.Makes w (.evaluate code env k) v → P v) :
    Move.Guarded P live (Move.evaluate w code env k) := by
  have hlink {link : Link} (h : link.Held P live) : ∀ l ∈ link :: k, l.Held P live :=
    List.forall_mem_cons.mpr ⟨h, hk⟩
  cases code with
  | int n | str s | bool b => exact ⟨hw, hP.plain _ trivial, hk⟩
  | var x =>
    refine ofResult hw (fun v hv => ?_) hk
    unfold Store.get at hv
    cases hx : w.store.lookup? env x with
    | none =>
      rw [hx] at hv
      cases hv
    | some u =>
      rw [hx] at hv
      cases hv
      exact hw.lookup henv ((Store.scene_lookup _ _ _).trans hx)
  | assign target t =>
    cases target with
    | var x => exact ⟨hw, henv, hlink henv⟩
    | _ => exact hw
  | binary op left right => exact ⟨hw, henv, hlink henv⟩
  | negate t => exact ⟨hw, henv, hlink trivial⟩
  | seq items => exact sequence hw henv hP.absent hk items
  | call callee args => exact ⟨hw, henv, hlink henv⟩
  | conditional test consequent alternative? => exact ⟨hw, henv, hlink henv⟩
  | declare bindings body => exact hP.declare hw henv hk bindings body
  | function label name? params body =>
    cases name? with
    | none => exact ⟨hw, hmade _ ⟨label, none, params, body, env, k, w, rfl, rfl⟩, hk⟩
    | some x =>
      let lambda : Lambda := ⟨label, some x, params, body⟩
      have hv : P (.closure lambda w.store.scene.size) :=
        hmade _ ⟨label, some x, params, body, env, k, _, rfl, rfl⟩
      have hentered := (hw.push henv).set (f := w.store.scene.size) (x := x) hv
      rw [← Direct.enter_defineSelf (show lambda.name? = some x from rfl)] at hentered
      exact ⟨hentered, hv, hk⟩

theorem resume (hP : Custody hosts trusted P live) (hw : w.store.scene.Holding P live) {link : Link}
    (hlink : link.Held P live) (hk : ∀ link ∈ k, link.Held P live) (hv : P v) :
    Move.Guarded P live (Move.resume hosts convention w link k v) := by
  cases link with
  | assign x env =>
    rw [Move.resume]
    cases hx : w.store.resolve? env x with
    | none => exact hw
    | some f =>
      have hbound := Scene.isSome_of_resolve ((Store.scene_resolve _ _ _).trans hx)
      refine ⟨?_, hv, hk⟩
      rw [show _ = _ from Store.scene_define (Store.lt_of_isSome_slot hbound) x v]
      exact hw.set hv
  | right op right env => exact ⟨hw, hlink, List.forall_mem_cons.mpr ⟨hv, hk⟩⟩
  | operate op left =>
    refine ofResult hw (fun u hu => ?_) hk
    have hoperated := Value.operated_operateSymbol op left v
    rw [hu] at hoperated
    rcases hoperated with hdata | rfl | rfl
    · exact hP.plain u hdata.plain
    · exact hlink
    · exact hv
  | negate => exact ⟨hw, hP.plain _ trivial, hk⟩
  | branch consequent alternative? env =>
    unfold Move.resume
    dsimp only
    split
    · exact ⟨hw, hlink, hk⟩
    · cases alternative? with
      | none => exact ⟨hw, hP.absent, hk⟩
      | some alternative => exact ⟨hw, hlink, hk⟩
  | sequence rest env => exact sequence hw hlink hv hk rest
  | callee args env => exact hP.arguments hw hv (List.forall_mem_nil _) args hlink hk
  | argument callee done rest env =>
    obtain ⟨hcallee, hdone, henv⟩ := hlink
    refine hP.arguments hw hcallee ?_ rest henv hk
    exact List.forall_mem_append.mpr ⟨hdone, List.forall_mem_singleton.mpr hv⟩
  | define x rest body env =>
    obtain ⟨hw', henv'⟩ := hP.enter hw hlink [x] (List.forall_mem_singleton.mpr hv)
    exact hP.declare hw' henv' hk rest body

/-- **What is in custody stays in custody**, if the function that is made comes into it. -/
theorem perform (hP : Custody hosts trusted P live) (convention : Convention) {task : Task}
    (hw : w.store.scene.Holding P live) (htask : task.Held P live)
    (hmade : ∀ v, task.Makes w v → P v) :
    Move.Guarded P live (task.perform hosts convention w) := by
  cases task with
  | start code env => exact ⟨hw, htask, List.forall_mem_nil _⟩
  | evaluate code env k => exact hP.evaluate hw htask.1 htask.2 code hmade
  | resume k v =>
    cases k with
    | nil => exact ⟨hw, htask.1⟩
    | cons link k =>
      obtain ⟨hlink, hk⟩ := List.forall_mem_cons.mp htask.2
      exact hP.resume hw hlink hk htask.1
  | declare bindings body env k => exact hP.declare hw htask.1 htask.2 bindings body
  | apply callee args k => exact hP.apply hw htask.1 htask.2.1 htask.2.2

end Custody

end LetLambda
