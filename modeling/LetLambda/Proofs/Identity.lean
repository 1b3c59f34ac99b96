import LetLambda.Proofs.Custody
import LetLambda.Proofs.Marks
import Mathlib.Data.List.Nodup

/-!
# The identity of functions

Two functions of the language are the same if they come from the same literal in the same frame. In
a run that is as much as to say that they were made by the same evaluation of that literal, because
no literal is evaluated twice in one frame.

What is kept up is an account of literals and frames. A literal is due in a frame if it is part of
code that is still to be evaluated there (`Task.due`). No literal is due in a frame twice, or after
a function has been made of it there (`Ledger`): a term is taken apart when it is evaluated, and
code that is evaluated again, the body of a function, is evaluated in a new frame.
-/

namespace LetLambda

/-! ### Literals that are due -/

/-- A literal, by its number, in a frame. -/
abbrev Site := Nat × FrameId

/-- Literals in one frame. -/
def sites (f : FrameId) (marks : List Nat) : List Site := marks.map fun m => (m, f)

theorem sites_append (f : FrameId) (marks marks' : List Nat) :
    sites f (marks ++ marks') = sites f marks ++ sites f marks' := List.map_append

theorem nodup_of_sites {f : FrameId} {marks : List Nat} (h : (sites f marks).Nodup) :
    marks.Nodup := h.of_map

/-- The literals that are due when the value has come for which a link waits. -/
def Link.due : Link → List Site
  | assign .. | operate .. | negate => []
  | right _ t env => sites env t.marks
  | branch consequent none env => sites env consequent.marks
  | branch consequent (some alternative) env =>
    sites env (consequent.marks ++ alternative.marks)
  | sequence rest env | callee rest env | argument _ _ rest env => sites env (Term.marksAll rest)
  | define _ rest body env => sites env (Term.marksBindings rest ++ body.marks)

/-- The literals that are due after a value. -/
def Continuation.due (k : Continuation) : List Site := k.flatMap Link.due

/-- The literals that are due in a task and after it. -/
def Task.due : Task → List Site
  | start code env => sites env code.marks
  | evaluate code env k => sites env code.marks ++ k.due
  | resume k _ | apply _ _ k => k.due
  | declare bindings body env k => sites env (Term.marksBindings bindings ++ body.marks) ++ k.due

/-- The literals that are due after a task. -/
def Move.due (move : Move) : List Site := move.tasks.flatMap Task.due

theorem Continuation.due_cons (link : Link) (k : Continuation) :
    Continuation.due (link :: k) = link.due ++ k.due := List.flatMap_cons

/-- The literal of which a task makes a function, in the frame in which the function stands. -/
def Task.births (world : World) (task : Task) : List Site :=
  (task.made? world).toList.map fun p => (p.1.label, p.2)

theorem Task.nodup_body_of_made {w : World} {task : Task} (h : task.due.Nodup) {lambda : Lambda}
    {f : FrameId} (hmade : task.made? w = some (lambda, f)) : lambda.body.marks.Nodup := by
  obtain ⟨env, k, rfl, -⟩ := Task.exists_of_made hmade
  have hmarks : (lambda.label :: lambda.body.marks).Nodup :=
    nodup_of_sites (List.nodup_append.mp h).1
  exact (List.nodup_cons.mp hmarks).2

/-! ### The account of a step -/

/-- The entries of an account: none twice, and none in a frame that is not there. -/
structure Ledger (size : Nat) (entries : List Site) : Prop where
  nodup : entries.Nodup
  lt : ∀ p ∈ entries, p.2 < size

/-- How an account may change: entries are struck out, and entries come in that are in one new
frame. -/
inductive Renews (size size' : Nat) (before : List Site) : List Site → Prop
  | keep {after : List Site} (h : after.Sublist before) : Renews size size' before after
  | fresh {marks : List Nat} {f : FrameId} {rest : List Site} (hmarks : marks.Nodup)
      (hf : size ≤ f ∧ f < size') (h : rest.Sublist before) :
      Renews size size' before (sites f marks ++ rest)

theorem Renews.of_eq {size size' : Nat} {before after : List Site} (h : after = before) :
    Renews size size' before after := .keep (h ▸ List.Sublist.refl _)

theorem Ledger.renew {size size' : Nat} {keys before after : List Site}
    (h : Ledger size (keys ++ before)) (hr : Renews size size' before after)
    (hsize : size ≤ size') : Ledger size' (keys ++ after) := by
  cases hr with
  | keep hsub =>
    have hsub := hsub.append_left keys
    exact ⟨h.nodup.sublist hsub, fun p hp => Nat.lt_of_lt_of_le (h.lt p (hsub.subset hp)) hsize⟩
  | @fresh marks f rest hmarks hf hsub =>
    have hsub := hsub.append_left keys
    have hsites : ∀ p ∈ sites f marks, p.2 = f := by
      intro p hp
      obtain ⟨m, -, rfl⟩ := List.mem_map.mp hp
      rfl
    have hold : (keys ++ rest).Nodup := h.nodup.sublist hsub
    have hlt : ∀ p ∈ keys ++ rest, p.2 < size := fun p hp => h.lt p (hsub.subset hp)
    have hperm : (sites f marks ++ (keys ++ rest)).Perm (keys ++ (sites f marks ++ rest)) :=
      List.perm_append_comm_assoc _ _ _
    refine ⟨hperm.nodup_iff.mp (List.nodup_append'.mpr ⟨?_, hold, ?_⟩), fun p hp => ?_⟩
    · exact hmarks.map fun m m' hm => congrArg Prod.fst hm
    · intro p hp hp'
      exact Nat.not_lt.mpr hf.1 (hsites p hp ▸ hlt p hp')
    · rcases List.mem_append.mp (hperm.mem_iff.mpr hp) with hp | hp
      · rw [hsites p hp]
        exact hf.2
      · exact Nat.lt_of_lt_of_le (hlt p hp) hsize

namespace Move

variable {hosts : Hosts} {convention : Convention} {w : World} {env : FrameId} {k : Continuation}
  {v callee : Value} {args : List Value}

/-- Frames come in, and nothing else happens. -/
theorem grows_enter (w : World) (env : FrameId) (xs : List Name) (args : List Value) :
    w.store.scene.Grows (fun _ _ => True)
      ((w.store.extend env).2.defineAll (w.store.extend env).1 xs args).scene := by
  have hgrows := ((Scene.enters_push w.store.scene env).setAll xs args).grows fun _ _ => True
  rw [← Direct.enter_defineAll xs args] at hgrows
  exact hgrows

theorem grows_declare (w : World) (bindings : List (Binding Code)) (body : Code) (env : FrameId)
    (k : Continuation) :
    w.store.scene.Grows (fun _ _ => True) (declare w bindings body env k).2.store.scene := by
  cases bindings with
  | nil => exact .refl _ _
  | cons b rest =>
    obtain ⟨x, t?⟩ := b
    cases t? with
    | some t => exact .refl _ _
    | none => exact grows_enter w env [x] [.absent]

/-- A new frame is there. -/
theorem size_lt_enter (w : World) (env : FrameId) (xs : List Name) (args : List Value) :
    w.store.scene.size <
      ((w.store.extend env).2.defineAll (w.store.extend env).1 xs args).scene.size := by
  have hlt : w.store.scene.size <
      ((w.store.scene.push env).setAll w.store.scene.size xs args).size := by
    rw [Scene.setAll_size]
    exact Nat.lt_succ_self _
  rw [← Direct.enter_defineAll xs args] at hlt
  exact hlt

theorem due_call (task : Task) : (call task).due = task.due := List.append_nil _

theorem due_ofResult (r : Except EvalError Value) : (ofResult k r).due.Sublist k.due := by
  cases r with
  | error e => exact List.nil_sublist _
  | ok v => exact (due_call (.resume k v)).symm ▸ List.Sublist.refl _

theorem due_sequence (items : List Code) :
    (sequence env v k items).due = sites env (Term.marksAll items) ++ k.due := by
  cases items with
  | nil => exact due_call _
  | cons t rest =>
    cases rest with
    | nil => simp [sequence, due_call, Task.due, Term.marksAll]
    | cons u rest =>
      simp [sequence, due_call, Task.due, Term.marksAll, Continuation.due_cons, Link.due,
        sites_append]

/-- The bindings that are left are due in the frame of the last binding that has been made. -/
theorem due_declare (w : World) (bindings : List (Binding Code)) (body : Code) (env : FrameId)
    (k : Continuation) :
    ∃ f, (declare w bindings body env k).1.due =
        sites f (Term.marksBindings bindings ++ body.marks) ++ k.due ∧
      (f = env ∨
        w.store.scene.size ≤ f ∧ f < (declare w bindings body env k).2.store.scene.size) := by
  cases bindings with
  | nil => exact ⟨env, due_call _, .inl rfl⟩
  | cons b rest =>
    obtain ⟨x, t?⟩ := b
    cases t? with
    | some t =>
      refine ⟨env, (due_call _).trans ?_, .inl rfl⟩
      simp [Task.due, Term.marksBindings, Continuation.due_cons, Link.due, sites_append]
    | none =>
      exact ⟨w.store.scene.size, due_call _, .inr ⟨Nat.le_refl _, size_lt_enter w env [x] [.absent]⟩⟩

theorem renews_declare {bindings : List (Binding Code)} {body : Code}
    (h : (Term.marksBindings bindings ++ body.marks).Nodup) :
    Renews w.store.scene.size (declare w bindings body env k).2.store.scene.size
      (sites env (Term.marksBindings bindings ++ body.marks) ++ k.due)
      (declare w bindings body env k).1.due := by
  obtain ⟨f, hdue, hf⟩ := due_declare w bindings body env k
  rw [hdue]
  rcases hf with rfl | hf
  · exact .keep (List.Sublist.refl _)
  · exact .fresh h hf (List.sublist_append_right _ _)

/-- The body of a function is evaluated in a new frame. -/
theorem renews_apply (hbody : ∀ lambda f, callee = .closure lambda f → lambda.body.marks.Nodup) :
    Renews w.store.scene.size (apply hosts convention w callee args k).2.store.scene.size k.due
      (apply hosts convention w callee args k).1.due := by
  cases callee with
  | int n | str s | bool b => exact .keep (List.nil_sublist _)
  | closure lambda f =>
    have hdue : (apply hosts convention w (.closure lambda f) args k).1.due =
        sites w.store.scene.size lambda.body.marks ++ k.due := due_call _
    rw [hdue]
    exact .fresh (hbody lambda f rfl) ⟨Nat.le_refl _, size_lt_enter w f lambda.params args⟩
      (List.Sublist.refl _)
  | host name id =>
    cases convention with
    | implicit => exact .keep (due_ofResult _)
    | explicit =>
      cases args with
      | nil => exact .keep (due_ofResult _)
      | cons continuation args =>
        rw [apply]
        obtain ⟨⟨r, w'⟩, hr⟩ : ∃ p, hosts id args w = p := ⟨_, rfl⟩
        rw [hr]
        cases r with
        | error e => exact .keep (List.nil_sublist _)
        | ok v => exact .of_eq (due_call _)

theorem renews_arguments
    (hbody : ∀ lambda f, callee = .closure lambda f → lambda.body.marks.Nodup) (rest : List Code) :
    Renews w.store.scene.size
      (arguments hosts convention w callee args rest env k).2.store.scene.size
      (sites env (Term.marksAll rest) ++ k.due)
      (arguments hosts convention w callee args rest env k).1.due := by
  cases rest with
  | nil => exact renews_apply hbody
  | cons t rest =>
    refine .of_eq ((due_call _).trans ?_)
    simp [Task.due, Continuation.due_cons, Link.due, Term.marksAll, sites_append]

/-- A literal is struck out when a function is made of it. -/
theorem renews_evaluate {code : Code} (h : code.marks.Nodup) :
    Renews w.store.scene.size (evaluate w code env k).2.store.scene.size
      (sites env code.marks ++ k.due)
      (Task.births w (.evaluate code env k) ++ (evaluate w code env k).1.due) := by
  cases code with
  | int n | str s | bool b => exact .of_eq (due_call _)
  | var x => exact .keep (due_ofResult _)
  | assign target t =>
    cases target with
    | var x => exact .of_eq (due_call _)
    | _ => exact .keep (List.nil_sublist _)
  | negate t => exact .of_eq (due_call _)
  | binary op left right =>
    refine .of_eq ((due_call _).trans ?_)
    simp [Task.due, Term.marks, Continuation.due_cons, Link.due, sites_append]
  | seq items => exact .of_eq (due_sequence items)
  | call callee args =>
    refine .of_eq ((due_call _).trans ?_)
    simp [Task.due, Term.marks, Continuation.due_cons, Link.due, sites_append]
  | conditional test consequent alternative? =>
    refine .of_eq ((due_call _).trans ?_)
    cases alternative? <;>
      simp [Task.due, Term.marks, Continuation.due_cons, Link.due, sites_append]
  | declare bindings body => exact renews_declare h
  | function label name? params body =>
    cases name? with
    | none =>
      refine .keep (List.Sublist.cons_cons (label, env) ?_)
      rw [show (evaluate w (.function label none params body) env k).1.due = k.due from due_call _]
      exact List.sublist_append_right _ _
    | some x =>
      let lambda : Lambda := ⟨label, some x, params, body⟩
      have hscene : (evaluate w (.function label (some x) params body) env k).2.store.scene = _ :=
        Direct.enter_defineSelf (show lambda.name? = some x from rfl)
      have hmarks : [label].Nodup := List.nodup_singleton label
      refine .fresh hmarks ⟨Nat.le_refl _, ?_⟩ ?_
      · rw [hscene]
        exact Nat.lt_succ_self _
      · exact (due_call (.resume k _)).symm ▸ List.sublist_append_right _ _

theorem renews_resume {link : Link} (hlink : link.due.Nodup)
    (hbody : ∀ lambda f, (Value.closure lambda f ∈ v :: link.values) → lambda.body.marks.Nodup) :
    Renews w.store.scene.size (resume hosts convention w link k v).2.store.scene.size
      (link.due ++ k.due) (resume hosts convention w link k v).1.due := by
  cases link with
  | assign x env =>
    rw [resume]
    cases w.store.resolve? env x with
    | none => exact .keep (List.nil_sublist _)
    | some f => exact .of_eq (due_call _)
  | right op right env => exact .of_eq (due_call _)
  | operate op left => exact .keep (due_ofResult _)
  | negate => exact .of_eq (due_call _)
  | branch consequent alternative? env =>
    unfold resume
    dsimp only
    split
    · refine .keep ((due_call _).symm ▸ List.Sublist.append_right ?_ _)
      cases alternative? with
      | none => exact List.Sublist.refl _
      | some alternative =>
        rw [Link.due, sites_append]
        exact List.sublist_append_left _ _
    · cases alternative? with
      | none => exact .keep ((due_call _).symm ▸ List.sublist_append_right _ _)
      | some alternative =>
        refine .keep ((due_call _).symm ▸ List.Sublist.append_right ?_ _)
        rw [Link.due, sites_append]
        exact List.sublist_append_right _ _
  | sequence rest env => exact .of_eq (due_sequence rest)
  | callee args env =>
    exact renews_arguments (fun lambda f h => hbody lambda f (h ▸ List.mem_cons_self)) args
  | argument callee done rest env =>
    refine renews_arguments (fun lambda f h => hbody lambda f ?_) rest
    exact h ▸ List.mem_cons_of_mem _ List.mem_cons_self
  | define x rest body env =>
    let w₁ : World := (Direct.enter w env fun store frame => store.define frame x v).2
    have hsize : w₁.store.scene.size = w.store.scene.size + 1 :=
      congrArg Scene.size Direct.enter_define
    have hle := (grows_declare w₁ rest body w.store.scene.size k).size_le
    obtain ⟨f, hdue, hf⟩ := due_declare w₁ rest body w.store.scene.size k
    rw [show resume hosts convention w (.define x rest body env) k v =
      declare w₁ rest body w.store.scene.size k from rfl, hdue]
    refine .fresh (nodup_of_sites hlink) ?_ (List.sublist_append_right _ _)
    rw [hsize] at hf hle
    rcases hf with rfl | hf
    · exact ⟨Nat.le_refl _, hle⟩
    · exact ⟨Nat.le_of_succ_le hf.1, hf.2⟩

end Move

theorem Task.renews_perform (hosts : Hosts) (convention : Convention) (w : World) {task : Task}
    (hdue : task.due.Nodup)
    (hbody : ∀ lambda f, .closure lambda f ∈ task.values → lambda.body.marks.Nodup) :
    Renews w.store.scene.size (task.perform hosts convention w).2.store.scene.size task.due
      (task.births w ++ (task.perform hosts convention w).1.due) := by
  cases task with
  | start code env => exact .of_eq ((Move.due_call _).trans (List.append_nil _))
  | evaluate code env k => exact Move.renews_evaluate (nodup_of_sites (List.nodup_append.mp hdue).1)
  | resume k v =>
    cases k with
    | nil => exact .keep (List.nil_sublist _)
    | cons link k =>
      refine Move.renews_resume (List.nodup_append.mp hdue).1 fun lambda f h => hbody lambda f ?_
      rw [Task.values, List.flatMap_cons, ← List.cons_append]
      exact List.mem_append_left _ h
  | declare bindings body env k =>
    exact Move.renews_declare (nodup_of_sites (List.nodup_append.mp hdue).1)
  | apply callee args k =>
    exact Move.renews_apply fun lambda f h => hbody lambda f (h ▸ List.mem_cons_self)

/-! ### What a step does to the frames -/

/-- What a host function is given of the arguments: all, or all but the first, which says where to go
on. -/
def Convention.passed (convention : Convention) (args : List Value) : List Value :=
  match convention, args with
  | .explicit, _ :: args => args
  | _, args => args

theorem Convention.mem_of_mem_passed {convention : Convention} {args : List Value} {v : Value}
    (h : v ∈ convention.passed args) : v ∈ args := by
  cases convention with
  | implicit => exact h
  | explicit =>
    cases args with
    | nil => exact h
    | cons continuation args => exact List.mem_cons_of_mem continuation h

/-- The host function that is called in a task, and what it is given. -/
def Task.hostCall? (convention : Convention) : Task → Option (Nat × List Value)
  | apply (.host _ id) args _ => some (id, convention.passed args)
  | resume (.callee [] _ :: _) (.host _ id) => some (id, convention.passed [])
  | resume (.argument (.host _ id) done [] _ :: _) v => some (id, convention.passed (done ++ [v]))
  | _ => none

/-- A task has the host function that is called in it, and what this is given. -/
theorem Task.values_of_hostCall {convention : Convention} {task : Task} {id : Nat}
    {args : List Value} (h : task.hostCall? convention = some (id, args)) :
    (∃ name, .host name id ∈ task.values) ∧ ∀ v ∈ args, v ∈ task.values := by
  revert h
  fun_cases Task.hostCall? convention task
  · rintro ⟨⟩
    refine ⟨⟨_, List.mem_cons_self⟩, fun v hv => List.mem_cons_of_mem _ ?_⟩
    exact List.mem_append_left _ (Convention.mem_of_mem_passed hv)
  · rintro ⟨⟩
    refine ⟨⟨_, List.mem_cons_self⟩, fun v hv => ?_⟩
    cases Convention.mem_of_mem_passed hv
  · rintro ⟨⟩
    refine ⟨⟨_, List.mem_cons_of_mem _ List.mem_cons_self⟩, fun v hv => ?_⟩
    rcases List.mem_append.mp (Convention.mem_of_mem_passed hv) with hv | hv
    · simp [Task.values, Link.values, hv]
    · simp [Task.values, List.mem_singleton.mp hv]
  · rintro ⟨⟩

/-- What may happen to the frames in a task. -/
inductive Task.Effect (hosts : Hosts) (convention : Convention) (w w' : World) (task : Task) : Prop
  /-- Frames come in, and nothing else happens. -/
  | grows (h : w.store.scene.Grows (fun _ _ => True) w'.store.scene)
  /-- A name is assigned to. -/
  | assigns {x : Name} {env f : FrameId} {k : Continuation} {v : Value}
      (htask : task = .resume (.assign x env :: k) v) (hf : w.store.resolve? env x = some f)
      (h : w'.store.scene = w.store.scene.set f x v)
  /-- A host function is called. -/
  | host {id : Nat} {args : List Value} (hcall : task.hostCall? convention = some (id, args))
      (h : w' = (hosts id args w).2)

namespace Move

variable {hosts : Hosts} {convention : Convention} {w : World} {env : FrameId} {k : Continuation}
  {v callee : Value} {args : List Value}

theorem grows_apply_or (hosts : Hosts) (convention : Convention) (w : World) (callee : Value)
    (args : List Value) (k : Continuation) :
    w.store.scene.Grows (fun _ _ => True)
        (apply hosts convention w callee args k).2.store.scene ∨
      ∃ name id, callee = .host name id ∧
        (apply hosts convention w callee args k).2 = (hosts id (convention.passed args) w).2 := by
  cases callee with
  | int n | str s | bool b => exact .inl (.refl _ _)
  | closure lambda f => exact .inl (grows_enter w f lambda.params args)
  | host name id =>
    refine .inr ⟨name, id, rfl, ?_⟩
    cases convention with
    | implicit => rfl
    | explicit =>
      cases args with
      | nil => rfl
      | cons continuation args =>
        rw [apply, Convention.passed]
        obtain ⟨⟨r, w'⟩, hr⟩ : ∃ p, hosts id args w = p := ⟨_, rfl⟩
        rw [hr]
        cases r <;> rfl

theorem grows_evaluate (code : Code) :
    w.store.scene.Grows (fun _ _ => True) (evaluate w code env k).2.store.scene := by
  cases code with
  | assign target t => cases target <;> exact .refl _ _
  | declare bindings body => exact grows_declare w bindings body env k
  | function label name? params body =>
    cases name? with
    | none => exact .refl _ _
    | some x =>
      let lambda : Lambda := ⟨label, some x, params, body⟩
      have hgrows := ((Scene.enters_push w.store.scene env).set x
        (.closure lambda w.store.scene.size)).grows fun _ _ => True
      rw [← Direct.enter_defineSelf (show lambda.name? = some x from rfl)] at hgrows
      exact hgrows
  | _ => exact .refl _ _

theorem effect_resume (link : Link) :
    Task.Effect hosts convention w (resume hosts convention w link k v).2
      (.resume (link :: k) v) := by
  cases link with
  | assign x env =>
    rw [resume]
    cases hx : w.store.resolve? env x with
    | none => exact .grows (.refl _ _)
    | some f =>
      have hbound := Scene.isSome_of_resolve ((Store.scene_resolve _ _ _).trans hx)
      exact .assigns rfl hx (Store.scene_define (Store.lt_of_isSome_slot hbound) x v)
  | branch consequent alternative? env =>
    unfold resume
    dsimp only
    split
    · exact .grows (.refl _ _)
    · cases alternative? <;> exact .grows (.refl _ _)
  | callee args env =>
    cases args with
    | cons t rest => exact .grows (.refl _ _)
    | nil =>
      rcases grows_apply_or hosts convention w v [] k with hgrows | ⟨name, id, rfl, h⟩
      · exact .grows hgrows
      · exact .host rfl h
  | argument callee done rest env =>
    cases rest with
    | cons t rest => exact .grows (.refl _ _)
    | nil =>
      rcases grows_apply_or hosts convention w callee (done ++ [v]) k with hgrows | ⟨name, id, rfl, h⟩
      · exact .grows hgrows
      · exact .host rfl h
  | define x rest body env =>
    let w₁ : World := (Direct.enter w env fun store frame => store.define frame x v).2
    have hdeclare := grows_declare w₁ rest body w.store.scene.size k
    exact .grows ((grows_enter w env [x] [v]).trans hdeclare)
  | right op right env => exact .grows (.refl _ _)
  | operate op left => exact .grows (.refl _ _)
  | negate => exact .grows (.refl _ _)
  | sequence rest env => exact .grows (.refl _ _)

end Move

theorem Task.effect_perform (hosts : Hosts) (convention : Convention) (w : World) (task : Task) :
    Task.Effect hosts convention w (task.perform hosts convention w).2 task := by
  cases task with
  | start code env => exact .grows (.refl _ _)
  | evaluate code env k => exact .grows (Move.grows_evaluate code)
  | resume k v =>
    cases k with
    | nil => exact .grows (.refl _ _)
    | cons link k => exact Move.effect_resume link
  | declare bindings body env k => exact .grows (Move.grows_declare w bindings body env k)
  | apply callee args k =>
    rcases Move.grows_apply_or hosts convention w callee args k with hgrows | ⟨name, id, rfl, h⟩
    · exact .grows hgrows
    · exact .host rfl h

theorem Task.Effect.size_le {hosts : Hosts} {convention : Convention} {trusted : Nat → Prop}
    {P : Value → Prop} {live : FrameId → Prop} {w w' : World} {task : Task}
    (h : Task.Effect hosts convention w w' task) (hP : Custody hosts trusted P live)
    (hw : w.store.scene.Holding P live) (htask : task.Held P live) :
    w.store.scene.size ≤ w'.store.scene.size := by
  cases h with
  | grows h => exact h.size_le
  | assigns htask hf h => rw [h, Scene.set_size]
  | host hcall h =>
    obtain ⟨⟨name, hname⟩, hargs⟩ := Task.values_of_hostCall hcall
    have hhost := hP.host _ _ (htask.values _ hname)
    rw [h]
    exact (hP.reworks hw hhost fun v hv => htask.values v (hargs v hv)).keeps.size_le

/-! ### Functions that have been made -/

/-- The run is about to make the function `v`. -/
def Run.Makes (run : Run) (v : Value) : Prop :=
  ∃ task, run.control = .perform task ∧ task.Makes run.world v

/-- In the run from `start`, the function `v` is made by step `e`. -/
def Run.MadeAt (hosts : Hosts) (final : Value → Except EvalError Unit) (start : Run) (e : Nat)
    (v : Value) : Prop :=
  ∃ run, start.advance hosts final e = .running run ∧ run.Makes v

/-- The literal of which a function is made by the next step, and the frame in which the function
stands. -/
def Progress.made? : Progress → Option (Lambda × FrameId)
  | .running ⟨_, world, .perform task, _⟩ => task.made? world
  | .running ⟨_, _, .unwind _, _⟩ | .ended _ => none

theorem Run.madeAt_iff {hosts : Hosts} {final : Value → Except EvalError Unit} {start : Run}
    {e : Nat} {v : Value} : start.MadeAt hosts final e v ↔
      ∃ lambda f, (start.advance hosts final e).made? = some (lambda, f) ∧ v = .closure lambda f := by
  constructor
  · rintro ⟨⟨machine, world, control, seen⟩, hrun, task, rfl, hmakes⟩
    rw [hrun]
    exact Task.makes_iff.mp hmakes
  · rintro ⟨lambda, f, hmade, rfl⟩
    cases hrun : start.advance hosts final e with
    | ended ended =>
      rw [hrun] at hmade
      cases hmade
    | running run =>
      rw [hrun] at hmade
      obtain ⟨machine, world, control, seen⟩ := run
      cases control with
      | unwind result => cases hmade
      | perform task => exact ⟨_, hrun, task, rfl, Task.makes_iff.mpr ⟨lambda, f, hmade, rfl⟩⟩

/-- The run is about to assign to a name in a frame, or to call a host function that gives the name
another value there. -/
inductive Run.Assigns (hosts : Hosts) (run : Run) (f : FrameId) (x : Name) : Prop
  | assignment {env : FrameId} {k : Continuation} {v : Value}
      (control : run.control = .perform (.resume (.assign x env :: k) v))
      (bound : run.world.store.resolve? env x = some f)
  | host {task : Task} {id : Nat} {args : List Value} (control : run.control = .perform task)
      (called : task.hostCall? run.machine.convention = some (id, args))
      (slot : (hosts id args run.world).2.store.scene.slot f x ≠ run.world.store.scene.slot f x)

/-- A function that has been made, and when. -/
structure Birth where
  /-- The step that made it. -/
  step : Nat
  /-- The literal. -/
  lambda : Lambda
  /-- The frame in which it stands. -/
  frame : FrameId

namespace Birth

/-- The function. -/
def value (b : Birth) : Value := .closure b.lambda b.frame

/-- The literal by its number, in the frame of the function. -/
def site (b : Birth) : Site := (b.lambda.label, b.frame)

/-- The functions that have been made. -/
def Known (made : List Birth) (lambda : Lambda) (f : FrameId) : Prop :=
  ∃ b ∈ made, b.lambda = lambda ∧ b.frame = f

end Birth

section

variable (hosts : Hosts) (final : Value → Except EvalError Unit) (trusted : Nat → Prop)
  (live : FrameId → Prop)

/-- What is known at moment `n` of a run, of the functions that have been made. -/
structure Census (start : Run) (n : Nat) (run : Run) (made : List Birth) : Prop where
  sound : ∀ b ∈ made, b.step < n ∧ start.MadeAt hosts final b.step b.value
  complete : ∀ e < n, ∀ v, start.MadeAt hosts final e v → ∃ b ∈ made, b.step = e ∧ b.value = v
  bodies : ∀ b ∈ made, b.lambda.body.marks.Nodup
  ledger : Ledger run.world.store.scene.size
    (made.map Birth.site ++ run.tasks.flatMap Task.due)
  frames : run.world.store.scene.Holding (Value.Admitted trusted live (Birth.Known made)) live
  tasks : ∀ task ∈ run.tasks, task.Held (Value.Admitted trusted live (Birth.Known made)) live
  seen : ∀ v ∈ run.seen, v.Admitted trusted live (Birth.Known made)

end

namespace Census

variable {hosts : Hosts} {final : Value → Except EvalError Unit} {trusted : Nat → Prop}
  {live : FrameId → Prop} {start run next : Run} {n : Nat} {made : List Birth}

/-- The functions that a task makes, as births of step `n`. -/
def births (n : Nat) (world : World) (task : Task) : List Birth :=
  (task.made? world).toList.map fun p => ⟨n, p.1, p.2⟩

theorem mem_births {task : Task} {lambda : Lambda} {f : FrameId} {w : World}
    (h : task.made? w = some (lambda, f)) : ⟨n, lambda, f⟩ ∈ births n w task := by
  rw [births, h]
  exact List.mem_singleton_self _

theorem of_mem_births {task : Task} {w : World} {b : Birth} (h : b ∈ births n w task) :
    b.step = n ∧ task.made? w = some (b.lambda, b.frame) := by
  obtain ⟨p, hp, rfl⟩ := List.mem_map.mp h
  exact ⟨rfl, Option.mem_toList.mp hp⟩

theorem sites_births (n : Nat) (w : World) (task : Task) :
    (births n w task).map Birth.site = task.births w := List.map_map

/-- A performed task keeps the census, with the function that it makes. -/
theorem perform (h : Census hosts final trusted live start n run made)
    (hhosts : ∀ id, trusted id → (hosts id).Frugal live trusted)
    (hrun : start.advance hosts final n = .running run) {task : Task} {move : Move}
    (control : run.control = .perform task) (alone : run.tasks = [task])
    (hperform : task.perform hosts run.machine.convention run.world = (move, next.world))
    (tasks : next.tasks = move.tasks) (seen : next.seen = move.answers ++ run.seen) :
    Census hosts final trusted live start (n + 1) next (made ++ births n run.world task) := by
  have hheld := h.tasks task (alone ▸ List.mem_cons_self)
  have hledger := h.ledger
  rw [alone, List.flatMap_singleton] at hledger
  have hdue : task.due.Nodup := (List.nodup_append.mp hledger.nodup).2.1
  have hmono : ∀ v, Value.Admitted trusted live (Birth.Known made) v →
      Value.Admitted trusted live (Birth.Known (made ++ births n run.world task)) v :=
    Value.Admitted.mono fun lambda f ⟨b, hb, hlambda⟩ => ⟨b, List.mem_append_left _ hb, hlambda⟩
  have hguarded := (custody_admitted hhosts _).perform run.machine.convention
    (h.frames.mono hmono) (hheld.mono hmono) fun v hmakes => by
      obtain ⟨lambda, f, hmade, rfl⟩ := Task.makes_iff.mp hmakes
      exact ⟨hheld.live_of_made h.frames hmade,
        ⟨n, lambda, f⟩, List.mem_append_right _ (mem_births hmade), rfl, rfl⟩
  have hrenews := Task.renews_perform hosts run.machine.convention run.world hdue
    fun lambda f hmem => by
      obtain ⟨-, b, hb, rfl, -⟩ := hheld.values _ hmem
      exact h.bodies b hb
  have hsize := (Task.effect_perform hosts run.machine.convention run.world task).size_le
    (custody_admitted hhosts _) h.frames hheld
  rw [hperform] at hguarded hrenews hsize
  refine ⟨?_, ?_, ?_, ?_, hguarded.holding, ?_, ?_⟩
  · intro b hb
    rcases List.mem_append.mp hb with hb | hb
    · exact ⟨Nat.lt_succ_of_lt (h.sound b hb).1, (h.sound b hb).2⟩
    · obtain ⟨hstep, hmade⟩ := of_mem_births hb
      rw [hstep]
      exact ⟨Nat.lt_succ_self n, run, hrun, task, control, Task.makes_iff.mpr ⟨_, _, hmade, rfl⟩⟩
  · intro e he v hv
    rcases Nat.lt_or_eq_of_le (Nat.le_of_lt_succ he) with he | rfl
    · obtain ⟨b, hb, hstep, hvalue⟩ := h.complete e he v hv
      exact ⟨b, List.mem_append_left _ hb, hstep, hvalue⟩
    · obtain ⟨run', hrun', task', control', hmakes⟩ := hv
      rw [hrun] at hrun'
      cases hrun'
      rw [control] at control'
      cases control'
      obtain ⟨lambda, f, hmade, rfl⟩ := Task.makes_iff.mp hmakes
      exact ⟨⟨e, lambda, f⟩, List.mem_append_right _ (mem_births hmade), rfl, rfl⟩
  · intro b hb
    rcases List.mem_append.mp hb with hb | hb
    · exact h.bodies b hb
    · exact Task.nodup_body_of_made hdue (of_mem_births hb).2
  · rw [tasks, List.map_append, sites_births, List.append_assoc]
    exact hledger.renew hrenews hsize
  · rw [tasks]
    exact hguarded.held
  · rw [seen]
    exact List.forall_mem_append.mpr ⟨hguarded.answers, fun v hv => hmono v (h.seen v hv)⟩

/-- Taking up a task changes nothing. -/
theorem takeUp (h : Census hosts final trusted live start n run made)
    (hrun : start.advance hosts final n = .running run) {result : Except EvalError Unit}
    (control : run.control = .unwind result) (world : next.world = run.world)
    (tasks : next.tasks = run.tasks) (seen : next.seen = run.seen) :
    Census hosts final trusted live start (n + 1) next made := by
  refine ⟨fun b hb => ⟨Nat.lt_succ_of_lt (h.sound b hb).1, (h.sound b hb).2⟩, ?_, h.bodies,
    ?_, ?_, ?_, ?_⟩
  · intro e he v hv
    rcases Nat.lt_or_eq_of_le (Nat.le_of_lt_succ he) with he | rfl
    · exact h.complete e he v hv
    · obtain ⟨run', hrun', task', control', -⟩ := hv
      rw [hrun] at hrun'
      cases hrun'
      rw [control] at control'
      cases control'
  · rw [world, tasks]
    exact h.ledger
  · rw [world]
    exact h.frames
  · rw [tasks]
    exact h.tasks
  · rw [seen]
    exact h.seen

theorem eq_of_site (h : Census hosts final trusted live start n run made) {b b' : Birth}
    (hb : b ∈ made) (hb' : b' ∈ made) (hsite : b.site = b'.site) : b = b' :=
  List.inj_on_of_nodup_map (List.nodup_append.mp h.ledger.nodup).1 hb hb' hsite

end Census

namespace Run

variable {hosts : Hosts} {final : Value → Except EvalError Unit} {start : Run} {e : Nat}
  {u v : Value}

/-- A step makes one function. -/
theorem MadeAt.unique (hu : start.MadeAt hosts final e u) (hv : start.MadeAt hosts final e v) :
    u = v := by
  obtain ⟨lambda, f, hmade, rfl⟩ := madeAt_iff.mp hu
  obtain ⟨lambda', f', hmade', rfl⟩ := madeAt_iff.mp hv
  rw [hmade] at hmade'
  cases hmade'
  rfl

end Run

/-- Two functions that have been made are the same if they were made by the same step. -/
theorem Census.same_iff {hosts : Hosts} {final : Value → Except EvalError Unit}
    {trusted : Nat → Prop} {live : FrameId → Prop} {start run : Run} {n e e' : Nat}
    {made : List Birth} {u v : Value}
    (h : Census hosts final trusted live start n run made) (hu : start.MadeAt hosts final e u)
    (hv : start.MadeAt hosts final e' v) (he : e < n) (he' : e' < n) :
    u.same v = true ↔ e = e' := by
  obtain ⟨b, hb, rfl, rfl⟩ := h.complete e he u hu
  obtain ⟨b', hb', rfl, rfl⟩ := h.complete e' he' v hv
  have hsame : b.value.same b'.value = true ↔ b.site = b'.site := by
    simp [Birth.value, Birth.site, Value.same]
  rw [hsame]
  constructor
  · intro hsite
    rw [h.eq_of_site hb hb' hsite]
  · intro hstep
    have heq : b.value = b'.value := hu.unique (hstep ▸ hv)
    cases b
    cases b'
    cases heq
    rfl

/-- A function that has a name is bound to it in a frame of its own. -/
theorem Task.slot_of_made (hosts : Hosts) (convention : Convention) {w : World} {task : Task}
    {lambda : Lambda} {f : FrameId} {x : Name} (h : task.Makes w (.closure lambda f))
    (hname : lambda.name? = some x) :
    (task.perform hosts convention w).2.store.scene.slot f x = some (.closure lambda f) := by
  obtain ⟨label, name?, params, body, env, k, w', rfl, hv⟩ := h
  cases name? with
  | none =>
    cases hv
    cases hname
  | some y =>
    cases hv
    let lambda : Lambda := ⟨label, some y, params, body⟩
    have hslot : ((w.store.scene.push env).set w.store.scene.size x
        (.closure lambda w.store.scene.size)).slot w.store.scene.size x = _ := Scene.set_slot_self
    rw [← Direct.enter_defineSelf hname] at hslot
    exact hslot

/-- What a name is bound to stays, unless it is assigned to. -/
theorem Task.Effect.slot {hosts : Hosts} {convention : Convention} {w w' : World} {task : Task}
    (h : Task.Effect hosts convention w w' task) {f : FrameId} {x : Name} {v : Value}
    (hslot : w.store.scene.slot f x = some v)
    (hassigns : ∀ env k u, task = .resume (.assign x env :: k) u →
      w.store.resolve? env x ≠ some f)
    (hhosts : ∀ id args, task.hostCall? convention = some (id, args) →
      (hosts id args w).2.store.scene.slot f x = w.store.scene.slot f x) :
    w'.store.scene.slot f x = some v := by
  cases h with
  | grows h =>
    have hlt := Store.lt_of_isSome_slot (Option.isSome_iff_exists.mpr ⟨v, hslot⟩)
    exact (h.slot f hlt x trivial).trans hslot
  | @assigns y env g k u htask hg h =>
    rw [h, Scene.set_slot, if_neg, hslot]
    rintro ⟨rfl, rfl⟩
    exact hassigns env k u htask hg
  | @host id args hcall h => rw [h, hhosts id args hcall, hslot]

/-- A function reads itself under its name for as long as the name is not assigned to. -/
theorem Run.MadeAt.slot {hosts : Hosts} {final : Value → Except EvalError Unit} {start : Run}
    (htasks : start.tasks.length ≤ 1) {e : Nat} {lambda : Lambda} {f : FrameId} {x : Name}
    (h : start.MadeAt hosts final e (.closure lambda f)) (hname : lambda.name? = some x)
    {n : Nat} {run : Run} (hrun : start.advance hosts final n = .running run) (he : e < n)
    (hassigns : ∀ e' past, e < e' → e' < n → start.advance hosts final e' = .running past →
      ¬ past.Assigns hosts f x) :
    run.world.store.scene.slot f x = some (.closure lambda f) := by
  refine Run.always (P := fun n run => e < n → (∀ e' past, e < e' → e' < n →
    start.advance hosts final e' = .running past → ¬ past.Assigns hosts f x) →
      run.world.store.scene.slot f x = some (.closure lambda f)) htasks
    (fun he => absurd he (Nat.not_lt_zero e)) ?_ n hrun he hassigns
  intro n run next hrun _ ih hmoves he hassigns
  rcases Nat.lt_or_eq_of_le (Nat.le_of_lt_succ he) with he | rfl
  · have hslot := ih he fun e' past h h' => hassigns e' past h (Nat.lt_succ_of_lt h')
    cases hmoves with
    | @perform task move control alone perform tasks seen =>
      have heffect := Task.effect_perform hosts run.machine.convention run.world task
      rw [perform] at heffect
      have hnot := hassigns n run he (Nat.lt_succ_self n) hrun
      refine heffect.slot hslot (fun env k u htask hg => ?_) fun id args hcall => ?_
      · exact hnot (.assignment (htask ▸ control) hg)
      · by_contra hne
        exact hnot (.host control hcall hne)
    | takeUp control world tasks seen => rw [world, hslot]
  · -- the step that makes the function
    obtain ⟨run', hrun', task', hcontrol, hmakes⟩ := h
    rw [hrun] at hrun'
    cases hrun'
    cases hmoves with
    | @perform task move control alone perform tasks seen =>
      rw [control] at hcontrol
      cases hcontrol
      have hslot := Task.slot_of_made hosts run.machine.convention hmakes hname
      rwa [perform] at hslot
    | takeUp control world tasks seen =>
      rw [control] at hcontrol
      cases hcontrol

end LetLambda
