import LetLambda.Machine.Perform

/-!
# Evaluation in direct style

The meaning of terms, told without tasks, continuations or a depth: evaluating a term in a frame
gives a value or an error and leaves a world, and what a term means is put together from what its
parts mean. An evaluation has fuel for as many levels as are nested in one another; nothing comes
out of one that runs out of it, and however much there is, nothing comes out of one that never ends.

Parts are evaluated from left to right, and the first error is the result of the whole. Both
operands of an operator are always evaluated. The target of an assignment is looked at before its
right side. Each binding of a `let` has a frame of its own inside the one before. A definition, an
argument or an alternative that is left out counts as `false`, and arguments beyond the parameters
are dropped. A function with a name is closed over a new frame that binds this name to it.
-/

namespace LetLambda.Direct

/-- What comes of an evaluation that ends: a value or an error, and the world after it. -/
abbrev Outcome (α : Type) := Except EvalError α × World

/-- A new frame inside `env`, filled by `fill`. -/
def enter (world : World) (env : FrameId) (fill : Store → FrameId → Store) : FrameId × World :=
  let (frame, store) := world.store.extend env
  (frame, { world with store := fill store frame })

/-- Makes a function of a literal. -/
def close (world : World) (lambda : Lambda) (env : FrameId) : Value × World :=
  match lambda.name? with
  | none => (.closure lambda env, world)
  | some _ =>
    let (frame, world) := enter world env fun store frame => store.defineSelf frame lambda
    (.closure lambda frame, world)

/-- Assigns to a name where it is bound nearest. -/
def assign (world : World) (env : FrameId) (x : Name) (v : Value) :
    Outcome Value :=
  match world.store.set? env x v with
  | some store => (.ok v, { world with store })
  | none => (.error (.undefinedVariable x), world)

variable (hosts : Hosts) (convention : Convention)

mutual

/-- Evaluates a term. -/
def evaluate : Nat → Code → FrameId → World → Option (Outcome Value)
  | 0, _, _, _ => none
  | _ + 1, .int n, _, world => some (.ok (.int n), world)
  | _ + 1, .str s, _, world => some (.ok (.str s), world)
  | _ + 1, .bool b, _, world => some (.ok (.bool b), world)
  | _ + 1, .var x, env, world => some (world.store.get env x, world)
  | fuel + 1, .assign (.var x) t, env, world => do
    match ← evaluate fuel t env world with
    | (.error e, world) => some (.error e, world)
    | (.ok v, world) => some (assign world env x v)
  | _ + 1, .assign target _, _, world => some (.error (.expectedVariable target.text), world)
  | fuel + 1, .binary op left right, env, world => do
    match ← evaluate fuel left env world with
    | (.error e, world) => some (.error e, world)
    | (.ok a, world) =>
      match ← evaluate fuel right env world with
      | (.error e, world) => some (.error e, world)
      | (.ok b, world) => some (Value.operateSymbol op a b, world)
  | fuel + 1, .negate t, env, world => do
    match ← evaluate fuel t env world with
    | (.error e, world) => some (.error e, world)
    | (.ok v, world) => some (.ok (.bool (!v.isTruthy)), world)
  | fuel + 1, .seq items, env, world => sequence fuel items .absent env world
  | fuel + 1, .call callee args, env, world => do
    match ← evaluate fuel callee env world with
    | (.error e, world) => some (.error e, world)
    | (.ok f, world) =>
      match ← arguments fuel args env world with
      | (.error e, world) => some (.error e, world)
      | (.ok vs, world) => apply fuel f vs world
  | _ + 1, .function label name? params body, env, world =>
    let (v, world) := close world ⟨label, name?, params, body⟩ env
    some (.ok v, world)
  | fuel + 1, .conditional test consequent alternative?, env, world => do
    match ← evaluate fuel test env world with
    | (.error e, world) => some (.error e, world)
    | (.ok v, world) =>
      if v.isTruthy then evaluate fuel consequent env world
      else match alternative? with
        | some alternative => evaluate fuel alternative env world
        | none => some (.ok .absent, world)
  | fuel + 1, .declare bindings body, env, world => declare fuel bindings body env world
termination_by structural fuel => fuel

/-- Evaluates the terms of a sequence, of which `last` is the value before. -/
def sequence : Nat → List Code → Value → FrameId → World → Option (Outcome Value)
  | 0, _, _, _, _ => none
  | _ + 1, [], last, _, world => some (.ok last, world)
  | fuel + 1, t :: ts, _, env, world => do
    match ← evaluate fuel t env world with
    | (.error e, world) => some (.error e, world)
    | (.ok v, world) => sequence fuel ts v env world
termination_by structural fuel => fuel

/-- Evaluates the arguments of a call. -/
def arguments : Nat → List Code → FrameId → World → Option (Outcome (List Value))
  | 0, _, _, _ => none
  | _ + 1, [], _, world => some (.ok [], world)
  | fuel + 1, t :: ts, env, world => do
    match ← evaluate fuel t env world with
    | (.error e, world) => some (.error e, world)
    | (.ok v, world) =>
      match ← arguments fuel ts env world with
      | (.error e, world) => some (.error e, world)
      | (.ok vs, world) => some (.ok (v :: vs), world)
termination_by structural fuel => fuel

/-- Evaluates the bindings of a `let` and then its body. -/
def declare : Nat → List (Binding Code) → Code → FrameId → World → Option (Outcome Value)
  | 0, _, _, _, _ => none
  | fuel + 1, [], body, env, world => evaluate fuel body env world
  | fuel + 1, ⟨x, none⟩ :: bindings, body, env, world =>
    let (frame, world) := enter world env fun store frame => store.define frame x .absent
    declare fuel bindings body frame world
  | fuel + 1, ⟨x, some t⟩ :: bindings, body, env, world => do
    match ← evaluate fuel t env world with
    | (.error e, world) => some (.error e, world)
    | (.ok v, world) =>
      let (frame, world) := enter world env fun store frame => store.define frame x v
      declare fuel bindings body frame world
termination_by structural fuel => fuel

/-- Applies a function to arguments. With an explicit convention a host function sees the
arguments after the first, and the first one is applied to its result. -/
def apply : Nat → Value → List Value → World → Option (Outcome Value)
  | 0, _, _, _ => none
  | fuel + 1, .closure lambda env, args, world =>
    let (frame, world) :=
      enter world env fun store frame => store.defineAll frame lambda.params args
    evaluate fuel lambda.body frame world
  | fuel + 1, .host _ id, args, world =>
    match convention, args with
    | .implicit, args => some (hosts id args world)
    | .explicit, [] => some (hosts id [] world)
    | .explicit, continuation :: args =>
      match hosts id args world with
      | (.error e, world) => some (.error e, world)
      | (.ok v, world) => apply fuel continuation [v] world
  | _ + 1, v, _, world => some (.error (.cannotEvaluate v.text), world)
termination_by structural fuel => fuel

end

/-- Evaluates a term unless it is malformed. -/
def run (fuel : Nat) (code : Code) (env : FrameId) (world : World) : Option (Outcome Value) :=
  match code.check with
  | .error fault => some (.error (.malformed fault), world)
  | .ok () => evaluate hosts convention fuel code env world

/-! ### One part after another

An error of the first part is the result of both. -/

section

variable {α β : Type} {x : Option (Outcome α)} {f : Outcome α → Option (Outcome β)}

theorem bind_cases {out : Outcome β} (h : x.bind f = some out)
    (herror : ∀ e world, f (.error e, world) = some (.error e, world)) :
    (∃ e world, x = some (.error e, world) ∧ out = (.error e, world)) ∨
      ∃ a world, x = some (.ok a, world) ∧ f (.ok a, world) = some out := by
  obtain ⟨⟨r, world⟩, hx, h⟩ := Option.bind_eq_some_iff.mp h
  cases r with
  | error e =>
    rw [herror] at h
    cases h
    exact .inl ⟨e, world, hx, rfl⟩
  | ok a => exact .inr ⟨a, world, hx, h⟩

theorem bind_ok {b : β} {world' : World} (h : x.bind f = some (.ok b, world'))
    (herror : ∀ e world, f (.error e, world) = some (.error e, world)) :
    ∃ a world, x = some (.ok a, world) ∧ f (.ok a, world) = some (.ok b, world') := by
  rcases bind_cases h herror with ⟨e, world, -, hout⟩ | hok
  · cases hout
  · exact hok

end

/-! ### Evaluations that go well

What the parts of a term gave, where something came of the whole that is no error. -/

section

variable {hosts convention} {fuel : Nat} {env : FrameId} {world world' : World} {v : Value}
  {t : Code} {ts : List Code}

theorem evaluate_var_ok {x : Name}
    (h : evaluate hosts convention (fuel + 1) (.var x) env world = some (.ok v, world')) :
    world.store.lookup? env x = some v ∧ world' = world := by
  rw [evaluate, Store.get] at h
  cases hx : world.store.lookup? env x with
  | none =>
    rw [hx] at h
    cases h
  | some a =>
    rw [hx] at h
    cases h
    exact ⟨rfl, rfl⟩

theorem evaluate_assign_ok {x : Name}
    (h : evaluate hosts convention (fuel + 1) (.assign (.var x) t) env world =
      some (.ok v, world')) :
    ∃ world₁ store, evaluate hosts convention fuel t env world = some (.ok v, world₁) ∧
      world₁.store.set? env x v = some store ∧ world' = { world₁ with store } := by
  obtain ⟨a, world₁, ht, h⟩ := bind_ok h fun _ _ => rfl
  simp only [assign] at h
  cases hs : world₁.store.set? env x a with
  | none =>
    rw [hs] at h
    cases h
  | some store =>
    rw [hs] at h
    cases h
    exact ⟨world₁, store, ht, hs, rfl⟩

theorem evaluate_negate_ok
    (h : evaluate hosts convention (fuel + 1) (.negate t) env world = some (.ok v, world')) :
    ∃ a, evaluate hosts convention fuel t env world = some (.ok a, world') ∧
      v = .bool (!a.isTruthy) := by
  obtain ⟨a, world₁, ht, h⟩ := bind_ok h fun _ _ => rfl
  cases h
  exact ⟨a, ht, rfl⟩

theorem evaluate_binary_ok {op : String} {left right : Code}
    (h : evaluate hosts convention (fuel + 1) (.binary op left right) env world =
      some (.ok v, world')) :
    ∃ a b world₁, evaluate hosts convention fuel left env world = some (.ok a, world₁) ∧
      evaluate hosts convention fuel right env world₁ = some (.ok b, world') ∧
      Value.operateSymbol op a b = .ok v := by
  obtain ⟨a, world₁, hl, h⟩ := bind_ok h fun _ _ => rfl
  obtain ⟨b, world₂, hr, h⟩ := bind_ok h fun _ _ => rfl
  obtain ⟨ho, rfl⟩ := Prod.mk.inj (Option.some.inj h)
  exact ⟨a, b, world₁, hl, hr, ho⟩

theorem evaluate_call_ok {callee : Code}
    (h : evaluate hosts convention (fuel + 1) (.call callee ts) env world =
      some (.ok v, world')) :
    ∃ f vs world₁ world₂, evaluate hosts convention fuel callee env world = some (.ok f, world₁) ∧
      arguments hosts convention fuel ts env world₁ = some (.ok vs, world₂) ∧
      apply hosts convention fuel f vs world₂ = some (.ok v, world') := by
  obtain ⟨f, world₁, hf, h⟩ := bind_ok h fun _ _ => rfl
  obtain ⟨vs, world₂, hvs, h⟩ := bind_ok h fun _ _ => rfl
  exact ⟨f, vs, world₁, world₂, hf, hvs, h⟩

theorem evaluate_conditional_ok {test consequent : Code} {alternative? : Option Code}
    (h : evaluate hosts convention (fuel + 1) (.conditional test consequent alternative?) env world =
      some (.ok v, world')) :
    ∃ a world₁, evaluate hosts convention fuel test env world = some (.ok a, world₁) ∧
      ((a.isTruthy = true ∧
          evaluate hosts convention fuel consequent env world₁ = some (.ok v, world')) ∨
        (a.isTruthy = false ∧ ∃ alternative, alternative? = some alternative ∧
          evaluate hosts convention fuel alternative env world₁ = some (.ok v, world')) ∨
        (a.isTruthy = false ∧ alternative? = none ∧ v = .absent ∧ world' = world₁)) := by
  obtain ⟨a, world₁, ht, h⟩ := bind_ok h fun _ _ => rfl
  refine ⟨a, world₁, ht, ?_⟩
  cases ha : a.isTruthy with
  | true =>
    simp only [ha, if_true] at h
    exact .inl ⟨rfl, h⟩
  | false =>
    simp only [ha, Bool.false_eq_true, if_false] at h
    cases alternative? with
    | some alternative => exact .inr (.inl ⟨rfl, alternative, rfl, h⟩)
    | none =>
      cases h
      exact .inr (.inr ⟨rfl, rfl, rfl, rfl⟩)

theorem sequence_cons_ok {last : Value}
    (h : sequence hosts convention (fuel + 1) (t :: ts) last env world = some (.ok v, world')) :
    ∃ a world₁, evaluate hosts convention fuel t env world = some (.ok a, world₁) ∧
      sequence hosts convention fuel ts a env world₁ = some (.ok v, world') := by
  exact bind_ok h fun _ _ => rfl

theorem arguments_cons_ok {vs : List Value}
    (h : arguments hosts convention (fuel + 1) (t :: ts) env world = some (.ok vs, world')) :
    ∃ a as world₁, evaluate hosts convention fuel t env world = some (.ok a, world₁) ∧
      arguments hosts convention fuel ts env world₁ = some (.ok as, world') ∧ vs = a :: as := by
  obtain ⟨a, world₁, ht, h⟩ := bind_ok h fun _ _ => rfl
  obtain ⟨as, world₂, hts, h⟩ := bind_ok h fun _ _ => rfl
  cases h
  exact ⟨a, as, world₁, ht, hts, rfl⟩

theorem declare_cons_ok {x : Name} {bindings : List (Binding Code)} {body : Code}
    (h : declare hosts convention (fuel + 1) (⟨x, some t⟩ :: bindings) body env world =
      some (.ok v, world')) :
    ∃ a world₁, evaluate hosts convention fuel t env world = some (.ok a, world₁) ∧
      declare hosts convention fuel bindings body
        (enter world₁ env fun store frame => store.define frame x a).1
        (enter world₁ env fun store frame => store.define frame x a).2 = some (.ok v, world') := by
  exact bind_ok h fun _ _ => rfl

end

end LetLambda.Direct
