import LetLambda.Machine.Task
import LetLambda.Term.Printer
import LetLambda.Value.Operate

/-!
# What a task does

A term is evaluated with its parts from left to right; both operands of every operator are
evaluated, and the target of an assignment is looked at before its right side. Each binding of a
`let` has a frame of its own. A part that is left out counts as `false`.
-/

namespace LetLambda

namespace Move

/-- Goes on with a result, or fails. -/
def ofResult (k : Continuation) : Except EvalError Value → Move
  | .ok v => call (.resume k v)
  | .error e => fail e

/-- Evaluates the terms of a sequence, of which `last` is the value before. The last term is
evaluated with nothing left to do but `k`. -/
def sequence (env : FrameId) (last : Value) (k : Continuation) : List Code → Move
  | [] => call (.resume k last)
  | [t] => call (.evaluate t env k)
  | t :: rest => call (.evaluate t env (.sequence rest env :: k))

/-- Evaluates the bindings of a `let` and then its body, each binding in a new frame. -/
def declare (world : World) (bindings : List (Binding Code)) (body : Code) (env : FrameId)
    (k : Continuation) : Move × World :=
  match bindings with
  | [] => (call (.evaluate body env k), world)
  | ⟨x, some t⟩ :: rest => (call (.evaluate t env (.define x rest body env :: k)), world)
  | ⟨x, none⟩ :: rest =>
    let (frame, store) := world.store.extend env
    (call (.declare rest body frame k), { world with store := store.define frame x .absent })

/-- Applies a function to arguments. -/
def apply (hosts : Hosts) (convention : Convention) (world : World) (callee : Value)
    (args : List Value) (k : Continuation) : Move × World :=
  match callee with
  | .closure lambda env =>
    let (frame, store) := world.store.extend env
    (call (.evaluate lambda.body frame k),
      { world with store := store.defineAll frame lambda.params args })
  | .host _ id =>
    match convention, args with
    | .explicit, continuation :: args =>
      let (result, world) := hosts id args world
      match result with
      | .ok v => (call (.apply continuation [v] k), world)
      | .error e => (fail e, world)
    | _, args =>
      let (result, world) := hosts id args world
      (ofResult k result, world)
  | v => (fail (.cannotEvaluate v.text), world)

/-- Evaluates the arguments of a call that are still to be evaluated, then makes the call. -/
def arguments (hosts : Hosts) (convention : Convention) (world : World) (callee : Value)
    (done : List Value) (rest : List Code) (env : FrameId) (k : Continuation) : Move × World :=
  match rest with
  | [] => apply hosts convention world callee done k
  | t :: rest => (call (.evaluate t env (.argument callee done rest env :: k)), world)

/-- Makes a function of a literal. One that has a name sees itself under that name, in a frame
that holds nothing else. -/
def function (world : World) (lambda : Lambda) (env : FrameId) (k : Continuation) :
    Move × World :=
  match lambda.name? with
  | none => (call (.resume k (.closure lambda env)), world)
  | some _ =>
    let (frame, store) := world.store.extend env
    (call (.resume k (.closure lambda frame)),
      { world with store := store.defineSelf frame lambda })

/-- Evaluates a term. -/
def evaluate (world : World) (code : Code) (env : FrameId) (k : Continuation) : Move × World :=
  match code with
  | .int n => (call (.resume k (.int n)), world)
  | .str s => (call (.resume k (.str s)), world)
  | .bool b => (call (.resume k (.bool b)), world)
  | .var x => (ofResult k (world.store.get env x), world)
  | .assign (.var x) t => (call (.evaluate t env (.assign x env :: k)), world)
  | .assign target _ => (fail (.expectedVariable target.text), world)
  | .binary op left right => (call (.evaluate left env (.right op right env :: k)), world)
  | .negate t => (call (.evaluate t env (.negate :: k)), world)
  | .seq items => (sequence env .absent k items, world)
  | .call callee args => (call (.evaluate callee env (.callee args env :: k)), world)
  | .function label name? params body => function world ⟨label, name?, params, body⟩ env k
  | .conditional test consequent alternative? =>
    (call (.evaluate test env (.branch consequent alternative? env :: k)), world)
  | .declare bindings body => declare world bindings body env k

/-- Hands a value to a link. -/
def resume (hosts : Hosts) (convention : Convention) (world : World) (link : Link)
    (k : Continuation) (v : Value) : Move × World :=
  match link with
  | .assign x env =>
    match world.store.resolve? env x with
    | some frame => (call (.resume k v), { world with store := world.store.define frame x v })
    | none => (fail (.undefinedVariable x), world)
  | .right op right env => (call (.evaluate right env (.operate op v :: k)), world)
  | .operate op left => (ofResult k (Value.operateSymbol op left v), world)
  | .negate => (call (.resume k (.bool (!v.isTruthy))), world)
  | .branch consequent alternative? env =>
    if v.isTruthy then (call (.evaluate consequent env k), world)
    else match alternative? with
      | some alternative => (call (.evaluate alternative env k), world)
      | none => (call (.resume k .absent), world)
  | .sequence rest env => (sequence env v k rest, world)
  | .callee args env => arguments hosts convention world v [] args env k
  | .argument callee done rest env =>
    arguments hosts convention world callee (done ++ [v]) rest env k
  | .define x rest body env =>
    let (frame, store) := world.store.extend env
    declare { world with store := store.define frame x v } rest body frame k

end Move

/-- What a task does to the world, and how it ends. -/
def Task.perform (hosts : Hosts) (convention : Convention) (world : World) :
    Task → Move × World
  | start code env => (.call (.evaluate code env []), world)
  | evaluate code env k => Move.evaluate world code env k
  | resume [] v => (.answer v, world)
  | resume (link :: k) v => Move.resume hosts convention world link k v
  | declare bindings body env k => Move.declare world bindings body env k
  | apply callee args k => Move.apply hosts convention world callee args k

end LetLambda
