import LetLambda.Cps.Symbols
import LetLambda.Term.Printer
import LetLambda.Term.Purity
import LetLambda.Term.Validity

/-!
# Continuation-passing form

A tree is transformed so that it says where every value goes next. In the result each function
takes what is to be done with its value as a first parameter, and each call gives that as a first
argument; `let` is gone, each binding being a function applied at once.

The transform of a term is given a continuation: a function from the term that stands for the
value of the first term to the rest of the result. It is a function of this library and not of
the language, and it decides where the value lands.
-/

namespace LetLambda

/-- Why a tree was not transformed. -/
inductive TransformError where
  /-- An assignment to something that is not a variable. -/
  | unsupported (assignment : Tree)
  /-- The tree holds an empty name. -/
  | malformed (fault : Malformed)
deriving DecidableEq

/-- What is said of it. -/
def TransformError.message : TransformError → String
  | unsupported assignment =>
    "cannot transform `" ++ assignment.text ++ "`: assignment target must be a variable"
  | malformed fault => fault.message

/-- A transform that draws names. The names that were drawn before it failed remain drawn. -/
abbrev Transform (α : Type) := ExceptT TransformError (StateM Symbols) α

/-- What becomes of the value of a term. -/
abbrev Transform.Cont := Tree → Transform Tree

namespace Transform

/-- Draws a name. -/
def fresh (stem : String) : Transform Name := modifyGet (Symbols.fresh stem)

/-- Hands the value to the function named `target`. -/
def jump (target : Name) : Cont := fun value => return .call (.var target) [value]

/-- A continuation as a function of the language. -/
def reify (k : Cont) : Transform Tree := do
  let param ← fresh "R"
  let body ← k (.var param)
  return .function () none [param] body

/-- A conditional whose two arms end by calling `join`, applied to what comes after them. -/
def branches (join : Name) (test consequent alternative rest : Tree) : Tree :=
  .call (.function () none [join] (.conditional test consequent (some alternative))) [rest]

mutual

/-- The transform of a term. -/
def cps : Tree → Cont → Transform Tree
  | .int n, k => k (.int n)
  | .str s, k => k (.str s)
  | .bool b, k => k (.bool b)
  | .var x, k => k (.var x)
  | .negate t, k => cps t fun v => k (.negate v)
  | .binary op left right, k =>
    cps left fun l => cps right fun r => k (.binary op l r)
  | .assign (.var x) t, k => cps t fun v => k (.assign (.var x) v)
  | .assign target t, _ => throw (.unsupported (.assign target t))
  | .declare bindings body, k => cpsBindings bindings (fun k => cps body k) k
  | .function _ name? params body, k => do
    let ret ← fresh "K"
    let body ← cps body (jump ret)
    k (.function () name? (ret :: params) body)
  | .conditional test consequent none, k =>
    cps test fun test => do
      let join ← fresh "I"
      let rest ← reify k
      let consequent ← cps consequent (jump join)
      let alternative ← jump join .absent
      return branches join test consequent alternative rest
  | .conditional test consequent (some alternative), k =>
    cps test fun test => do
      let join ← fresh "I"
      let rest ← reify k
      let consequent ← cps consequent (jump join)
      let alternative ← cps alternative (jump join)
      return branches join test consequent alternative rest
  | .seq items, k => cpsSequence items k
  | .call callee args, k =>
    cps callee fun f => do
      let ret ← reify k
      cpsArguments args f [ret]
termination_by structural t => t

/-- The transform of a sequence. A pure term that is not the last is dropped, before its
transform or after it. -/
def cpsSequence : List Tree → Cont → Transform Tree
  | [], k => k .absent
  | [t], k => cps t k
  | t :: u :: rest, k =>
    if t.isPure then cpsSequence (u :: rest) k
    else cps t fun v => do
      let rest ← cpsSequence (u :: rest) k
      return if v.isPure then rest else .seq [v, rest]
termination_by structural ts => ts

/-- The transform of the arguments that are still to come of a call of `callee`, after those in
`done`. -/
def cpsArguments : List Tree → Tree → List Tree → Transform Tree
  | [], callee, done => return .call callee done
  | t :: rest, callee, done => cps t fun v => cpsArguments rest callee (done ++ [v])
termination_by structural ts => ts

/-- The transform of bindings around a body: the first binding is a function of its name,
applied at once to its definition. -/
def cpsBindings :
    List (Binding Tree) → (Cont → Transform Tree) → Cont → Transform Tree
  | [], body, k => body k
  | ⟨x, none⟩ :: rest, body, k => do
    let ret ← fresh "K"
    let inner ← cpsBindings rest body (jump ret)
    let after ← reify k
    return .call (.function () none [ret, x] inner) [after, .absent]
  | ⟨x, some t⟩ :: rest, body, k => do
    let ret ← fresh "K"
    let inner ← cpsBindings rest body (jump ret)
    let after ← reify k
    cps t fun v => return .call (.function () none [ret, x] inner) [after, v]
termination_by structural bs => bs

end

/-- The transform of a well-formed tree, whose value goes to `k`. -/
def transform (t : Tree) (k : Tree → Tree) : Transform Tree :=
  match t.check with
  | .ok () => cps t fun v => return k v
  | .error fault => throw (.malformed fault)

end Transform

/-- The transform of a tree with the names of a supply, and the supply afterwards. -/
def Tree.transformWith (symbols : Symbols) (t : Tree) (k : Tree → Tree) :
    Except TransformError Tree × Symbols :=
  (Transform.transform t k).run.run symbols

/-- The continuation-passing form of a program, whose value is that of the program. -/
def Tree.transform (t : Tree) : Except TransformError Tree :=
  (t.transformWith .new id).1

end LetLambda
