import LetLambda.Console
import LetLambda.Store

/-!
# Tasks

The work of a run is cut into tasks. A task ends by calling for the next one, by giving the
final answer or by failing; what is left to do after a value has been found is kept as a
continuation, a list of links that each wait for a value.
-/

namespace LetLambda

/-- What a run can see and change: the frames and the console. -/
structure World where
  /-- The frames. -/
  store : Store
  /-- The console. -/
  console : Console

/-- A function supplied from outside: what it makes of its arguments, and what it does to the
world. -/
abbrev HostFunction := List Value → World → Except EvalError Value × World

/-- The host functions, by their numbers. -/
abbrev Hosts := Nat → HostFunction

/-- How functions are told where to go on. -/
inductive Convention where
  /-- Not at all: a host function sees the arguments of the call. -/
  | implicit
  /-- By the first argument of every call: a host function sees the others, and the first one is
  applied to its result. -/
  | explicit
deriving DecidableEq, Repr

/-- One link of a continuation: what to do with the value that it waits for. -/
inductive Link where
  /-- Assign it to a name. -/
  | assign (x : Name) (env : FrameId)
  /-- It is a left operand: evaluate the right one. -/
  | right (operator : String) (right : Code) (env : FrameId)
  /-- It is a right operand: apply the operator. -/
  | operate (operator : String) (left : Value)
  /-- Negate it. -/
  | negate
  /-- It is a test: choose. -/
  | branch (consequent : Code) (alternative? : Option Code) (env : FrameId)
  /-- Drop it and go on with a sequence. -/
  | sequence (rest : List Code) (env : FrameId)
  /-- It is a function: evaluate the arguments. -/
  | callee (args : List Code) (env : FrameId)
  /-- It is an argument: evaluate the arguments after it. -/
  | argument (callee : Value) (done : List Value) (rest : List Code) (env : FrameId)
  /-- It is a definition: bind it to a name and go on with the bindings. -/
  | define (x : Name) (rest : List (Binding Code)) (body : Code) (env : FrameId)

/-- What is left to do, the next link first. After the last link the value is the answer. -/
abbrev Continuation := List Link

/-- A piece of work. -/
inductive Task where
  /-- Begin a run. -/
  | start (code : Code) (env : FrameId)
  /-- Evaluate a term. -/
  | evaluate (code : Code) (env : FrameId) (k : Continuation)
  /-- Hand a value on. -/
  | resume (k : Continuation) (v : Value)
  /-- Go on with the bindings of a `let` after one that had no definition. -/
  | declare (bindings : List (Binding Code)) (body : Code) (env : FrameId) (k : Continuation)
  /-- Apply a function to the result of a host function. -/
  | apply (callee : Value) (args : List Value) (k : Continuation)

/-- How a task ends. -/
inductive Move where
  /-- It calls for a task. -/
  | call (task : Task)
  /-- It gives the answer of the run. -/
  | answer (v : Value)
  /-- It fails. -/
  | fail (e : EvalError)

end LetLambda
