import LetLambda.Term.Basic

/-!
# Numbered function literals

Two functions are the same only if they come from the same occurrence of a function literal. A
tree that is about to run has its literals numbered, from a given number on, so that every
occurrence has a number of its own.
-/

namespace LetLambda.Term

mutual

/-- Numbers the function literals of a tree, each before those inside it. -/
def label : Tree → StateM Nat Code
  | int n => return int n
  | str s => return str s
  | bool b => return bool b
  | var x => return var x
  | assign target value => return assign (← target.label) (← value.label)
  | binary op left right => return binary op (← left.label) (← right.label)
  | negate body => return negate (← body.label)
  | seq items => return seq (← labelAll items)
  | call callee args => return call (← callee.label) (← labelAll args)
  | function _ name? params body => do
    let number ← modifyGet fun n => (n, n + 1)
    return function number name? params (← body.label)
  | conditional test consequent none =>
    return conditional (← test.label) (← consequent.label) none
  | conditional test consequent (some alternative) =>
    return conditional (← test.label) (← consequent.label) (some (← alternative.label))
  | declare bindings body => return declare (← labelBindings bindings) (← body.label)
termination_by structural t => t

/-- Numbers the function literals of a list of trees. -/
def labelAll : List Tree → StateM Nat (List Code)
  | [] => return []
  | t :: ts => return (← t.label) :: (← labelAll ts)
termination_by structural ts => ts

/-- Numbers the function literals of a list of bindings. -/
def labelBindings : List (Binding Tree) → StateM Nat (List (Binding Code))
  | [] => return []
  | ⟨x, none⟩ :: bs => return ⟨x, none⟩ :: (← labelBindings bs)
  | ⟨x, some t⟩ :: bs => return ⟨x, some (← t.label)⟩ :: (← labelBindings bs)
termination_by structural bs => bs

end

end LetLambda.Term
