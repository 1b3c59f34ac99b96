import LetLambda.Term.Basic

/-!
# Purity

Only assignments and calls change what can be seen, so a term is pure when evaluating it meets
neither. A function literal is pure whatever its body holds: making a function runs nothing.
-/

namespace LetLambda.Term

variable {ι : Type}

mutual

/-- Whether evaluating a term meets no assignment and no call. -/
def isPure : Term ι → Bool
  | int _ | str _ | bool _ | var _ | function .. => true
  | assign .. | call .. => false
  | binary _ left right => left.isPure && right.isPure
  | negate body => body.isPure
  | seq items => allPure items
  | conditional test consequent none => test.isPure && consequent.isPure
  | conditional test consequent (some alternative) =>
    test.isPure && consequent.isPure && alternative.isPure
  | declare bindings body => bindingsPure bindings && body.isPure
termination_by structural t => t

/-- Whether all terms of a list are pure. -/
def allPure : List (Term ι) → Bool
  | [] => true
  | t :: ts => t.isPure && allPure ts
termination_by structural ts => ts

/-- Whether all definitions of a list of bindings are pure. -/
def bindingsPure : List (Binding (Term ι)) → Bool
  | [] => true
  | ⟨_, none⟩ :: bs => bindingsPure bs
  | ⟨_, some t⟩ :: bs => t.isPure && bindingsPure bs
termination_by structural bs => bs

end

end LetLambda.Term
