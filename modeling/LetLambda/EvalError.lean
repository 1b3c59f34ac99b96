import LetLambda.Term.Validity

/-!
# What goes wrong in a run

Every error ends the run in which it arises.
-/

namespace LetLambda

/-- What an arithmetic operator computes. -/
inductive Arithmetic where
  | addition | subtraction | multiplication | division | remainder
deriving DecidableEq, Repr

/-- The word for an arithmetic operation. -/
def Arithmetic.text : Arithmetic → String
  | addition => "addition"
  | subtraction => "subtraction"
  | multiplication => "multiplication"
  | division => "division"
  | remainder => "remainder"

/-- Why a run failed. Terms and values are kept as the texts that show them. -/
inductive EvalError where
  | undefinedVariable (name : Name)
  | expectedVariable (found : String)
  | cannotEvaluate (found : String)
  | notANumber (found : String)
  | zeroDivision
  | unknownOperator (symbol : String)
  | integerOverflow (operation : Arithmetic)
  | malformed (fault : Malformed)
deriving DecidableEq, Repr

/-- What is said of an error. -/
def EvalError.message : EvalError → String
  | undefinedVariable name => "undefined variable: " ++ name
  | expectedVariable found => "cannot assign to " ++ found ++ ": expected a variable"
  | cannotEvaluate found => "cannot evaluate call of " ++ found
  | notANumber found => "expected integer in lieu of: " ++ found
  | zeroDivision => "cannot evaluate zero-division"
  | unknownOperator symbol => "unknown operator: " ++ symbol
  | integerOverflow operation => "integer overflow in " ++ operation.text
  | malformed fault => fault.message

end LetLambda
