import LetLambda.Grammar.Progress
import LetLambda.ParseError

/-!
# Programs

A program is a sequence of expressions. `Tree.ofTokens` reads one from a list of tokens and says
where it stopped, `Tree.ofText` reads one from a text.
-/

namespace LetLambda

/-- The position of the first of the tokens `rest`; if there are none, that of the last of the
tokens `all`. -/
def positionAhead (all rest : List Token) : Position :=
  match rest with
  | t :: _ => t.position
  | [] => (all.getLast?.map Token.position).getD Position.origin

/-- The cause of a refusal: what was wanted, and what was found instead. -/
def Wanted.cause (wanted : Wanted) (found : Token.Kind) : ParseError.Cause :=
  match wanted with
  | punct mark => .expectedPunct mark found
  | keyword word => .expectedKeyword word found
  | operator symbol => .expectedOperator symbol found
  | name => .expectedName found
  | expression => .unexpected found

namespace Tree

/-- Reads a program from a list of tokens. With the program, or the fault, come the tokens from
the place on where the reading stopped. -/
def ofTokens (ts : List Token) : Except ParseError Tree × List Token :=
  match h : (Parser.program (Parser.depthBound ts)).run ts with
  | .ok items rest => (.ok (.seq items), rest)
  | .refused wanted rest =>
    (.error ⟨wanted.cause (Parser.kindAhead rest), positionAhead ts rest⟩, rest)
  | .starved => absurd h (Parser.program_run_ne_starved ts)

/-- Reads a program from a text. -/
def ofText (text : String) : Except ParseError Tree :=
  match Token.ofText text with
  | .ok tokens => (ofTokens tokens).1
  | .error e => .error (.ofLexError e)

end Tree

end LetLambda
