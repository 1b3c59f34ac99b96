import LetLambda.Token.Lexer

/-!
# What is wrong with a text

Why a text, or a list of tokens, is not a program, and where. A fault of the cutting into tokens
is a fault of the text as well, in words of its own.
-/

namespace LetLambda

/-- Why a text is not a program. -/
inductive ParseError.Cause where
  | unknownCharacter (found : String)
  | integerOutOfRange (digits : String)
  | expectedPunct (mark : Punct) (found : Token.Kind)
  | expectedKeyword (word : Keyword) (found : Token.Kind)
  | expectedOperator (symbol : String) (found : Token.Kind)
  | expectedName (found : Token.Kind)
  | unexpected (found : Token.Kind)
deriving DecidableEq, Repr

/-- Why a text is not a program, and where this is seen. -/
structure ParseError where
  /-- Why. -/
  cause : ParseError.Cause
  /-- Where. -/
  position : Position
deriving DecidableEq, Repr

namespace ParseError

/-- What is said of a cause. -/
def Cause.message : Cause → String
  | unknownCharacter found => "unknown character " ++ Text.quoted found
  | integerOutOfRange digits => "integer literal " ++ digits ++ " does not fit in 64 bits"
  | expectedPunct mark found =>
    "expected punctuation `" ++ String.singleton mark.char ++ "`, found " ++ found.text
  | expectedKeyword word found => "expected keyword `" ++ word.text ++ "`, found " ++ found.text
  | expectedOperator symbol found => "expected operator `" ++ symbol ++ "`, found " ++ found.text
  | expectedName found => "expected variable name, found " ++ found.text
  | unexpected found => "unexpected " ++ found.text

/-- What is said of a fault. -/
def message (e : ParseError) : String := e.cause.message ++ " at " ++ e.position.text

/-- A fault of the cutting into tokens, as a fault of the text. -/
def ofLexError : LexError → ParseError
  | .unknownCharacter found p => ⟨.unknownCharacter found, p⟩
  | .integerOutOfRange digits p => ⟨.integerOutOfRange digits, p⟩

end ParseError

end LetLambda
