import LetLambda.Name
import LetLambda.Position
import LetLambda.Text.Quoted

/-!
# Tokens

The words of a source text, with the place where each of them stands.
-/

namespace LetLambda

/-- The reserved words. -/
inductive Keyword where
  | «let» | «if» | «then» | «else» | lambda | true | false
deriving DecidableEq, Repr

namespace Keyword

/-- How a reserved word is written. -/
def text : Keyword → String
  | «let» => "let"
  | «if» => "if"
  | «then» => "then"
  | «else» => "else"
  | lambda => "lambda"
  | true => "true"
  | false => "false"

/-- The reserved word with this text, if it is one. -/
def ofText? : String → Option Keyword
  | "let" => some «let»
  | "if" => some «if»
  | "then" => some «then»
  | "else" => some «else»
  | "lambda" => some lambda
  | "true" => some true
  | "false" => some false
  | _ => none

end Keyword

/-- The punctuation marks. -/
inductive Punct where
  | leftParen | rightParen | leftBrace | rightBrace | comma | semicolon
deriving DecidableEq, Repr

namespace Punct

/-- How a mark is written. -/
def char : Punct → Char
  | leftParen => '('
  | rightParen => ')'
  | leftBrace => '\x7b'
  | rightBrace => '\x7d'
  | comma => ','
  | semicolon => ';'

/-- The mark that a character is, if it is one. -/
def ofChar? (c : Char) : Option Punct :=
  [leftParen, rightParen, leftBrace, rightBrace, comma, semicolon].find? (·.char == c)

end Punct

/-- What a token is. -/
inductive Token.Kind where
  | int (value : Int64)
  | str (value : String)
  | ident (name : Name)
  | keyword (word : Keyword)
  | punct (mark : Punct)
  | operator (symbol : String)
  | eof
deriving DecidableEq, Repr

/-- A token with the bytes it covers and the position where it starts. -/
structure Token where
  /-- What it is. -/
  kind : Token.Kind
  /-- The offset of its first byte. -/
  start : Nat
  /-- The offset after its last byte. -/
  stop : Nat
  /-- The position of its first byte. -/
  position : Position
deriving DecidableEq, Repr

/-- How a message speaks of a token. -/
def Token.Kind.text : Token.Kind → String
  | .int value => "integer " ++ toString value.toInt
  | .str value => "string " ++ Text.quoted value
  | .ident name => "identifier `" ++ name ++ "`"
  | .keyword word => "keyword `" ++ word.text ++ "`"
  | .punct mark => "`" ++ String.singleton mark.char ++ "`"
  | .operator symbol => "operator `" ++ symbol ++ "`"
  | .eof => "end of input"

end LetLambda
