import LetLambda.Numeral
import LetLambda.Token

/-!
# From text to tokens

A text is cut into lexemes from left to right, each as long as can be. Blanks and comments are
left out; the first place where no token starts, or where an integer is too large, ends the
reading with an error.
-/

namespace LetLambda

/-- Why a text could not be cut into tokens, and where. -/
inductive LexError where
  | unknownCharacter (found : String) (position : Position)
  | integerOutOfRange (digits : String) (position : Position)
deriving DecidableEq, Repr

namespace LexError

/-- The position of the fault. -/
def position : LexError → Position
  | unknownCharacter _ p => p
  | integerOutOfRange _ p => p

/-- What is said of the fault. -/
def message : LexError → String
  | unknownCharacter found p => "unknown character " ++ Text.quoted found ++ " at " ++ p.text
  | integerOutOfRange digits p =>
    "integer literal " ++ digits ++ " out of range at " ++ p.text

end LexError

namespace Token

/-- What stands at the start of a text. -/
inductive Lexeme where
  /-- Blanks or a comment. -/
  | gap
  /-- A token. -/
  | token (kind : Kind)
  /-- An integer that does not fit in a word. -/
  | tooLarge
  /-- Nothing that starts a token. -/
  | unknown
deriving DecidableEq, Repr

/-- A character that separates tokens and is otherwise skipped. -/
def isGap (c : Char) : Bool :=
  c == ' ' || c == '\t' || c == '\r' || c == '\n' || c == '\x0c'

/-- The contents of a string, from after its opening quote on. -/
structure StringBody where
  /-- The characters that the string stands for. -/
  contents : List Char
  /-- How many characters were read, the closing quote not counted. -/
  length : Nat
  /-- Whether a closing quote follows. -/
  closed : Bool

/-- One more element, read from `width` characters, in front of a string body. -/
def StringBody.cons (c : Char) (width : Nat) (body : StringBody) : StringBody :=
  { body with contents := c :: body.contents, length := width + body.length }

/-- Reads the elements of a string as far as they go. An element is a character other than a
quote or a backslash, or a backslash with a character other than a newline, which then stands
for itself. -/
def stringBody : List Char → StringBody
  | [] => ⟨[], 0, false⟩
  | '"' :: _ => ⟨[], 0, true⟩
  | '\\' :: [] => ⟨[], 0, false⟩
  | '\\' :: c :: cs => if c = '\n' then ⟨[], 0, false⟩ else (stringBody cs).cons c 2
  | c :: cs => (stringBody cs).cons c 1

/-- The kind of a word: a reserved word if there is one, else a name. -/
def wordKind (word : List Char) : Kind :=
  let text := String.ofList word
  match Keyword.ofText? text with
  | some keyword => .keyword keyword
  | none => .ident text

/-- The operator that starts with `c` and goes on with `cs`, if there is one: an operator of two
characters is taken before one of a single character. -/
def operatorAt? (c : Char) (cs : List Char) : Option String :=
  let pairs := ["||", "&&", "==", "!=", "<=", ">="]
  let singles := ["=", "<", ">", "+", "-", "*", "/", "%", "!"]
  (pairs.find? (fun s => s.toList.isPrefixOf (c :: cs))).or
    (singles.find? (fun s => s.toList.isPrefixOf (c :: cs)))

/-- The lexeme that a text `c :: cs` starts with, and how many characters of `cs` belong to it
besides `c`. -/
def lexeme (c : Char) (cs : List Char) : Lexeme × Nat :=
  if isGap c then (.gap, 0)
  else if c = '#' then (.gap, (cs.takeWhile (· ≠ '\n')).length)
  else if Numeral.isDigit c then
    let digits := cs.takeWhile Numeral.isDigit
    match Numeral.word? (Numeral.value (c :: digits)) with
    | some n => (.token (.int n), digits.length)
    | none => (.tooLarge, digits.length)
  else if Name.isStart c then
    let rest := cs.takeWhile Name.isPart
    (.token (wordKind (c :: rest)), rest.length)
  else if c = 'λ' then (.token (.keyword .lambda), 0)
  else if c = '"' then
    let body := stringBody cs
    if body.closed then (.token (.str (String.ofList body.contents)), body.length + 1)
    else (.unknown, body.length)
  else match Punct.ofChar? c with
    | some mark => (.token (.punct mark), 0)
    | none => match operatorAt? c cs with
      | some symbol => (.token (.operator symbol), symbol.length - 1)
      | none => (.unknown, 0)

/-- The tokens from `offset` on, up to the end of input. Of the characters ahead the first
`pending` belong to the lexeme before `offset` and are passed over. -/
def scan (index : LineIndex) (offset : Nat) :
    (pending : Nat) → List Char → Except LexError (List Token)
  | _, [] => .ok [⟨.eof, offset, offset, index.position offset⟩]
  | pending + 1, _ :: cs => scan index offset pending cs
  | 0, c :: cs =>
    let (lexeme, length) := lexeme c cs
    let taken := c :: cs.take length
    let stop := offset + byteSize taken
    match lexeme with
    | .gap => scan index stop length cs
    | .token kind => do
      let tokens ← scan index stop length cs
      .ok (⟨kind, offset, stop, index.position offset⟩ :: tokens)
    | .tooLarge => .error (.integerOutOfRange (String.ofList taken) (index.position offset))
    | .unknown => .error (.unknownCharacter (String.ofList taken) (index.position offset))

theorem scan_eq_drop (index : LineIndex) (offset : Nat) :
    ∀ (pending : Nat) (cs : List Char),
      scan index offset pending cs = scan index offset 0 (cs.drop pending)
  | 0, _ => rfl
  | _ + 1, [] => rfl
  | pending + 1, _ :: cs => scan_eq_drop index offset pending cs

/-- The tokens of a text, the last of them being the end of input. -/
def ofText (text : String) : Except LexError (List Token) :=
  let cs := text.toList
  scan (LineIndex.ofText cs) 0 0 cs

end Token

end LetLambda
