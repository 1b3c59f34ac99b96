import LetLambda.Token

/-!
# Parsers of token lists

A parser takes the tokens ahead of it and either makes something of the first of them, leaving
the rest, or refuses the token it stands at, saying what it wanted there. Parsers that call each
other are given a bound on how deep they may go; running out of it is a reply of its own, which
is never mistaken for a refusal.
-/

namespace LetLambda

/-- What a parser wanted at the token it refused. -/
inductive Wanted where
  | punct (mark : Punct)
  | keyword (word : Keyword)
  | operator (symbol : String)
  | name
  | expression
deriving DecidableEq, Repr

/-- What a parser makes of the tokens ahead of it. -/
inductive Reply (α : Type) where
  /-- A result, and the tokens that are left. -/
  | ok (value : α) (rest : List Token)
  /-- The tokens from the refused one on, and what was wanted there. -/
  | refused (wanted : Wanted) (rest : List Token)
  /-- The bound on the depth was reached. -/
  | starved

/-- A parser. -/
structure Parser (α : Type) where
  /-- What the parser makes of the tokens ahead of it. -/
  run : List Token → Reply α

namespace Parser

variable {α β : Type}

instance : Monad Parser where
  pure a := ⟨fun ts => .ok a ts⟩
  bind p f := ⟨fun ts =>
    match p.run ts with
    | .ok a rest => (f a).run rest
    | .refused wanted rest => .refused wanted rest
    | .starved => .starved⟩

/-- Gives up for want of depth. -/
def starve : Parser α := ⟨fun _ => .starved⟩

/-- Refuses the token ahead. -/
def refuse (wanted : Wanted) : Parser α := ⟨fun ts => .refused wanted ts⟩

/-- The kind of the token ahead; after the last token, the end of input. -/
def kindAhead : List Token → Token.Kind
  | [] => .eof
  | t :: _ => t.kind

/-- Looks at the token ahead. -/
def peek : Parser Token.Kind := ⟨fun ts => .ok (kindAhead ts) ts⟩

/-- Passes over the token ahead. -/
def skip : Parser Unit := ⟨fun ts => .ok () ts.tail⟩

/-- Passes over a punctuation mark. -/
def punct (mark : Punct) : Parser Unit := do
  if (← peek) = .punct mark then skip else refuse (.punct mark)

/-- Passes over a reserved word. -/
def keyword (word : Keyword) : Parser Unit := do
  if (← peek) = .keyword word then skip else refuse (.keyword word)

/-- Takes a name. -/
def name : Parser Name := do
  match ← peek with
  | .ident x => do
    skip
    return x
  | _ => refuse .name

/-- The items of a list up to its closing mark or the end of input, where `first` says that no
separator is due. A separator may follow the last item. -/
def items (close separator : Punct) (item : Parser α) : Nat → Bool → Parser (List α)
  | 0, _ => starve
  | n + 1, first => do
    let ahead ← peek
    if ahead = .eof ∨ ahead = .punct close then return []
    else
      if first then pure () else punct separator
      if (← peek) = .punct close then return []
      else
        let x ← item
        let xs ← items close separator item n false
        return x :: xs

/-- A list of items between two marks, at most `n` of them. -/
def delimited (n : Nat) (opening close separator : Punct) (item : Parser α) :
    Parser (List α) := do
  punct opening
  let xs ← items close separator item n true
  punct close
  return xs

end Parser

end LetLambda
