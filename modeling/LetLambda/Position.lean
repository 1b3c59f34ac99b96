/-!
# Positions in a text

Places in a text are byte offsets of its UTF-8 form; people are told lines and columns. Lines
and columns count from one, a column counts bytes, and neither is ever reported above the
largest 32-bit word.
-/

namespace LetLambda

/-- A line and a column, both from one. -/
structure Position where
  /-- The line. -/
  line : Nat
  /-- The column, in bytes. -/
  column : Nat
deriving DecidableEq, Repr

namespace Position

/-- The first place of a text. -/
def origin : Position := ⟨1, 1⟩

/-- The largest line or column that is reported. -/
def limit : Nat := 4294967295

/-- A position as messages show it. -/
def text (p : Position) : String := toString p.line ++ ":" ++ toString p.column

end Position

/-- How many bytes characters take. -/
def byteSize (cs : List Char) : Nat := cs.foldr (fun c n => c.utf8Size + n) 0

/-- Where the lines of a text start. -/
structure LineIndex where
  /-- The byte offsets of the line starts, in increasing order. -/
  starts : List Nat
deriving Repr

namespace LineIndex

/-- The line starts after `offset` in a text of which `cs` is the part from `offset` on. -/
def startsAfter (offset : Nat) : List Char → List Nat
  | [] => []
  | c :: cs =>
    let next := offset + c.utf8Size
    if c = '\n' then next :: startsAfter next cs else startsAfter next cs

/-- The line starts of a text: its beginning, and the place after each newline. -/
def ofText (cs : List Char) : LineIndex := ⟨0 :: startsAfter 0 cs⟩

/-- The position of a byte offset, which may lie beyond the end of the text. -/
def position (index : LineIndex) (offset : Nat) : Position :=
  let begun := index.starts.takeWhile (· ≤ offset)
  { line := min begun.length Position.limit
    column := min (offset - begun.getLastD 0 + 1) Position.limit }

end LineIndex

end LetLambda
