import LetLambda.Position
import Mathlib.Data.List.Induction
import Mathlib.Data.Nat.Init

/-!
# Lines and columns are exact

A place in a text is a byte offset, and people are told its line and its column. What these should
be is said here of the bytes alone: the line is one more than the number of newlines before the
place, and the column is one more than the way from where that line begins (`Position.ofBytes`). The
line index knows nothing but where lines begin, and it gives these very numbers as long as they can
be reported (`LineIndex.position_exact`); so no two places get one position, and places are in the
order of their positions.

A place may lie anywhere: in the middle of a character, at the end of the text or beyond it. That
the characters of a text and its bytes have the same newlines is a property of the encoding
(`newlineByte_mem_encoded`).
-/

namespace LetLambda

/-! ### What the bytes say -/

/-- The byte that ends a line. -/
def newlineByte : UInt8 := 10

/-- The bytes of a text. -/
def textBytes (text : String) : List UInt8 := text.toByteArray.data.toList

/-- Where the line of a place begins: after the last newline before the place, or where the text
begins. -/
def lineBegin (bytes : List UInt8) : Nat → Nat
  | 0 => 0
  | offset + 1 => if bytes[offset]? = some newlineByte then offset + 1 else lineBegin bytes offset

namespace Position

/-- The line and the column of a place, as they should be. -/
def ofBytes (bytes : List UInt8) (offset : Nat) : Position where
  line := 1 + (bytes.take offset).count newlineByte
  column := 1 + (offset - lineBegin bytes offset)

/-- The line and the column are small enough to be reported. -/
def Reportable (p : Position) : Prop := p.line ≤ limit ∧ p.column ≤ limit

/-- The order of positions: by line, and within a line by column. -/
def Precedes (p q : Position) : Prop := p.line < q.line ∨ p.line = q.line ∧ p.column < q.column

instance (p : Position) : Decidable p.Reportable := inferInstanceAs (Decidable (_ ∧ _))

theorem Precedes.ne {p q : Position} (h : p.Precedes q) : p ≠ q := by
  rintro rfl
  rcases h with h | ⟨-, h⟩ <;> exact Nat.lt_irrefl _ h

end Position

section Bytes

variable {bytes : List UInt8}

theorem lineBegin_le (bytes : List UInt8) (offset : Nat) : lineBegin bytes offset ≤ offset := by
  induction offset with
  | zero => exact Nat.le_refl 0
  | succ offset ih =>
    rw [lineBegin]
    split
    · exact Nat.le_refl _
    · exact Nat.le_succ_of_le ih

theorem count_take_succ (offset : Nat) :
    (bytes.take (offset + 1)).count newlineByte =
      (bytes.take offset).count newlineByte +
        if bytes[offset]? = some newlineByte then 1 else 0 := by
  rw [List.take_add_one, List.count_append]
  cases bytes[offset]? with
  | none => simp
  | some b => simp [List.count_singleton]

/-- From one place to a later one, either a line has begun or both are on the same line. -/
theorem line_lt_or_lineBegin_eq {a b : Nat} (h : a ≤ b) :
    (bytes.take a).count newlineByte < (bytes.take b).count newlineByte ∨
      (bytes.take a).count newlineByte = (bytes.take b).count newlineByte ∧
        lineBegin bytes a = lineBegin bytes b := by
  induction b, h using Nat.le_induction with
  | base => exact .inr ⟨rfl, rfl⟩
  | succ b _ ih =>
    rw [count_take_succ, lineBegin]
    split
    · omega
    · simpa using ih

/-- **Places are in the order of their positions.** -/
theorem Position.ofBytes_precedes {a b : Nat} (h : a < b) :
    (ofBytes bytes a).Precedes (ofBytes bytes b) := by
  rcases line_lt_or_lineBegin_eq (Nat.le_of_lt h) with hline | ⟨hline, hbegin⟩
  · exact .inl (Nat.add_lt_add_left hline 1)
  · have hle := lineBegin_le bytes a
    refine .inr ⟨congrArg (1 + ·) hline, ?_⟩
    simp only [ofBytes, ← hbegin]
    omega

end Bytes

/-! ### Bytes and characters -/

/-- A newline is one byte, and no byte of another character is that byte. -/
theorem newlineByte_mem_encoded {c : Char} : newlineByte ∈ String.utf8EncodeChar c ↔ c = '\n' := by
  -- the bytes of a code of two bytes or more are 128 or more
  have hlarge {n : Nat} (hn : 128 ≤ n) (hn' : n < 256) : newlineByte ≠ UInt8.ofNat n := by
    intro heq
    have htoNat : 10 = (UInt8.ofNat n).toNat := congrArg UInt8.toNat heq
    rw [UInt8.toNat_ofNat_of_lt' hn'] at htoNat
    omega
  constructor
  · intro h
    unfold String.utf8EncodeChar at h
    dsimp only at h
    split at h
    · next hsmall =>
      have htoNat : 10 = (UInt8.ofNat c.val.toNat).toNat :=
        congrArg UInt8.toNat (List.mem_singleton.mp h)
      rw [UInt8.toNat_ofNat_of_lt' (Nat.lt_of_le_of_lt hsmall (by decide))] at htoNat
      exact Char.ext (UInt32.toNat_inj.mp htoNat.symm)
    · split at h
      · simp only [List.mem_cons, List.not_mem_nil, or_false] at h
        rcases h with h | h <;> exact absurd h (hlarge (by omega) (by omega))
      · split at h <;> simp only [List.mem_cons, List.not_mem_nil, or_false] at h
        · rcases h with h | h | h <;> exact absurd h (hlarge (by omega) (by omega))
        · rcases h with h | h | h | h <;> exact absurd h (hlarge (by omega) (by omega))
  · rintro rfl
    decide

theorem textBytes_eq (text : String) :
    textBytes text = text.toList.flatMap String.utf8EncodeChar := by
  rw [textBytes, ← String.utf8Encode_toList, List.utf8Encode, List.toList_data_toByteArray]

/-- The line starts after `offset` in a text of which `bytes` is the part from `offset` on. -/
def byteStarts (offset : Nat) : List UInt8 → List Nat
  | [] => []
  | b :: bytes =>
    if b = newlineByte then (offset + 1) :: byteStarts (offset + 1) bytes
    else byteStarts (offset + 1) bytes

theorem byteStarts_append (offset : Nat) (bytes bytes' : List UInt8) :
    byteStarts offset (bytes ++ bytes') =
      byteStarts offset bytes ++ byteStarts (offset + bytes.length) bytes' := by
  induction bytes generalizing offset with
  | nil => rfl
  | cons b bytes ih =>
    have hlength : offset + (b :: bytes).length = offset + 1 + bytes.length := by
      rw [List.length_cons]
      omega
    rw [List.cons_append, byteStarts, byteStarts, ih, hlength]
    split <;> rfl

theorem byteStarts_of_notMem {bytes : List UInt8} (h : newlineByte ∉ bytes) (offset : Nat) :
    byteStarts offset bytes = [] := by
  induction bytes generalizing offset with
  | nil => rfl
  | cons b bytes ih =>
    rw [List.mem_cons, not_or] at h
    rw [byteStarts, if_neg (Ne.symm h.1), ih h.2]

/-- Lines begin at the same places in the characters of a text and in its bytes. -/
theorem startsAfter_eq_byteStarts (offset : Nat) (cs : List Char) :
    LineIndex.startsAfter offset cs = byteStarts offset (cs.flatMap String.utf8EncodeChar) := by
  induction cs generalizing offset with
  | nil => rfl
  | cons c cs ih =>
    rw [LineIndex.startsAfter, List.flatMap_cons, byteStarts_append,
      String.length_utf8EncodeChar, ih]
    by_cases hc : c = '\n'
    · subst hc
      rfl
    · rw [byteStarts_of_notMem (mt newlineByte_mem_encoded.mp hc), List.nil_append, if_neg hc]

theorem bounds_of_mem_byteStarts {offset s : Nat} {bytes : List UInt8}
    (h : s ∈ byteStarts offset bytes) : offset < s ∧ s ≤ offset + bytes.length := by
  induction bytes generalizing offset with
  | nil => cases h
  | cons b bytes ih =>
    rw [List.length_cons]
    have hcases : s = offset + 1 ∨ s ∈ byteStarts (offset + 1) bytes := by
      rw [byteStarts] at h
      split at h
      · exact List.mem_cons.mp h
      · exact .inr h
    rcases hcases with rfl | h
    · omega
    · have := ih h
      omega

theorem length_byteStarts (offset : Nat) (bytes : List UInt8) :
    (byteStarts offset bytes).length = bytes.count newlineByte := by
  induction bytes generalizing offset with
  | nil => rfl
  | cons b bytes ih =>
    rw [byteStarts, List.count_cons]
    split
    · next hb => simp [hb, ih]
    · next hb => simp [hb, ih]

/-- Line starts are found in increasing order. -/
theorem pairwise_byteStarts (offset : Nat) (bytes : List UInt8) :
    (byteStarts offset bytes).Pairwise (· < ·) := by
  induction bytes generalizing offset with
  | nil => exact .nil
  | cons b bytes ih =>
    rw [byteStarts]
    split
    · exact .cons (fun s hs => (bounds_of_mem_byteStarts hs).1) (ih _)
    · exact ih _

/-- The lines that begin up to a place are those that begin in the bytes before it. -/
theorem takeWhile_byteStarts (bytes : List UInt8) (offset : Nat) :
    (byteStarts 0 bytes).takeWhile (· ≤ offset) = byteStarts 0 (bytes.take offset) := by
  have hbefore : ∀ s ∈ byteStarts 0 (bytes.take offset), decide (s ≤ offset) = true := by
    intro s hs
    have hle := (bounds_of_mem_byteStarts hs).2
    rw [List.length_take] at hle
    exact decide_eq_true (by omega)
  have hafter : (byteStarts (0 + (bytes.take offset).length) (bytes.drop offset)).takeWhile
      (· ≤ offset) = [] := by
    cases hstarts : byteStarts (0 + (bytes.take offset).length) (bytes.drop offset) with
    | nil => rfl
    | cons s starts =>
      have hs := bounds_of_mem_byteStarts (hstarts ▸ List.mem_cons_self)
      rw [List.length_take, List.length_drop] at hs
      exact List.takeWhile_cons_of_neg (by simp; omega)
  conv_lhs => rw [← List.take_append_drop offset bytes, byteStarts_append]
  rw [List.takeWhile_append_of_pos hbefore, hafter, List.append_nil]

/-- The last of these lines is the one that the place is on. -/
theorem getLastD_byteStarts (bytes : List UInt8) (offset : Nat) :
    (byteStarts 0 (bytes.take offset)).getLastD 0 = lineBegin bytes offset := by
  induction offset with
  | zero => rfl
  | succ offset ih =>
    rw [List.take_add_one, byteStarts_append, lineBegin]
    cases hb : bytes[offset]? with
    | none => simpa [byteStarts] using ih
    | some b =>
      have hlength : (bytes.take offset).length = offset :=
        List.length_take_of_le (Nat.le_of_lt (List.getElem?_eq_some_iff.mp hb).1)
      by_cases hnewline : b = newlineByte
      · simp [byteStarts, hnewline, hlength]
      · simpa [byteStarts, hnewline] using ih

/-! ### The search by halving -/

/-- Searches the place where `p` ceases to hold by halving, among the `size` elements of `xs` from
`base` on. A look beyond the end of the list gives nothing. -/
def bisect? (p : Nat → Bool) (xs : List Nat) (base size : Nat) : Option Nat :=
  if 1 < size then do
    let x ← xs[base + size / 2]?
    bisect? p xs (if p x then base + size / 2 else base) (size - size / 2)
  else if size = 1 then do
    let x ← xs[base]?
    some (if p x then base + 1 else base)
  else some base
termination_by size

/-- Where `p` holds up to the place `n` and not from there on, the search finds `n` and looks at
nothing beyond the end. -/
theorem bisect?_eq {p : Nat → Bool} {xs : List Nat} {n : Nat}
    (hn : ∀ i x, xs[i]? = some x → (p x = true ↔ i < n)) {base size : Nat} (hbase : base ≤ n)
    (hsize : n ≤ base + size) (hlength : base + size ≤ xs.length) :
    bisect? p xs base size = some n := by
  induction size using Nat.strongRecOn generalizing base with
  | _ size ih =>
    unfold bisect?
    split
    · obtain ⟨x, hx⟩ : ∃ x, xs[base + size / 2]? = some x :=
        ⟨_, List.getElem?_eq_getElem (by omega)⟩
      have hp := hn _ x hx
      rw [hx, Option.bind_eq_bind, Option.bind_some]
      by_cases h : p x = true
      · -- `n` is in the upper half
        have hlt := hp.mp h
        rw [if_pos h]
        exact ih _ (by omega) (by omega) (by omega) (by omega)
      · have hle := Nat.not_lt.mp (mt hp.mpr h)
        rw [if_neg h]
        exact ih _ (by omega) hbase (by omega) (by omega)
    · split
      · obtain ⟨x, hx⟩ : ∃ x, xs[base]? = some x := ⟨_, List.getElem?_eq_getElem (by omega)⟩
        have hp := hn _ x hx
        rw [hx, Option.bind_eq_bind, Option.bind_some]
        by_cases h : p x = true
        · have hlt := hp.mp h
          rw [if_pos h]
          exact congrArg some (by omega)
        · have hle := Nat.not_lt.mp (mt hp.mpr h)
          rw [if_neg h]
          exact congrArg some (by omega)
      · exact congrArg some (by omega)

/-- In an increasing list, what is small stands in front. -/
theorem le_iff_lt_length_takeWhile {xs : List Nat} (h : xs.Pairwise (· < ·)) (bound : Nat)
    {i x : Nat} (hx : xs[i]? = some x) : x ≤ bound ↔ i < (xs.takeWhile (· ≤ bound)).length := by
  induction xs generalizing i with
  | nil => cases hx
  | cons y ys ih =>
    obtain ⟨hy, hys⟩ := List.pairwise_cons.mp h
    by_cases hle : y ≤ bound
    · rw [List.takeWhile_cons_of_pos (by simpa using hle), List.length_cons]
      cases i with
      | zero =>
        cases hx
        exact iff_of_true hle (Nat.succ_pos _)
      | succ i => exact (ih hys hx).trans Nat.succ_lt_succ_iff.symm
    · have hlt : y ≤ x := by
        cases i with
        | zero => cases hx; exact Nat.le_refl _
        | succ i => exact Nat.le_of_lt (hy x (List.mem_of_getElem? hx))
      rw [List.takeWhile_cons_of_neg (by simpa using hle)]
      exact iff_of_false (by omega) (Nat.not_lt_zero i)

/-! ### The line index -/

namespace LineIndex

/-- The position of a byte offset, by a search for the line that the offset is on. A look beyond the
last line start gives nothing, and so does a line start beyond the offset. -/
def locate? (index : LineIndex) (offset : Nat) : Option Position := do
  let begun ← bisect? (· ≤ offset) index.starts 0 index.starts.length
  let line := max begun 1 - 1
  let start ← index.starts[line]?
  if start ≤ offset then
    some ⟨min (line + 1) Position.limit, min (offset - start + 1) Position.limit⟩
  else none

section

variable (text : String) (offset : Nat)

theorem starts_ofText : (ofText text.toList).starts = 0 :: byteStarts 0 (textBytes text) := by
  rw [ofText, startsAfter_eq_byteStarts, textBytes_eq]

theorem pairwise_starts : (ofText text.toList).starts.Pairwise (· < ·) := by
  rw [starts_ofText]
  exact .cons (fun s hs => (bounds_of_mem_byteStarts hs).1) (pairwise_byteStarts 0 _)

/-- The lines that have begun at a place. -/
theorem begun_ofText :
    (ofText text.toList).starts.takeWhile (· ≤ offset) =
      0 :: byteStarts 0 ((textBytes text).take offset) := by
  rw [starts_ofText, List.takeWhile_cons_of_pos (by simp), takeWhile_byteStarts]

theorem length_begun :
    ((ofText text.toList).starts.takeWhile (· ≤ offset)).length =
      (Position.ofBytes (textBytes text) offset).line := by
  rw [begun_ofText, List.length_cons, length_byteStarts, Position.ofBytes, Nat.add_comm]

/-- The last line that has begun is the one that the place is on. -/
theorem starts_getElem?_line :
    (ofText text.toList).starts[(Position.ofBytes (textBytes text) offset).line - 1]? =
      some (lineBegin (textBytes text) offset) := by
  obtain ⟨later, hstarts⟩ := List.takeWhile_prefix (l := (ofText text.toList).starts) (· ≤ offset)
  have hlength := length_begun text offset
  rw [begun_ofText] at hstarts hlength
  rw [← hstarts, ← hlength, List.getElem?_append_left (by simp), ← List.getLast?_eq_getElem?,
    List.getLast?_cons, ← List.getLastD_eq_getLast?, getLastD_byteStarts]

/-- What is reported of a place: the line and the column, as far as they can be reported. -/
theorem position_eq :
    (ofText text.toList).position offset =
      ⟨min (Position.ofBytes (textBytes text) offset).line Position.limit,
        min (Position.ofBytes (textBytes text) offset).column Position.limit⟩ := by
  have hlast : ((ofText text.toList).starts.takeWhile (· ≤ offset)).getLastD 0 =
      lineBegin (textBytes text) offset := by
    rw [begun_ofText, List.getLastD_cons, getLastD_byteStarts]
  simp only [position, length_begun, hlast, Position.ofBytes, Nat.add_comm]

/-- The search by halving finds the line, and stays within the list. -/
theorem locate?_eq :
    (ofText text.toList).locate? offset = some ((ofText text.toList).position offset) := by
  have hbegun : bisect? (· ≤ offset) (ofText text.toList).starts 0
      (ofText text.toList).starts.length =
      some (Position.ofBytes (textBytes text) offset).line := by
    refine bisect?_eq (fun i x hx => ?_) (Nat.zero_le _) ?_ (by omega)
    · rw [decide_eq_true_iff, ← length_begun]
      exact le_iff_lt_length_takeWhile (pairwise_starts text) offset hx
    · rw [← length_begun, Nat.zero_add]
      exact (List.takeWhile_prefix _).length_le
  have hpos : max (Position.ofBytes (textBytes text) offset).line 1 =
      (Position.ofBytes (textBytes text) offset).line := Nat.max_eq_left (Nat.le_add_right 1 _)
  have hline : (Position.ofBytes (textBytes text) offset).line - 1 + 1 =
      (Position.ofBytes (textBytes text) offset).line := Nat.sub_add_cancel (Nat.le_add_right 1 _)
  simp only [locate?, hbegun, hpos, starts_getElem?_line, Option.bind_eq_bind, Option.bind_some,
    if_pos (lineBegin_le _ _), hline, position_eq]
  rw [Position.ofBytes, Nat.add_comm 1 (offset - _)]

end

/-- **Lines and columns are exact.** The search for the line of a place looks at no line start that
is not there, and never takes a line start from a smaller offset. If the line and the column of a
place can be reported, they are the ones that are told, and lead back to the place; a smaller place
has a smaller position, and no other place has the same. -/
theorem position_exact (text : String) :
    (∀ offset, (ofText text.toList).locate? offset = some ((ofText text.toList).position offset)) ∧
    (∀ offset, (Position.ofBytes (textBytes text) offset).Reportable →
      (ofText text.toList).position offset = Position.ofBytes (textBytes text) offset ∧
      ∃ start,
        (ofText text.toList).starts[((ofText text.toList).position offset).line - 1]? = some start ∧
        offset = start + ((ofText text.toList).position offset).column - 1) ∧
    ∀ a b, (Position.ofBytes (textBytes text) a).Reportable →
      (Position.ofBytes (textBytes text) b).Reportable →
      (a < b → ((ofText text.toList).position a).Precedes ((ofText text.toList).position b)) ∧
      ((ofText text.toList).position a = (ofText text.toList).position b → a = b) := by
  have hexact (offset : Nat) (h : (Position.ofBytes (textBytes text) offset).Reportable) :
      (ofText text.toList).position offset = Position.ofBytes (textBytes text) offset := by
    rw [position_eq, Nat.min_eq_left h.1, Nat.min_eq_left h.2]
  refine ⟨locate?_eq text, fun offset h => ⟨hexact offset h, ?_⟩, fun a b ha hb => ?_⟩
  · rw [hexact offset h]
    refine ⟨_, starts_getElem?_line text offset, ?_⟩
    have hle := lineBegin_le (textBytes text) offset
    simp only [Position.ofBytes]
    omega
  · rw [hexact a ha, hexact b hb]
    refine ⟨Position.ofBytes_precedes, fun heq => ?_⟩
    rcases Nat.lt_trichotomy a b with hlt | rfl | hlt
    · exact absurd heq (Position.ofBytes_precedes hlt).ne
    · rfl
    · exact absurd heq.symm (Position.ofBytes_precedes hlt).ne

/-- A text of three lines, the second of them empty, with characters of two bytes. -/
def verse : String := "λ\n\né"

/-- The newline that ends the empty line, and a place beyond the end of the text. -/
theorem position_exact_verse :
    (Position.ofBytes (textBytes verse) 3).Reportable ∧
      (Position.ofBytes (textBytes verse) 9).Reportable ∧
      (ofText verse.toList).position 3 = ⟨2, 1⟩ ∧ (ofText verse.toList).position 9 = ⟨3, 6⟩ ∧
      (ofText verse.toList).locate? 9 = some ⟨3, 6⟩ ∧
      (Position.mk 2 1).Precedes ⟨3, 6⟩ := by
  have hthree : Position.ofBytes (textBytes verse) 3 = ⟨2, 1⟩ := by decide +kernel
  have hnine : Position.ofBytes (textBytes verse) 9 = ⟨3, 6⟩ := by decide +kernel
  have hreport : (Position.mk 2 1).Reportable ∧ (Position.mk 3 6).Reportable := by decide
  obtain ⟨hlocate, hexact, horder⟩ := position_exact verse
  have hthree' := (hexact 3 (hthree ▸ hreport.1)).1
  have hnine' := (hexact 9 (hnine ▸ hreport.2)).1
  have hprecedes := (horder 3 9 (hthree ▸ hreport.1) (hnine ▸ hreport.2)).1 (by decide)
  rw [hthree', hnine', hthree, hnine] at hprecedes
  refine ⟨hthree ▸ hreport.1, hnine ▸ hreport.2, hthree'.trans hthree, hnine'.trans hnine, ?_,
    hprecedes⟩
  rw [hlocate, hnine', hnine]

end LineIndex

end LetLambda
