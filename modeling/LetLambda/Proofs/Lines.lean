import LetLambda.Proofs.Lexing

/-!
# Cutting a text line by line

No token goes on over the end of a line, except a string, and a string knows where it ends. So a
text that is cut into tokens stays cut when a newline and more text are put after it
(`Longest.append_line`, `scan_append_line`), and what comes after is cut as it is by itself, but
further down (`scan_moved`). Positions add up in this way only as long as they are told exactly,
that is, where no line or column is above the largest one that is reported.
-/

namespace LetLambda

/-! ### Moving down -/

/-- The position as many lines further down. -/
def Position.below (lines : Nat) (p : Position) : Position := { p with line := p.line + lines }

/-- The same fault as many lines further down. -/
def LexError.moved (lines : Nat) : LexError → LexError
  | unknownCharacter found p => unknownCharacter found (p.below lines)
  | integerOutOfRange digits p => integerOutOfRange digits (p.below lines)

/-- The same token as many bytes further on and lines further down. -/
def Token.moved (bytes lines : Nat) (t : Token) : Token :=
  { t with
    start := t.start + bytes
    stop := t.stop + bytes
    position := t.position.below lines }

theorem count_le_byteSize (cs : List Char) : cs.count '\n' ≤ byteSize cs := by
  induction cs with
  | nil => exact Nat.le_refl 0
  | cons c cs ih =>
    have hsize := c.utf8Size_pos
    rw [byteSize_cons, List.count_cons]
    split <;> omega

theorem takeWhile_append_cons {p : Char → Bool} {c : Char} (hc : p c = false) (cs ds : List Char) :
    (cs ++ c :: ds).takeWhile p = cs.takeWhile p := by
  induction cs with
  | nil => simp [hc]
  | cons d cs ih => rw [List.cons_append, List.takeWhile_cons, List.takeWhile_cons, ih]

/-- After whole lines, columns are counted as if nothing stood before. -/
theorem Position.after_append_line {upper before : List Char}
    (h : (upper ++ '\n' :: before).count '\n' < limit) :
    after (upper ++ '\n' :: before) = (after before).below (upper.count '\n' + 1) := by
  have hcolumn : (upper ++ '\n' :: before).reverse.takeWhile (· ≠ '\n') =
      before.reverse.takeWhile (· ≠ '\n') := by
    rw [List.reverse_append, List.reverse_cons, List.append_assoc, List.singleton_append]
    exact takeWhile_append_cons rfl _ _
  have hcount : (upper ++ '\n' :: before).count '\n' = before.count '\n' + (upper.count '\n' + 1) := by
    simp only [List.count_append, List.count_cons_self]
    omega
  rw [after, hcolumn, hcount, after, below]
  rw [hcount] at h
  simp only [Position.mk.injEq, and_true]
  omega

namespace Token

/-! ### The end of a line -/

/-- No word but a string holds a newline. -/
theorem Matches.newline_not_mem {c : Char} {v : List Char} (h : Matches (c :: v)) (hc : c ≠ '"') :
    '\n' ∉ c :: v := by
  generalize hw : c :: v = w at h
  cases h with
  | numeral hd hv | word hd hv =>
    rintro (_ | ⟨_, hmem⟩)
    · exact absurd hd (by decide)
    · exact absurd (hv _ hmem) (by decide)
  | lambda => decide
  | string h =>
    cases hw
    exact absurd rfl hc
  | punct mark => cases mark <;> decide
  | operator h =>
    have hall : ∀ symbol ∈ operators, '\n' ∉ symbol.toList := by decide
    exact hall _ h

/-- A longest word stays longest when a newline and more text follow. -/
theorem Longest.append_line {word rest : List Char} (hword : Matches word) (h : Longest word rest)
    (after : List Char) : Longest word (rest ++ '\n' :: after) := by
  obtain ⟨c, w, rfl⟩ := List.exists_cons_of_ne_nil hword.ne_nil
  by_cases hc : c = '"'
  · subst hc
    obtain ⟨body, s, hbody, rfl⟩ : ∃ body s, Elements body s ∧ w = body ++ ['"'] := hword.continues
    exact longest_string hbody _
  · intro v hprefix hv
    refine h v ?_ hv
    -- Without a newline, `v` does not go beyond the line.
    cases v with
    | nil => exact List.nil_prefix
    | cons d v =>
      have hd : d = c := (List.cons_prefix_cons.mp hprefix).1
      have hnewline := hv.newline_not_mem (hd ▸ hc)
      rw [← List.append_assoc] at hprefix
      refine List.prefix_of_prefix_length_le hprefix (List.prefix_append _ _) ?_
      have hstops : Stops (· ≠ '\n') ('\n' :: after) := by
        rintro c ⟨⟩
        rfl
      refine length_le_of_stops (fun e he => ?_) hstops hprefix
      rw [decide_eq_true_iff]
      rintro rfl
      exact hnewline he

theorem FinalGap.append_line {gap : List Char} (h : FinalGap gap) : Gap (gap ++ ['\n']) := by
  rcases h with h | ⟨gap, v, h, hv, rfl⟩
  · exact h.append (.blank rfl .nil)
  · rw [List.append_assoc]
    exact h.append (.comment hv .nil)

theorem Cut.ne_nil {before cs : List Char} {tokens : List Token} (h : Cut before cs tokens) :
    tokens ≠ [] := by
  cases h <;> exact List.cons_ne_nil _ _

/-- A text that is cut into tokens is scanned up to its end, if a newline and more text follow. -/
theorem scan_append_line {before cs text : List Char} {tokens : List Token}
    (h : Cut before cs tokens) (after : List Char)
    (htext : before ++ (cs ++ '\n' :: after) = text) :
    scan (.ofText text) (byteSize before) 0 (cs ++ '\n' :: after) =
      (scan (.ofText text) (byteSize (before ++ (cs ++ ['\n']))) 0 after).map
        (tokens.dropLast ++ ·) := by
  induction h with
  | @done before gap hgap =>
    have hscan := @scan_gap (.ofText text) (byteSize before) _ hgap.append_line after
    rw [List.append_assoc, List.singleton_append] at hscan
    rw [hscan, byteSize_append before]
    exact (congrFun Except.map_id _).symm
  | @token before gap word rest kind tokens hgap hword hlongest h ih =>
    obtain ⟨c, v, rfl⟩ := List.exists_cons_of_ne_nil hword.matches.ne_nil
    have hrest : before ++ gap ++ c :: v ++ (rest ++ '\n' :: after) = text := by
      rw [← htext]
      simp
    have hposition : (LineIndex.ofText text).position (byteSize (before ++ gap)) =
        .after (before ++ gap) := by
      rw [← hrest, List.append_assoc (before ++ gap)]
      exact LineIndex.position_ofText _ _
    have htokens : (placed kind (before ++ gap) (c :: v) :: tokens).dropLast =
        placed kind (before ++ gap) (c :: v) :: tokens.dropLast :=
      List.dropLast_cons_of_ne_nil h.ne_nil
    have hend : before ++ gap ++ c :: v ++ (rest ++ ['\n']) =
        before ++ (gap ++ (c :: v ++ rest) ++ ['\n']) := by simp
    have hlexeme := lexeme_of_reads hword (hlongest.append_line hword.matches after)
    rw [List.append_assoc gap, scan_gap hgap, ← byteSize_append, List.append_assoc (c :: v),
      List.cons_append, scan_of_lexeme hlexeme, proceed, ← byteSize_append, ih hrest, hposition,
      htokens, hend]
    cases scan (.ofText text) (byteSize (before ++ (gap ++ (c :: v ++ rest) ++ ['\n']))) 0 after <;>
      rfl

/-! ### What comes after -/

/-- What came of scanning, as many bytes further on and lines further down. -/
def movedResult (bytes lines : Nat) : Except LexError (List Token) → Except LexError (List Token)
  | .ok tokens => .ok (tokens.map (moved bytes lines))
  | .error e => .error (e.moved lines)

section

variable {upper text : List Char}

theorem byteSize_append_line (cs : List Char) :
    byteSize (upper ++ '\n' :: cs) = byteSize cs + (byteSize upper + 1) := by
  have hnewline : ('\n' : Char).utf8Size = 1 := rfl
  simp only [byteSize_append, byteSize_cons, hnewline]
  omega

theorem position_append_line (hlimit : (upper ++ '\n' :: text).count '\n' < Position.limit)
    {before cs : List Char} (htext : before ++ cs = text) :
    (LineIndex.ofText (upper ++ '\n' :: text)).position (byteSize (upper ++ '\n' :: before)) =
      ((LineIndex.ofText text).position (byteSize before)).below (upper.count '\n' + 1) := by
  have hbefore : (upper ++ '\n' :: before).count '\n' < Position.limit := by
    refine Nat.lt_of_le_of_lt ?_ hlimit
    rw [← htext, List.count_append, List.count_append, List.count_cons, List.count_cons,
      List.count_append]
    omega
  have hupper := LineIndex.position_ofText (upper ++ '\n' :: before) cs
  rw [List.append_assoc, List.cons_append, htext] at hupper
  rw [hupper, Position.after_append_line hbefore, ← htext, LineIndex.position_ofText]

/-- **A text is scanned after whole lines as it is by itself**, but further on and further down. -/
theorem scan_moved (hlimit : (upper ++ '\n' :: text).count '\n' < Position.limit)
    {before cs : List Char} (htext : before ++ cs = text) :
    scan (.ofText (upper ++ '\n' :: text)) (byteSize (upper ++ '\n' :: before)) 0 cs =
      movedResult (byteSize upper + 1) (upper.count '\n' + 1)
        (scan (.ofText text) (byteSize before) 0 cs) := by
  have hposition {before cs : List Char} (htext : before ++ cs = text) :=
    position_append_line hlimit htext
  induction hn : cs.length using Nat.strongRecOn generalizing before cs with
  | ind n ih =>
    subst hn
    cases cs with
    | nil =>
      rw [scan, scan, hposition htext, byteSize_append_line]
      rfl
    | cons c cs =>
      obtain ⟨found, v, rest, rfl, hlexeme, -⟩ := lexeme_finds c cs
      have hrest : before ++ c :: v ++ rest = text := by
        rw [← htext]
        simp
      have hshorter : rest.length < (c :: (v ++ rest)).length := by
        simp only [List.length_cons, List.length_append]
        omega
      have hscan := ih _ hshorter hrest rfl
      have hsize : byteSize (upper ++ '\n' :: before) + byteSize (c :: v) =
          byteSize (upper ++ '\n' :: (before ++ c :: v)) := by
        rw [← byteSize_append, List.append_assoc, List.cons_append]
      rw [scan_of_lexeme hlexeme, scan_of_lexeme hlexeme]
      cases found with
      | gap => rw [proceed, proceed, hsize, hscan, byteSize_append before]
      | token kind =>
        rw [proceed, proceed, hsize, hscan, hposition htext, ← byteSize_append before]
        cases scan (.ofText text) (byteSize (before ++ c :: v)) 0 rest with
        | error e => rfl
        | ok tokens =>
          rw [byteSize_append_line, byteSize_append_line]
          rfl
      | tooLarge | unknown =>
        rw [proceed, proceed, hposition htext]
        rfl

end

/-- What comes of a text that is cut into tokens, a newline and more text. -/
theorem ofText_append (a b : String) {tokens : List Token} (ha : ofText a = .ok tokens)
    (hsize : byteSize (a.toList ++ '\n' :: b.toList) < 4294967295) :
    ofText (a ++ "\n" ++ b) =
      (movedResult (byteSize a.toList + 1) (a.toList.count '\n' + 1) (ofText b)).map
        (tokens.dropLast ++ ·) := by
  have htext : (a ++ "\n" ++ b).toList = a.toList ++ '\n' :: b.toList := by simp
  have hlimit : (a.toList ++ '\n' :: b.toList).count '\n' < Position.limit :=
    Nat.lt_of_le_of_lt (count_le_byteSize _) hsize
  have hupper := scan_append_line (ofText_eq_ok_iff.mp ha) b.toList (List.nil_append _)
  have hlower := scan_moved hlimit (List.nil_append b.toList)
  rw [ofText, htext]
  refine hupper.trans ?_
  rw [List.nil_append, hlower]
  rfl

/-- **Texts are cut line by line.** If a text is cut into tokens, then after a newline another text
is cut as it is by itself, but as many bytes further on and as many lines further down as there are
before it; a fault is the same fault as many lines further down. All this is to be shorter than the
largest column. -/
theorem ofText_append_line (a b : String) (tokens : List Token) (ha : ofText a = .ok tokens)
    (hsize : byteSize (a ++ "\n" ++ b).toList < 4294967295) :
    ∃ ts eof, tokens = ts ++ [eof] ∧ eof.kind = .eof ∧ (∀ t ∈ ts, t.kind ≠ .eof) ∧
      (∀ tokens', ofText b = .ok tokens' →
        ofText (a ++ "\n" ++ b) =
          .ok (ts ++ tokens'.map (moved (byteSize a.toList + 1) (a.toList.count '\n' + 1)))) ∧
      ∀ e, ofText b = .error e →
        ofText (a ++ "\n" ++ b) = .error (e.moved (a.toList.count '\n' + 1)) := by
  obtain ⟨ts, rfl, hspans, -⟩ := (ofText_eq_ok_iff.mp ha).spans
  have happend := ofText_append a b ha (by simpa using hsize)
  rw [List.dropLast_concat] at happend
  refine ⟨ts, _, rfl, rfl, fun t ht => (hspans t ht).1, fun tokens' hb => ?_, fun e hb => ?_⟩
  · rw [happend, hb]
    rfl
  · rw [happend, hb]
    rfl

/-- A string over two lines with a quote in it, and a comment that is not ended. -/
def poem : String := "x=\"a\n\\\"b\"#c"

theorem ofText_append_line_poem :
    ofText (poem ++ "\n" ++ "λ\n9") = .ok
      [⟨.ident "x", 0, 1, ⟨1, 1⟩⟩, ⟨.operator "=", 1, 2, ⟨1, 2⟩⟩, ⟨.str "a\n\"b", 2, 9, ⟨1, 3⟩⟩,
        ⟨.keyword .lambda, 12, 14, ⟨3, 1⟩⟩, ⟨.int 9, 15, 16, ⟨4, 1⟩⟩, ⟨.eof, 16, 16, ⟨4, 2⟩⟩] ∧
    ofText (poem ++ "\n" ++ " @") = .error (.unknownCharacter "@" ⟨3, 2⟩) := by
  have hpoem : ofText poem = .ok [⟨.ident "x", 0, 1, ⟨1, 1⟩⟩, ⟨.operator "=", 1, 2, ⟨1, 2⟩⟩,
      ⟨.str "a\n\"b", 2, 9, ⟨1, 3⟩⟩, ⟨.eof, 11, 11, ⟨2, 7⟩⟩] := by decide +kernel
  have hbelow : ofText "λ\n9" = .ok [⟨.keyword .lambda, 0, 2, ⟨1, 1⟩⟩, ⟨.int 9, 3, 4, ⟨2, 1⟩⟩,
      ⟨.eof, 4, 4, ⟨2, 2⟩⟩] := by decide +kernel
  have hfault : ofText " @" = .error (.unknownCharacter "@" ⟨1, 2⟩) := by decide +kernel
  obtain ⟨ts, eof, htokens, -, -, hok, -⟩ :=
    ofText_append_line poem "λ\n9" _ hpoem (by decide +kernel)
  obtain ⟨-, -, -, -, -, -, herror⟩ := ofText_append_line poem " @" _ hpoem (by decide +kernel)
  refine ⟨?_, herror _ hfault⟩
  have hts := congrArg List.dropLast htokens
  rw [List.dropLast_concat] at hts
  rw [hok _ hbelow, ← hts]
  rfl

end Token

end LetLambda
