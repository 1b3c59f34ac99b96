import LetLambda.Proofs.Lexemes
import LetLambda.Proofs.Places

/-!
# Cutting a text into tokens

A text is cut into words with gaps of blanks and comments between them (`Cut`). The words are those
of `Reads`, each as long as can be, so that there is at most one way to do it, and it is the way in
which the tokens of a text are found (`ofText_eq_ok_iff`). A text that cannot be cut can be cut up
to the place of the fault.

Places are told by what stands before them: its bytes are counted, and so are its newlines and the
bytes after the last of them (`Position.after`).
-/

namespace LetLambda

/-! ### Places -/

/-- The position of the place after a part of a text. -/
def Position.after (before : List Char) : Position where
  line := min (before.count '\n' + 1) limit
  column := min (byteSize (before.reverse.takeWhile (· ≠ '\n')) + 1) limit

@[simp] theorem byteSize_nil : byteSize [] = 0 := rfl

@[simp] theorem byteSize_cons (c : Char) (cs : List Char) :
    byteSize (c :: cs) = c.utf8Size + byteSize cs := rfl

@[simp] theorem byteSize_append (cs ds : List Char) :
    byteSize (cs ++ ds) = byteSize cs + byteSize ds := by
  induction cs with
  | nil => simp
  | cons c cs ih => simp [ih, Nat.add_assoc]

theorem byteSize_pos {cs : List Char} (h : cs ≠ []) : 0 < byteSize cs := by
  cases cs with
  | nil => exact absurd rfl h
  | cons c cs => exact Nat.add_pos_left c.utf8Size_pos _

theorem length_encoded (cs : List Char) :
    (cs.flatMap String.utf8EncodeChar).length = byteSize cs := by
  induction cs with
  | nil => rfl
  | cons c cs ih =>
    rw [List.flatMap_cons, List.length_append, String.length_utf8EncodeChar, ih, byteSize_cons]

/-- Characters have as many newlines as their bytes. -/
theorem count_encoded (cs : List Char) :
    (cs.flatMap String.utf8EncodeChar).count newlineByte = cs.count '\n' := by
  induction cs with
  | nil => rfl
  | cons c cs ih =>
    rw [List.flatMap_cons, List.count_append, ih, List.count_cons, Nat.add_comm]
    by_cases hc : c = '\n'
    · subst hc
      rfl
    · rw [List.count_eq_zero.mpr (mt newlineByte_mem_encoded.mp hc), if_neg (by simpa using hc)]

theorem take_encoded (before rest : List Char) :
    ((before ++ rest).flatMap String.utf8EncodeChar).take (byteSize before) =
      before.flatMap String.utf8EncodeChar := by
  rw [List.flatMap_append, ← length_encoded, List.take_left]

/-- The line of the place after a part of a text begins after the last newline of that part. -/
theorem lineBegin_encoded (before rest : List Char) :
    lineBegin ((before ++ rest).flatMap String.utf8EncodeChar) (byteSize before) +
      byteSize (before.reverse.takeWhile (· ≠ '\n')) = byteSize before := by
  induction before using List.reverseRecOn generalizing rest with
  | nil => rfl
  | append_singleton cs c ih =>
    have ih := ih (c :: rest)
    have happend : cs ++ [c] ++ rest = cs ++ c :: rest := by simp
    have htake := take_encoded cs (c :: rest)
    have htake' := take_encoded (cs ++ [c]) rest
    rw [happend] at htake' ⊢
    generalize hbytes : (cs ++ c :: rest).flatMap String.utf8EncodeChar = bytes at *
    by_cases hc : c = '\n'
    · have hnewline : bytes[byteSize cs]? = some newlineByte := by
        rw [← hbytes, List.flatMap_append, ← length_encoded,
          List.getElem?_append_right (Nat.le_refl _), Nat.sub_self, hc]
        rfl
      have hsize : byteSize (cs ++ [c]) = byteSize cs + 1 := by
        rw [byteSize_append, hc]
        rfl
      rw [hsize, lineBegin, if_pos hnewline, hc]
      simp
    · -- no line begins in the bytes of another character
      have hlines : (bytes.take (byteSize (cs ++ [c]))).count newlineByte =
          (bytes.take (byteSize cs)).count newlineByte := by
        rw [htake, htake', count_encoded, count_encoded]
        simp [hc]
      have hle : byteSize cs ≤ byteSize (cs ++ [c]) := by simp
      have hreverse : (cs ++ [c]).reverse = c :: cs.reverse := by simp
      rcases @line_lt_or_lineBegin_eq bytes _ _ hle with hlt | ⟨-, hbegin⟩
      · omega
      · rw [← hbegin, hreverse, List.takeWhile_cons_of_pos (by simpa using hc), byteSize_cons,
          byteSize_append, byteSize_cons, byteSize_nil]
        omega

/-- The position of an offset is told by what stands before it. -/
theorem LineIndex.position_ofText (before rest : List Char) :
    (ofText (before ++ rest)).position (byteSize before) = .after before := by
  have hposition := position_eq (String.ofList (before ++ rest)) (byteSize before)
  rw [textBytes_eq, String.toList_ofList] at hposition
  have hbegin := lineBegin_encoded before rest
  have hcolumn : byteSize before - lineBegin ((before ++ rest).flatMap String.utf8EncodeChar)
      (byteSize before) = byteSize (before.reverse.takeWhile (· ≠ '\n')) := by omega
  rw [hposition, Position.after, Position.ofBytes, take_encoded, count_encoded, hcolumn,
    Nat.add_comm 1, Nat.add_comm 1]

namespace Token

/-- The token that a word of a text is, with what stands before it. -/
def placed (kind : Kind) (before word : List Char) : Token :=
  ⟨kind, byteSize before, byteSize (before ++ word), .after before⟩

/-! ### Gaps -/

/-- Blanks, and comments with the newlines that end them. -/
inductive Gap : List Char → Prop
  | nil : Gap []
  | blank {c : Char} {cs : List Char} (hc : isGap c) (h : Gap cs) : Gap (c :: cs)
  | comment {v cs : List Char} (hv : '\n' ∉ v) (h : Gap cs) : Gap ('#' :: (v ++ '\n' :: cs))

/-- A gap at the end of a text, where a comment need not be ended. -/
def FinalGap (cs : List Char) : Prop :=
  Gap cs ∨ ∃ gap v, Gap gap ∧ '\n' ∉ v ∧ cs = gap ++ '#' :: v

theorem Gap.append {gap cs : List Char} (h : Gap gap) (h' : Gap cs) : Gap (gap ++ cs) := by
  induction h with
  | nil => exact h'
  | blank hc h ih => exact .blank hc ih
  | comment hv h ih =>
    rw [List.cons_append, List.append_assoc]
    exact .comment hv ih

theorem Gap.append_final {gap cs : List Char} (h : Gap gap) (h' : FinalGap cs) :
    FinalGap (gap ++ cs) := by
  rcases h' with h' | ⟨gap', v, h', hv, rfl⟩
  · exact .inl (h.append h')
  · exact .inr ⟨gap ++ gap', v, h.append h', hv, by rw [List.append_assoc]⟩

/-! ### Texts that are cut -/

/-- The part `cs` of a text, after `before`, is cut into tokens. -/
inductive Cut : List Char → List Char → List Token → Prop
  | done {before gap : List Char} (hgap : FinalGap gap) :
    Cut before gap [placed .eof (before ++ gap) []]
  | token {before gap word rest : List Char} {kind : Kind} {tokens : List Token} (hgap : Gap gap)
    (hword : Reads word kind) (hlongest : Longest word rest)
    (h : Cut (before ++ gap ++ word) rest tokens) :
    Cut before (gap ++ (word ++ rest)) (placed kind (before ++ gap) word :: tokens)

theorem Cut.skip {before gap cs : List Char} {tokens : List Token} (hgap : Gap gap)
    (h : Cut (before ++ gap) cs tokens) : Cut before (gap ++ cs) tokens := by
  generalize hbefore : before ++ gap = b at h
  cases h with
  | done h =>
    subst hbefore
    rw [List.append_assoc]
    exact .done (hgap.append_final h)
  | @token _ gap' word rest _ _ h hword hlongest hrest =>
    subst hbefore
    rw [List.append_assoc before gap gap'] at hrest ⊢
    rw [← List.append_assoc gap gap']
    exact .token (hgap.append h) hword hlongest hrest

/-! ### Scanning -/

/-- What becomes of a text `w ++ rest` of which `w` was found to be a lexeme. -/
def proceed (index : LineIndex) (offset : Nat) (w rest : List Char) :
    Lexeme → Except LexError (List Token)
  | .gap => scan index (offset + byteSize w) 0 rest
  | .token kind => do
    let tokens ← scan index (offset + byteSize w) 0 rest
    .ok (⟨kind, offset, offset + byteSize w, index.position offset⟩ :: tokens)
  | .tooLarge => .error (.integerOutOfRange (String.ofList w) (index.position offset))
  | .unknown => .error (.unknownCharacter (String.ofList w) (index.position offset))

section

variable {index : LineIndex} {offset : Nat}

theorem scan_of_lexeme {c : Char} {v rest : List Char} {found : Lexeme}
    (h : lexeme c (v ++ rest) = (found, v.length)) :
    scan index offset 0 (c :: (v ++ rest)) = proceed index offset (c :: v) rest found := by
  rw [scan, h]
  cases found <;>
    simp only [proceed, List.take_left, scan_eq_drop index _ v.length, List.drop_left]

theorem scan_blank {c : Char} (hc : isGap c) (cs : List Char) :
    scan index offset 0 (c :: cs) = scan index (offset + byteSize [c]) 0 cs := by
  have hlexeme : lexeme c ([] ++ cs) = (.gap, ([] : List Char).length) := by simp [lexeme, hc]
  exact scan_of_lexeme hlexeme

theorem scan_comment {v rest : List Char} (hv : '\n' ∉ v) (hrest : Stops (· ≠ '\n') rest) :
    scan index offset 0 ('#' :: (v ++ rest)) =
      scan index (offset + byteSize ('#' :: v)) 0 rest := by
  have htake : (v ++ rest).takeWhile (· ≠ '\n') = v :=
    takeWhile_append_of_stops (fun d hd => decide_eq_true fun e => hv (e ▸ hd)) hrest
  have hlexeme : lexeme '#' (v ++ rest) = (.gap, ((v ++ rest).takeWhile (· ≠ '\n')).length) := rfl
  rw [htake] at hlexeme
  exact scan_of_lexeme hlexeme

theorem scan_gap {gap : List Char} (h : Gap gap) (cs : List Char) :
    scan index offset 0 (gap ++ cs) = scan index (offset + byteSize gap) 0 cs := by
  induction h generalizing offset with
  | nil => rfl
  | blank hc h ih =>
    rw [List.cons_append, scan_blank hc, ih]
    simp [Nat.add_assoc]
  | @comment v gap hv h ih =>
    have hnewline : Stops (· ≠ '\n') ('\n' :: (gap ++ cs)) := by
      rintro c ⟨⟩
      rfl
    rw [List.cons_append, List.append_assoc, List.cons_append, scan_comment hv hnewline,
      scan_blank rfl, ih]
    simp [Nat.add_assoc]

theorem scan_finalGap {gap : List Char} (h : FinalGap gap) :
    scan index offset 0 gap =
      .ok [⟨.eof, offset + byteSize gap, offset + byteSize gap,
        index.position (offset + byteSize gap)⟩] := by
  rcases h with h | ⟨gap, v, h, hv, rfl⟩
  · rw [← List.append_nil gap, scan_gap h, List.append_nil]
    rfl
  · have hend : Stops (· ≠ '\n') [] := nofun
    rw [scan_gap h, ← List.append_nil v, scan_comment hv hend, List.append_nil, byteSize_append,
      Nat.add_assoc]
    rfl

end

/-- A text that is cut is scanned. -/
theorem scan_of_cut {before cs : List Char} {tokens : List Token} (h : Cut before cs tokens) :
    scan (.ofText (before ++ cs)) (byteSize before) 0 cs = .ok tokens := by
  induction h with
  | @done before gap hgap =>
    have hposition := LineIndex.position_ofText (before ++ gap) []
    rw [List.append_nil, byteSize_append] at hposition
    rw [scan_finalGap hgap, hposition, placed, List.append_nil, byteSize_append]
  | @token before gap word rest kind tokens hgap hword hlongest h ih =>
    have hposition := LineIndex.position_ofText (before ++ gap) (word ++ rest)
    obtain ⟨c, v, rfl⟩ := List.exists_cons_of_ne_nil hword.matches.ne_nil
    rw [scan_gap hgap, List.cons_append, scan_of_lexeme (lexeme_of_reads hword hlongest), proceed,
      ← byteSize_append, ← byteSize_append, ← List.cons_append, ← List.append_assoc before,
      hposition]
    rw [List.append_assoc (before ++ gap)] at ih
    rw [ih]
    rfl

/-- What has to hold of a fault that was found at the start of `rest`. -/
def Fits (rest : List Char) : LexError → Prop
  | .unknownCharacter found _ => found.toList ≠ [] ∧ found.toList <+: rest ∧
      ∀ w, w <+: rest → ¬ Matches w ∧ ¬ Skips w
  | .integerOutOfRange digits _ => digits.toList ≠ [] ∧ (∀ d ∈ digits.toList, Numeral.isDigit d) ∧
      9223372036854775807 < Numeral.value digits.toList ∧
      ∃ after, rest = digits.toList ++ after ∧ Stops Numeral.isDigit after

/-- What has to hold of what came of scanning the part `cs` of a text, after `before`. -/
def Explains (before cs : List Char) : Except LexError (List Token) → Prop
  | .ok tokens => Cut before cs tokens
  | .error e => ∃ gone rest tokens, cs = gone ++ rest ∧ Cut before gone tokens ∧
      e.position = .after (before ++ gone) ∧ Fits rest e

variable {before cs : List Char} {result : Except LexError (List Token)}

theorem Explains.skip {gap : List Char} (hgap : Gap gap)
    (h : Explains (before ++ gap) cs result) : Explains before (gap ++ cs) result := by
  cases result with
  | ok tokens => exact Cut.skip hgap h
  | error e =>
    obtain ⟨gone, rest, tokens, rfl, hcut, hposition, hfits⟩ := h
    refine ⟨gap ++ gone, rest, tokens, (List.append_assoc _ _ _).symm, hcut.skip hgap, ?_, hfits⟩
    rw [hposition, List.append_assoc]

theorem Longest.of_append {word cs rest : List Char} (h : Longest word (cs ++ rest)) :
    Longest word cs := by
  intro v hv
  refine h v ?_
  rw [← List.append_assoc]
  exact hv.trans (List.prefix_append _ _)

theorem Explains.token {word rest : List Char} {kind : Kind} (hword : Reads word kind)
    (hlongest : Longest word rest) (h : Explains (before ++ word) rest result) :
    Explains before (word ++ rest) (do
      let tokens ← result
      .ok (placed kind before word :: tokens)) := by
  have hcut {cs : List Char} {tokens : List Token} (hlongest : Longest word cs)
      (h : Cut (before ++ word) cs tokens) :
      Cut before (word ++ cs) (placed kind before word :: tokens) := by
    have h : Cut (before ++ [] ++ word) cs tokens := by rwa [List.append_nil]
    have h := Cut.token .nil hword hlongest h
    rwa [List.append_nil] at h
  cases result with
  | ok tokens => exact hcut hlongest h
  | error e =>
    obtain ⟨gone, rest, tokens, rfl, h, hposition, hfits⟩ := h
    refine ⟨word ++ gone, rest, _, (List.append_assoc _ _ _).symm, hcut hlongest.of_append h, ?_,
      hfits⟩
    rw [hposition, List.append_assoc]

theorem explains_error {e : LexError} (hposition : e.position = .after before) (hfits : Fits cs e) :
    Explains before cs (.error e) := by
  refine ⟨[], cs, _, rfl, .done (.inl .nil), ?_, hfits⟩
  rw [hposition, List.append_nil]

theorem explains_of_cut {tokens : List Token} {text : List Char} (htext : before ++ cs = text)
    (h : Cut before cs tokens) :
    Explains before cs (scan (.ofText text) (byteSize before) 0 cs) := by
  rw [← htext, scan_of_cut h]
  exact h

/-- A step of a scan is explained if what comes after it is. -/
theorem scan_explains_of_shorter {before cs text : List Char} (htext : before ++ cs = text)
    (hscan : ∀ {before' rest}, before' ++ rest = text → rest.length < cs.length →
      Explains before' rest (scan (.ofText text) (byteSize before') 0 rest)) :
    Explains before cs (scan (.ofText text) (byteSize before) 0 cs) := by
  have hposition : (LineIndex.ofText text).position (byteSize before) = .after before :=
    htext ▸ LineIndex.position_ofText before cs
  cases cs with
  | nil => exact explains_of_cut htext (.done (.inl .nil))
  | cons c cs =>
    obtain ⟨found, v, rest, rfl, hlexeme, hfits⟩ := lexeme_finds c cs
    rw [scan_of_lexeme hlexeme]
    cases found with
    | gap =>
      rcases hfits with ⟨d, hd, hgap⟩ | ⟨w, hw, hnewline, rfl | ⟨rest, rfl⟩⟩
      · cases hd
        rw [proceed, ← byteSize_append]
        exact Explains.skip (.blank hgap .nil) (hscan (by simpa using htext) (by simp))
      · cases hw
        rw [← scan_of_lexeme hlexeme, List.append_nil]
        rw [List.append_nil] at htext
        exact explains_of_cut htext (.done (.inr ⟨[], v, .nil, hnewline, rfl⟩))
      · -- The newline after a comment is left over as a blank.
        cases hw
        have hgap : Gap ('#' :: (v ++ '\n' :: [])) := .comment hnewline .nil
        have hafter : (before ++ '#' :: (v ++ '\n' :: [])) ++ rest = text := by simpa using htext
        have hshorter : rest.length < ('#' :: (v ++ '\n' :: rest)).length := by
          simp only [List.length_cons, List.length_append]
          omega
        have h := Explains.skip hgap (hscan hafter hshorter)
        rw [proceed, scan_blank rfl]
        simpa [Nat.add_assoc] using h
    | token kind =>
      obtain ⟨hreads, hlongest⟩ := hfits
      rw [proceed, hposition, ← byteSize_append]
      have hshorter : rest.length < (c :: (v ++ rest)).length := by
        simp only [List.length_cons, List.length_append]
        omega
      exact Explains.token hreads hlongest (hscan (by simpa using htext) hshorter)
    | tooLarge =>
      obtain ⟨hdigits, hstops, hlarge⟩ := hfits
      refine explains_error hposition ?_
      rw [← List.cons_append]
      exact ⟨by simp, by simpa using hdigits, by simpa using hlarge, rest, by simp, hstops⟩
    | unknown =>
      refine explains_error hposition ⟨by simp, ?_, hfits⟩
      simp

/-- Whatever comes of scanning a text is explained. -/
theorem scan_explains {before cs text : List Char} (htext : before ++ cs = text) :
    Explains before cs (scan (.ofText text) (byteSize before) 0 cs) := by
  induction hn : cs.length using Nat.strongRecOn generalizing before cs with
  | ind n ih =>
    subst hn
    exact scan_explains_of_shorter htext fun htext hlt => ih _ hlt htext rfl

theorem ofText_explains (text : String) : Explains [] text.toList (ofText text) :=
  scan_explains rfl

/-- **The tokens of a text** are those into which it is cut. -/
theorem ofText_eq_ok_iff {text : String} {tokens : List Token} :
    ofText text = .ok tokens ↔ Cut [] text.toList tokens := by
  constructor
  · intro h
    have hexplains := ofText_explains text
    rwa [h] at hexplains
  · exact scan_of_cut

/-! ### What the tokens of a text are -/

theorem Reads.kind_ne_eof {word : List Char} {kind : Kind} (h : Reads word kind) : kind ≠ .eof := by
  cases h <;> nofun

/-- The spans of the tokens of a text that is cut. -/
theorem Cut.spans {tokens : List Token} (h : Cut before cs tokens) :
    ∃ ts, tokens = ts ++ [placed .eof (before ++ cs) []] ∧
      (∀ t ∈ ts, t.kind ≠ .eof ∧ byteSize before ≤ t.start ∧ t.start < t.stop ∧
        t.stop ≤ byteSize (before ++ cs)) ∧
      ts.Pairwise fun a b => a.stop ≤ b.start := by
  induction h with
  | done hgap => exact ⟨[], rfl, nofun, .nil⟩
  | @token before gap word rest kind tokens hgap hword hlongest h ih =>
    obtain ⟨ts, rfl, hspans, hordered⟩ := ih
    have hpos := byteSize_pos hword.matches.ne_nil
    refine ⟨placed kind (before ++ gap) word :: ts, ?_, ?_, ?_⟩
    · simp
    · refine List.forall_mem_cons.mpr ⟨⟨hword.kind_ne_eof, ?_⟩, fun t ht => ?_⟩
      · simp [placed]
        omega
      · obtain ⟨hkind, hstart, hlt, hstop⟩ := hspans t ht
        refine ⟨hkind, ?_, hlt, ?_⟩
        · simp at hstart
          omega
        · simpa using hstop
    · exact List.pairwise_cons.mpr ⟨fun t ht => (hspans t ht).2.1, hordered⟩

/-- The words of a text that is cut. -/
theorem Cut.words {tokens : List Token} (h : Cut before cs tokens) :
    ∀ t ∈ tokens, t.kind ≠ .eof → ∃ b word after, before ++ cs = b ++ (word ++ after) ∧
      t = placed t.kind b word ∧ Reads word t.kind ∧ Longest word after := by
  induction h with
  | done hgap => exact List.forall_mem_singleton.mpr fun h => absurd rfl h
  | @token before gap word rest kind tokens hgap hword hlongest h ih =>
    refine List.forall_mem_cons.mpr ⟨fun _ => ?_, fun t ht hkind => ?_⟩
    · exact ⟨before ++ gap, word, rest, by simp, rfl, hword, hlongest⟩
    · obtain ⟨b, w, after, hcs, h⟩ := ih t ht hkind
      exact ⟨b, w, after, by simpa using hcs, h⟩

/-- A word by itself is a text with one token. -/
theorem ofText_word {word : List Char} {kind : Kind} (h : Reads word kind) :
    ofText (String.ofList word) = .ok [placed kind [] word, placed .eof word []] := by
  rw [ofText_eq_ok_iff, String.toList_ofList]
  have hcut : Cut ([] ++ [] ++ word) [] [placed .eof ([] ++ [] ++ word ++ []) []] :=
    .done (.inl .nil)
  have hcut := Cut.token .nil h (longest_nil word) hcut
  simpa using hcut

/-- A text that was cut into tokens. -/
structure Tokenized (cs : List Char) (tokens : List Token) : Prop where
  /-- Before, between and after the tokens there are gaps, and every place is the one told by what
  stands before it. -/
  cut : Cut [] cs tokens
  /-- One end of input, at the end; the other tokens are not empty, do not overlap and stand within
  the text. -/
  spans : ∃ ts, tokens = ts ++ [placed .eof cs []] ∧
    (∀ t ∈ ts, t.kind ≠ .eof ∧ t.start < t.stop ∧ t.stop ≤ byteSize cs) ∧
    ts.Pairwise fun a b => a.stop ≤ b.start
  /-- A token is a longest word, which determines its kind and is read alike by itself. -/
  words : ∀ t ∈ tokens, t.kind ≠ .eof → ∃ before word after, cs = before ++ (word ++ after) ∧
    t = placed t.kind before word ∧ Reads word t.kind ∧ Longest word after ∧
    (∀ kind, Reads word kind → kind = t.kind) ∧
    (∀ n, t.kind = .int n → n.toInt = Numeral.value word ∧
      Numeral.value word ≤ 9223372036854775807) ∧
    ofText (String.ofList word) = .ok [placed t.kind [] word, placed .eof word []]

/-- A text that could not be cut into tokens: it can be up to the fault. -/
def Refused (cs : List Char) (e : LexError) : Prop :=
  ∃ before rest, cs = before ++ rest ∧ e.position = .after before ∧ Fits rest e ∧
    ∃ tokens, ofText (String.ofList before) = .ok tokens

/-- What is to come of a text. -/
def Meets (cs : List Char) : Except LexError (List Token) → Prop
  | .ok tokens => Tokenized cs tokens
  | .error e => Refused cs e

theorem Reads.int_value {word : List Char} {n : Int64} (h : Reads word (.int n)) :
    n.toInt = Numeral.value word ∧ Numeral.value word ≤ 9223372036854775807 := by
  have hlt := n.toInt_lt
  cases h with
  | int hc hv hn => exact ⟨hn, by omega⟩

theorem Cut.tokenized {tokens : List Token} (h : Cut [] cs tokens) : Tokenized cs tokens := by
  obtain ⟨ts, htokens, hspans, hordered⟩ := h.spans
  refine ⟨h, ⟨ts, htokens, fun t ht => ?_, hordered⟩, fun t ht hkind => ?_⟩
  · obtain ⟨hkind, -, hlt, hstop⟩ := hspans t ht
    exact ⟨hkind, hlt, hstop⟩
  · obtain ⟨before, word, after, hcs, hplaced, hword, hlongest⟩ := h.words t ht hkind
    refine ⟨before, word, after, hcs, hplaced, hword, hlongest, fun kind hk => hk.unique hword,
      fun n hn => ?_, ofText_word hword⟩
    rw [hn] at hword
    exact hword.int_value

/-- **Every text is cut into longest words**, with gaps of blanks and comments between them, up to
its end or up to the first place where there is neither a word nor a gap, or a numeral that is too
large. -/
theorem ofText_cuts_longest_words (text : String) : Meets text.toList (ofText text) := by
  have h := ofText_explains text
  cases hresult : ofText text with
  | ok tokens =>
    rw [hresult] at h
    exact Cut.tokenized h
  | error e =>
    rw [hresult] at h
    obtain ⟨before, rest, tokens, hcs, hcut, hposition, hfits⟩ := h
    refine ⟨before, rest, hcs, hposition, hfits, tokens, ?_⟩
    rwa [ofText_eq_ok_iff, String.toList_ofList]

end Token

end LetLambda
