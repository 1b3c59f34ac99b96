import LetLambda.Token.Lexer
import Mathlib.Data.List.TakeWhile

/-!
# What a lexeme is

The words that tokens are written as, told by patterns (`Matches`) and by the kind that a word has
(`Reads`), and that a text is cut where the longest word ends. Which pattern a word can match is
decided by its first character (`Matches.continues`), so that at most one of them has to be looked
at.

The main results say what is found at the start of a text (`lexeme_finds`), and that a word that is
as long as can be is found there (`lexeme_of_reads`).
-/

namespace LetLambda

/-! ### Numerals -/

namespace Numeral

theorem toInt_of_word? {m : Int} {n : Int64} (h : word? m = some n) : n.toInt = m := by
  unfold word? at h
  split at h
  · next hm =>
    cases h
    exact Int64.toInt_ofInt_of_le (by omega) (by omega)
  · cases h

theorem word?_toInt (n : Int64) : word? n.toInt = some n := by
  have hle := n.le_toInt
  have hlt := n.toInt_lt
  rw [word?, if_pos (by omega), Int64.ofInt_toInt]

theorem lt_of_word?_eq_none {m : Nat} (h : word? m = none) : 9223372036854775807 < m := by
  unfold word? at h
  split at h
  · cases h
  · omega

end Numeral

theorem Keyword.ofText?_eq_some_iff {text : String} {word : Keyword} :
    Keyword.ofText? text = some word ↔ text = word.text := by
  constructor
  · intro h
    unfold Keyword.ofText? at h
    split at h <;> cases h <;> rfl
  · rintro rfl
    cases word <;> rfl

theorem Punct.ofChar?_eq_some_iff {c : Char} {mark : Punct} :
    Punct.ofChar? c = some mark ↔ c = mark.char := by
  constructor
  · intro h
    have hmark := List.find?_some (p := fun m : Punct => m.char == c) h
    exact (eq_of_beq hmark).symm
  · rintro rfl
    cases mark <;> rfl

namespace Token

open Numeral (isDigit)
open Name (isStart isPart)

/-! ### Patterns -/

/-- The operators of two characters. -/
def pairs : List String := ["||", "&&", "==", "!=", "<=", ">="]

/-- The operators of one character. -/
def singles : List String := ["=", "<", ">", "+", "-", "*", "/", "%", "!"]

/-- The operators. -/
def operators : List String := pairs ++ singles

/-- The elements of a string, and the characters that they stand for: a backslash is dropped, and
the character after it stands for itself. -/
inductive Elements : List Char → List Char → Prop
  | nil : Elements [] []
  | plain {c : Char} {cs s : List Char} (hquote : c ≠ '"') (hbackslash : c ≠ '\\')
    (h : Elements cs s) : Elements (c :: cs) (c :: s)
  | escaped {c : Char} {cs s : List Char} (hnewline : c ≠ '\n') (h : Elements cs s) :
    Elements ('\\' :: c :: cs) (c :: s)

/-- The words that tokens are written as. -/
inductive Matches : List Char → Prop
  | numeral {c : Char} {v : List Char} (hc : isDigit c) (hv : ∀ d ∈ v, isDigit d) :
    Matches (c :: v)
  | word {c : Char} {v : List Char} (hc : isStart c) (hv : ∀ d ∈ v, isPart d) : Matches (c :: v)
  | lambda : Matches ['λ']
  | string {body s : List Char} (h : Elements body s) : Matches ('"' :: (body ++ ['"']))
  | punct (mark : Punct) : Matches [mark.char]
  | operator {symbol : String} (h : symbol ∈ operators) : Matches symbol.toList

/-- The kind of token that a word is. -/
inductive Reads : List Char → Kind → Prop
  | int {c : Char} {v : List Char} {n : Int64} (hc : isDigit c) (hv : ∀ d ∈ v, isDigit d)
    (hn : n.toInt = Numeral.value (c :: v)) : Reads (c :: v) (.int n)
  | keyword {c : Char} {v : List Char} {word : Keyword} (hc : isStart c) (hv : ∀ d ∈ v, isPart d)
    (hword : String.ofList (c :: v) = word.text) : Reads (c :: v) (.keyword word)
  | lambda : Reads ['λ'] (.keyword .lambda)
  | ident {c : Char} {v : List Char} (hc : isStart c) (hv : ∀ d ∈ v, isPart d)
    (hreserved : ∀ word : Keyword, String.ofList (c :: v) ≠ word.text) :
    Reads (c :: v) (.ident (String.ofList (c :: v)))
  | str {body s : List Char} (h : Elements body s) :
    Reads ('"' :: (body ++ ['"'])) (.str (String.ofList s))
  | punct (mark : Punct) : Reads [mark.char] (.punct mark)
  | operator {symbol : String} (h : symbol ∈ operators) : Reads symbol.toList (.operator symbol)

/-- What is skipped at the start of a text: blanks, or a comment as far as the line goes. -/
inductive Skips : List Char → Prop
  | blanks {c : Char} {v : List Char} (hc : isGap c) (hv : ∀ d ∈ v, isGap d) : Skips (c :: v)
  | comment {v : List Char} (hv : '\n' ∉ v) : Skips ('#' :: v)

/-- No word that a text `w ++ rest` starts with is longer than `w`. -/
def Longest (w rest : List Char) : Prop := ∀ v, v <+: w ++ rest → Matches v → v.length ≤ w.length

/-- A text does not go on with a character of a class. -/
def Stops (p : Char → Bool) (rest : List Char) : Prop := ∀ c, rest.head? = some c → p c = false

/-! ### First characters -/

/-- What the first character of a word says about it. -/
inductive Head where
  | digit | letter | lambda | quote | mark | other
deriving DecidableEq

/-- What a character says about the words that start with it. -/
def head (c : Char) : Head :=
  if isDigit c then .digit
  else if isStart c then .letter
  else if c = 'λ' then .lambda
  else if c = '"' then .quote
  else if (Punct.ofChar? c).isSome then .mark
  else .other

/-- How a word goes on after its first character. -/
def Head.Continues (c : Char) (v : List Char) : Head → Prop
  | digit => ∀ d ∈ v, isDigit d
  | letter => ∀ d ∈ v, isPart d
  | lambda | mark => v = []
  | quote => ∃ body s, Elements body s ∧ v = body ++ ['"']
  | other => ∃ symbol ∈ operators, symbol.toList = c :: v

theorem isDigit_eq_false_of_isStart {c : Char} (h : isStart c) : isDigit c = false := by
  by_contra hdigit
  rw [Bool.not_eq_false, isDigit, Bool.and_eq_true_iff, decide_eq_true_iff,
    decide_eq_true_iff] at hdigit
  have hlt (d : Char) (hd : '9' < d) : ¬ d ≤ c :=
    fun h => absurd (Char.le_trans h hdigit.2) (Char.not_le.mpr hd)
  simp [isStart, hlt 'a' (by decide), hlt 'A' (by decide)] at h
  exact absurd (h ▸ hdigit.2) (by decide)

/-- The first characters of the operators. -/
theorem exists_head_operator {symbol : String} (h : symbol ∈ operators) :
    ∃ c v, symbol.toList = c :: v ∧ head c = .other ∧ isGap c = false ∧ c ≠ '#' := by
  have hall : ∀ symbol ∈ operators, symbol.toList.head?.any
      (fun c => decide (head c = .other ∧ isGap c = false ∧ c ≠ '#')) = true := by decide
  have hsymbol := hall symbol h
  cases hw : symbol.toList with
  | nil =>
    rw [hw] at hsymbol
    cases hsymbol
  | cons c v =>
    rw [hw] at hsymbol
    exact ⟨c, v, rfl, of_decide_eq_true hsymbol⟩

theorem Matches.ne_nil {w : List Char} (h : Matches w) : w ≠ [] := by
  cases h with
  | operator h =>
    obtain ⟨c, v, hw, -⟩ := exists_head_operator h
    rw [hw]
    exact List.cons_ne_nil c v
  | _ => exact List.cons_ne_nil _ _

/-- **The first character of a word decides which pattern it matches.** -/
theorem Matches.continues {c : Char} {v : List Char} (h : Matches (c :: v)) :
    (head c).Continues c v := by
  generalize hw : c :: v = w at h
  cases h with
  | numeral hc hv =>
    cases hw
    rwa [head, if_pos hc]
  | word hc hv =>
    cases hw
    rwa [head, if_neg (by simp [isDigit_eq_false_of_isStart hc]), if_pos hc]
  | lambda =>
    cases hw
    rfl
  | string h =>
    cases hw
    exact ⟨_, _, h, rfl⟩
  | punct mark =>
    cases hw
    cases mark <;> rfl
  | operator h =>
    obtain ⟨c', v', hw', hhead, -⟩ := exists_head_operator h
    rw [hw'] at hw
    cases hw
    rw [hhead]
    exact ⟨_, h, hw'⟩

/-- A word starts with nothing that is skipped. -/
theorem Matches.not_skipped {c : Char} {v : List Char} (h : Matches (c :: v)) :
    isGap c = false ∧ c ≠ '#' := by
  have hblank : [' ', '\t', '\r', '\n', '\x0c', '#'].all
      (fun d => !(isDigit d || isStart d)) = true := by
    decide
  have hne (hc : isDigit c ∨ isStart c) : c ∉ [' ', '\t', '\r', '\n', '\x0c', '#'] := by
    intro hmem
    have hnot := List.all_eq_true.mp hblank c hmem
    rw [← Bool.or_eq_true] at hc
    rw [hc] at hnot
    cases hnot
  generalize hw : c :: v = w at h
  cases h with
  | numeral hc hv =>
    cases hw
    simpa [isGap, and_assoc] using hne (.inl hc)
  | word hc hv =>
    cases hw
    simpa [isGap, and_assoc] using hne (.inr hc)
  | lambda =>
    cases hw
    decide
  | string h =>
    cases hw
    decide
  | punct mark =>
    cases hw
    cases mark <;> decide
  | operator h =>
    obtain ⟨c', v', hw', -, hc⟩ := exists_head_operator h
    rw [hw'] at hw
    cases hw
    exact hc

/-! ### Rows of characters of a class -/

theorem takeWhile_append_of_stops {p : Char → Bool} {v rest : List Char} (hv : ∀ d ∈ v, p d)
    (hrest : Stops p rest) : (v ++ rest).takeWhile p = v := by
  rw [List.takeWhile_append_of_pos hv]
  cases rest with
  | nil => simp
  | cons c rest => simp [hrest c rfl]

/-- A text is a row of characters of a class and a rest that does not go on with them. -/
theorem exists_takeWhile (p : Char → Bool) (cs : List Char) :
    ∃ v rest, cs = v ++ rest ∧ cs.takeWhile p = v ∧ (∀ d ∈ v, p d) ∧ Stops p rest := by
  refine ⟨cs.takeWhile p, cs.dropWhile p, List.takeWhile_append_dropWhile.symm, rfl,
    fun d hd => List.mem_takeWhile_imp hd, fun c hc => ?_⟩
  have h := List.head?_dropWhile_not p cs
  rw [hc] at h
  exact h

/-- No prefix of a text goes beyond a row of characters of a class, if it is made of them. -/
theorem length_le_of_stops {p : Char → Bool} {v w rest : List Char} (hw : ∀ d ∈ w, p d)
    (hrest : Stops p rest) (h : w <+: v ++ rest) : w.length ≤ v.length := by
  by_contra hlt
  obtain ⟨u, rfl⟩ := List.prefix_of_prefix_length_le (List.prefix_append v rest) h (by omega)
  rw [List.prefix_append_right_inj] at h
  cases u with
  | nil => simp at hlt
  | cons d u =>
    obtain ⟨rest, rfl⟩ := h
    have hd : p d = true := hw d (by simp)
    rw [hrest d rfl] at hd
    cases hd

/-! ### Strings -/

theorem stringBody_cons {c : Char} (hquote : c ≠ '"') (hbackslash : c ≠ '\\') (cs : List Char) :
    stringBody (c :: cs) = (stringBody cs).cons c 1 := by
  rw [stringBody]
  · exact hquote
  · exact fun h => absurd h hbackslash
  · exact fun _ _ h => absurd h hbackslash

theorem stringBody_of_elements {body s : List Char} (h : Elements body s) (rest : List Char) :
    stringBody (body ++ '"' :: rest) = ⟨s, body.length, true⟩ := by
  induction h with
  | nil => rfl
  | plain hquote hbackslash h ih =>
    rw [List.cons_append, stringBody_cons hquote hbackslash, ih]
    simp [StringBody.cons, Nat.add_comm]
  | escaped hnewline h ih =>
    rw [List.cons_append, List.cons_append, stringBody, if_neg hnewline, ih]
    simp [StringBody.cons]
    omega

theorem stringBody_length_le (cs : List Char) : (stringBody cs).length ≤ cs.length := by
  fun_induction stringBody cs with
  | case1 | case2 | case3 | case4 => simp
  | case5 c cs h ih =>
    simp only [StringBody.cons, List.length_cons]
    omega
  | case6 c cs _ _ _ ih =>
    simp only [StringBody.cons, List.length_cons]
    omega

/-- What was read of a string that is closed. -/
theorem elements_of_closed (cs : List Char) (h : (stringBody cs).closed = true) :
    ∃ body rest, cs = body ++ '"' :: rest ∧ (stringBody cs).length = body.length ∧
      Elements body (stringBody cs).contents := by
  fun_induction stringBody cs with
  | case1 => cases h
  | case2 rest => exact ⟨[], rest, rfl, rfl, .nil⟩
  | case3 => cases h
  | case4 => cases h
  | case5 c cs hnewline ih =>
    obtain ⟨body, rest, rfl, hlength, helements⟩ := ih h
    refine ⟨'\\' :: c :: body, rest, rfl, ?_, .escaped hnewline helements⟩
    simp only [StringBody.cons, List.length_cons, hlength]
    omega
  | case6 c cs hquote hend hbackslash ih =>
    obtain ⟨body, rest, rfl, hlength, helements⟩ := ih h
    refine ⟨c :: body, rest, rfl, ?_, .plain hquote ?_ helements⟩
    · simp only [StringBody.cons, List.length_cons, hlength]
      omega
    · rintro rfl
      cases body with
      | nil => exact hbackslash _ _ rfl rfl
      | cons d body => exact hbackslash _ _ rfl rfl

/-! ### Operators -/

theorem length_of_mem_pairs : ∀ symbol ∈ pairs, symbol.toList.length = 2 := by decide

theorem length_of_mem_singles : ∀ symbol ∈ singles, symbol.toList.length = 1 := by decide

theorem operatorAt?_eq_none {c : Char} {cs : List Char} (h : operatorAt? c cs = none) :
    ∀ symbol ∈ operators, ¬ symbol.toList <+: c :: cs := by
  obtain ⟨hpairs, hsingles⟩ := Option.or_eq_none_iff.mp h
  intro symbol hsymbol hprefix
  rw [← List.isPrefixOf_iff_prefix] at hprefix
  rcases List.mem_append.mp hsymbol with hmem | hmem
  · exact List.find?_eq_none.mp hpairs symbol hmem hprefix
  · exact List.find?_eq_none.mp hsingles symbol hmem hprefix

/-- The operator that is found is the longest one. -/
theorem operatorAt?_eq_some {c : Char} {cs : List Char} {symbol : String}
    (h : operatorAt? c cs = some symbol) :
    symbol ∈ operators ∧ symbol.toList <+: c :: cs ∧
      ∀ other ∈ operators, other.toList <+: c :: cs →
        other.toList.length ≤ symbol.toList.length := by
  have hfound {symbols : List String} (h : symbols.find?
      (fun s => s.toList.isPrefixOf (c :: cs)) = some symbol) : symbol.toList <+: c :: cs :=
    List.isPrefixOf_iff_prefix.mp
      (List.find?_some (p := fun s : String => s.toList.isPrefixOf (c :: cs)) h)
  rcases Option.or_eq_some_iff.mp h with h | ⟨hpairs, h⟩
  · have hmem : symbol ∈ pairs := List.mem_of_find?_eq_some h
    refine ⟨List.mem_append_left _ hmem, hfound h, fun other hother _ => ?_⟩
    rw [length_of_mem_pairs symbol hmem]
    rcases List.mem_append.mp hother with hother | hother
    · exact (length_of_mem_pairs other hother).le
    · exact (length_of_mem_singles other hother).le.trans (Nat.le_succ 1)
  · have hmem : symbol ∈ singles := List.mem_of_find?_eq_some h
    refine ⟨List.mem_append_right _ hmem, hfound h, fun other hother hprefix => ?_⟩
    rcases List.mem_append.mp hother with hother | hother
    · rw [← List.isPrefixOf_iff_prefix] at hprefix
      exact absurd hprefix (List.find?_eq_none.mp hpairs other hother)
    · rw [length_of_mem_singles symbol hmem, length_of_mem_singles other hother]

/-! ### The lexeme at the start of a text -/

theorem reads_wordKind {c : Char} {v : List Char} (hc : isStart c) (hv : ∀ d ∈ v, isPart d) :
    Reads (c :: v) (wordKind (c :: v)) := by
  rw [wordKind]
  cases h : Keyword.ofText? (String.ofList (c :: v)) with
  | none =>
    refine .ident hc hv fun word hword => ?_
    rw [hword, Keyword.ofText?_eq_some_iff.mpr rfl] at h
    cases h
  | some word =>
    exact .keyword hc hv (Keyword.ofText?_eq_some_iff.mp h)

theorem Reads.matches {w : List Char} {kind : Kind} (h : Reads w kind) : Matches w := by
  cases h with
  | int hc hv hn => exact .numeral hc hv
  | keyword hc hv hword => exact .word hc hv
  | lambda => exact .lambda
  | ident hc hv hreserved => exact .word hc hv
  | str h => exact .string h
  | punct mark => exact .punct mark
  | operator h => exact .operator h

theorem Longest.stops {p : Char → Bool} {w rest : List Char} (h : Longest w rest)
    (hp : ∀ d, p d = true → Matches (w ++ [d])) : Stops p rest := by
  intro d hd
  obtain ⟨r, rfl⟩ := List.head?_eq_some_iff.mp hd
  by_contra hpd
  have hle := h (w ++ [d]) ⟨r, by simp⟩ (hp d (Bool.not_eq_false _ ▸ hpd))
  rw [List.length_append, List.length_singleton] at hle
  omega

theorem lexeme_word {c : Char} {v rest : List Char} (hc : isStart c) (hv : ∀ d ∈ v, isPart d)
    (h : Longest (c :: v) rest) :
    lexeme c (v ++ rest) = (.token (wordKind (c :: v)), v.length) := by
  obtain ⟨hgap, hcomment⟩ := (Matches.word hc hv).not_skipped
  have hstops : Stops isPart rest := h.stops fun d hd =>
    .word hc (List.forall_mem_append.mpr ⟨hv, List.forall_mem_singleton.mpr hd⟩)
  simp [lexeme, hgap, hcomment, isDigit_eq_false_of_isStart hc, hc,
    takeWhile_append_of_stops hv hstops]

theorem head_eq_other_iff {c : Char} : head c = .other ↔
    isDigit c = false ∧ isStart c = false ∧ c ≠ 'λ' ∧ c ≠ '"' ∧ Punct.ofChar? c = none := by
  unfold head
  constructor
  · intro h
    split at h
    · cases h
    split at h
    · cases h
    split at h
    · cases h
    split at h
    · cases h
    split at h
    · cases h
    simp_all
  · rintro ⟨hdigit, hstart, hlambda, hquote, hmark⟩
    simp [hdigit, hstart, hlambda, hquote, hmark]

/-- **A word that is as long as can be is found** at the start of a text, with its kind. -/
theorem lexeme_of_reads {c : Char} {v rest : List Char} {kind : Kind} (h : Reads (c :: v) kind)
    (hlongest : Longest (c :: v) rest) : lexeme c (v ++ rest) = (.token kind, v.length) := by
  obtain ⟨hgap, hcomment⟩ := h.matches.not_skipped
  generalize hw : c :: v = w at h
  cases h with
  | int hc hv hn =>
    cases hw
    have hstops : Stops isDigit rest := hlongest.stops fun d hd =>
      .numeral hc (List.forall_mem_append.mpr ⟨hv, List.forall_mem_singleton.mpr hd⟩)
    simp [lexeme, hgap, hcomment, hc, takeWhile_append_of_stops hv hstops, ← hn,
      Numeral.word?_toInt]
  | keyword hc hv hword =>
    cases hw
    rw [lexeme_word hc hv hlongest, wordKind, Keyword.ofText?_eq_some_iff.mpr hword]
  | lambda =>
    cases hw
    rfl
  | ident hc hv hreserved =>
    cases hw
    rw [lexeme_word hc hv hlongest, wordKind]
    cases hk : Keyword.ofText? (String.ofList (c :: v)) with
    | none => rfl
    | some word => exact absurd (Keyword.ofText?_eq_some_iff.mp hk) (hreserved word)
  | str h =>
    cases hw
    have hdigit : isDigit '"' = false := rfl
    have hstart : isStart '"' = false := rfl
    simp [lexeme, hgap, hdigit, hstart, stringBody_of_elements h rest]
  | punct mark =>
    cases hw
    cases mark <;> rfl
  | @operator symbol h =>
    obtain ⟨c', v', hsymbol, hhead, -⟩ := exists_head_operator h
    rw [hsymbol] at hw
    cases hw
    obtain ⟨hdigit, hstart, hlambda, hquote, hmark⟩ := head_eq_other_iff.mp hhead
    have hprefix : symbol.toList <+: c :: (v ++ rest) := hsymbol ▸ List.prefix_append (c :: v) rest
    have hfound : operatorAt? c (v ++ rest) = some symbol := by
      cases hat : operatorAt? c (v ++ rest) with
      | none => exact absurd hprefix (operatorAt?_eq_none hat symbol h)
      | some found =>
        -- Both are longest, so they are prefixes of one length.
        obtain ⟨hmem, hfound, hle⟩ := operatorAt?_eq_some hat
        have hlength : found.toList.length = symbol.toList.length :=
          Nat.le_antisymm (hsymbol ▸ hlongest _ hfound (.operator hmem)) (hle symbol h hprefix)
        have heq := (List.prefix_of_prefix_length_le hfound hprefix hlength.le).eq_of_length hlength
        rw [String.toList_inj.mp heq]
    have hlength : symbol.length - 1 = v.length := by
      rw [← String.length_toList, hsymbol]
      rfl
    simp [lexeme, hgap, hcomment, hdigit, hstart, hlambda, hquote, hmark, hfound, hlength]

theorem longest_nil (w : List Char) : Longest w [] := by
  intro v hprefix _
  rw [List.append_nil] at hprefix
  exact hprefix.length_le

/-- **A word determines its kind.** -/
theorem Reads.unique {w : List Char} {kind kind' : Kind} (h : Reads w kind) (h' : Reads w kind') :
    kind = kind' := by
  cases w with
  | nil => exact absurd rfl h.matches.ne_nil
  | cons c v =>
    have heq := (lexeme_of_reads h (longest_nil _)).symm.trans (lexeme_of_reads h' (longest_nil _))
    simpa using heq

/-- What has to hold of a lexeme that was found to be the part `w` of a text `w ++ rest`. -/
def Lexeme.Fits (w rest : List Char) : Lexeme → Prop
  | gap => (∃ c, w = [c] ∧ isGap c = true) ∨
      ∃ v, w = '#' :: v ∧ '\n' ∉ v ∧ (rest = [] ∨ ∃ r, rest = '\n' :: r)
  | token kind => Reads w kind ∧ Longest w rest
  | tooLarge => (∀ d ∈ w, isDigit d) ∧ Stops isDigit rest ∧ 9223372036854775807 < Numeral.value w
  | unknown => ∀ v, v <+: w ++ rest → ¬ Matches v ∧ ¬ Skips v

theorem longest_of_continues {c : Char} {v rest : List Char}
    (h : ∀ u, u <+: v ++ rest → (head c).Continues c u → u.length ≤ v.length) :
    Longest (c :: v) rest := by
  intro w hprefix hmatches
  cases w with
  | nil => exact Nat.zero_le _
  | cons d u =>
    rw [List.cons_append, List.cons_prefix_cons] at hprefix
    obtain ⟨rfl, hprefix⟩ := hprefix
    exact Nat.succ_le_succ (h u hprefix hmatches.continues)

theorem longest_digits {c : Char} {v rest : List Char} (hc : isDigit c)
    (hrest : Stops isDigit rest) : Longest (c :: v) rest := by
  refine longest_of_continues fun u hprefix hu => ?_
  rw [head, if_pos hc] at hu
  exact length_le_of_stops hu hrest hprefix

theorem longest_letters {c : Char} {v rest : List Char} (hc : isStart c)
    (hrest : Stops isPart rest) : Longest (c :: v) rest := by
  refine longest_of_continues fun u hprefix hu => ?_
  rw [head, isDigit_eq_false_of_isStart hc, if_neg Bool.false_ne_true, if_pos hc] at hu
  exact length_le_of_stops hu hrest hprefix

theorem longest_mark (mark : Punct) (rest : List Char) : Longest [mark.char] rest := by
  refine longest_of_continues fun u _ hu => ?_
  have hhead : head mark.char = .mark := by cases mark <;> rfl
  rw [hhead] at hu
  exact (congrArg List.length hu).le

theorem longest_string {body s : List Char} (h : Elements body s) (rest : List Char) :
    Longest ('"' :: (body ++ ['"'])) rest := by
  refine longest_of_continues fun u hprefix hu => ?_
  obtain ⟨body', s', h', rfl⟩ := hu
  obtain ⟨rest', hrest⟩ := hprefix
  -- Two strings at the start of one text are read as the same.
  have hread := stringBody_of_elements h rest
  have hread' := stringBody_of_elements h' rest'
  simp only [List.append_assoc, List.singleton_append] at hrest
  rw [hrest, hread] at hread'
  simp only [StringBody.mk.injEq] at hread'
  simp [hread'.2.1]

/-- A text with nothing at its start that can be read or skipped. -/
theorem fits_unknown {c : Char} {v rest : List Char} (hgap : isGap c = false) (hcomment : c ≠ '#')
    (h : ∀ u, u <+: v ++ rest → ¬ (head c).Continues c u) : Lexeme.unknown.Fits (c :: v) rest := by
  intro w hprefix
  cases w with
  | nil => exact ⟨fun hmatches => hmatches.ne_nil rfl, nofun⟩
  | cons d u =>
    rw [List.cons_append, List.cons_prefix_cons] at hprefix
    obtain ⟨rfl, hprefix⟩ := hprefix
    refine ⟨fun hmatches => h u hprefix hmatches.continues, fun hskips => ?_⟩
    cases hskips with
    | blanks hc hv =>
      rw [hgap] at hc
      cases hc
    | comment hv => exact hcomment rfl

/-- What is found at the start of a text is what has to be found. -/
def Finds (c : Char) (cs : List Char) : Prop :=
  ∃ found v rest, cs = v ++ rest ∧ lexeme c cs = (found, v.length) ∧ found.Fits (c :: v) rest

theorem finds_of_reads {c : Char} {v rest : List Char} {kind : Kind} (h : Reads (c :: v) kind)
    (hlongest : Longest (c :: v) rest) : Finds c (v ++ rest) :=
  ⟨.token kind, v, rest, rfl, lexeme_of_reads h hlongest, h, hlongest⟩

section

variable {c : Char} (cs : List Char)

theorem finds_comment : Finds '#' cs := by
  obtain ⟨v, rest, rfl, htake, hv, hrest⟩ := exists_takeWhile (· ≠ '\n') cs
  have hlexeme : lexeme '#' (v ++ rest) = (.gap, ((v ++ rest).takeWhile (· ≠ '\n')).length) := rfl
  refine ⟨.gap, v, rest, rfl, by rw [hlexeme, htake], .inr ⟨v, rfl, fun hmem => ?_, ?_⟩⟩
  · simpa using hv _ hmem
  · cases rest with
    | nil => exact .inl rfl
    | cons d r => exact .inr ⟨r, by simpa using hrest d rfl⟩

theorem finds_numeral (hgap : isGap c = false) (hcomment : c ≠ '#') (hc : isDigit c = true) :
    Finds c cs := by
  obtain ⟨v, rest, rfl, htake, hv, hrest⟩ := exists_takeWhile isDigit cs
  cases hn : Numeral.word? (Numeral.value (c :: v)) with
  | none =>
    refine ⟨.tooLarge, v, rest, rfl, by simp [lexeme, hgap, hcomment, hc, htake, hn], ?_⟩
    exact ⟨List.forall_mem_cons.mpr ⟨hc, hv⟩, hrest, Numeral.lt_of_word?_eq_none hn⟩
  | some n =>
    exact finds_of_reads (.int hc hv (Numeral.toInt_of_word? hn)) (longest_digits hc hrest)

theorem finds_word (hc : isStart c = true) : Finds c cs := by
  obtain ⟨v, rest, rfl, htake, hv, hrest⟩ := exists_takeWhile isPart cs
  exact finds_of_reads (reads_wordKind hc hv) (longest_letters hc hrest)

theorem finds_string : Finds '"' cs := by
  have hlexeme : lexeme '"' cs = if (stringBody cs).closed then
      (.token (.str (String.ofList (stringBody cs).contents)), (stringBody cs).length + 1)
    else (.unknown, (stringBody cs).length) := rfl
  cases hclosed : (stringBody cs).closed with
  | true =>
    obtain ⟨body, rest, hcs, hlength, helements⟩ := elements_of_closed cs hclosed
    rw [show cs = (body ++ ['"']) ++ rest by simp [hcs]]
    exact finds_of_reads (.str helements) (longest_string helements rest)
  | false =>
    refine ⟨.unknown, cs.take (stringBody cs).length, cs.drop (stringBody cs).length,
      (List.take_append_drop _ cs).symm, ?_, fits_unknown rfl (by decide) fun u hprefix hu => ?_⟩
    · rw [hlexeme, hclosed, if_neg Bool.false_ne_true, List.length_take,
        Nat.min_eq_left (stringBody_length_le cs)]
    · -- A string that could be read would have been closed.
      obtain ⟨body, s, helements, rfl⟩ := hu
      rw [List.take_append_drop] at hprefix
      obtain ⟨rest, rfl⟩ := hprefix
      rw [List.append_assoc, List.singleton_append, stringBody_of_elements helements] at hclosed
      cases hclosed

theorem finds_operator (hgap : isGap c = false) (hcomment : c ≠ '#') (hhead : head c = .other) :
    Finds c cs := by
  obtain ⟨hdigit, hstart, hlambda, hquote, hmark⟩ := head_eq_other_iff.mp hhead
  cases hat : operatorAt? c cs with
  | none =>
    refine ⟨.unknown, [], cs, rfl, ?_, fits_unknown hgap hcomment fun u hprefix hu => ?_⟩
    · simp [lexeme, hgap, hcomment, hdigit, hstart, hlambda, hquote, hmark, hat]
    · rw [hhead] at hu
      obtain ⟨symbol, hsymbol, hu⟩ := hu
      refine operatorAt?_eq_none hat symbol hsymbol ?_
      rw [hu]
      exact List.cons_prefix_cons.mpr ⟨rfl, hprefix⟩
  | some symbol =>
    obtain ⟨hsymbol, hprefix, hle⟩ := operatorAt?_eq_some hat
    obtain ⟨d, v, hw, -⟩ := exists_head_operator hsymbol
    rw [hw] at hprefix hle
    obtain ⟨rfl, rest, rfl⟩ := List.cons_prefix_cons.mp hprefix
    have hreads : Reads (d :: v) (.operator symbol) := hw ▸ Reads.operator hsymbol
    refine finds_of_reads hreads (longest_of_continues fun u hprefix hu => ?_)
    rw [hhead] at hu
    obtain ⟨other, hother, hu⟩ := hu
    have hle := hle other hother (hu ▸ List.cons_prefix_cons.mpr ⟨rfl, hprefix⟩)
    rw [hu] at hle
    exact Nat.le_of_succ_le_succ hle

end

/-- **What is found at the start of a text** is a word that is as long as can be, something that is
skipped, a numeral that is too large, or nothing if there is nothing of this. -/
theorem lexeme_finds (c : Char) (cs : List Char) : Finds c cs := by
  by_cases hgap : isGap c = true
  · exact ⟨.gap, [], cs, rfl, by simp [lexeme, hgap], .inl ⟨c, rfl, hgap⟩⟩
  rw [Bool.not_eq_true] at hgap
  by_cases hcomment : c = '#'
  · exact hcomment ▸ finds_comment cs
  by_cases hdigit : isDigit c = true
  · exact finds_numeral cs hgap hcomment hdigit
  by_cases hstart : isStart c = true
  · exact finds_word cs hstart
  by_cases hlambda : c = 'λ'
  · subst hlambda
    exact finds_of_reads .lambda (longest_of_continues fun u _ hu => (congrArg List.length hu).le)
  by_cases hquote : c = '"'
  · exact hquote ▸ finds_string cs
  rw [Bool.not_eq_true] at hdigit hstart
  cases hmark : Punct.ofChar? c with
  | none =>
    exact finds_operator cs hgap hcomment
      (head_eq_other_iff.mpr ⟨hdigit, hstart, hlambda, hquote, hmark⟩)
  | some mark =>
    obtain rfl := Punct.ofChar?_eq_some_iff.mp hmark
    exact finds_of_reads (.punct mark) (longest_mark mark cs)

end Token

end LetLambda
