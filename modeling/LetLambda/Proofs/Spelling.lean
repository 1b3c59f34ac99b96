import LetLambda.Proofs.Lexing
import LetLambda.Operator
import LetLambda.Term.Printer
import Mathlib.Data.List.Forall2

/-!
# The tokens of a written term

A term that can be written (`Term.isPrintable`) is written so that its text is cut into the tokens
of its parts (`spells_text`): wherever two tokens stand next to each other, either there is a blank
between them, or the second does not go on with what the first may be made of.
-/

namespace LetLambda

open Name (isStart isPart)
open Token (Kind Reads Longest Stops Cut Gap Elements operators placed)

/-! ### Terms that can be written -/

/-- A name that can be written in a text: it is made as names are, and it is not reserved. -/
def Name.isWritable (x : Name) : Bool :=
  match x.toList with
  | [] => false
  | c :: v => isStart c && v.all isPart && (Keyword.ofText? x).isNone

theorem Name.reads_of_isWritable {x : Name} (h : Name.isWritable x) :
    Reads x.toList (.ident x) := by
  unfold Name.isWritable at h
  cases hx : x.toList with
  | nil =>
    rw [hx] at h
    cases h
  | cons c v =>
    simp only [hx, Bool.and_eq_true, List.all_eq_true, Option.isNone_iff_eq_none] at h
    obtain ⟨⟨hc, hv⟩, hreserved⟩ := h
    have hx : x = String.ofList (c :: v) := by rw [← hx, String.ofList_toList]
    subst hx
    refine .ident hc hv fun word hword => ?_
    rw [Keyword.ofText?_eq_some_iff.mpr hword] at hreserved
    cases hreserved

theorem Name.isWritable_of_reads {w : List Char} {x : Name} (h : Reads w (.ident x)) :
    Name.isWritable x := by
  cases h with
  | @ident c v hc hv hreserved =>
    have hword : Keyword.ofText? (String.ofList (c :: v)) = none := by
      cases hk : Keyword.ofText? (String.ofList (c :: v)) with
      | none => rfl
      | some word => exact absurd (Keyword.ofText?_eq_some_iff.mp hk) (hreserved word)
    rw [Name.isWritable, hword, String.toList_ofList]
    simpa [hc] using hv

namespace Term

variable {ι : Type}

mutual

/-- Whether a term can be written in a text: its integers are not negative, its names are those of
texts, its operators mean something, and its sequences have two terms at least. -/
def isPrintable : Term ι → Bool
  | int n => decide (0 ≤ n.toInt)
  | str _ | bool _ => true
  | var x => Name.isWritable x
  | assign target value => target.isPrintable && value.isPrintable
  | binary op left right =>
    (BinaryOp.ofSymbol? op).isSome && left.isPrintable && right.isPrintable
  | negate body => body.isPrintable
  | seq items => decide (2 ≤ items.length) && allPrintable items
  | call callee args => callee.isPrintable && allPrintable args
  | function _ name? params body =>
    (name?.toList ++ params).all Name.isWritable && body.isPrintable
  | conditional test consequent none => test.isPrintable && consequent.isPrintable
  | conditional test consequent (some alternative) =>
    test.isPrintable && consequent.isPrintable && alternative.isPrintable
  | declare bindings body => bindingsPrintable bindings && body.isPrintable
termination_by structural t => t

/-- Whether all of some terms can be written. -/
def allPrintable : List (Term ι) → Bool
  | [] => true
  | t :: ts => t.isPrintable && allPrintable ts
termination_by structural ts => ts

/-- Whether all of some bindings can be written. -/
def bindingsPrintable : List (Binding (Term ι)) → Bool
  | [] => true
  | ⟨x, none⟩ :: bs => Name.isWritable x && bindingsPrintable bs
  | ⟨x, some t⟩ :: bs => Name.isWritable x && t.isPrintable && bindingsPrintable bs
termination_by structural bs => bs

end

theorem allPrintable_iff {ts : List (Term ι)} :
    allPrintable ts = true ↔ ∀ t ∈ ts, t.isPrintable = true := by
  induction ts with
  | nil => simp [allPrintable]
  | cons t ts ih => simp [allPrintable, ih]

mutual

/-- The kinds of the tokens of a written term. -/
def kinds : Term ι → List Kind
  | int n => [.int n]
  | str s => [.str s]
  | bool true => [.keyword .true]
  | bool false => [.keyword .false]
  | var x => [.ident x]
  | assign target value =>
    [.punct .leftParen] ++ target.kinds ++ [.operator "="] ++ value.kinds ++ [.punct .rightParen]
  | binary op left right =>
    [.punct .leftParen] ++ left.kinds ++ [.operator op] ++ right.kinds ++ [.punct .rightParen]
  | negate body => [.punct .leftParen, .operator "!"] ++ body.kinds ++ [.punct .rightParen]
  | seq items =>
    [.punct .leftBrace] ++ [Kind.punct .semicolon].intercalate (kindsAll items) ++
      [.punct .rightBrace]
  | call callee args =>
    callee.kinds ++ [.punct .leftParen] ++ [Kind.punct .comma].intercalate (kindsAll args) ++
      [.punct .rightParen]
  | function _ name? params body =>
    [.punct .leftParen, .keyword .lambda] ++ name?.toList.map .ident ++ [.punct .leftParen] ++
      [Kind.punct .comma].intercalate (params.map fun x => [.ident x]) ++ [.punct .rightParen] ++
      body.kinds ++ [.punct .rightParen]
  | conditional test consequent none =>
    [.punct .leftParen, .keyword .if] ++ test.kinds ++ [.keyword .then] ++ consequent.kinds ++
      [.punct .rightParen]
  | conditional test consequent (some alternative) =>
    [.punct .leftParen, .keyword .if] ++ test.kinds ++ [.keyword .then] ++ consequent.kinds ++
      [.keyword .else] ++ alternative.kinds ++ [.punct .rightParen]
  | declare bindings body =>
    [.punct .leftParen, .keyword .let, .punct .leftParen] ++
      [Kind.punct .comma].intercalate (kindsBindings bindings) ++ [.punct .rightParen] ++
      body.kinds ++ [.punct .rightParen]
termination_by structural t => t

/-- The kinds of the tokens of written terms. -/
def kindsAll : List (Term ι) → List (List Kind)
  | [] => []
  | t :: ts => t.kinds :: kindsAll ts
termination_by structural ts => ts

/-- The kinds of the tokens of written bindings. -/
def kindsBindings : List (Binding (Term ι)) → List (List Kind)
  | [] => []
  | ⟨x, none⟩ :: bs => [.ident x] :: kindsBindings bs
  | ⟨x, some t⟩ :: bs => ([.ident x] ++ [.operator "="] ++ t.kinds) :: kindsBindings bs
termination_by structural bs => bs

end

end Term

/-! ### Spelling -/

namespace Token

/-- Wherever characters `cs` stand before something that goes on as `p` says, they are cut into
tokens of kinds `ks`. -/
def Spells (p : List Char → Prop) (cs : List Char) (ks : List Kind) : Prop :=
  ∀ before rest tokens, p rest → Cut (before ++ cs) rest tokens →
    ∃ ts, ts.map Token.kind = ks ∧ Cut before (cs ++ rest) (ts ++ tokens)

variable {p q : List Char → Prop} {cs cs' : List Char} {ks ks' : List Kind}

theorem spells_nil : Spells p [] [] := by
  intro before rest tokens _ hcut
  rw [List.append_nil] at hcut
  exact ⟨[], rfl, hcut⟩

/-- Two pieces make one, if what the second begins with lets the first end there. -/
theorem Spells.append (h : Spells q cs ks) (h' : Spells p cs' ks')
    (hq : ∀ rest, p rest → q (cs' ++ rest)) : Spells p (cs ++ cs') (ks ++ ks') := by
  intro before rest tokens hp hcut
  rw [← List.append_assoc] at hcut
  obtain ⟨ts', hts', hcut⟩ := h' (before ++ cs) rest tokens hp hcut
  obtain ⟨ts, hts, hcut⟩ := h before (cs' ++ rest) (ts' ++ tokens) (hq rest hp) hcut
  refine ⟨ts ++ ts', by rw [List.map_append, hts, hts'], ?_⟩
  rwa [List.append_assoc, List.append_assoc]

theorem spells_gap (h : Gap cs) : Spells p cs [] :=
  fun _ _ _ _ hcut => ⟨[], rfl, hcut.skip h⟩

theorem spells_word {kind : Kind} (h : Reads cs kind)
    (hlongest : ∀ rest, p rest → Longest cs rest) : Spells p cs [kind] := by
  intro before rest tokens hp hcut
  have hcut : Cut (before ++ [] ++ cs) rest tokens := by rwa [List.append_nil]
  have hcut := Cut.token .nil h (hlongest rest hp) hcut
  exact ⟨[placed kind (before ++ []) cs], rfl, hcut⟩

/-- Whether something goes on with a character is seen from the first character of it. -/
theorem stops_append {p : Char → Bool} {w : List Char} (h : w.head?.any (fun c => !p c) = true)
    (rest : List Char) : Stops p (w ++ rest) := by
  cases w with
  | nil => cases h
  | cons d w =>
    rintro c ⟨⟩
    simpa using h

/-! ### Pieces of texts -/

/-- What follows does not go on with a character of names. -/
abbrev EndsWord (rest : List Char) : Prop := Stops isPart rest

/-- A character of operators. -/
def isSymbol (c : Char) : Bool := "=|&!<>+-*/%".toList.contains c

theorem not_isSymbol {c : Char} (h : isStart c = true ∨ Numeral.isDigit c = true) :
    (!isSymbol c) = true := by
  have hsymbols : "=|&!<>+-*/%".toList.all (fun d => !(isStart d || Numeral.isDigit d)) = true := by
    decide
  by_contra hc
  rw [Bool.not_eq_true', Bool.not_eq_false, isSymbol, List.contains_iff_mem] at hc
  have hnot := List.all_eq_true.mp hsymbols c hc
  rw [← Bool.or_eq_true] at h
  rw [h] at hnot
  cases hnot

theorem spells_mark (mark : Punct) : Spells p [mark.char] [.punct mark] :=
  spells_word (.punct mark) fun rest _ => longest_mark mark rest

theorem spells_blank : Spells p [' '] [] := spells_gap (.blank rfl .nil)

theorem spells_name {x : Name} (h : Name.isWritable x) : Spells EndsWord x.toList [.ident x] := by
  have hreads := Name.reads_of_isWritable h
  refine spells_word hreads fun rest hrest => ?_
  generalize x.toList = w at hreads
  cases hreads with
  | ident hc hv _ => exact longest_letters hc hrest

theorem spells_keyword (word : Keyword) : Spells EndsWord word.text.toList [.keyword word] := by
  obtain ⟨c, v, hw, hc, hv⟩ : ∃ c v, word.text.toList = c :: v ∧ isStart c = true ∧
      ∀ d ∈ v, isPart d = true := by
    cases word <;> exact ⟨_, _, rfl, rfl, List.all_eq_true.mp (by decide)⟩
  rw [hw]
  refine spells_word (.keyword hc hv ?_) fun rest hrest => longest_letters hc hrest
  rw [← hw, String.ofList_toList]

theorem elements_literal (s : List Char) : Elements (s.flatMap Text.literalChar) s := by
  induction s with
  | nil => exact .nil
  | cons c s ih =>
    rw [List.flatMap_cons, Text.literalChar]
    split
    · next hc =>
      refine .escaped ?_ ih
      rintro rfl
      simp at hc
    · next hc =>
      rw [not_or] at hc
      exact .plain hc.1 hc.2 ih

theorem spells_string (s : String) : Spells p (Text.literal s).toList [.str s] := by
  have helements := elements_literal s.toList
  have hreads := Reads.str helements
  rw [String.ofList_toList] at hreads
  rw [Text.literal, String.toList_ofList]
  exact spells_word hreads fun rest _ => longest_string helements rest

theorem spells_operator {symbol : String} (h : symbol ∈ operators) :
    Spells (Stops isSymbol) symbol.toList [.operator symbol] := by
  refine spells_word (.operator h) fun rest hrest => ?_
  obtain ⟨c, v, hw, hhead, -⟩ := exists_head_operator h
  rw [hw]
  refine longest_of_continues fun u hprefix hu => ?_
  rw [hhead] at hu
  obtain ⟨other, hother, hu⟩ := hu
  have hsymbols : ∀ s ∈ operators, s.toList.all isSymbol = true := by decide
  have hall := List.all_eq_true.mp (hsymbols other hother)
  rw [hu] at hall
  exact length_le_of_stops (fun d hd => hall d (List.mem_cons_of_mem c hd)) hrest hprefix

theorem isDigit_of_mem_toDigits {m : Nat} {c : Char} (h : c ∈ Nat.toDigits 10 m) :
    Numeral.isDigit c = true :=
  Nat.isDigit_of_mem_toDigits (by decide) (by decide) h

/-- An integer that is not negative is written with digits that have its value. -/
theorem exists_digits {n : Int} (h : 0 ≤ n) : ∃ c v, (toString n).toList = c :: v ∧
    Numeral.isDigit c = true ∧ (∀ d ∈ v, Numeral.isDigit d = true) ∧
    n = Numeral.value (c :: v) := by
  obtain ⟨m, rfl⟩ := Int.eq_ofNat_of_zero_le h
  have hdigits : (toString (m : Int)).toList = Nat.toDigits 10 m := String.toList_ofList
  have hvalue : Numeral.value (Nat.toDigits 10 m) = m := Nat.ofDigitChars_ten_toDigits
  obtain ⟨c, v, hw⟩ := List.exists_cons_of_ne_nil (Nat.toDigits_ne_nil (n := m) (b := 10))
  have hall : ∀ d ∈ c :: v, Numeral.isDigit d = true := fun d hd =>
    isDigit_of_mem_toDigits (m := m) (hw ▸ hd)
  obtain ⟨hc, hv⟩ := List.forall_mem_cons.mp hall
  exact ⟨c, v, by rw [hdigits, hw], hc, hv, by rw [← hw, hvalue]⟩

theorem spells_int {n : Int64} (h : 0 ≤ n.toInt) :
    Spells EndsWord (toString n.toInt).toList [.int n] := by
  obtain ⟨c, v, hw, hc, hv, hn⟩ := exists_digits h
  rw [hw]
  refine spells_word (.int hc hv hn) fun rest hrest => longest_digits hc ?_
  intro d hd
  have hpart := hrest d hd
  rw [isPart, Bool.or_eq_false_iff] at hpart
  exact hpart.2

/-- A piece that may end in a word or a number, up to one that begins with something else. -/
theorem Spells.upTo (h : Spells EndsWord cs ks) (h' : Spells p cs' ks')
    (hcs' : cs'.head?.any (fun c => !isPart c) = true) : Spells p (cs ++ cs') (ks ++ ks') :=
  h.append h' fun rest _ => stops_append hcs' rest

/-- A piece that ends where it ends whatever follows. -/
theorem Spells.followedBy (h : Spells (fun _ => True) cs ks) (h' : Spells p cs' ks') :
    Spells p (cs ++ cs') (ks ++ ks') :=
  h.append h' fun _ _ => trivial

theorem spells_spaced {symbol : String} (h : symbol ∈ operators) :
    Spells p ([' '] ++ symbol.toList ++ [' ']) [.operator symbol] :=
  (spells_blank.followedBy (spells_operator h)).append spells_blank fun rest _ =>
    stops_append (by decide) rest

theorem spells_equals : Spells p " = ".toList [.operator "="] :=
  spells_spaced (show "=" ∈ operators by decide)

theorem spells_between (word : Keyword) :
    Spells p ([' '] ++ word.text.toList ++ [' ']) [.keyword word] :=
  (spells_blank.followedBy (spells_keyword word)).upTo spells_blank (by decide)

theorem spells_opening (word : Keyword) :
    Spells p ("(".toList ++ word.text.toList ++ [' ']) [.punct .leftParen, .keyword word] :=
  ((spells_mark .leftParen).followedBy (spells_keyword word)).upTo spells_blank (by decide)

theorem spells_intercalate {sep : List Char} {ksep : List Kind}
    (hsep : Spells (fun _ => True) sep ksep) (hhead : sep.head?.any (fun c => !isPart c) = true)
    {css : List (List Char)} {kss : List (List Kind)} (h : List.Forall₂ (Spells EndsWord) css kss) :
    Spells EndsWord (sep.intercalate css) (ksep.intercalate kss) := by
  induction h with
  | nil => exact spells_nil
  | @cons cs ks css kss hcs hcss ih =>
    cases hcss with
    | nil => simpa using hcs
    | cons =>
      rw [List.intercalate_cons_cons, List.intercalate_cons_cons]
      exact (hcs.upTo hsep hhead).followedBy ih

/-- Texts of which each is cut into the tokens of its own. -/
abbrev SpellsAll (texts : List String) (kss : List (List Kind)) : Prop :=
  List.Forall₂ (fun text ks => Spells EndsWord text.toList ks) texts kss

theorem spells_list (mark : Punct) {texts : List String} {kss : List (List Kind)}
    (h : SpellsAll texts kss) (hmark : isPart mark.char = false) :
    Spells EndsWord (String.intercalate (String.ofList [mark.char, ' ']) texts).toList
      ([Kind.punct mark].intercalate kss) := by
  rw [String.toList_intercalate, String.toList_ofList]
  refine spells_intercalate ((spells_mark mark).followedBy spells_blank) ?_
    (List.forall₂_map_left_iff.mpr h)
  simpa using hmark

theorem spells_names {names : List Name} (h : names.all Name.isWritable = true) :
    SpellsAll names (names.map fun x => [.ident x]) := by
  refine List.forall₂_map_right_iff.mpr (List.forall₂_same.mpr ?_)
  exact fun x hx => spells_name (List.all_eq_true.mp h x hx)

/-- What all forms that bind names end in: the names between brackets, and a body. -/
theorem spells_scope {opening body : List Char} {kopening kbody : List Kind}
    {texts : List String} {kss : List (List Kind)}
    (hopening : Spells (fun _ => True) opening kopening) (htexts : SpellsAll texts kss)
    (hbody : Spells EndsWord body kbody) :
    Spells p
      (opening ++ (String.intercalate ", " texts).toList ++ ") ".toList ++ body ++ ")".toList)
      (kopening ++ [Kind.punct .comma].intercalate kss ++ [.punct .rightParen] ++ kbody ++
        [.punct .rightParen]) :=
  hopening.followedBy (spells_list .comma htexts (by decide))
    |>.upTo ((spells_mark .rightParen).followedBy spells_blank) (by decide)
    |>.followedBy hbody
    |>.upTo (spells_mark .rightParen) (by decide)

end Token

/-! ### Texts of terms -/

theorem BinaryOp.mem_operators {symbol : String} (h : (BinaryOp.ofSymbol? symbol).isSome) :
    symbol ∈ operators := by
  unfold BinaryOp.ofSymbol? at h
  split at h
  case h_14 => cases h
  all_goals decide

namespace Term

open Token

variable {ι : Type}

/-- The text of a term does not begin like an operator, so it may stand right after one. -/
theorem head_text (t : Term ι) (h : t.isPrintable) :
    t.text.toList.head?.any (fun c => !isSymbol c) = true := by
  cases t with
  | int n =>
    rw [isPrintable, decide_eq_true_iff] at h
    obtain ⟨c, v, hw, hc, -⟩ := exists_digits h
    rw [text, hw]
    exact not_isSymbol (.inr hc)
  | var x =>
    rw [isPrintable] at h
    have hreads := Name.reads_of_isWritable h
    rw [text]
    generalize x.toList = w at hreads
    cases hreads with
    | ident hc _ _ => exact not_isSymbol (.inl hc)
  | call callee args =>
    -- Only the text of a call begins with that of a part.
    rw [isPrintable, Bool.and_eq_true] at h
    have hcallee := head_text callee h.1
    cases hw : callee.text.toList with
    | nil => simp [hw] at hcallee
    | cons c v => simpa [text, hw] using hcallee
  | str s =>
    rw [text, Text.literal, String.toList_ofList]
    rfl
  | bool b => cases b <;> simp [text, isSymbol]
  | function info name? params body => cases name? <;> simp [text, isSymbol]
  | conditional test consequent alternative? => cases alternative? <;> simp [text, isSymbol]
  | seq items => cases items <;> simp [text, isSymbol]
  | assign | binary | negate | declare => simp [text, isSymbol]
termination_by structural t

theorem stops_isSymbol_text {t : Term ι} (h : t.isPrintable) (rest : List Char) :
    Stops isSymbol (t.text.toList ++ rest) :=
  stops_append (head_text t h) rest

/-- The text of a sequence, also of one that is too short to be written. -/
theorem spells_seq {items : List (Term ι)} (h : SpellsAll (texts items) (kindsAll items)) :
    Spells EndsWord (seq items).text.toList (seq items).kinds := by
  cases items with
  | nil =>
    rw [text, kinds, kindsAll, List.intercalate_nil, List.append_nil]
    exact (spells_mark .leftBrace).followedBy (spells_mark .rightBrace)
  | cons item items =>
    simp only [text, kinds, String.toList_append]
    exact (spells_mark .leftBrace).followedBy spells_blank
      |>.followedBy (spells_list .semicolon h (by decide))
      |>.upTo (spells_blank.followedBy (spells_mark .rightBrace)) (by decide)

mutual

/-- **The text of a term is cut into the tokens of that term.** -/
theorem spells_text (t : Term ι) (h : t.isPrintable) :
    Spells EndsWord t.text.toList t.kinds := by
  cases t with
  | int n => exact spells_int (by simpa [isPrintable] using h)
  | str s => exact spells_string s
  | bool b =>
    cases b with
    | true => exact spells_keyword .true
    | false => exact spells_keyword .false
  | var x => exact spells_name h
  | assign target value =>
    simp only [isPrintable, Bool.and_eq_true] at h
    simp only [text, kinds, String.toList_append]
    exact (spells_mark .leftParen).followedBy (spells_text target h.1)
      |>.upTo spells_equals (by decide)
      |>.followedBy (spells_text value h.2)
      |>.upTo (spells_mark .rightParen) (by decide)
  | binary op left right =>
    simp only [isPrintable, Bool.and_eq_true] at h
    obtain ⟨⟨hop, hleft⟩, hright⟩ := h
    have hspells : Spells EndsWord _ _ :=
      (spells_mark .leftParen).followedBy (spells_text left hleft)
      |>.upTo (spells_spaced (BinaryOp.mem_operators hop)) (by rfl)
      |>.followedBy (spells_text right hright)
      |>.upTo (spells_mark .rightParen) (by decide)
    simpa [text, kinds, Punct.char] using hspells
  | negate body =>
    rw [isPrintable] at h
    simp only [text, kinds, String.toList_append]
    have hmark : Spells (Stops isSymbol) "(!".toList [.punct .leftParen, .operator "!"] :=
      (spells_mark .leftParen).followedBy (spells_operator (show "!" ∈ operators by decide))
    exact hmark.append (spells_text body h) (fun rest _ => stops_isSymbol_text h rest)
      |>.upTo (spells_mark .rightParen) (by decide)
  | seq items =>
    simp only [isPrintable, Bool.and_eq_true] at h
    exact spells_seq (spells_texts items h.2)
  | call callee args =>
    simp only [isPrintable, Bool.and_eq_true] at h
    simp only [text, kinds, String.toList_append]
    exact (spells_text callee h.1).upTo (spells_mark .leftParen) (by decide)
      |>.followedBy (spells_list .comma (spells_texts args h.2) (by decide))
      |>.upTo (spells_mark .rightParen) (by decide)
  | function info name? params body =>
    simp only [isPrintable, Bool.and_eq_true, List.all_append] at h
    obtain ⟨⟨hname, hparams⟩, hbody⟩ := h
    cases name? with
    | none =>
      simp only [text, kinds, String.toList_append]
      exact spells_scope ((spells_opening .lambda).followedBy (spells_mark .leftParen))
        (spells_names hparams) (spells_text body hbody)
    | some name =>
      simp only [text, kinds, String.toList_append]
      have hname : Name.isWritable name = true := by simpa using hname
      exact spells_scope (((spells_opening .lambda).followedBy (spells_name hname)).upTo
        (spells_blank.followedBy (spells_mark .leftParen)) (by decide))
        (spells_names hparams) (spells_text body hbody)
  | conditional test consequent alternative? =>
    cases alternative? with
    | none =>
      simp only [isPrintable, Bool.and_eq_true] at h
      simp only [text, kinds, String.toList_append]
      exact (spells_opening .if).followedBy (spells_text test h.1)
        |>.upTo (spells_between .then) (by decide)
        |>.followedBy (spells_text consequent h.2)
        |>.upTo (spells_mark .rightParen) (by decide)
    | some alternative =>
      simp only [isPrintable, Bool.and_eq_true] at h
      simp only [text, kinds, String.toList_append]
      exact (spells_opening .if).followedBy (spells_text test h.1.1)
        |>.upTo (spells_between .then) (by decide)
        |>.followedBy (spells_text consequent h.1.2)
        |>.upTo (spells_between .else) (by decide)
        |>.followedBy (spells_text alternative h.2)
        |>.upTo (spells_mark .rightParen) (by decide)
  | declare bindings body =>
    simp only [isPrintable, Bool.and_eq_true] at h
    simp only [text, kinds, String.toList_append]
    exact spells_scope ((spells_opening .let).followedBy (spells_mark .leftParen))
      (spells_bindingTexts bindings h.1) (spells_text body h.2)
termination_by structural t

theorem spells_texts (ts : List (Term ι)) (h : allPrintable ts) :
    SpellsAll (texts ts) (kindsAll ts) := by
  cases ts with
  | nil => exact .nil
  | cons t ts =>
    simp only [allPrintable, Bool.and_eq_true] at h
    exact .cons (spells_text t h.1) (spells_texts ts h.2)
termination_by structural ts

theorem spells_bindingTexts (bs : List (Binding (Term ι))) (h : bindingsPrintable bs) :
    SpellsAll (bindingTexts bs) (kindsBindings bs) := by
  cases bs with
  | nil => exact .nil
  | cons b bs =>
    obtain ⟨x, value?⟩ := b
    cases value? with
    | none =>
      simp only [bindingsPrintable, Bool.and_eq_true] at h
      exact .cons (spells_name h.1) (spells_bindingTexts bs h.2)
    | some t =>
      simp only [bindingsPrintable, Bool.and_eq_true] at h
      refine .cons ?_ (spells_bindingTexts bs h.2)
      simp only [String.toList_append]
      exact ((spells_name h.1.1).upTo spells_equals (by decide)).followedBy (spells_text t h.1.2)
termination_by structural bs

end

end Term

namespace Token

/-- A text that is one piece is cut into the tokens of that piece and the end of input. -/
theorem ofText_of_spells {text : String} {ks : List Kind} (h : Spells EndsWord text.toList ks) :
    ∃ tokens, ofText text = .ok tokens ∧ tokens.map Token.kind = ks ++ [.eof] := by
  have hcut : Cut ([] ++ text.toList) [] [placed .eof ([] ++ text.toList ++ []) []] :=
    .done (.inl .nil)
  obtain ⟨ts, hts, hcut⟩ := h [] [] _ nofun hcut
  rw [List.append_nil] at hcut
  refine ⟨ts ++ [placed .eof ([] ++ text.toList ++ []) []], ofText_eq_ok_iff.mpr hcut, ?_⟩
  rw [List.map_append, hts]
  rfl

end Token

end LetLambda
