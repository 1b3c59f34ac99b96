import LetLambda.Proofs.Reading

/-!
# Writing and reading are inverse

A term that can be written is what is read from its text, and only terms that can be written are
read from a text at all (`program_yields`). Together: `written_read_inverse`.
-/

namespace LetLambda

open Token (Kind Reads)

/-! ### Tokens of texts -/

/-- A kind of token that a text can have: integers are not negative, and names can be written. -/
def Token.Kind.IsProper : Kind → Prop
  | .int n => 0 ≤ n.toInt
  | .ident x => Name.isWritable x
  | _ => True

theorem Token.Reads.isProper {word : List Char} {kind : Kind} (h : Reads word kind) :
    kind.IsProper := by
  cases kind with
  | int n =>
    have hvalue := h.int_value.1
    show 0 ≤ n.toInt
    omega
  | ident x => exact Name.isWritable_of_reads h
  | _ => trivial

/-- The tokens of a text are such as a text can have. -/
theorem Token.ofText_isProper {text : String} {tokens : List Token}
    (h : Token.ofText text = .ok tokens) : ∀ t ∈ tokens, t.kind.IsProper := by
  intro t ht
  by_cases heof : t.kind = .eof
  · rw [heof]
    trivial
  · obtain ⟨_, _, _, _, _, hreads, _⟩ := (Token.ofText_eq_ok_iff.mp h).words t ht heof
    exact hreads.isProper

namespace Term

variable {ι : Type}

theorem bindingsPrintable_iff {bs : List (Binding (Term ι))} :
    bindingsPrintable bs = true ↔
      ∀ b ∈ bs, Name.isWritable b.name = true ∧ ∀ t ∈ b.value?, t.isPrintable = true := by
  induction bs with
  | nil => simp [bindingsPrintable]
  | cons b bs ih =>
    obtain ⟨x, value?⟩ := b
    cases value? <;> simp [bindingsPrintable, ih]

end Term

namespace Parser

variable {α β : Type}

/-! ### What a parser yields -/

/-- From tokens that a text can have, the parser yields results with property `P` only. -/
def Yields (p : Parser α) (P : α → Prop) : Prop :=
  ∀ ts, (∀ t ∈ ts, t.kind.IsProper) → ∀ a rest, p.run ts = .ok a rest →
    P a ∧ ∀ t ∈ rest, t.kind.IsProper

section Yields

variable {p : Parser α} {f : α → Parser β} {P : α → Prop} {Q : β → Prop}

theorem yields_pure {a : α} (h : P a) : Yields (pure a) P := by
  rintro ts hts _ _ ⟨⟩
  exact ⟨h, hts⟩

theorem yields_refuse {wanted : Wanted} : Yields (refuse wanted) P := nofun

theorem yields_starve : Yields starve P := nofun

/-- What the first part yields, the second part is given. -/
theorem Yields.bind (h : Yields p P) (h' : ∀ a, P a → Yields (f a) Q) : Yields (p >>= f) Q := by
  intro ts hts b rest hrun
  obtain ⟨a, mid, hp, hf⟩ := run_bind_eq_ok hrun
  obtain ⟨ha, hmid⟩ := h ts hts a mid hp
  exact h' a ha mid hmid b rest hf

theorem yields_peek : Yields peek Kind.IsProper := by
  rintro ts hts _ _ ⟨⟩
  refine ⟨?_, hts⟩
  cases ts with
  | nil => trivial
  | cons t ts => exact hts t List.mem_cons_self

theorem yields_skip : Yields skip fun _ => True := by
  rintro ts hts _ _ ⟨⟩
  exact ⟨trivial, fun t ht => hts t (List.mem_of_mem_tail ht)⟩

theorem yields_punct {mark : Punct} : Yields (punct mark) fun _ => True := by
  refine yields_peek.bind fun k _ => ?_
  split
  · exact yields_skip
  · exact yields_refuse

theorem yields_keyword {word : Keyword} : Yields (keyword word) fun _ => True := by
  refine yields_peek.bind fun k _ => ?_
  split
  · exact yields_skip
  · exact yields_refuse

theorem yields_name : Yields name fun x => Name.isWritable x = true := by
  refine yields_peek.bind fun k hk => ?_
  split
  · exact yields_skip.bind fun _ _ => yields_pure hk
  · exact yields_refuse

theorem yields_optionalName : Yields optionalName fun f? => ∀ f ∈ f?, Name.isWritable f = true := by
  refine yields_peek.bind fun k hk => ?_
  split
  · refine yields_skip.bind fun _ _ => yields_pure ?_
    rintro f ⟨⟩
    exact hk
  · exact yields_pure nofun

theorem yields_thenWord : Yields thenWord fun _ => True := by
  refine yields_peek.bind fun k _ => ?_
  split
  · exact yields_pure trivial
  · exact yields_keyword

theorem yields_items {close separator : Punct} (h : Yields p P) (n : Nat) (first : Bool) :
    Yields (items close separator p n first) fun xs => ∀ x ∈ xs, P x := by
  induction n generalizing first with
  | zero => exact yields_starve
  | succ n ih =>
    -- With or without a separator before it, an item is read next.
    have hmore : Yields (do
        if (← peek) = .punct close then return []
        else
          let x ← p
          let xs ← items close separator p n false
          return x :: xs) fun xs => ∀ x ∈ xs, P x := by
      refine yields_peek.bind fun k _ => ?_
      split
      · exact yields_pure (List.forall_mem_nil _)
      · refine h.bind fun x hx => (ih false).bind fun xs hxs => yields_pure ?_
        exact List.forall_mem_cons.mpr ⟨hx, hxs⟩
    refine yields_peek.bind fun k _ => ?_
    split
    · exact yields_pure (List.forall_mem_nil _)
    · cases first with
      | true => exact hmore
      | false => exact yields_punct.bind fun _ _ => hmore

theorem yields_delimited {n : Nat} {opening close separator : Punct} (h : Yields p P) :
    Yields (delimited n opening close separator p) fun xs => ∀ x ∈ xs, P x :=
  yields_punct.bind fun _ _ => (yields_items h n true).bind fun _ hxs =>
    yields_punct.bind fun _ _ => yields_pure hxs

end Yields

/-! ### The grammar -/

/-- The parser yields terms that can be written. -/
abbrev YieldsPrintable (p : Parser Tree) : Prop := Yields p fun t => t.isPrintable = true

theorem yields_binding {item : Parser Tree} (h : YieldsPrintable item) :
    Yields (binding item) fun b =>
      Name.isWritable b.name = true ∧ ∀ t ∈ b.value?, t.isPrintable = true := by
  refine yields_name.bind fun x hx => yields_peek.bind fun k _ => ?_
  split
  · split
    · refine yields_skip.bind fun _ _ => h.bind fun t ht => yields_pure ⟨hx, ?_⟩
      rintro t ⟨⟩
      exact ht
    · exact yields_refuse
  · exact yields_pure ⟨hx, nofun⟩

/-- A symbol that binds is that of assignment or of an operator. -/
theorem isPrintable_combine {symbol : String} {power : Nat} {left right : Tree}
    (h : bindingPower? symbol = some power) (hleft : left.isPrintable = true)
    (hright : right.isPrintable = true) : (combine symbol left right).isPrintable = true := by
  unfold bindingPower? at h
  unfold combine
  split
  · simp [Term.isPrintable, hleft, hright]
  · next hne =>
    rw [if_neg hne] at h
    obtain ⟨op, hop, -⟩ := Option.map_eq_some_iff.mp h
    simp [Term.isPrintable, hop, hleft, hright]

/-- A block makes a sequence of two terms at least. -/
theorem isPrintable_block {items : List Tree} (h : ∀ t ∈ items, t.isPrintable = true) :
    (block items).isPrintable = true := by
  rcases items with _ | ⟨t, _ | ⟨t', items⟩⟩
  · rfl
  · exact h t List.mem_cons_self
  · rw [block_of_two_le (by simp), Term.isPrintable, Bool.and_eq_true]
    exact ⟨by simp, Term.allPrintable_iff.mpr h⟩

/-- The term for a `let`, with or without a name. -/
theorem isPrintable_letTerm {f? : Option Name} {bindings : List (Binding Tree)} {body : Tree}
    (hname : ∀ f ∈ f?, Name.isWritable f = true)
    (hbindings : ∀ b ∈ bindings,
      Name.isWritable b.name = true ∧ ∀ t ∈ b.value?, t.isPrintable = true)
    (hbody : body.isPrintable = true) : (letTerm f? bindings body).isPrintable = true := by
  cases f? with
  | none =>
    rw [letTerm, Term.isPrintable, Bool.and_eq_true]
    exact ⟨Term.bindingsPrintable_iff.mpr hbindings, hbody⟩
  | some f =>
    have hdefinitions : Term.allPrintable (definitions bindings) = true := by
      rw [Term.allPrintable_iff, definitions, List.forall_mem_map]
      intro b hb
      cases hvalue : b.value? with
      | none => rfl
      | some t => exact (hbindings b hb).2 t hvalue
    have hnames : ∀ b ∈ bindings, Name.isWritable b.name = true := fun b hb => (hbindings b hb).1
    simpa [letTerm, Term.isPrintable, hdefinitions, hbody, hname f rfl] using hnames

/-- With depth `n` the parsers of the grammar yield terms that can be written. -/
structure Printables (n : Nat) : Prop where
  expression : YieldsPrintable (expression n)
  operators : ∀ t floor, t.isPrintable = true → YieldsPrintable (operators n t floor)
  calls : ∀ t, t.isPrintable = true → YieldsPrintable (calls n t)
  atom : YieldsPrintable (atom n)
  primary : YieldsPrintable (primary n)

section Grammar

variable {n : Nat}

theorem Printables.zero : Printables 0 where
  expression := yields_starve
  operators _ _ _ := yields_starve
  calls _ _ := yields_starve
  atom := yields_starve
  primary := yields_starve

theorem yields_expression (h : Printables n) : YieldsPrintable (expression (n + 1)) := by
  rw [expression]
  exact h.atom.bind fun t ht => (h.operators t 0 ht).bind fun t' ht' => h.calls t' ht'

theorem yields_operators (h : Printables n) (t : Tree) (floor : Nat) (ht : t.isPrintable = true) :
    YieldsPrintable (operators (n + 1) t floor) := by
  rw [operators]
  refine yields_peek.bind fun k _ => ?_
  split
  · split
    · exact yields_pure ht
    · next power hpower =>
      split
      · exact yields_pure ht
      · refine yields_skip.bind fun _ _ => h.atom.bind fun operand hoperand => ?_
        refine (h.operators operand power hoperand).bind fun right hright => ?_
        exact h.operators _ floor (isPrintable_combine hpower ht hright)
  · exact yields_pure ht

theorem yields_calls (h : Printables n) (t : Tree) (ht : t.isPrintable = true) :
    YieldsPrintable (calls (n + 1) t) := by
  rw [calls]
  refine yields_peek.bind fun k _ => ?_
  split
  · refine (yields_delimited h.expression).bind fun args hargs => h.calls _ ?_
    rw [Term.isPrintable, Bool.and_eq_true]
    exact ⟨ht, Term.allPrintable_iff.mpr hargs⟩
  · exact yields_pure ht

theorem yields_primary (h : Printables n) : YieldsPrintable (primary (n + 1)) := by
  rw [primary]
  refine yields_peek.bind fun k hk => ?_
  split
  -- a bracketed expression
  · exact yields_skip.bind fun _ _ => h.expression.bind fun t ht =>
      yields_punct.bind fun _ _ => yields_pure ht
  -- a block
  · exact (yields_delimited h.expression).bind fun items hitems =>
      yields_pure (isPrintable_block hitems)
  -- a negation
  · exact yields_skip.bind fun _ _ => h.expression.bind fun t ht => yields_pure ht
  -- a declaration
  · exact yields_skip.bind fun _ _ => yields_optionalName.bind fun f? hname =>
      (yields_delimited (yields_binding h.expression)).bind fun bindings hbindings =>
        h.expression.bind fun body hbody => yields_pure (isPrintable_letTerm hname hbindings hbody)
  -- a conditional
  · refine yields_skip.bind fun _ _ => h.expression.bind fun test htest =>
      yields_thenWord.bind fun _ _ => h.expression.bind fun consequent hconsequent =>
        yields_peek.bind fun k _ => ?_
    split
    · refine yields_skip.bind fun _ _ => h.expression.bind fun alternative halternative => ?_
      exact yields_pure (by simp [Term.isPrintable, htest, hconsequent, halternative])
    · exact yields_pure (by simp [Term.isPrintable, htest, hconsequent])
  · exact yields_skip.bind fun _ _ => yields_pure rfl
  · exact yields_skip.bind fun _ _ => yields_pure rfl
  -- a function
  · refine yields_skip.bind fun _ _ => yields_optionalName.bind fun f? hname =>
      (yields_delimited yields_name).bind fun params hparams =>
        h.expression.bind fun body hbody => yields_pure ?_
    cases f? with
    | none => simpa [Term.isPrintable, hbody] using hparams
    | some f => simpa [Term.isPrintable, hbody, hname f rfl] using hparams
  · exact yields_skip.bind fun _ _ => yields_pure hk
  · exact yields_skip.bind fun _ _ => yields_pure (decide_eq_true hk)
  · exact yields_skip.bind fun _ _ => yields_pure rfl
  · exact yields_refuse

theorem printables (n : Nat) : Printables n := by
  induction n with
  | zero => exact .zero
  | succ n ih =>
    exact { expression := yields_expression ih
            operators := yields_operators ih
            calls := yields_calls ih
            atom := ih.primary.bind fun t ht => ih.calls t ht
            primary := yields_primary ih }

/-- **Only terms that can be written are read.** -/
theorem program_yields (n : Nat) :
    Yields (program n) fun items => ∀ t ∈ items, t.isPrintable = true := by
  induction n with
  | zero => exact yields_starve
  | succ n ih =>
    rw [program]
    refine yields_peek.bind fun k _ => ?_
    split
    · exact yields_pure (List.forall_mem_nil _)
    · refine (printables n).expression.bind fun t ht => yields_peek.bind fun k _ => ?_
      have hmore : Yields (do
          let ts ← program n
          return t :: ts) fun items => ∀ t ∈ items, t.isPrintable = true :=
        ih.bind fun ts hts => yields_pure (List.forall_mem_cons.mpr ⟨ht, hts⟩)
      split
      · exact hmore
      · exact yields_punct.bind fun _ _ => hmore

end Grammar

end Parser

theorem Tree.isPrintable_of_ofText {text : String} {tree : Tree} (h : ofText text = .ok tree) :
    ∃ items, tree = .seq items ∧ ∀ t ∈ items, t.isPrintable = true := by
  obtain ⟨tokens, htokens, htree⟩ := ofText_eq_ok_iff.mp h
  obtain ⟨items, rest, hrun, rfl⟩ := ofTokens_eq_ok_iff.mp htree
  have hyields := Parser.program_yields (Parser.depthBound tokens) tokens
    (Token.ofText_isProper htokens) items rest hrun
  exact ⟨items, rfl, hyields.1⟩

/-- Writing and reading are inverse. A term that can be written is what is read from its text. What
is read from a text is a sequence of terms that can be written, so each of them is read again from
its own text; from the text of the whole sequence, that of no terms gives `false`, that of one term
that term, and a longer one itself. -/
theorem written_read_inverse :
    (∀ t : Tree, t.isPrintable = true → Tree.ofText t.text = .ok (.seq [t])) ∧
    ∀ text tree, Tree.ofText text = .ok tree →
      ∃ items, tree = .seq items ∧
        (∀ t ∈ items, t.isPrintable = true ∧ Tree.ofText t.text = .ok (.seq [t])) ∧
        (items = [] → Tree.ofText tree.text = .ok (.seq [.bool false])) ∧
        (∀ t, items = [t] → Tree.ofText tree.text = .ok (.seq [t])) ∧
        (2 ≤ items.length → Tree.ofText tree.text = .ok (.seq [.seq items])) := by
  refine ⟨fun t => Tree.ofText_text, fun text tree h => ?_⟩
  obtain ⟨items, rfl, hitems⟩ := Tree.isPrintable_of_ofText h
  have hwhole := Tree.ofText_text_seq (Term.allPrintable_iff.mpr hitems)
  refine ⟨items, rfl, fun t ht => ⟨hitems t ht, Tree.ofText_text (hitems t ht)⟩, ?_, ?_, ?_⟩
  · rintro rfl
    exact hwhole
  · rintro t rfl
    exact hwhole
  · intro htwo
    rw [hwhole, Parser.block_of_two_le htwo]

/-- A term with a node of every kind. -/
def everyKind : Tree :=
  .call (.function () (some "loop") ["i", "_n0"]
    (.conditional (.binary "<=" (.var "i") (.int 10))
      (.seq [.assign (.var "s") (.str "a \"quoted\\ \n end"), .negate (.call (.var "loop") [])])
      none))
    [.declare [⟨"x", none⟩, ⟨"y", some (.bool true)⟩]
      (.conditional (.var "x") (.var "y") (some (.int 9223372036854775807))), .bool false]

/-- The terms of a text that leaves out most brackets. -/
def fewBrackets : List Tree :=
  [.conditional (.var "a") (.seq [.int 1, .negate (.var "b")])
    (some (.call (.function () (some "f") ["i", "j"]
      (.call (.call (.var "f") [.var "i"]) [.str "q\""])) [.int 0, .bool false])), .var "y"]

theorem written_read_inverse_fewBrackets :
    everyKind.isPrintable = true ∧ Tree.ofText everyKind.text = .ok (.seq [everyKind]) ∧
    Tree.ofText "if a then \x7b1; !b\x7d else let f (i = 0, j) f(i)(\"q\\\"\"); y" =
      .ok (.seq fewBrackets) ∧
    Tree.ofText (Term.text (.seq fewBrackets)) = .ok (.seq [.seq fewBrackets]) := by
  have heveryKind : everyKind.isPrintable = true := by decide
  have hread : Tree.ofText "if a then \x7b1; !b\x7d else let f (i = 0, j) f(i)(\"q\\\"\"); y" =
      .ok (.seq fewBrackets) := by decide +kernel
  refine ⟨heveryKind, written_read_inverse.1 everyKind heveryKind, hread, ?_⟩
  obtain ⟨items, hitems, -, -, -, htwo⟩ := written_read_inverse.2 _ _ hread
  cases hitems
  exact htwo (by decide)

end LetLambda
