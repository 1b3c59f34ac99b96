import LetLambda.Proofs.OrderSafety
import LetLambda.Proofs.Reading
import Mathlib.Algebra.Order.Group.Multiset

/-!
# Nothing is lost in reading

A token may bring in an integer, a string, a name, an operator or a negation, and a tree is made of
just these. Reading puts each of them into the tree once and adds none: the pieces that the tokens
of a program bring in, up to the end of input, are the pieces that the tree holds, each as often
(`ofTokens_conserves`). They may stand in another order in the tree, since a `let` with a name has
all its names before all its definitions.

A parser is followed with the pieces in view that are at hand when it is started: they and the
pieces of the tokens that it passes over make up what its result holds (`Carries`).
-/

namespace LetLambda

open Token (Kind)

/-! ### Pieces -/

/-- What a token may bring in and a tree may hold. -/
inductive Piece where
  | int (value : Int64)
  | str (value : String)
  | name (x : Name)
  | operator (symbol : String)
  | negation
deriving DecidableEq, Repr

/-- The pieces that a token brings in. The symbol of assignment is none. -/
def Token.Kind.pieces : Kind → List Piece
  | .int n => [.int n]
  | .str s => [.str s]
  | .ident x => [.name x]
  | .operator symbol =>
    if symbol = assignSymbol then [] else if symbol = "!" then [.negation] else [.operator symbol]
  | .keyword _ | .punct _ | .eof => []

/-- The pieces that a tree itself holds, apart from its parts. -/
def Term.ownPieces : Tree → List Piece
  | int n => [.int n]
  | str s => [.str s]
  | binary op _ _ => [.operator op]
  | negate _ => [.negation]
  | t => t.ownNames.map .name

/-- The pieces that tokens bring in. -/
def brought (ts : List Token) : Multiset Piece := ↑(ts.flatMap fun t => t.kind.pieces)

/-- The pieces that a tree holds. -/
def Term.pieces (t : Tree) : Multiset Piece := ↑(t.subterms.flatMap ownPieces)

/-- The pieces that a binding holds. -/
def Binding.pieces (b : Binding Tree) : Multiset Piece :=
  {.name b.name} + (b.value?.map Term.pieces).getD 0

theorem brought_append (ts us : List Token) : brought (ts ++ us) = brought ts + brought us := by
  simp [brought]

theorem sum_map_singleton_name (xs : List Name) :
    (xs.map fun x => ({.name x} : Multiset Piece)).sum = ↑(xs.map Piece.name) := by
  induction xs with
  | nil => rfl
  | cons x xs ih =>
    rw [List.map_cons, List.sum_cons, ih]
    rfl

namespace Term

theorem coe_partsAll (ts : List Tree) :
    (↑((partsAll true ts).flatMap ownPieces) : Multiset Piece) = (ts.map pieces).sum := by
  induction ts with
  | nil => rfl
  | cons t ts ih =>
    rw [partsAll, List.flatMap_append, ← Multiset.coe_add, ih, List.map_cons, List.sum_cons]
    rfl

theorem coe_partsBindings (bs : List (Binding Tree)) :
    (↑(bs.map fun b => Piece.name b.name) : Multiset Piece) +
      ↑((partsBindings true bs).flatMap ownPieces) = (bs.map Binding.pieces).sum := by
  induction bs with
  | nil => rfl
  | cons b bs ih =>
    obtain ⟨x, t?⟩ := b
    rw [List.map_cons, List.map_cons, List.sum_cons, ← ih, ← Multiset.cons_coe,
      ← Multiset.singleton_add]
    cases t? with
    | none => simp [partsBindings, Binding.pieces]
    | some t =>
      have hparts : (↑((partsBindings true (⟨x, some t⟩ :: bs)).flatMap ownPieces) :
          Multiset Piece) = t.pieces + ↑((partsBindings true bs).flatMap ownPieces) := by
        rw [partsBindings, List.flatMap_append, ← Multiset.coe_add]
        rfl
      rw [hparts]
      exact add_add_add_comm ..

variable {op : String} {x : Name} {target value left right body callee test consequent : Tree}

@[simp]
theorem pieces_bool (b : Bool) : (bool b : Tree).pieces = 0 := rfl

@[simp]
theorem pieces_assign : (assign target value).pieces = target.pieces + value.pieces := by
  simp [pieces, subterms, parts, ownPieces, ownNames]

@[simp]
theorem pieces_binary :
    (binary op left right).pieces = {.operator op} + left.pieces + right.pieces := by
  simp [pieces, subterms, parts, ownPieces]

@[simp]
theorem pieces_negate : (negate body).pieces = {.negation} + body.pieces := by
  simp [pieces, subterms, parts, ownPieces]

@[simp]
theorem pieces_seq (items : List Tree) : (seq items).pieces = (items.map pieces).sum := by
  rw [← coe_partsAll]
  rfl

@[simp]
theorem pieces_call (args : List Tree) :
    (call callee args).pieces = callee.pieces + (args.map pieces).sum := by
  rw [← coe_partsAll]
  simp [pieces, subterms, parts, ownPieces, ownNames]

@[simp]
theorem pieces_function (name? : Option Name) (params : List Name) :
    (function () name? params body : Tree).pieces =
      ↑((name?.toList ++ params).map Piece.name) + body.pieces := by
  simp [pieces, subterms, parts, ownPieces, ownNames]

@[simp]
theorem pieces_conditional :
    (conditional test consequent none).pieces = test.pieces + consequent.pieces := by
  simp [pieces, subterms, parts, ownPieces, ownNames]

@[simp]
theorem pieces_conditional_else (alternative : Tree) :
    (conditional test consequent (some alternative)).pieces =
      test.pieces + consequent.pieces + alternative.pieces := by
  simp [pieces, subterms, parts, ownPieces, ownNames]

@[simp]
theorem pieces_declare (bs : List (Binding Tree)) :
    (declare bs body).pieces = (bs.map Binding.pieces).sum + body.pieces := by
  rw [← coe_partsBindings]
  simp [pieces, subterms, parts, ownPieces, ownNames, Function.comp_def]

end Term

namespace Parser

variable {α β : Type}

/-! ### What the grammar makes of pieces -/

theorem pieces_block (items : List Tree) : (block items).pieces = (items.map Term.pieces).sum := by
  rcases items with _ | ⟨t, _ | ⟨t', items⟩⟩
  · rfl
  · simp [block]
  · simp [block]

/-- A symbol that binds is not that of negation. -/
theorem pieces_combine {symbol : String} {power : Nat} (h : bindingPower? symbol = some power)
    (left right : Tree) :
    (combine symbol left right).pieces =
      left.pieces + ↑(Kind.operator symbol).pieces + right.pieces := by
  by_cases hassign : symbol = assignSymbol
  · simp [combine, Kind.pieces, hassign]
  · have hnot : symbol ≠ "!" := by
      rintro rfl
      have hnone : bindingPower? "!" = none := by decide
      cases hnone.symm.trans h
    simp [combine, Kind.pieces, hassign, hnot, add_comm]

/-- The pieces of bindings are their names and the pieces of their definitions. -/
theorem pieces_definitions (bs : List (Binding Tree)) :
    (↑(bs.map fun b => Piece.name b.name) : Multiset Piece) +
      ((definitions bs).map Term.pieces).sum = (bs.map Binding.pieces).sum := by
  induction bs with
  | nil => rfl
  | cons b bs ih =>
    have hvalue : (b.value?.getD .absent).pieces = (b.value?.map Term.pieces).getD 0 := by
      cases b.value? <;> rfl
    calc (↑((b :: bs).map fun b => Piece.name b.name) : Multiset Piece) +
          ((definitions (b :: bs)).map Term.pieces).sum
      _ = {.name b.name} + ↑(bs.map fun b => Piece.name b.name) +
          ((b.value?.map Term.pieces).getD 0 + ((definitions bs).map Term.pieces).sum) := by
        rw [← hvalue]
        rfl
      _ = b.pieces + (bs.map Binding.pieces).sum := by
        rw [add_add_add_comm, ih]
        rfl
      _ = ((b :: bs).map Binding.pieces).sum := by rw [List.map_cons, List.sum_cons]

/-- With a name the names that are bound are parameters, and their definitions are arguments. -/
theorem pieces_letTerm (f? : Option Name) (bs : List (Binding Tree)) (body : Tree) :
    (letTerm f? bs body).pieces =
      ↑(f?.toList.map Piece.name) + (bs.map Binding.pieces).sum + body.pieces := by
  cases f? with
  | none => simp [letTerm]
  | some f =>
    rw [← pieces_definitions]
    simp [letTerm, Function.comp_def, add_comm, add_left_comm]

/-! ### Parsers that carry pieces -/

/-- The tokens `ts` go on with `rest` after some that bring in `m`, none of them the end of
input. -/
def Passed (ts rest : List Token) (m : Multiset Piece) : Prop :=
  ∃ used, ts = used ++ rest ∧ (∀ t ∈ used, t.kind ≠ .eof) ∧ brought used = m

/-- On tokens with property `S` the parser, started with the pieces `m` at hand, has in the end the
pieces `held a` at hand, where `a` is its result: those that it had and those that it passed over.
-/
def CarriesOn (S : List Token → Prop) (p : Parser α) (m : Multiset Piece)
    (held : α → Multiset Piece) : Prop :=
  ∀ ts, S ts → ∀ a rest, p.run ts = .ok a rest → ∃ m', Passed ts rest m' ∧ m + m' = held a

/-- On any tokens. -/
abbrev Carries (p : Parser α) (m : Multiset Piece) (held : α → Multiset Piece) : Prop :=
  CarriesOn (fun _ => True) p m held

/-- On tokens with one of kind `k` ahead. -/
abbrev CarriesAt (k : Kind) (p : Parser α) (m : Multiset Piece) (held : α → Multiset Piece) :
    Prop :=
  CarriesOn (fun ts => kindAhead ts = k) p m held

/-- The parser passes over the pieces that its result holds. -/
abbrev Gathers (p : Parser α) (held : α → Multiset Piece) : Prop :=
  ∀ m, Carries p m fun a => m + held a

theorem Passed.refl {ts : List Token} : Passed ts ts 0 := ⟨[], rfl, nofun, rfl⟩

theorem Passed.trans {ts mid rest : List Token} {m m' : Multiset Piece} (h : Passed ts mid m)
    (h' : Passed mid rest m') : Passed ts rest (m + m') := by
  obtain ⟨used, rfl, hused, rfl⟩ := h
  obtain ⟨used', rfl, hused', rfl⟩ := h'
  refine ⟨used ++ used', (List.append_assoc ..).symm, ?_, brought_append used used'⟩
  intro t ht
  exact (List.mem_append.mp ht).elim (hused t) (hused' t)

section Carries

variable {S : List Token → Prop} {p : Parser α} {f : α → Parser β} {m : Multiset Piece}
  {held : α → Multiset Piece} {held' : β → Multiset Piece}

theorem carries_pure {a : α} (h : m = held a) : CarriesOn S (pure a) m held := by
  rintro ts - _ _ ⟨⟩
  exact ⟨0, .refl, by rw [add_zero, h]⟩

theorem carries_refuse {wanted : Wanted} : CarriesOn S (refuse wanted) m held := nofun

theorem carries_starve : CarriesOn S starve m held := nofun

/-- What the first part has in the end, the second part has at hand. -/
theorem CarriesOn.bind (h : CarriesOn S p m held) (h' : ∀ a, Carries (f a) (held a) held') :
    CarriesOn S (p >>= f) m held' := by
  intro ts hts b rest hrun
  obtain ⟨a, mid, hp, hf⟩ := run_bind_eq_ok hrun
  obtain ⟨m₁, hpassed, hm₁⟩ := h ts hts a mid hp
  obtain ⟨m₂, hpassed', hm₂⟩ := h' a mid trivial b rest hf
  exact ⟨m₁ + m₂, hpassed.trans hpassed', by rw [← add_assoc, hm₁, hm₂]⟩

theorem CarriesOn.weaken (h : Carries p m held) : CarriesOn S p m held :=
  fun ts _ => h ts trivial

/-- What is done after a look at the token ahead is done with that token ahead. -/
theorem carries_peek {f : Kind → Parser α} (h : ∀ k, CarriesAt k (f k) m held) :
    Carries (peek >>= f) m held :=
  fun ts _ => h (kindAhead ts) ts rfl

theorem carries_skip {k : Kind} (h : k ≠ .eof) : CarriesAt k skip m fun _ => m + ↑k.pieces := by
  rintro ts hk _ _ ⟨⟩
  cases ts with
  | nil => exact absurd hk.symm h
  | cons t ts =>
    obtain rfl : t.kind = k := hk
    exact ⟨_, ⟨[t], rfl, by simpa using h, rfl⟩, by simp [brought]⟩

/-- A token is passed over, and what it brings in is at hand from then on. -/
theorem carries_take {k : Kind} {f : Unit → Parser α} (hk : k ≠ .eof)
    (h : Carries (f ()) (m + ↑k.pieces) held) : CarriesAt k (skip >>= f) m held :=
  (carries_skip hk).bind fun _ => h

/-- A token that brings in nothing is passed over. -/
theorem carries_pass {k : Kind} {f : Unit → Parser α} (hk : k ≠ .eof) (hpieces : k.pieces = [])
    (h : Carries (f ()) m held) : CarriesAt k (skip >>= f) m held :=
  carries_take hk (by simpa [hpieces] using h)

theorem carries_punct {mark : Punct} : Carries (punct mark) m fun _ => m := by
  refine carries_peek fun k => ?_
  split
  · next hk =>
    subst hk
    simpa [Kind.pieces] using carries_skip (k := .punct mark) (m := m) nofun
  · exact carries_refuse

theorem carries_keyword {word : Keyword} : Carries (keyword word) m fun _ => m := by
  refine carries_peek fun k => ?_
  split
  · next hk =>
    subst hk
    simpa [Kind.pieces] using carries_skip (k := .keyword word) (m := m) nofun
  · exact carries_refuse

theorem carries_thenWord : Carries thenWord m fun _ => m := by
  refine carries_peek fun k => ?_
  split
  · exact carries_pure rfl
  · exact carries_keyword.weaken

theorem gathers_name : Gathers name fun x => {.name x} := by
  intro m
  refine carries_peek fun k => ?_
  split
  · exact carries_take (by simp) (carries_pure rfl)
  · exact carries_refuse

theorem gathers_optionalName : Gathers optionalName fun f? => ↑(f?.toList.map Piece.name) := by
  intro m
  refine carries_peek fun k => ?_
  split
  · exact carries_take (by simp) (carries_pure rfl)
  · exact carries_pure (by simp)

theorem gathers_items {close separator : Punct} (h : Gathers p held) (n : Nat) (first : Bool) :
    Gathers (items close separator p n first) fun xs => (xs.map held).sum := by
  induction n generalizing first with
  | zero => exact fun _ => carries_starve
  | succ n ih =>
    intro m
    -- With or without a separator before it, an item is read next.
    have hmore : Carries (do
        if (← peek) = .punct close then return []
        else
          let x ← p
          let xs ← items close separator p n false
          return x :: xs) m fun xs => m + (xs.map held).sum := by
      refine carries_peek fun k => ?_
      split
      · exact carries_pure (by simp)
      · refine (h m).weaken.bind fun x => (ih false _).bind fun xs => carries_pure ?_
        rw [List.map_cons, List.sum_cons, add_assoc]
    refine carries_peek fun k => ?_
    split
    · exact carries_pure (by simp)
    · cases first with
      | true => exact hmore.weaken
      | false => exact carries_punct.weaken.bind fun _ => hmore

theorem gathers_delimited {n : Nat} {opening close separator : Punct} (h : Gathers p held) :
    Gathers (delimited n opening close separator p) fun xs => (xs.map held).sum := by
  intro m
  exact carries_punct.bind fun _ => (gathers_items h n true m).bind fun _ =>
    carries_punct.bind fun _ => carries_pure rfl

end Carries

/-! ### The grammar -/

theorem gathers_binding {item : Parser Tree} (h : Gathers item Term.pieces) :
    Gathers (binding item) Binding.pieces := by
  intro m
  refine (gathers_name m).bind fun x => carries_peek fun k => ?_
  split
  · split
    · next hassign =>
      refine carries_pass (by simp) (by simp [Kind.pieces, hassign]) ?_
      refine (h _).bind fun t => carries_pure ?_
      simp [Binding.pieces, add_assoc]
    · exact carries_refuse
  · exact carries_pure (by simp [Binding.pieces])

/-- With depth `n` the parsers of the grammar gather the pieces of the tree that they make, where
those of an operand or a callee that they are given are at hand already. -/
structure Gatherers (n : Nat) : Prop where
  expression : Gathers (expression n) Term.pieces
  operators : ∀ t floor m, Carries (operators n t floor) (m + t.pieces) fun t' => m + t'.pieces
  calls : ∀ t m, Carries (calls n t) (m + t.pieces) fun t' => m + t'.pieces
  atom : Gathers (atom n) Term.pieces
  primary : Gathers (primary n) Term.pieces

section Grammar

variable {n : Nat}

theorem Gatherers.zero : Gatherers 0 where
  expression _ := carries_starve
  operators _ _ _ := carries_starve
  calls _ _ := carries_starve
  atom _ := carries_starve
  primary _ := carries_starve

theorem gathers_expression (h : Gatherers n) : Gathers (expression (n + 1)) Term.pieces := by
  intro m
  rw [expression]
  exact (h.atom m).bind fun t => (h.operators t 0 m).bind fun t' => h.calls t' m

theorem carries_operators (h : Gatherers n) (t : Tree) (floor : Nat) (m : Multiset Piece) :
    Carries (operators (n + 1) t floor) (m + t.pieces) fun t' => m + t'.pieces := by
  rw [operators]
  refine carries_peek fun k => ?_
  split
  · next symbol =>
    split
    · exact carries_pure rfl
    · next power hpower =>
      split
      · exact carries_pure rfl
      · refine carries_take (by simp) ((h.atom _).bind fun operand => ?_)
        refine (h.operators operand power _).bind fun right => ?_
        -- The operand to the left was at hand; the symbol and the right one have been passed over.
        have hcombine := h.operators (combine symbol t right) floor m
        rwa [pieces_combine hpower, ← add_assoc, ← add_assoc] at hcombine
  · exact carries_pure rfl

theorem carries_calls (h : Gatherers n) (t : Tree) (m : Multiset Piece) :
    Carries (calls (n + 1) t) (m + t.pieces) fun t' => m + t'.pieces := by
  rw [calls]
  refine carries_peek fun k => ?_
  split
  · refine (gathers_delimited h.expression _).weaken.bind fun args => ?_
    have hcall := h.calls (.call t args) m
    rwa [Term.pieces_call, ← add_assoc] at hcall
  · exact carries_pure rfl

theorem gathers_primary (h : Gatherers n) : Gathers (primary (n + 1)) Term.pieces := by
  intro m
  rw [primary]
  refine carries_peek fun k => ?_
  split
  -- a bracketed expression
  · refine carries_pass (by simp) rfl ((h.expression m).bind fun t => ?_)
    exact carries_punct.bind fun _ => carries_pure rfl
  -- a block
  · refine (gathers_delimited h.expression m).weaken.bind fun items => carries_pure ?_
    rw [pieces_block]
  -- a negation
  · refine carries_take (by simp) ((h.expression _).bind fun t => carries_pure ?_)
    rw [Term.pieces_negate, ← add_assoc]
    rfl
  -- a declaration
  · refine carries_pass (by simp) rfl ((gathers_optionalName m).bind fun f? => ?_)
    refine (gathers_delimited (gathers_binding h.expression) _).bind fun bs => ?_
    refine (h.expression _).bind fun body => carries_pure ?_
    simp only [pieces_letTerm, add_assoc]
  -- a conditional
  · refine carries_pass (by simp) rfl ((h.expression m).bind fun test => ?_)
    refine carries_thenWord.bind fun _ => (h.expression _).bind fun consequent => ?_
    refine carries_peek fun k => ?_
    split
    · next helse =>
      subst helse
      refine carries_pass (by simp) rfl ((h.expression _).bind fun alternative => carries_pure ?_)
      simp only [Term.pieces_conditional_else, add_assoc]
    · exact carries_pure (by simp only [Term.pieces_conditional, add_assoc])
  · exact carries_pass (by simp) rfl (carries_pure (by simp))
  · exact carries_pass (by simp) rfl (carries_pure (by simp))
  -- a function
  · refine carries_pass (by simp) rfl ((gathers_optionalName m).bind fun f? => ?_)
    refine (gathers_delimited gathers_name _).bind fun params => ?_
    refine (h.expression _).bind fun body => carries_pure ?_
    simp only [Term.pieces_function, List.map_append, ← Multiset.coe_add, sum_map_singleton_name,
      add_assoc]
  -- a name, a number or a string
  · exact carries_take (by simp) (carries_pure rfl)
  · exact carries_take (by simp) (carries_pure rfl)
  · exact carries_take (by simp) (carries_pure rfl)
  · exact carries_refuse

theorem gatherers (n : Nat) : Gatherers n := by
  induction n with
  | zero => exact .zero
  | succ n ih =>
    exact { expression := gathers_expression ih
            operators := carries_operators ih
            calls := carries_calls ih
            atom := fun m => (ih.primary m).bind fun t => ih.calls t m
            primary := gathers_primary ih }

theorem gathers_program (n : Nat) :
    Gathers (program n) fun items => (items.map Term.pieces).sum := by
  induction n with
  | zero => exact fun _ => carries_starve
  | succ n ih =>
    intro m
    rw [program]
    refine carries_peek fun k => ?_
    split
    · exact carries_pure (by simp)
    · refine ((gatherers n).expression m).weaken.bind fun t => carries_peek fun k => ?_
      have hmore : Carries (do
          let ts ← program n
          return t :: ts) (m + t.pieces) fun items => m + (items.map Term.pieces).sum := by
        refine (ih _).bind fun ts => carries_pure ?_
        rw [List.map_cons, List.sum_cons, add_assoc]
      split
      · exact hmore.weaken
      · exact carries_punct.weaken.bind fun _ => hmore

/-- A program is read up to the end of input. -/
theorem program_run_ahead (n : Nat) :
    ∀ ts items rest, (program n).run ts = .ok items rest → kindAhead rest = .eof := by
  induction n with
  | zero => exact nofun
  | succ n ih =>
    intro ts items rest hrun
    rw [program] at hrun
    obtain ⟨_, _, ⟨⟩, hrun⟩ := run_bind_eq_ok hrun
    by_cases hk : kindAhead ts = .eof
    · rw [if_pos hk] at hrun
      cases hrun
      exact hk
    · rw [if_neg hk] at hrun
      obtain ⟨t, mid, -, hrun⟩ := run_bind_eq_ok hrun
      obtain ⟨_, _, ⟨⟩, hrun⟩ := run_bind_eq_ok hrun
      -- Whether a separator follows or not, the rest of the program is read last.
      have hmore : ∀ mid', (do
          let ts ← program n
          return t :: ts : Parser (List Tree)).run mid' = .ok items rest →
            kindAhead rest = .eof := by
        intro mid' hrun
        obtain ⟨ts', rest', hts', ⟨⟩⟩ := run_bind_eq_ok hrun
        exact ih mid' ts' rest hts'
      by_cases hend : kindAhead mid = .eof
      · rw [if_pos hend] at hrun
        exact hmore mid hrun
      · rw [if_neg hend] at hrun
        obtain ⟨_, mid', -, hrun⟩ := run_bind_eq_ok hrun
        exact hmore mid' hrun

end Grammar

end Parser

/-! ### Conservation -/

/-- The kinds of the tokens up to the first end of input. -/
def Token.input (ts : List Token) : List Kind :=
  (ts.map Token.kind).takeWhile (· ≠ .eof)

/-- The tokens that are passed over up to an end of input are all the input. -/
theorem Token.input_append {used rest : List Token} (hused : ∀ t ∈ used, t.kind ≠ .eof)
    (hrest : Parser.kindAhead rest = .eof) : input (used ++ rest) = used.map Token.kind := by
  have hstop : (rest.map Token.kind).takeWhile (· ≠ .eof) = [] := by
    cases rest with
    | nil => rfl
    | cons t rest => exact List.takeWhile_cons_of_neg (by simpa [Parser.kindAhead] using hrest)
  rw [input, List.map_append, List.takeWhile_append_of_pos (by simpa using hused), hstop,
    List.append_nil]

/-- The tokens of a program bring in the pieces that its tree holds. -/
theorem Tree.input_pieces {ts : List Token} {t : Tree} (h : (Tree.ofTokens ts).1 = .ok t) :
    ((Token.input ts).flatMap Kind.pieces).Perm (t.subterms.flatMap Term.ownPieces) := by
  obtain ⟨items, rest, hrun, rfl⟩ := Tree.ofTokens_eq_ok_iff.mp h
  have heof := Parser.program_run_ahead _ ts items rest hrun
  obtain ⟨_, ⟨used, rfl, hused, rfl⟩, hm⟩ := Parser.gathers_program _ 0 ts trivial items rest hrun
  rw [Token.input_append hused heof, List.flatMap_map, ← Multiset.coe_eq_coe]
  have hheld : brought used = (Term.seq items).pieces := by simpa using hm
  exact hheld

/-! What can be seen of a token, of a node of a tree and of a piece. -/

namespace Token.Kind

def int? : Kind → Option Int64
  | .int n => some n
  | _ => none

def str? : Kind → Option String
  | .str s => some s
  | _ => none

def name? : Kind → Option Name
  | .ident x => some x
  | _ => none

def symbol? : Kind → Option String
  | .operator symbol => some symbol
  | _ => none

end Token.Kind

namespace Term

def int? : Tree → Option Int64
  | int n => some n
  | _ => none

def str? : Tree → Option String
  | str s => some s
  | _ => none

def operator? : Tree → Option String
  | binary op _ _ => some op
  | _ => none

def isNegation : Tree → Bool
  | negate _ => true
  | _ => false

end Term

namespace Piece

def int? : Piece → Option Int64
  | int n => some n
  | _ => none

def str? : Piece → Option String
  | str s => some s
  | _ => none

def name? : Piece → Option Name
  | name x => some x
  | _ => none

def operator? : Piece → Option String
  | operator symbol => some symbol
  | _ => none

def negation? : Piece → Option Unit
  | negation => some ()
  | _ => none

end Piece

section Views

variable {β : Type} {ts : List Token} {t : Tree} {view : Piece → Option β}
  {ofKind : Kind → Option β} {ofNode : Tree → List β}

/-- What `view` sees of the pieces is `ofKind` of a token and `ofNode` of a node. -/
structure Shows (view : Piece → Option β) (ofKind : Kind → Option β) (ofNode : Tree → List β) :
    Prop where
  kind : ∀ k, k.pieces.filterMap view = (ofKind k).toList
  node : ∀ s, s.ownPieces.filterMap view = ofNode s

/-- What is seen of pieces is conserved with them. -/
theorem Shows.conserved (hshows : Shows view ofKind ofNode) (h : (Tree.ofTokens ts).1 = .ok t) :
    (↑((Token.input ts).filterMap ofKind) : Multiset β) = ↑(t.subterms.flatMap ofNode) := by
  have hviewed := (Tree.input_pieces h).filterMap view
  rw [List.filterMap_flatMap, List.filterMap_flatMap] at hviewed
  simp only [hshows.kind, hshows.node, ← List.filterMap_eq_flatMap_toList] at hviewed
  exact Multiset.coe_eq_coe.mpr hviewed

open Term (ownPieces ownNames)

theorem shows_int : Shows Piece.int? Kind.int? fun s => s.int?.toList where
  kind k := by cases k <;> grind [Kind.pieces, Piece.int?, Kind.int?]
  node s := by cases s <;> simp [ownPieces, ownNames, Piece.int?, Term.int?, Function.comp_def]

theorem shows_str : Shows Piece.str? Kind.str? fun s => s.str?.toList where
  kind k := by cases k <;> grind [Kind.pieces, Piece.str?, Kind.str?]
  node s := by cases s <;> simp [ownPieces, ownNames, Piece.str?, Term.str?, Function.comp_def]

theorem shows_name : Shows Piece.name? Kind.name? ownNames where
  kind k := by cases k <;> grind [Kind.pieces, Piece.name?, Kind.name?]
  node s := by cases s <;> simp [ownPieces, ownNames, Piece.name?, Function.comp_def]

theorem shows_operator :
    Shows Piece.operator?
      (fun k => k.symbol?.filter fun symbol => symbol ≠ "=" ∧ symbol ≠ "!")
      fun s => s.operator?.toList where
  kind k := by cases k <;> grind [Kind.pieces, Piece.operator?, Kind.symbol?, assignSymbol]
  node s := by
    cases s <;> simp [ownPieces, ownNames, Piece.operator?, Term.operator?, Function.comp_def]

theorem shows_negation :
    Shows Piece.negation? (fun k => if k = .operator "!" then some () else none)
      fun s => (if s.isNegation then some () else none).toList where
  kind k := by cases k <;> grind [Kind.pieces, Piece.negation?, assignSymbol]
  node s := by
    cases s <;> simp [ownPieces, ownNames, Piece.negation?, Term.isNegation, Function.comp_def]

/-- **Nothing is lost and nothing is added in reading.** If a program is read from tokens, then of
their input, up to the first end of input, the integers are those of the tree's literals, each as
often; so are the strings; the names are those that stand anywhere in the tree; the operators are
those of its binary nodes; and there is a negation for each of its symbols. -/
theorem ofTokens_conserves (h : (Tree.ofTokens ts).1 = .ok t) :
    (↑((Token.input ts).filterMap Kind.int?) : Multiset Int64) = ↑(t.subterms.filterMap Term.int?) ∧
    (↑((Token.input ts).filterMap Kind.str?) : Multiset String) =
      ↑(t.subterms.filterMap Term.str?) ∧
    (↑((Token.input ts).filterMap Kind.name?) : Multiset Name) = ↑(t.subterms.flatMap ownNames) ∧
    (↑(((Token.input ts).filterMap Kind.symbol?).filter fun symbol =>
        symbol ≠ "=" ∧ symbol ≠ "!") : Multiset String) = ↑(t.subterms.filterMap Term.operator?) ∧
    (Token.input ts).count (.operator "!") = t.subterms.countP Term.isNegation := by
  refine ⟨?_, ?_, shows_name.conserved h, ?_, ?_⟩
  · rw [List.filterMap_eq_flatMap_toList Term.int?]
    exact shows_int.conserved h
  · rw [List.filterMap_eq_flatMap_toList Term.str?]
    exact shows_str.conserved h
  · rw [List.filterMap_eq_flatMap_toList Term.operator?, List.filter_filterMap]
    exact shows_operator.conserved h
  · have hcard := congrArg Multiset.card (shows_negation.conserved h)
    rw [← List.filterMap_eq_flatMap_toList, Multiset.coe_card, Multiset.coe_card,
      List.length_filterMap_eq_countP, List.length_filterMap_eq_countP] at hcard
    simpa [List.count, apply_ite Option.isSome, beq_eq_decide] using hcard

/-- Tokens of a `let` with a name that leaves out a definition, `then` and an alternative, has a
separator too many, and is followed by an end of input and more tokens. -/
def crowded : List Token :=
  [Kind.keyword .let, .ident "f", .punct .leftParen, .ident "x", .operator "=", .int 1,
    .punct .comma, .ident "y", .punct .comma, .punct .rightParen, .keyword .if, .operator "!",
    .ident "x", .punct .leftBrace, .ident "g", .operator "=", .ident "y", .operator "*", .str "s",
    .punct .semicolon, .punct .rightBrace, .punct .semicolon, .eof, .ident "z", .int 1].map
      fun k => ⟨k, 0, 0, .origin⟩

/-- The tree that is read from them. -/
def uncrowded : Tree :=
  .seq [.call
    (.function () (some "f") ["x", "y"]
      (.conditional (.negate (.var "x"))
        (.assign (.var "g") (.binary "*" (.var "y") (.str "s"))) none))
    [.int 1, .bool false]]

theorem ofTokens_conserves_crowded :
    (Tree.ofTokens crowded).1 = .ok uncrowded ∧
    (↑["f", "x", "y", "x", "g", "y"] : Multiset Name) = ↑(uncrowded.subterms.flatMap ownNames) ∧
    (↑["*"] : Multiset String) = ↑(uncrowded.subterms.filterMap Term.operator?) ∧
    1 = uncrowded.subterms.countP Term.isNegation := by
  have hread : (Tree.ofTokens crowded).1 = .ok uncrowded := by decide +kernel
  obtain ⟨-, -, hnames, hoperators, hnegations⟩ := ofTokens_conserves hread
  exact ⟨hread, hnames, hoperators, hnegations⟩

end Views

end LetLambda
