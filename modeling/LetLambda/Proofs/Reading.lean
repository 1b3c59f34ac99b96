import LetLambda.Grammar.Program
import LetLambda.Proofs.Spelling

/-!
# Reading written terms

On the tokens of a written term the parsers make that term of them (`reads_kinds`). A parser that
has read some tokens goes on as another parser on the tokens that are left; `Becomes` says so of the
kinds of the tokens, and how a parser is put together tells how it becomes another.
-/

namespace LetLambda.Parser

open Token (Kind)

variable {α β : Type}

/-! ### What becomes of a parser -/

/-- On tokens of kinds `ks`, the parser `p` does what `q` does on tokens of kinds `ks'` that are
left of them. -/
def Becomes (p : Parser α) (ks : List Kind) (q : Parser α) (ks' : List Kind) : Prop :=
  ∀ ts, ts.map Token.kind = ks → ∃ ts', ts'.map Token.kind = ks' ∧ p.run ts = q.run ts'

/-- The first of some kinds; if there is none, the end of input. -/
def ahead (ks : List Kind) : Kind := ks.head?.getD .eof

theorem kindAhead_eq {ts : List Token} {ks : List Kind} (h : ts.map Token.kind = ks) :
    kindAhead ts = ahead ks := by
  subst h
  cases ts <;> rfl

theorem ahead_append {ks : List Kind} (h : ahead ks ≠ .eof) (after : List Kind) :
    ahead (ks ++ after) = ahead ks := by
  cases ks with
  | nil => exact absurd rfl h
  | cons => rfl

section Becomes

variable {p q r : Parser α} {ks ks' ks'' : List Kind}

theorem Becomes.refl : Becomes p ks p ks := fun ts hts => ⟨ts, hts, rfl⟩

theorem Becomes.trans (h : Becomes p ks q ks') (h' : Becomes q ks' r ks'') :
    Becomes p ks r ks'' := by
  intro ts hts
  obtain ⟨ts', hts', hp⟩ := h ts hts
  obtain ⟨ts'', hts'', hq⟩ := h' ts' hts'
  exact ⟨ts'', hts'', hp.trans hq⟩

theorem run_bind (p : Parser β) (f : β → Parser α) (ts : List Token) :
    (p >>= f).run ts = match p.run ts with
      | .ok b rest => (f b).run rest
      | .refused wanted rest => .refused wanted rest
      | .starved => .starved :=
  rfl

/-- Where a parser in two parts has a result, both parts have one. -/
theorem run_bind_eq_ok {p : Parser β} {f : β → Parser α} {ts rest : List Token} {a : α}
    (h : (p >>= f).run ts = .ok a rest) :
    ∃ b mid, p.run ts = .ok b mid ∧ (f b).run mid = .ok a rest := by
  rw [run_bind] at h
  cases hp : p.run ts with
  | ok b mid =>
    rw [hp] at h
    exact ⟨b, mid, rfl, h⟩
  | refused wanted mid =>
    rw [hp] at h
    cases h
  | starved =>
    rw [hp] at h
    cases h

/-- A parser in two parts, of which the first has made its result. -/
theorem Becomes.bind {p : Parser β} {f : β → Parser α} {b : β} (h : Becomes p ks (pure b) ks')
    (h' : Becomes (f b) ks' q ks'') : Becomes (p >>= f) ks q ks'' := by
  intro ts hts
  obtain ⟨ts', hts', hp⟩ := h ts hts
  obtain ⟨ts'', hts'', hf⟩ := h' ts' hts'
  refine ⟨ts'', hts'', ?_⟩
  rw [run_bind, hp]
  exact hf

theorem becomes_peek {f : Kind → Parser α} {k : Kind} (hk : ahead ks = k)
    (h : Becomes (f k) ks q ks') : Becomes (peek >>= f) ks q ks' := by
  refine Becomes.bind (fun ts hts => ⟨ts, hts, ?_⟩) h
  rw [← hk, ← kindAhead_eq hts]
  rfl

theorem becomes_ahead {f : Kind → Parser α} {k : Kind} (h : Becomes (f k) (k :: ks) q ks') :
    Becomes (peek >>= f) (k :: ks) q ks' :=
  becomes_peek rfl h

theorem becomes_skip {k : Kind} : Becomes skip (k :: ks) (pure ()) ks := by
  intro ts hts
  exact ⟨ts.tail, by rw [List.map_tail, hts, List.tail_cons], rfl⟩

theorem becomes_punct {mark : Punct} : Becomes (punct mark) (.punct mark :: ks) (pure ()) ks := by
  refine becomes_ahead ?_
  rw [if_pos rfl]
  exact becomes_skip

theorem becomes_keyword {word : Keyword} :
    Becomes (keyword word) (.keyword word :: ks) (pure ()) ks := by
  refine becomes_ahead ?_
  rw [if_pos rfl]
  exact becomes_skip

theorem becomes_name {x : Name} : Becomes name (.ident x :: ks) (pure x) ks :=
  becomes_ahead (becomes_skip.bind .refl)

end Becomes

/-! ### Lists -/

/-- A kind that neither goes on with an operand nor makes a call of what is before it. -/
def Closes (k : Kind) : Prop := k ≠ .punct .leftParen ∧ ∀ symbol, k ≠ .operator symbol

theorem closes_punct {mark : Punct} {ks : List Kind} (h : mark ≠ .leftParen)
    (hks : ahead ks = .punct mark) : Closes (ahead ks) := by
  rw [hks]
  exact ⟨fun heq => h (Kind.punct.inj heq), nofun⟩

theorem closes_eof : Closes (ahead [.eof]) := ⟨nofun, nofun⟩

theorem closes_keyword (word : Keyword) {ks : List Kind} : Closes (ahead (.keyword word :: ks)) :=
  ⟨nofun, nofun⟩

/-- The parser `item` makes `x` of tokens of kinds `ks`, wherever at most `n` tokens are ahead. The
first of them is none that ends a list. -/
structure ItemReads (n : Nat) (close : Punct) (item : Parser α) (x : α) (ks : List Kind) :
    Prop where
  opens : ahead ks ≠ .eof ∧ ahead ks ≠ .punct close
  becomes : ∀ after, Closes (ahead after) → (ks ++ after).length ≤ n →
    Becomes item (ks ++ after) (pure x) after

section Lists

variable {item : Parser α} {close separator : Punct} {x : α} {xs : List α} {ks : List Kind}
  {kss : List (List Kind)} {n bound : Nat} {after : List Kind}

/-- One item and then the others: what both the first item of a list and a later one lead to. -/
theorem item_becomes (h : ItemReads bound close item x ks) (hclose : Closes (ahead after))
    (hbound : (ks ++ after).length ≤ bound) {ks' : List Kind}
    (hrest : Becomes (items close separator item n false) after (pure xs) ks') :
    Becomes (do
      if (← peek) = .punct close then return []
      else
        let x ← item
        let xs ← items close separator item n false
        return x :: xs) (ks ++ after) (pure (x :: xs)) ks' := by
  refine becomes_peek (ahead_append h.opens.1 after) ?_
  rw [if_neg h.opens.2]
  exact (h.becomes after hclose hbound).bind (hrest.bind .refl)

/-- The kinds of items that follow another one. -/
def kindsRest (separator : Punct) (kss : List (List Kind)) : List Kind :=
  kss.flatMap (.punct separator :: ·)

theorem kindsRest_cons (ks : List Kind) (kss : List (List Kind)) :
    kindsRest separator (ks :: kss) = .punct separator :: (ks ++ kindsRest separator kss) :=
  List.flatMap_cons

theorem closes_kindsRest (hclose : close ≠ .leftParen) (hseparator : separator ≠ .leftParen) :
    Closes (ahead (kindsRest separator kss ++ .punct close :: after)) := by
  cases kss with
  | nil => exact closes_punct hclose rfl
  | cons => exact closes_punct hseparator rfl

/-- The items after the first one. -/
theorem items_rest_becomes (hclose : close ≠ .leftParen) (hseparator : separator ≠ .leftParen)
    (hne : separator ≠ close) (h : List.Forall₂ (ItemReads bound close item) xs kss)
    (hn : (kindsRest separator kss).length < n)
    (hbound : (kindsRest separator kss ++ .punct close :: after).length ≤ bound) :
    Becomes (items close separator item n false)
      (kindsRest separator kss ++ .punct close :: after) (pure xs) (.punct close :: after) := by
  induction h generalizing n with
  | nil =>
    cases n with
    | zero => cases hn
    | succ n =>
      refine becomes_ahead ?_
      rw [if_pos (.inr rfl)]
      exact .refl
  | @cons x ks xs kss hx hxs ih =>
    cases n with
    | zero => cases hn
    | succ n =>
      simp only [kindsRest_cons, List.cons_append, List.append_assoc, List.length_cons,
        List.length_append] at hbound hn ⊢
      -- A separator is due, and it is there.
      refine becomes_ahead ?_
      rw [if_neg (by simp [hne])]
      refine becomes_punct.bind ?_
      refine item_becomes hx (closes_kindsRest hclose hseparator) ?_ (ih (by omega) ?_)
      · simpa using by omega
      · simpa using by omega

/-- Items with separators between them are one item and the others, each after a separator. -/
theorem intercalate_eq (ks : List Kind) (kss : List (List Kind)) :
    [Kind.punct separator].intercalate (ks :: kss) = ks ++ kindsRest separator kss := by
  induction kss generalizing ks with
  | nil => simp [kindsRest]
  | cons ks' kss ih =>
    rw [List.intercalate_cons_cons, ih, kindsRest_cons, List.append_assoc]
    rfl

/-- A list between its marks. -/
theorem delimited_becomes {opening : Punct} (hclose : close ≠ .leftParen)
    (hseparator : separator ≠ .leftParen) (hne : separator ≠ close)
    (h : List.Forall₂ (ItemReads bound close item) xs kss) (hn : bound < n)
    (hbound : ([Kind.punct separator].intercalate kss ++ .punct close :: after).length ≤ bound) :
    Becomes (delimited n opening close separator item)
      (.punct opening :: ([Kind.punct separator].intercalate kss ++ .punct close :: after))
      (pure xs) after := by
  refine becomes_punct.bind (Becomes.bind ?_ (becomes_punct.bind .refl))
  cases n with
  | zero => cases hn
  | succ n =>
    cases h with
    | nil =>
      refine becomes_ahead ?_
      rw [if_pos (.inr rfl)]
      exact .refl
    | @cons x ks xs kss hx hxs =>
      rw [intercalate_eq, List.append_assoc] at hbound ⊢
      simp only [List.length_cons, List.length_append] at hbound
      have hahead := ahead_append hx.opens.1 (kindsRest separator kss ++ .punct close :: after)
      refine becomes_peek hahead ?_
      rw [if_neg (not_or.mpr hx.opens)]
      refine Becomes.refl.bind (item_becomes hx (closes_kindsRest hclose hseparator) ?_
        (items_rest_becomes hclose hseparator hne hxs (by omega) ?_))
      · simpa using by omega
      · simpa using by omega

end Lists

/-! ### Operands and expressions -/

/-- As an operand, tokens of kinds `ks` make `t`. What is left to do is to look for the argument
lists of a call. -/
structure AtomReads (ks : List Kind) (t : Tree) : Prop where
  opens : ahead ks ≠ .eof ∧ ahead ks ≠ .punct .rightParen ∧ ahead ks ≠ .punct .rightBrace
  becomes : ∀ n after, 4 * (ks ++ after).length + 2 ≤ n →
    ∃ m, 4 * after.length + 1 ≤ m ∧ Becomes (atom n) (ks ++ after) (calls m t) after

/-- As all that stands before a closing bracket, tokens of kinds `ks` make `t`. -/
def EnclosedReads (ks : List Kind) (t : Tree) : Prop :=
  ∀ n after, ahead after = .punct .rightParen → 4 * (ks ++ after).length + 3 ≤ n →
    Becomes (expression n) (ks ++ after) (pure t) after

section Expressions

variable {t : Tree} {n floor : Nat} {ks after : List Kind}

/-- Without an opening bracket ahead there is no call. -/
theorem calls_becomes (h : ahead after ≠ .punct .leftParen) (hn : 1 ≤ n) :
    Becomes (calls n t) after (pure t) after := by
  cases n with
  | zero => cases hn
  | succ n =>
    rw [calls]
    refine becomes_peek rfl ?_
    rw [if_neg h]
    exact .refl

/-- Without an operator ahead an operand stands alone. -/
theorem operators_becomes (h : ∀ symbol, ahead after ≠ .operator symbol) (hn : 1 ≤ n) :
    Becomes (operators n t floor) after (pure t) after := by
  cases n with
  | zero => cases hn
  | succ n =>
    rw [operators]
    refine becomes_peek rfl ?_
    cases hk : ahead after with
    | operator symbol => exact absurd hk (h symbol)
    | _ => exact .refl

theorem expression_becomes {t' : Tree} {ks' : List Kind} (h : Closes (ahead after)) (hn : 1 ≤ n)
    (hatom : Becomes (atom n) ks (pure t) ks')
    (hoperators : Becomes (operators n t 0) ks' (pure t') after) :
    Becomes (expression (n + 1)) ks (pure t') after := by
  rw [expression]
  exact hatom.bind (hoperators.bind (calls_becomes h.1 hn))

theorem AtomReads.operand (h : AtomReads ks t) (hafter : ahead after ≠ .punct .leftParen)
    (hn : 4 * (ks ++ after).length + 2 ≤ n) : Becomes (atom n) (ks ++ after) (pure t) after := by
  obtain ⟨m, hm, hatom⟩ := h.becomes n after hn
  exact hatom.trans (calls_becomes hafter (by omega))

theorem AtomReads.expression (h : AtomReads ks t) (hafter : Closes (ahead after))
    (hn : 4 * (ks ++ after).length + 3 ≤ n) :
    Becomes (expression n) (ks ++ after) (pure t) after := by
  cases n with
  | zero => omega
  | succ n =>
    refine expression_becomes hafter (by omega) (h.operand hafter.1 (by omega)) ?_
    exact operators_becomes hafter.2 (by omega)

theorem AtomReads.item (h : AtomReads ks t) {bound : Nat} {close : Punct} (hn : 4 * bound + 3 ≤ n)
    (hclose : close = .rightParen ∨ close = .rightBrace) :
    ItemReads bound close (Parser.expression n) t ks where
  opens := by
    obtain ⟨heof, hparen, hbrace⟩ := h.opens
    rcases hclose with rfl | rfl
    · exact ⟨heof, hparen⟩
    · exact ⟨heof, hbrace⟩
  becomes after hafter hbound := h.expression hafter (by omega)

/-- An operand that is read whatever follows it. -/
theorem AtomReads.of_primary
    (h : ∀ n after, 4 * (ks ++ after).length ≤ n →
      Becomes (primary (n + 1)) (ks ++ after) (pure t) after)
    (hopens : ahead ks ≠ .eof ∧ ahead ks ≠ .punct .rightParen ∧ ahead ks ≠ .punct .rightBrace) :
    AtomReads ks t where
  opens := hopens
  becomes n after hn := by
    obtain ⟨n, rfl⟩ : ∃ m, n = m + 2 := ⟨n - 2, by omega⟩
    refine ⟨n + 1, by rw [List.length_append] at hn; omega, ?_⟩
    rw [atom]
    exact (h n after (by omega)).bind .refl

/-- Brackets make an operand of what stands between them. -/
theorem EnclosedReads.bracketed (h : EnclosedReads ks t) :
    AtomReads (.punct .leftParen :: (ks ++ [.punct .rightParen])) t := by
  refine .of_primary (fun n after hn => ?_) (by simp [ahead])
  simp only [List.cons_append, List.append_assoc, List.nil_append, List.length_cons] at hn ⊢
  rw [primary]
  refine becomes_ahead (becomes_skip.bind ?_)
  exact (h n (.punct .rightParen :: after) rfl (by omega)).bind (becomes_punct.bind .refl)

/-! ### Forms that stand between brackets -/

theorem EnclosedReads.of_primary
    (h : ∀ n after, ahead after = .punct .rightParen → 4 * (ks ++ after).length ≤ n →
      Becomes (primary (n + 1)) (ks ++ after) (pure t) after) : EnclosedReads ks t := by
  intro n after hafter hn
  obtain ⟨n, rfl⟩ : ∃ m, n = m + 3 := ⟨n - 3, by omega⟩
  have hcloses : Closes (ahead after) := closes_punct (by decide) hafter
  refine expression_becomes hcloses (by omega) ?_ (operators_becomes hcloses.2 (by omega))
  rw [atom]
  exact (h n after hafter (by omega)).bind (calls_becomes hcloses.1 (by omega))

theorem zero_lt_of_bindingPower? {symbol : String} {power : Nat}
    (h : bindingPower? symbol = some power) : 0 < power := by
  unfold bindingPower? at h
  split at h
  · cases h
    decide
  · obtain ⟨op, -, rfl⟩ := Option.map_eq_some_iff.mp h
    cases op <;> decide

theorem combine_of_isSome {op : String} (h : (BinaryOp.ofSymbol? op).isSome) (left right : Tree) :
    (bindingPower? op).isSome ∧ combine op left right = .binary op left right := by
  have hne : op ≠ assignSymbol := by
    rintro rfl
    cases h
  rw [bindingPower?, combine, if_neg hne, if_neg hne, Option.isSome_map]
  exact ⟨h, rfl⟩

/-- Two operands with an operator between them. How tightly it binds does not matter, as no other
operator is ahead. -/
theorem enclosedReads_operator {symbol : String} {left right : Tree} {ksl ksr : List Kind}
    (hleft : AtomReads ksl left) (hright : AtomReads ksr right)
    (h : (bindingPower? symbol).isSome) :
    EnclosedReads (ksl ++ .operator symbol :: ksr) (combine symbol left right) := by
  intro n after hafter hn
  obtain ⟨n, rfl⟩ : ∃ m, n = m + 2 := ⟨n - 2, by omega⟩
  obtain ⟨power, hpower⟩ := Option.isSome_iff_exists.mp h
  have hcloses : Closes (ahead after) := closes_punct (by decide) hafter
  simp only [List.append_assoc, List.cons_append, List.length_append, List.length_cons] at hn ⊢
  have hoperand : Becomes (atom (n + 1)) (ksl ++ .operator symbol :: (ksr ++ after)) (pure left)
      (.operator symbol :: (ksr ++ after)) :=
    hleft.operand nofun (by simpa using by omega)
  refine expression_becomes hcloses (by omega) hoperand ?_
  rw [operators]
  refine becomes_ahead ?_
  simp only [hpower, if_neg (Nat.not_le.mpr (zero_lt_of_bindingPower? hpower))]
  refine becomes_skip.bind ((hright.operand hcloses.1 (by simpa using by omega)).bind ?_)
  exact (operators_becomes hcloses.2 (by omega)).bind (operators_becomes hcloses.2 (by omega))

theorem enclosedReads_negate {body : Tree} (h : AtomReads ks body) :
    EnclosedReads (.operator "!" :: ks) (.negate body) := by
  refine .of_primary fun n after hafter hn => ?_
  simp only [List.cons_append, List.length_cons] at hn ⊢
  rw [primary]
  have hbody := h.expression (n := n) (closes_punct (by decide) hafter) (by omega)
  exact becomes_ahead (becomes_skip.bind (hbody.bind .refl))

theorem becomes_optionalName {f? : Option Name} {ks : List Kind} :
    Becomes optionalName (f?.toList.map .ident ++ .punct .leftParen :: ks) (pure f?)
      (.punct .leftParen :: ks) := by
  cases f? with
  | none => exact becomes_ahead .refl
  | some f => exact becomes_ahead (becomes_skip.bind .refl)

theorem itemReads_name (bound : Nat) (x : Name) :
    ItemReads bound .rightParen name x [.ident x] where
  opens := by simp [ahead]
  becomes _ _ _ := becomes_name

theorem enclosedReads_function {f? : Option Name} {params : List Name} {body : Tree}
    (h : AtomReads ks body) :
    EnclosedReads (.keyword .lambda :: (f?.toList.map .ident ++ .punct .leftParen ::
      ([Kind.punct .comma].intercalate (params.map fun x => [.ident x]) ++
        .punct .rightParen :: ks))) (.function () f? params body) := by
  refine .of_primary fun n after hafter hn => ?_
  simp only [List.cons_append, List.append_assoc, List.length_cons, List.length_append] at hn ⊢
  have hparams : List.Forall₂ (ItemReads (n - 1) .rightParen name) params
      (params.map fun x => [.ident x]) :=
    List.forall₂_map_right_iff.mpr (List.forall₂_same.mpr fun x _ => itemReads_name _ x)
  have hbody := h.expression (n := n) (closes_punct (by decide) hafter) (by simpa using by omega)
  rw [primary]
  refine becomes_ahead (becomes_skip.bind (becomes_optionalName.bind ?_))
  refine (delimited_becomes (by decide) (by decide) (by decide) hparams (by omega) ?_).bind
    (hbody.bind .refl)
  simpa using by omega

/-- After a test and what follows it, all that is left is to look for an alternative. -/
theorem primary_if_becomes {test consequent : Tree} {kst ksc : List Kind} {q : Parser Tree}
    {ks : List Kind} (htest : AtomReads kst test) (hconsequent : AtomReads ksc consequent)
    (hafter : Closes (ahead after))
    (hn : 4 * (.keyword .if :: (kst ++ .keyword .then :: (ksc ++ after)) : List Kind).length ≤ n)
    (h : Becomes (do
      if (← peek) = .keyword .else then
        skip
        let alternative ← expression n
        return .conditional test consequent (some alternative)
      else return .conditional test consequent none) after q ks) :
    Becomes (primary (n + 1)) (.keyword .if :: (kst ++ .keyword .then :: (ksc ++ after))) q ks := by
  simp only [List.length_cons, List.length_append] at hn
  rw [primary]
  refine becomes_ahead (becomes_skip.bind ?_)
  refine (htest.expression (closes_keyword .then) (by simpa using by omega)).bind ?_
  refine Becomes.bind (becomes_ahead becomes_keyword) ?_
  exact (hconsequent.expression hafter (by simpa using by omega)).bind h

theorem enclosedReads_conditional {test consequent : Tree} {kst ksc : List Kind}
    (htest : AtomReads kst test) (hconsequent : AtomReads ksc consequent) :
    EnclosedReads (.keyword .if :: (kst ++ .keyword .then :: ksc))
      (.conditional test consequent none) := by
  refine .of_primary fun n after hafter hn => ?_
  simp only [List.cons_append, List.append_assoc] at hn ⊢
  refine primary_if_becomes htest hconsequent (closes_punct (by decide) hafter) hn ?_
  refine becomes_peek hafter ?_
  rw [if_neg nofun]
  exact .refl

theorem enclosedReads_alternative {test consequent alternative : Tree} {kst ksc ksa : List Kind}
    (htest : AtomReads kst test) (hconsequent : AtomReads ksc consequent)
    (halternative : AtomReads ksa alternative) :
    EnclosedReads (.keyword .if :: (kst ++ .keyword .then :: (ksc ++ .keyword .else :: ksa)))
      (.conditional test consequent (some alternative)) := by
  refine .of_primary fun n after hafter hn => ?_
  simp only [List.cons_append, List.append_assoc] at hn ⊢
  refine primary_if_becomes htest hconsequent (closes_keyword .else) hn ?_
  refine becomes_ahead ?_
  rw [if_pos rfl]
  simp only [List.length_cons, List.length_append] at hn
  have halternative := halternative.expression (n := n) (closes_punct (by decide) hafter)
    (by simpa using by omega)
  exact becomes_skip.bind (halternative.bind .refl)

/-- A `let` without a name: the bracket of its bindings is ahead where its name would be. -/
theorem enclosedReads_declare {bindings : List (Binding Tree)} {body : Tree}
    {kss : List (List Kind)}
    (hbindings : ∀ n bound, 4 * bound + 3 ≤ n →
      List.Forall₂ (ItemReads bound .rightParen (binding (expression n))) bindings kss)
    (h : AtomReads ks body) :
    EnclosedReads (.keyword .let :: .punct .leftParen :: ([Kind.punct .comma].intercalate kss ++
      .punct .rightParen :: ks)) (.declare bindings body) := by
  refine .of_primary fun n after hafter hn => ?_
  simp only [List.cons_append, List.append_assoc, List.length_cons, List.length_append] at hn ⊢
  have hbody := h.expression (n := n) (closes_punct (by decide) hafter) (by simpa using by omega)
  rw [primary]
  refine becomes_ahead (becomes_skip.bind (Becomes.bind (becomes_ahead .refl) ?_))
  refine (delimited_becomes (by decide) (by decide) (by decide)
    (hbindings n ((n - 3) / 4) (by omega)) (by omega) ?_).bind (hbody.bind .refl)
  simpa using by omega

theorem itemReads_binding_none (item : Parser Tree) (bound : Nat) (x : Name) :
    ItemReads bound .rightParen (binding item) ⟨x, none⟩ [.ident x] where
  opens := by simp [ahead]
  becomes after hafter _ := by
    cases hk : ahead after with
    | operator symbol => exact absurd hk (hafter.2 symbol)
    | _ => exact becomes_name.bind (becomes_peek hk .refl)

theorem itemReads_binding_some {bound : Nat} {close : Punct} {item : Parser Tree}
    (h : ItemReads bound close item t ks) (x : Name) :
    ItemReads bound .rightParen (binding item) ⟨x, some t⟩ (.ident x :: .operator "=" :: ks) where
  opens := by simp [ahead]
  becomes after hafter hbound := by
    simp only [List.cons_append, List.length_cons] at hbound ⊢
    refine becomes_name.bind (becomes_ahead ?_)
    simp only [if_pos (show "=" = assignSymbol from rfl)]
    exact becomes_skip.bind ((h.becomes after hafter (by omega)).bind .refl)

/-! ### Calls and blocks -/

/-- A call goes on after its callee, which leaves a look for argument lists to be done; so does the
call. -/
theorem AtomReads.call {callee : Tree} {args : List Tree} {kss : List (List Kind)}
    (hcallee : AtomReads ks callee) (hargs : List.Forall₂ AtomReads kss args) :
    AtomReads (ks ++ .punct .leftParen :: ([Kind.punct .comma].intercalate kss ++
      [.punct .rightParen])) (.call callee args) where
  opens := by
    rw [ahead_append hcallee.opens.1]
    exact hcallee.opens
  becomes n after hn := by
    simp only [List.cons_append, List.append_assoc, List.nil_append] at hn ⊢
    obtain ⟨m, hm, hatom⟩ := hcallee.becomes n _ hn
    -- The depth left for the arguments suffices, since the callee has taken its tokens.
    obtain ⟨m, rfl⟩ : ∃ k, m = k + 1 := ⟨m - 1, by omega⟩
    simp only [List.length_cons, List.length_append] at hm
    have hitems :
        List.Forall₂ (ItemReads ((m - 3) / 4) .rightParen (Parser.expression m)) args kss :=
      (hargs.imp fun ks t h => h.item (by omega) (.inl rfl)).flip
    refine ⟨m, by omega, hatom.trans ?_⟩
    rw [calls]
    refine becomes_ahead ?_
    rw [if_pos rfl]
    refine (delimited_becomes (by decide) (by decide) (by decide) hitems (by omega) ?_).bind .refl
    simpa using by omega

theorem block_of_two_le {items : List Tree} (h : 2 ≤ items.length) : block items = .seq items := by
  rcases items with _ | ⟨t, _ | ⟨t', items⟩⟩
  · simp at h
  · simp at h
  · rfl

/-- The items of a block, however many there are. -/
theorem atomReads_block {items : List Tree} {kss : List (List Kind)}
    (hitems : List.Forall₂ AtomReads kss items) :
    AtomReads (.punct .leftBrace :: ([Kind.punct .semicolon].intercalate kss ++
      [.punct .rightBrace])) (block items) := by
  refine .of_primary (fun n after hn => ?_) (by simp [ahead])
  simp only [List.cons_append, List.append_assoc, List.nil_append, List.length_cons,
    List.length_append] at hn ⊢
  have hitems : List.Forall₂ (ItemReads ((n - 3) / 4) .rightBrace (expression n)) items kss :=
    (hitems.imp fun ks t h => h.item (by omega) (.inr rfl)).flip
  rw [primary]
  refine becomes_ahead ?_
  refine (delimited_becomes (by decide) (by decide) (by decide) hitems (by omega) ?_).bind .refl
  simpa using by omega

end Expressions

end LetLambda.Parser

namespace LetLambda.Term

open Token LetLambda.Parser

mutual

/-- **The tokens of a term make that term.** -/
theorem reads_kinds (t : Tree) (h : t.isPrintable) : AtomReads t.kinds t := by
  cases t with
  | int | str | var =>
    refine .of_primary (fun m after _ => ?_) (by simp [ahead, kinds])
    rw [primary, kinds]
    exact becomes_ahead (becomes_skip.bind .refl)
  | bool b =>
    cases b with
    | true | false =>
      refine .of_primary (fun m after _ => ?_) (by simp [ahead, kinds])
      rw [primary, kinds]
      exact becomes_ahead (becomes_skip.bind .refl)
  | assign target value =>
    simp only [isPrintable, Bool.and_eq_true] at h
    have hreads : EnclosedReads (target.kinds ++ .operator "=" :: value.kinds)
        (.assign target value) :=
      enclosedReads_operator (reads_kinds target h.1) (reads_kinds value h.2) rfl
    simpa [kinds] using hreads.bracketed
  | binary op left right =>
    simp only [isPrintable, Bool.and_eq_true] at h
    obtain ⟨⟨hop, hleft⟩, hright⟩ := h
    obtain ⟨hpower, hcombine⟩ := combine_of_isSome hop left right
    have hreads := enclosedReads_operator (reads_kinds left hleft) (reads_kinds right hright) hpower
    rw [hcombine] at hreads
    simpa [kinds] using hreads.bracketed
  | negate body =>
    rw [isPrintable] at h
    simpa [kinds] using (enclosedReads_negate (reads_kinds body h)).bracketed
  | seq items =>
    simp only [isPrintable, Bool.and_eq_true, decide_eq_true_eq] at h
    have hreads := atomReads_block (reads_kindsAll items h.2)
    rw [block_of_two_le h.1] at hreads
    simpa [kinds] using hreads
  | call callee args =>
    simp only [isPrintable, Bool.and_eq_true] at h
    simpa [kinds] using (reads_kinds callee h.1).call (reads_kindsAll args h.2)
  | function info name? params body =>
    simp only [isPrintable, Bool.and_eq_true] at h
    simpa [kinds] using (enclosedReads_function (reads_kinds body h.2)).bracketed
  | conditional test consequent alternative? =>
    cases alternative? with
    | none =>
      simp only [isPrintable, Bool.and_eq_true] at h
      simpa [kinds] using (enclosedReads_conditional (reads_kinds test h.1)
        (reads_kinds consequent h.2)).bracketed
    | some alternative =>
      simp only [isPrintable, Bool.and_eq_true] at h
      simpa [kinds] using (enclosedReads_alternative (reads_kinds test h.1.1)
        (reads_kinds consequent h.1.2) (reads_kinds alternative h.2)).bracketed
  | declare bindings body =>
    simp only [isPrintable, Bool.and_eq_true] at h
    simpa [kinds] using (enclosedReads_declare (reads_kindsBindings bindings h.1)
      (reads_kinds body h.2)).bracketed
termination_by structural t

theorem reads_kindsAll (ts : List Tree) (h : allPrintable ts) :
    List.Forall₂ AtomReads (kindsAll ts) ts := by
  cases ts with
  | nil => exact .nil
  | cons t ts =>
    simp only [allPrintable, Bool.and_eq_true] at h
    exact .cons (reads_kinds t h.1) (reads_kindsAll ts h.2)
termination_by structural ts

theorem reads_kindsBindings (bs : List (Binding Tree)) (h : bindingsPrintable bs) (n bound : Nat)
    (hn : 4 * bound + 3 ≤ n) :
    List.Forall₂ (ItemReads bound .rightParen (binding (expression n))) bs (kindsBindings bs) := by
  cases bs with
  | nil => exact .nil
  | cons b bs =>
    obtain ⟨x, value?⟩ := b
    cases value? with
    | none =>
      simp only [bindingsPrintable, Bool.and_eq_true] at h
      exact .cons (itemReads_binding_none _ bound x) (reads_kindsBindings bs h.2 n bound hn)
    | some t =>
      simp only [bindingsPrintable, Bool.and_eq_true] at h
      exact .cons (itemReads_binding_some ((reads_kinds t h.1.2).item hn (.inl rfl)) x)
        (reads_kindsBindings bs h.2 n bound hn)
termination_by structural bs

end

end LetLambda.Term

namespace LetLambda

open Token LetLambda.Parser

/-- An expression and the end of input make a program. -/
theorem Parser.program_becomes_of_expression {ks : List Kind} {t : Tree} {n : Nat}
    (hopens : ahead ks ≠ .eof)
    (h : Becomes (expression n) (ks ++ [.eof]) (pure t) [.eof]) (hn : 1 ≤ n) :
    Becomes (program (n + 1)) (ks ++ [.eof]) (pure [t]) [.eof] := by
  have hdone : Becomes (program n) [.eof] (pure []) [.eof] := by
    cases n with
    | zero => omega
    | succ n =>
      rw [program]
      refine becomes_ahead ?_
      rw [if_pos rfl]
      exact .refl
  rw [program]
  refine becomes_peek (ahead_append hopens [.eof]) ?_
  rw [if_neg hopens]
  refine h.bind (becomes_ahead ?_)
  rw [if_pos rfl]
  exact Becomes.refl.bind (hdone.bind .refl)

namespace Tree

theorem ofTokens_eq_ok_iff {ts : List Token} {tree : Tree} :
    (ofTokens ts).1 = .ok tree ↔
      ∃ items rest, (program (depthBound ts)).run ts = .ok items rest ∧ tree = .seq items := by
  unfold ofTokens
  split
  · next items rest hrun =>
    constructor
    · rintro ⟨⟩
      exact ⟨items, rest, hrun, rfl⟩
    · rintro ⟨items', rest', hrun', rfl⟩
      rw [hrun] at hrun'
      cases hrun'
      rfl
  · next wanted rest hrun =>
    constructor
    · nofun
    · rintro ⟨items, rest, hrun', -⟩
      rw [hrun] at hrun'
      cases hrun'
  · next hrun => exact absurd hrun (program_run_ne_starved ts)

theorem ofText_eq_ok_iff {text : String} {tree : Tree} :
    ofText text = .ok tree ↔
      ∃ tokens, Token.ofText text = .ok tokens ∧ (ofTokens tokens).1 = .ok tree := by
  unfold ofText
  cases Token.ofText text with
  | ok tokens => simp
  | error e => simp

/-- A text that is cut into tokens which make a term as an expression is a program of that term. -/
theorem ofText_of_expression {text : String} {ks : List Kind} {t : Tree}
    (htext : Spells EndsWord text.toList ks) (hopens : ahead ks ≠ .eof)
    (h : Becomes (expression (4 * (ks ++ [Kind.eof]).length + 3)) (ks ++ [.eof]) (pure t) [.eof]) :
    ofText text = .ok (.seq [t]) := by
  obtain ⟨tokens, htokens, hkinds⟩ := ofText_of_spells htext
  have hlength : tokens.length = (ks ++ [Kind.eof]).length := by rw [← hkinds, List.length_map]
  rw [← hlength] at h
  obtain ⟨rest, -, hrun⟩ := program_becomes_of_expression hopens h (by omega) tokens hkinds
  exact ofText_eq_ok_iff.mpr ⟨tokens, htokens, ofTokens_eq_ok_iff.mpr ⟨[t], rest, hrun, rfl⟩⟩

/-- A text that is cut into tokens which make a term as an operand is a program of that term. -/
theorem ofText_of_reads {text : String} {ks : List Kind} {t : Tree}
    (htext : Spells EndsWord text.toList ks) (h : AtomReads ks t) :
    ofText text = .ok (.seq [t]) :=
  ofText_of_expression htext h.opens.1 (h.expression closes_eof (Nat.le_refl _))

/-- From the text of a term that term is read. -/
theorem ofText_text {t : Tree} (h : t.isPrintable) : ofText t.text = .ok (.seq [t]) :=
  ofText_of_reads (t.spells_text h) (t.reads_kinds h)

/-- From the text of a sequence the block of its terms is read. -/
theorem ofText_text_seq {items : List Tree} (h : Term.allPrintable items) :
    ofText (Term.text (.seq items)) = .ok (.seq [block items]) := by
  refine ofText_of_reads (Term.spells_seq (Term.spells_texts items h)) ?_
  rw [Term.kinds]
  simpa using atomReads_block (Term.reads_kindsAll items h)

end Tree

end LetLambda
