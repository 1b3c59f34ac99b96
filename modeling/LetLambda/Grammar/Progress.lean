import LetLambda.Grammar.Expression

/-!
# Progress of the parsers

Every parser of the grammar leaves no more tokens than it was given, an expression leaves fewer,
and the bound `depthBound` on the depth of the descent is never reached: the main statement is
`program_gives`.
-/

namespace LetLambda

/-- The parser was not starved, and a result of it has property `Q`. -/
def Reply.Gives {α : Type} (Q : α → List Token → Prop) : Reply α → Prop
  | .ok a rest => Q a rest
  | .refused _ _ => True
  | .starved => False

theorem Reply.Gives.mono {α : Type} {P Q : α → List Token → Prop} {r : Reply α}
    (h : r.Gives P) (hPQ : ∀ a rest, P a rest → Q a rest) : r.Gives Q := by
  cases r with
  | ok a rest => exact hPQ a rest h
  | refused _ _ => trivial
  | starved => exact h

namespace Parser

variable {α β : Type} {Q : α → List Token → Prop} {ts : List Token}

open Reply (Gives)

/-! ### Steps -/

theorem gives_pure {a : α} : ((pure a : Parser α).run ts).Gives Q ↔ Q a ts := Iff.rfl

theorem gives_bind {p : Parser β} {f : β → Parser α} :
    ((p >>= f).run ts).Gives Q ↔ (p.run ts).Gives fun b rest => ((f b).run rest).Gives Q := by
  show Reply.Gives Q (match p.run ts with
    | .ok a rest => (f a).run rest
    | .refused wanted rest => .refused wanted rest
    | .starved => .starved) ↔ _
  cases p.run ts <;> exact Iff.rfl

theorem gives_peek {Q : Token.Kind → List Token → Prop} :
    (peek.run ts).Gives Q ↔ Q (kindAhead ts) ts := Iff.rfl

theorem gives_skip {Q : Unit → List Token → Prop} :
    (skip.run ts).Gives Q ↔ Q () ts.tail := Iff.rfl

theorem gives_refuse {wanted : Wanted} : ((refuse wanted : Parser α).run ts).Gives Q := trivial

/-- A token that is not the end of input is there to be passed over. -/
theorem length_tail_lt (ts : List Token) (h : kindAhead ts ≠ .eof) : ts.tail.length < ts.length := by
  cases ts with
  | nil => exact absurd rfl h
  | cons t ts => simp

/-! ### Single tokens -/

theorem punct_gives {mark : Punct} {Q : Unit → List Token → Prop}
    (h : ∀ rest, rest.length < ts.length → Q () rest) : ((punct mark).run ts).Gives Q := by
  rw [punct, gives_bind, gives_peek]
  split
  · next hk => exact gives_skip.2 (h _ (length_tail_lt ts (by simp [hk])))
  · exact gives_refuse

theorem keyword_gives {word : Keyword} {Q : Unit → List Token → Prop}
    (h : ∀ rest, rest.length < ts.length → Q () rest) : ((keyword word).run ts).Gives Q := by
  rw [keyword, gives_bind, gives_peek]
  split
  · next hk => exact gives_skip.2 (h _ (length_tail_lt ts (by simp [hk])))
  · exact gives_refuse

theorem name_gives {Q : Name → List Token → Prop}
    (h : ∀ x rest, rest.length < ts.length → Q x rest) : (name.run ts).Gives Q := by
  rw [name, gives_bind, gives_peek]
  cases hk : kindAhead ts with
  | ident x => exact h x _ (length_tail_lt ts (by simp [hk]))
  | _ => exact gives_refuse

theorem optionalName_gives {Q : Option Name → List Token → Prop}
    (h : ∀ x rest, rest.length ≤ ts.length → Q x rest) : (optionalName.run ts).Gives Q := by
  rw [optionalName, gives_bind, gives_peek]
  cases kindAhead ts with
  | ident f => exact h (some f) _ (by simp)
  | _ => exact h none _ (Nat.le_refl _)

theorem thenWord_gives {Q : Unit → List Token → Prop}
    (h : ∀ rest, rest.length ≤ ts.length → Q () rest) : (thenWord.run ts).Gives Q := by
  rw [thenWord, gives_bind, gives_peek]
  split
  · exact gives_pure.2 (h _ (Nat.le_refl _))
  · exact keyword_gives fun rest hr => h rest (Nat.le_of_lt hr)

/-! ### Lists -/

/-- The parser `item` takes a token at least, wherever it is run on at most `n` tokens. -/
def Advances (n : Nat) (item : Parser α) : Prop :=
  ∀ ts, ts.length ≤ n → (item.run ts).Gives fun _ rest => rest.length < ts.length

theorem items_gives {close separator : Punct} {item : Parser α} :
    ∀ (n : Nat) (first : Bool) (ts : List Token), ts.length < n → Advances ts.length item →
      ((items close separator item n first).run ts).Gives fun _ rest => rest.length ≤ ts.length
  | 0, _, _, h, _ => absurd h (Nat.not_lt_zero _)
  | n + 1, first, ts, h, hitem => by
    have step : ∀ us : List Token, us.length ≤ ts.length →
        ((do
          if (← peek) = .punct close then return []
          else
            let x ← item
            let xs ← items close separator item n false
            return x :: xs : Parser (List α)).run us).Gives fun _ rest => rest.length ≤ ts.length := by
      intro us hus
      rw [gives_bind, gives_peek]
      split
      · exact gives_pure.2 hus
      · rw [gives_bind]
        refine Gives.mono (hitem us hus) fun x rest hr => ?_
        rw [gives_bind]
        have hn : rest.length < n := by omega
        refine Gives.mono (items_gives n false rest hn fun vs hvs => hitem vs (by omega)) ?_
        intro xs rest' hr'
        exact gives_pure.2 (by omega)
    rw [items, gives_bind, gives_peek]
    split
    · exact gives_pure.2 (Nat.le_refl _)
    · cases first with
      | true => exact gives_bind.2 (gives_pure.2 (step ts (Nat.le_refl _)))
      | false => exact gives_bind.2 (punct_gives fun rest hr => step rest (by omega))

theorem delimited_gives {n : Nat} {opening close separator : Punct} {item : Parser α}
    (hn : ts.length ≤ n) (hitem : Advances (ts.length - 1) item) :
    ((delimited n opening close separator item).run ts).Gives
      fun _ rest => rest.length < ts.length := by
  rw [delimited, gives_bind]
  refine punct_gives fun rest hr => ?_
  rw [gives_bind]
  have hrest : Advances rest.length item := fun us hus => hitem us (by omega)
  refine Gives.mono (items_gives n true rest (by omega) hrest) fun xs rest' hr' => ?_
  rw [gives_bind]
  exact punct_gives fun rest'' hr'' => gives_pure.2 (by omega)

theorem binding_gives (n : Nat) {item : Parser Tree} (h : Advances n item) :
    Advances (n + 1) (binding item) := by
  intro ts hts
  rw [binding, gives_bind]
  refine name_gives fun x rest hr => ?_
  rw [gives_bind, gives_peek]
  split
  · split
    · rw [gives_bind, gives_skip, gives_bind]
      have htail : rest.tail.length ≤ rest.length := by simp
      exact Gives.mono (h rest.tail (by omega)) fun t rest' hr' => gives_pure.2 (by omega)
    · exact gives_refuse
  · exact gives_pure.2 hr

/-! ### Expressions -/

/-- With depth `n` the parsers of the grammar do not starve on lists that are short enough. -/
structure Enough (n : Nat) : Prop where
  expression : ∀ ts : List Token, 4 * ts.length + 3 ≤ n →
    ((expression n).run ts).Gives fun _ rest => rest.length < ts.length
  operators : ∀ t floor (ts : List Token), 4 * ts.length + 1 ≤ n →
    ((operators n t floor).run ts).Gives fun _ rest => rest.length ≤ ts.length
  calls : ∀ t (ts : List Token), 4 * ts.length + 1 ≤ n →
    ((calls n t).run ts).Gives fun _ rest => rest.length ≤ ts.length
  atom : ∀ ts : List Token, 4 * ts.length + 2 ≤ n →
    ((atom n).run ts).Gives fun _ rest => rest.length < ts.length
  primary : ∀ ts : List Token, 4 * ts.length + 1 ≤ n →
    ((primary n).run ts).Gives fun _ rest => rest.length < ts.length

theorem Enough.advances {n k : Nat} (h : Enough n) (hk : 4 * k + 3 ≤ n) :
    Advances k (Parser.expression n) := fun ts hts => h.expression ts (by omega)

theorem Enough.zero : Enough 0 where
  expression _ h := by omega
  operators _ _ _ h := by omega
  calls _ _ h := by omega
  atom _ h := by omega
  primary _ h := by omega

theorem expression_succ_gives {n : Nat} (h : Enough n) (hn : 4 * ts.length + 3 ≤ n + 1) :
    ((expression (n + 1)).run ts).Gives fun _ rest => rest.length < ts.length := by
  rw [expression, gives_bind]
  refine Gives.mono (h.atom ts (by omega)) fun t rest hr => ?_
  rw [gives_bind]
  refine Gives.mono (h.operators t 0 rest (by omega)) fun t' rest' hr' => ?_
  exact Gives.mono (h.calls t' rest' (by omega)) fun _ rest'' hr'' => by omega

theorem operators_succ_gives {n : Nat} (h : Enough n) (t : Tree) (floor : Nat)
    (hn : 4 * ts.length + 1 ≤ n + 1) :
    ((operators (n + 1) t floor).run ts).Gives fun _ rest => rest.length ≤ ts.length := by
  rw [operators, gives_bind, gives_peek]
  split
  · next symbol hk =>
    split
    · exact gives_pure.2 (Nat.le_refl _)
    · split
      · exact gives_pure.2 (Nat.le_refl _)
      · have htail := length_tail_lt ts (by simp [hk])
        rw [gives_bind, gives_skip, gives_bind]
        refine Gives.mono (h.atom ts.tail (by omega)) fun a rest hr => ?_
        rw [gives_bind]
        refine Gives.mono (h.operators a _ rest (by omega)) fun right rest' hr' => ?_
        exact Gives.mono (h.operators _ floor rest' (by omega)) fun _ rest'' hr'' => by omega
  · exact gives_pure.2 (Nat.le_refl _)

theorem calls_succ_gives {n : Nat} (h : Enough n) (t : Tree)
    (hn : 4 * ts.length + 1 ≤ n + 1) :
    ((calls (n + 1) t).run ts).Gives fun _ rest => rest.length ≤ ts.length := by
  rw [calls, gives_bind, gives_peek]
  split
  · next hk =>
    have htail := length_tail_lt ts (by simp [hk])
    rw [gives_bind]
    refine Gives.mono (delimited_gives (by omega) (h.advances (by omega))) fun args rest hr => ?_
    exact Gives.mono (h.calls _ rest (by omega)) fun _ rest' hr' => by omega
  · exact gives_pure.2 (Nat.le_refl _)

theorem atom_succ_gives {n : Nat} (h : Enough n) (hn : 4 * ts.length + 2 ≤ n + 1) :
    ((atom (n + 1)).run ts).Gives fun _ rest => rest.length < ts.length := by
  rw [atom, gives_bind]
  refine Gives.mono (h.primary ts (by omega)) fun t rest hr => ?_
  exact Gives.mono (h.calls t rest (by omega)) fun _ rest' hr' => by omega

theorem primary_succ_gives {n : Nat} (h : Enough n) (hn : 4 * ts.length + 1 ≤ n + 1) :
    ((primary (n + 1)).run ts).Gives fun _ rest => rest.length < ts.length := by
  -- Whatever follows a first token is given enough depth.
  have expr : ∀ us : List Token, us.length < ts.length →
      ((expression n).run us).Gives fun _ rest => rest.length < us.length :=
    fun us hus => h.expression us (by omega)
  have htail := length_tail_lt ts
  rw [primary, gives_bind, gives_peek]
  split
  -- a bracketed expression
  · next hk =>
    have htail := htail (by simp [hk])
    rw [gives_bind, gives_skip, gives_bind]
    refine Gives.mono (expr _ htail) fun t rest hr => ?_
    rw [gives_bind]
    exact punct_gives fun rest' hr' => gives_pure.2 (by omega)
  -- a block
  · next hk =>
    have htail := htail (by simp [hk])
    rw [gives_bind]
    exact Gives.mono (delimited_gives (by omega) (h.advances (by omega)))
      fun _ rest hr => gives_pure.2 hr
  -- a negation
  · next hk =>
    have htail := htail (by simp [hk])
    rw [gives_bind, gives_skip, gives_bind]
    exact Gives.mono (expr _ htail) fun t rest hr => gives_pure.2 (by omega)
  -- a declaration
  · next hk =>
    have htail := htail (by simp [hk])
    rw [gives_bind, gives_skip, gives_bind]
    refine optionalName_gives fun f? rest hr => ?_
    rw [gives_bind]
    have hb : Advances (rest.length - 1) (binding (expression n)) := fun us hus =>
      binding_gives (rest.length - 1) (h.advances (by omega)) us (by omega)
    refine Gives.mono (delimited_gives (by omega) hb) fun bs rest' hr' => ?_
    rw [gives_bind]
    exact Gives.mono (expr _ (by omega)) fun t rest'' hr'' => gives_pure.2 (by omega)
  -- a conditional
  · next hk =>
    have htail := htail (by simp [hk])
    rw [gives_bind, gives_skip, gives_bind]
    refine Gives.mono (expr _ htail) fun test rest hr => ?_
    rw [gives_bind]
    refine thenWord_gives fun rest' hr' => ?_
    rw [gives_bind]
    refine Gives.mono (expr _ (by omega)) fun consequent us hus => ?_
    rw [gives_bind, gives_peek]
    split
    · rw [gives_bind, gives_skip, gives_bind]
      have hle : us.tail.length ≤ us.length := by simp
      exact Gives.mono (expr _ (by omega)) fun t rest'' hr'' => gives_pure.2 (by omega)
    · exact gives_pure.2 (by omega)
  · next hk => exact htail (by simp [hk])
  · next hk => exact htail (by simp [hk])
  -- a function
  · next hk =>
    have htail := htail (by simp [hk])
    rw [gives_bind, gives_skip, gives_bind]
    refine optionalName_gives fun f? rest hr => ?_
    rw [gives_bind]
    have hname : Advances (rest.length - 1) name := fun us _ => name_gives fun _ _ hr => hr
    refine Gives.mono (delimited_gives (by omega) hname) fun params rest' hr' => ?_
    rw [gives_bind]
    exact Gives.mono (expr _ (by omega)) fun t rest'' hr'' => gives_pure.2 (by omega)
  · next hk => exact htail (by simp [hk])
  · next hk => exact htail (by simp [hk])
  · next hk => exact htail (by simp [hk])
  · exact gives_refuse

theorem enough : ∀ n, Enough n
  | 0 => .zero
  | n + 1 =>
    { expression := fun _ => expression_succ_gives (enough n)
      operators := fun t floor _ => operators_succ_gives (enough n) t floor
      calls := fun t _ => calls_succ_gives (enough n) t
      atom := fun _ => atom_succ_gives (enough n)
      primary := fun _ => primary_succ_gives (enough n) }

/-- A program is read without starving, and leaves no more tokens than there were. -/
theorem program_gives : ∀ (n : Nat) (ts : List Token), 4 * ts.length + 4 ≤ n →
    ((program n).run ts).Gives fun _ rest => rest.length ≤ ts.length
  | 0, _, h => by omega
  | n + 1, ts, h => by
    rw [program, gives_bind, gives_peek]
    split
    · exact gives_pure.2 (Nat.le_refl _)
    · rw [gives_bind]
      refine Gives.mono ((enough n).expression ts (by omega)) fun t rest hr => ?_
      have more : ∀ us : List Token, us.length ≤ rest.length →
          ((do
            let ts ← program n
            return t :: ts : Parser (List Tree)).run us).Gives
              fun _ rest => rest.length ≤ ts.length := by
        intro us hus
        rw [gives_bind]
        exact Gives.mono (program_gives n us (by omega)) fun _ rest' hr' =>
          gives_pure.2 (by omega)
      rw [gives_bind, gives_peek]
      split
      · exact more rest (Nat.le_refl _)
      · exact gives_bind.2 (punct_gives fun rest' hr' => more rest' (Nat.le_of_lt hr'))

theorem program_run_ne_starved (ts : List Token) :
    (program (depthBound ts)).run ts ≠ .starved := by
  intro h
  have := program_gives (depthBound ts) ts (Nat.le_refl _)
  rw [h] at this
  exact this

end Parser

end LetLambda
