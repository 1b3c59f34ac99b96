import LetLambda.Proofs.Reading

/-!
# Chains of operators

Operands with operators between them and no brackets around are put together by how tightly the
operators bind, and from left to right where they bind equally. A `Skeleton` is a way to put the
operands of a chain together. It is `Ordered` if no operator to the left of another one in it binds
less tightly than that and all to the right of it bind more tightly. A chain has one ordered
skeleton only (`eq_of_ordered`), and that is the one which is read from its text
(`ofText_chainText`).

The climb along a chain is followed with the skeleton of what has been read. `Climbed` says what a
call of `operators` makes of it: it takes operators as long as they bind more tightly than a floor.
-/

namespace LetLambda

open Token (Kind Spells EndsWord)

/-! ### Skeletons -/

/-- A way to put operands together. -/
inductive Skeleton where
  | operand (t : Tree)
  | node (symbol : String) (left right : Skeleton)
deriving DecidableEq

/-- How tightly a symbol binds. -/
def power (symbol : String) : Nat := (bindingPower? symbol).getD 0

namespace Skeleton

/-- The tree in which the operands are put together so. -/
def tree : Skeleton → Tree
  | operand t => t
  | node symbol left right =>
    if symbol = "=" then .assign left.tree right.tree else .binary symbol left.tree right.tree

/-- The first operand in order. -/
def first : Skeleton → Tree
  | operand t => t
  | node _ left _ => left.first

/-- The operators in order, each with the operand after it. -/
def links : Skeleton → List (String × Tree)
  | operand _ => []
  | node symbol left right => left.links ++ (symbol, right.first) :: right.links

/-- The operators in order. -/
def symbols : Skeleton → List String
  | operand _ => []
  | node symbol left right => left.symbols ++ symbol :: right.symbols

/-- At each node, the operators to the left bind at least as tightly and those to the right more
tightly. -/
def Ordered : Skeleton → Prop
  | operand _ => True
  | node symbol left right =>
    (left.Ordered ∧ ∀ s ∈ left.symbols, power symbol ≤ power s) ∧
      right.Ordered ∧ ∀ s ∈ right.symbols, power symbol < power s

instance decidableOrdered : (sk : Skeleton) → Decidable sk.Ordered
  | operand _ => inferInstanceAs (Decidable True)
  | node symbol left right =>
    have := decidableOrdered left
    have := decidableOrdered right
    inferInstanceAs (Decidable ((left.Ordered ∧ ∀ s ∈ left.symbols, power symbol ≤ power s) ∧
      right.Ordered ∧ ∀ s ∈ right.symbols, power symbol < power s))

theorem symbols_eq (sk : Skeleton) : sk.symbols = sk.links.map Prod.fst := by
  induction sk with
  | operand t => rfl
  | node symbol left right ihleft ihright => simp [symbols, links, ihleft, ihright]

theorem tree_node (symbol : String) (left right : Skeleton) :
    (node symbol left right).tree = Parser.combine symbol left.tree right.tree :=
  rfl

/-- Of two places in one list, they are the same or one is left of the other. -/
theorem append_cons_cases {α : Type} {l r l' r' : List α} {a a' : α}
    (h : l ++ a :: r = l' ++ a' :: r') :
    (l = l' ∧ a = a' ∧ r = r') ∨ (∃ mid, l' = l ++ a :: mid ∧ r = mid ++ a' :: r') ∨
      ∃ mid, l = l' ++ a' :: mid ∧ r' = mid ++ a :: r := by
  rcases List.append_eq_append_iff.mp h with ⟨mid, hl, hr⟩ | ⟨mid, hl, hr⟩
  · cases mid with
    | nil => exact .inl ⟨by simpa using hl.symm, List.cons_eq_cons.mp hr⟩
    | cons b mid =>
      obtain ⟨rfl, hrest⟩ := List.cons_eq_cons.mp hr
      exact .inr (.inl ⟨mid, hl, hrest⟩)
  · cases mid with
    | nil =>
      obtain ⟨rfl, rfl⟩ := List.cons_eq_cons.mp hr
      exact .inl ⟨by simpa using hl, rfl, rfl⟩
    | cons b mid =>
      obtain ⟨rfl, hrest⟩ := List.cons_eq_cons.mp hr
      exact .inr (.inr ⟨mid, hl, hrest⟩)

/-- Of two ordered skeletons of one chain, the operator at the top of one does not stand left of
that at the top of the other. -/
theorem Ordered.not_left {symbol symbol' : String} {left right left' right' : Skeleton}
    (h : (node symbol left right).Ordered) (h' : (node symbol' left' right').Ordered)
    {mid : List (String × Tree)} (hleft : left'.links = left.links ++ (symbol, right.first) :: mid)
    (hright : right.links = mid ++ (symbol', right'.first) :: right'.links) : False := by
  have hmem : symbol ∈ left'.symbols := by simp [symbols_eq, hleft]
  have hmem' : symbol' ∈ right.symbols := by simp [symbols_eq, hright]
  have hle := h'.1.2 symbol hmem
  have hlt := h.2.2 symbol' hmem'
  omega

/-- **A chain has one ordered skeleton at most.** -/
theorem eq_of_ordered (sk sk' : Skeleton) (h : sk.Ordered) (h' : sk'.Ordered)
    (hfirst : sk.first = sk'.first) (hlinks : sk.links = sk'.links) : sk = sk' := by
  induction sk generalizing sk' with
  | operand t =>
    cases sk' with
    | operand t' => exact congrArg operand hfirst
    | node => simp [links] at hlinks
  | node symbol left right ihleft ihright =>
    cases sk' with
    | operand t' => simp [links] at hlinks
    | node symbol' left' right' =>
      rcases append_cons_cases hlinks with ⟨hleft, hlink, hright⟩ | ⟨mid, hl, hr⟩ | ⟨mid, hl, hr⟩
      · obtain ⟨rfl, hoperand⟩ := Prod.mk.inj hlink
        rw [ihleft left' h.1.1 h'.1.1 hfirst hleft, ihright right' h.2.1 h'.2.1 hoperand hright]
      · exact (h.not_left h' hl hr).elim
      · exact (h'.not_left h hl hr).elim

end Skeleton

/-! ### Chains -/

/-- The tokens of the links of a chain. -/
def chainKinds (chain : List (String × Tree)) : List Kind :=
  chain.flatMap fun link => .operator link.1 :: link.2.kinds

theorem chainKinds_cons (link : String × Tree) (chain : List (String × Tree)) :
    chainKinds (link :: chain) = .operator link.1 :: (link.2.kinds ++ chainKinds chain) :=
  rfl

theorem chainKinds_append (chain chain' : List (String × Tree)) :
    chainKinds (chain ++ chain') = chainKinds chain ++ chainKinds chain' :=
  List.flatMap_append

/-- The text of a chain. -/
def chainText (e : Tree) : List (String × Tree) → String
  | [] => e.text
  | (symbol, e') :: chain => e.text ++ " " ++ symbol ++ " " ++ chainText e' chain

/-- A link that can be written: an operator of the table or the symbol of assignment, and an operand
that can be written. -/
structure IsLink (link : String × Tree) : Prop where
  symbol : link.1 = "=" ∨ (BinaryOp.ofSymbol? link.1).isSome = true
  operand : link.2.isPrintable = true

instance (link : String × Tree) : Decidable (IsLink link) :=
  decidable_of_iff
    ((link.1 = "=" ∨ (BinaryOp.ofSymbol? link.1).isSome = true) ∧ link.2.isPrintable = true)
    ⟨fun h => ⟨h.1, h.2⟩, fun h => ⟨h.symbol, h.operand⟩⟩

theorem IsLink.bindingPower?_eq {link : String × Tree} (h : IsLink link) :
    bindingPower? link.1 = some (power link.1) := by
  have hsome : (bindingPower? link.1).isSome = true := by
    rcases h.symbol with hassign | hop
    · rw [hassign]
      rfl
    · exact (Parser.combine_of_isSome hop .absent .absent).1
  obtain ⟨p, hp⟩ := Option.isSome_iff_exists.mp hsome
  rw [power, hp, Option.getD_some]

theorem IsLink.mem_operators {link : String × Tree} (h : IsLink link) :
    link.1 ∈ Token.operators := by
  rcases h.symbol with hassign | hop
  · rw [hassign]
    decide
  · exact BinaryOp.mem_operators hop

/-- The text of a chain is cut into the tokens of its operands and operators. -/
theorem spells_chainText {e : Tree} (chain : List (String × Tree)) (he : e.isPrintable = true)
    (hchain : ∀ link ∈ chain, IsLink link) :
    Spells EndsWord (chainText e chain).toList (e.kinds ++ chainKinds chain) := by
  induction chain generalizing e with
  | nil => simpa [chainText, chainKinds] using e.spells_text he
  | cons link chain ih =>
    obtain ⟨symbol, e'⟩ := link
    obtain ⟨hlink, hchain⟩ := List.forall_mem_cons.mp hchain
    have hspells := (e.spells_text he).upTo (Token.spells_spaced hlink.mem_operators) rfl
      |>.followedBy (ih hlink.operand hchain)
    simpa [chainText, chainKinds] using hspells

/-! ### The climb -/

namespace Parser

/-- After the operand `left`, of the chain that follows the links up to `remaining` are taken into
the skeleton `sk`: those that bind more tightly than `floor`. -/
structure Climbed (left : Skeleton) (floor : Nat) (chain : List (String × Tree)) (sk : Skeleton)
    (remaining : List (String × Tree)) : Prop where
  first : sk.first = left.first
  taken : ∃ taken, chain = taken ++ remaining ∧ sk.links = left.links ++ taken
  ordered : sk.Ordered
  above : (∀ s ∈ left.symbols, floor < power s) → ∀ s ∈ sk.symbols, floor < power s
  stops : ∀ link ∈ remaining.head?, power link.1 ≤ floor

variable {left right sk : Skeleton} {floor : Nat}
  {chain remaining remaining' : List (String × Tree)}

theorem Climbed.refl (hleft : left.Ordered) (hstops : ∀ link ∈ chain.head?, power link.1 ≤ floor) :
    Climbed left floor chain left chain where
  first := rfl
  taken := ⟨[], rfl, by simp⟩
  ordered := hleft
  above h := h
  stops := hstops

/-- An operator with what binds more tightly after it, and what is made of the node of both. -/
theorem Climbed.node {symbol : String} {e : Tree} (hfloor : floor < power symbol)
    (hright : Climbed (.operand e) (power symbol) chain right remaining)
    (h : Climbed (.node symbol left right) floor remaining sk remaining') :
    Climbed left floor ((symbol, e) :: chain) sk remaining' where
  first := h.first
  taken := by
    obtain ⟨taken, hchain, hlinks⟩ := hright.taken
    obtain ⟨taken', hremaining, hlinks'⟩ := h.taken
    refine ⟨(symbol, e) :: taken ++ taken', by simp [hchain, hremaining], ?_⟩
    have hfirst : right.first = e := hright.first
    have hright : right.links = taken := hlinks
    rw [hlinks', Skeleton.links, hfirst, hright, List.append_assoc]
  ordered := h.ordered
  above hleft := by
    refine h.above fun s hs => ?_
    rcases List.mem_append.mp hs with hs | hs
    · exact hleft s hs
    · rcases List.mem_cons.mp hs with rfl | hs
      · exact hfloor
      · have habove := hright.above nofun s hs
        omega
  stops := h.stops

/-- What an operator takes to its right may stand to the right of it, and what comes after that may
stand above it. -/
theorem Climbed.ordered_node {symbol : String} {e : Tree}
    (hright : Climbed (.operand e) (power symbol) chain right remaining) (hleft : left.Ordered)
    (hsymbols : ∀ s ∈ left.symbols, power symbol ≤ power s) :
    (Skeleton.node symbol left right).Ordered ∧
      ∀ s ∈ (Skeleton.node symbol left right).symbols, ∀ link ∈ remaining.head?,
        power link.1 ≤ power s := by
  have habove := hright.above nofun
  refine ⟨⟨⟨hleft, hsymbols⟩, hright.ordered, habove⟩, fun s hs link hlink => ?_⟩
  have hstops := hright.stops link hlink
  rcases List.mem_append.mp hs with hs | hs
  · exact hstops.trans (hsymbols s hs)
  · rcases List.mem_cons.mp hs with rfl | hs
    · exact hstops
    · exact hstops.trans (habove s hs).le

/-- No argument list follows an operand of a chain. -/
theorem ahead_chainKinds {after : List Kind} (chain : List (String × Tree))
    (h : Closes (ahead after)) : ahead (chainKinds chain ++ after) ≠ .punct .leftParen := by
  cases chain with
  | nil => exact h.1
  | cons link chain => exact nofun

/-- **One climb.** Where the operators in `left` bind no less tightly than the one ahead, the
operators that bind more tightly than the floor are taken, and what is made is ordered. -/
theorem operators_climb {after : List Kind} (hafter : Closes (ahead after)) (n : Nat)
    (left : Skeleton) (floor : Nat) (chain : List (String × Tree))
    (hchain : ∀ link ∈ chain, IsLink link) (hleft : left.Ordered)
    (hhead : ∀ s ∈ left.symbols, ∀ link ∈ chain.head?, power link.1 ≤ power s)
    (hn : 4 * (chainKinds chain ++ after).length + 1 ≤ n) :
    ∃ sk remaining, Climbed left floor chain sk remaining ∧
      Becomes (operators n left.tree floor) (chainKinds chain ++ after) (pure sk.tree)
        (chainKinds remaining ++ after) := by
  induction n generalizing left floor chain with
  | zero => omega
  | succ n ih =>
    cases chain with
    | nil =>
      exact ⟨left, [], .refl hleft (by simp), operators_becomes hafter.2 (by omega)⟩
    | cons link chain =>
      obtain ⟨symbol, e⟩ := link
      obtain ⟨hlink, hchain⟩ := List.forall_mem_cons.mp hchain
      have hpower := hlink.bindingPower?_eq
      by_cases hfloor : power symbol ≤ floor
      · refine ⟨left, (symbol, e) :: chain, .refl hleft (by simpa using hfloor), ?_⟩
        rw [operators]
        refine becomes_ahead ?_
        simp only [hpower, if_pos hfloor]
        exact .refl
      · rw [chainKinds_cons, List.cons_append, List.append_assoc] at hn ⊢
        simp only [List.length_cons, List.length_append] at hn
        obtain ⟨right, remaining, hright, hoperators⟩ :=
          ih (.operand e) (power symbol) chain hchain trivial (List.forall_mem_nil _)
            (by simpa using by omega)
        obtain ⟨hordered, hnext⟩ :=
          hright.ordered_node hleft fun s hs => hhead s hs (symbol, e) rfl
        obtain ⟨taken, rfl, -⟩ := hright.taken
        rw [chainKinds_append, List.length_append] at hn
        obtain ⟨sk, remaining', h, hrest⟩ := ih (.node symbol left right) floor remaining
          (fun link hmem => hchain link (List.mem_append_right taken hmem)) hordered hnext
          (by simpa using by omega)
        rw [Skeleton.tree_node] at hrest
        refine ⟨sk, remaining', .node (by omega) hright h, ?_⟩
        rw [operators]
        refine becomes_ahead ?_
        simp only [hpower, if_neg hfloor]
        have hoperand := (e.reads_kinds hlink.operand).operand (n := n)
          (ahead_chainKinds (taken ++ remaining) hafter)
          (by simpa [chainKinds_append] using by omega)
        exact becomes_skip.bind (hoperand.bind (hoperators.bind hrest))

/-- From the floor of an expression, the whole chain is climbed. -/
theorem expression_climb {e : Tree} {chain : List (String × Tree)} {after : List Kind} {n : Nat}
    (he : e.isPrintable = true) (hchain : ∀ link ∈ chain, IsLink link)
    (hafter : Closes (ahead after))
    (hn : 4 * (e.kinds ++ chainKinds chain ++ after).length + 3 ≤ n) :
    ∃ sk : Skeleton, (sk.first = e ∧ sk.links = chain ∧ sk.Ordered) ∧
      Becomes (expression n) (e.kinds ++ chainKinds chain ++ after) (pure sk.tree) after := by
  obtain ⟨n, rfl⟩ : ∃ m, n = m + 1 := ⟨n - 1, by omega⟩
  rw [List.append_assoc] at hn ⊢
  obtain ⟨sk, remaining, hclimbed, hoperators⟩ :=
    operators_climb hafter n (.operand e) 0 chain hchain trivial nofun
      (by rw [List.length_append] at hn; omega)
  obtain ⟨taken, rfl, hlinks⟩ := hclimbed.taken
  -- Every operator binds more tightly than nothing at all.
  have hnil : remaining = [] := by
    cases remaining with
    | nil => rfl
    | cons link remaining =>
      have hlink := hchain link (List.mem_append_right taken List.mem_cons_self)
      have hpositive := zero_lt_of_bindingPower? hlink.bindingPower?_eq
      have hstops := hclimbed.stops link rfl
      omega
  subst hnil
  rw [List.append_nil] at hn hoperators ⊢
  refine ⟨sk, ⟨hclimbed.first, hlinks, hclimbed.ordered⟩, ?_⟩
  have hoperand := (e.reads_kinds he).operand (n := n) (ahead_chainKinds taken hafter) (by omega)
  exact expression_becomes hafter (by omega) hoperand hoperators

end Parser

/-- **A chain is read by how tightly its operators bind.** For operands that can be written and
operators of the table or the symbol of assignment between them, the text of the chain is read as
one expression, put together as in the only ordered skeleton that has these operands and operators
in this order. -/
theorem ofText_chainText (e : Tree) (chain : List (String × Tree)) (he : e.isPrintable = true)
    (hchain : ∀ link ∈ chain, IsLink link) :
    ∃ sk : Skeleton, Tree.ofText (chainText e chain) = .ok (.seq [sk.tree]) ∧
      (sk.first = e ∧ sk.links = chain ∧ sk.Ordered) ∧
      ∀ sk' : Skeleton, sk'.first = e → sk'.links = chain → sk'.Ordered → sk' = sk := by
  obtain ⟨sk, hsk, hexpression⟩ :=
    Parser.expression_climb he hchain Parser.closes_eof (Nat.le_refl _)
  have hopens := (e.reads_kinds he).opens.1
  have hread := Tree.ofText_of_expression (spells_chainText chain he hchain)
    (by rwa [Parser.ahead_append hopens]) hexpression
  refine ⟨sk, hread, hsk, fun sk' hfirst hlinks hordered => ?_⟩
  obtain ⟨hfirst', hlinks', hordered'⟩ := hsk
  exact sk'.eq_of_ordered sk hordered hordered' (hfirst.trans hfirst'.symm)
    (hlinks.trans hlinks'.symm)

/-- Operators of all six strengths, some of them next to others that bind equally, and an operand
that has an operator of its own. -/
def mixedChain : List (String × Tree) :=
  [("=", .var "b"), ("=", .var "c"), ("||", .int 1), ("&&", .binary "-" (.int 2) (.int 3)),
    ("<", .int 4), ("==", .int 5), ("-", .int 6), ("-", .var "x"), ("*", .int 7), ("/", .str "s"),
    ("+", .bool true)]

/-- How they are put together. -/
def mixedSkeleton : Skeleton :=
  .node "=" (.node "=" (.operand (.var "a")) (.operand (.var "b")))
    (.node "||" (.operand (.var "c"))
      (.node "&&" (.operand (.int 1))
        (.node "==" (.node "<" (.operand (.binary "-" (.int 2) (.int 3))) (.operand (.int 4)))
          (.node "+"
            (.node "-" (.node "-" (.operand (.int 5)) (.operand (.int 6)))
              (.node "/" (.node "*" (.operand (.var "x")) (.operand (.int 7)))
                (.operand (.str "s"))))
            (.operand (.bool true))))))

theorem ofText_chainText_mixed :
    (Term.isPrintable (.var "a" : Tree) = true ∧ ∀ link ∈ mixedChain, IsLink link) ∧
    Tree.ofText (chainText (.var "a") mixedChain) = .ok (.seq [mixedSkeleton.tree]) := by
  have hlinks : ∀ link ∈ mixedChain, IsLink link := by decide
  obtain ⟨sk, hread, -, hunique⟩ := ofText_chainText (.var "a") mixedChain rfl hlinks
  have hordered : mixedSkeleton.Ordered := by decide
  rw [hunique mixedSkeleton rfl rfl hordered]
  exact ⟨⟨rfl, hlinks⟩, hread⟩

end LetLambda
