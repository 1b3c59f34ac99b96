import LetLambda.Proofs.Reading

/-!
# Faults are seen at the first token that is wrong

Where a program is refused, the tokens before the refused one begin some program, and no program
begins with them and the refused one (`ofTokens_points_at_first_fault`).

Both are shown of every parser of the grammar at once. Parsers are put in sequence, so what one of
them says must fit what is ahead when it stops: a parser is described by the kinds `before` that may
be ahead where it is completed from nothing, and the kinds `after` at which it surely stops
(`Starts`, `Traced`). A parser in two parts is traced if its parts are and the second part can
start where the first one stops (`Traced.bind`).
-/

namespace LetLambda.Parser

open Token (Kind)

variable {α β : Type}

/-! ### Parsers by depth -/

/-- None of the tokens is the end of input. -/
def Inner (ts : List Token) : Prop := ∀ t ∈ ts, t.kind ≠ .eof

theorem inner_nil : Inner [] := List.forall_mem_nil _

theorem Inner.append {ts us : List Token} (h : Inner ts) (h' : Inner us) : Inner (ts ++ us) := by
  intro t ht
  rcases List.mem_append.mp ht with ht | ht
  · exact h t ht
  · exact h' t ht

theorem kindAhead_append {ts : List Token} (h : ts ≠ []) (us : List Token) :
    kindAhead (ts ++ us) = kindAhead ts := by
  cases ts with
  | nil => exact absurd rfl h
  | cons => rfl

theorem kindAhead_append_congr {us us' : List Token} (h : kindAhead us' = kindAhead us)
    (ts : List Token) : kindAhead (ts ++ us') = kindAhead (ts ++ us) := by
  cases ts with
  | nil => exact h
  | cons => rfl

/-- With depth `n` or more, the parser makes `a` of the tokens `used`, wherever the kind ahead of
them is in `after`. -/
def Takes (P : Nat → Parser α) (after : Kind → Prop) (n : Nat) (used : List Token) (a : α) : Prop :=
  ∀ m ≥ n, ∀ rest, after (kindAhead rest) → (P m).run (used ++ rest) = .ok a rest

/-- With depth `n` or more, the parser refuses a token of kind `k` that comes after the tokens
`used`. -/
def Refuses (P : Nat → Parser α) (n : Nat) (used : List Token) (wanted : Wanted) (k : Kind) :
    Prop :=
  ∀ m ≥ n, ∀ rest, kindAhead rest = k → (P m).run (used ++ rest) = .refused wanted rest

section Sequence

variable {P : Nat → Parser β} {Q : β → Nat → Parser α} {mid after : Kind → Prop} {n n' : Nat}
  {used used' : List Token} {b : β} {a : α} {wanted : Wanted} {k : Kind}

theorem Takes.bind (h : Takes P mid n used b) (h' : Takes (Q b) after n' used' a)
    (hmid : ∀ rest, after (kindAhead rest) → mid (kindAhead (used' ++ rest))) :
    Takes (fun m => P m >>= fun b => Q b m) after (max n n') (used ++ used') a := by
  intro m hm rest hrest
  rw [List.append_assoc, run_bind, h m (by omega) _ (hmid rest hrest)]
  exact h' m (by omega) rest hrest

theorem Takes.bind_refuses (h : Takes P mid n used b) (h' : Refuses (Q b) n used' wanted k)
    (hmid : ∀ rest, kindAhead rest = k → mid (kindAhead (used' ++ rest))) :
    Refuses (fun m => P m >>= fun b => Q b m) n (used ++ used') wanted k := by
  intro m hm rest hrest
  rw [List.append_assoc, run_bind, h m hm _ (hmid rest hrest)]
  exact h' m hm rest hrest

theorem Refuses.bind (h : Refuses P n used wanted k) :
    Refuses (fun m => P m >>= fun b => Q b m) n used wanted k := by
  intro m hm rest hrest
  rw [run_bind, h m hm rest hrest]

end Sequence

/-- Where a parser in two parts refuses a token, its first part does, or its second part after a
result of the first. -/
theorem run_bind_eq_refused {p : Parser β} {f : β → Parser α} {ts rest : List Token}
    {wanted : Wanted} (h : (p >>= f).run ts = .refused wanted rest) :
    p.run ts = .refused wanted rest ∨
      ∃ b mid, p.run ts = .ok b mid ∧ (f b).run mid = .refused wanted rest := by
  rw [run_bind] at h
  cases hp : p.run ts with
  | ok b mid =>
    rw [hp] at h
    exact .inr ⟨b, mid, rfl, h⟩
  | refused wanted' mid =>
    rw [hp] at h
    cases h
    exact .inl rfl
  | starved =>
    rw [hp] at h
    cases h

/-! ### Completing what is begun -/

/-- What begins with the tokens `used` can be completed, up to any kind in `after`. -/
def Completes (P : Nat → Parser α) (after : Kind → Prop) (used : List Token) : Prop :=
  ∃ more a n, Inner more ∧ Takes P after n (used ++ more) a

/-- Some tokens complete the parser from nothing, and then a kind in `before` is ahead of it. -/
def Starts (P : Nat → Parser α) (before after : Kind → Prop) : Prop :=
  ∃ more a n, Inner more ∧ Takes P after n more a ∧
    ∀ rest, after (kindAhead rest) → before (kindAhead (more ++ rest))

/-- What a parser with depth `n` does on the tokens `ts`, and what it does instead where they go on
otherwise. -/
structure Traced (P : Nat → Parser α) (before after : Kind → Prop) (n : Nat) (ts : List Token) :
    Prop where
  /-- A result comes of the tokens that are used and of the kind ahead of them; the kinds in
  `after` would have done as well. -/
  ok : ∀ a rest, (P n).run ts = .ok a rest →
    ∃ used, ts = used ++ rest ∧ Inner used ∧ (used = [] → ∀ k, after k → before k) ∧
      Takes P (fun k => k = kindAhead rest ∨ after k) n used a
  /-- A refusal comes of the tokens that are used and of the kind that is refused; what is begun by
  the tokens that are used can be completed. -/
  refused : ∀ wanted rest, (P n).run ts = .refused wanted rest →
    ∃ used, ts = used ++ rest ∧ Inner used ∧ Refuses P n used wanted (kindAhead rest) ∧
      (used ≠ [] → Completes P after used)

/-- The parser with depth `n` is completed from nothing, and traced on all tokens. -/
structure Foresees (P : Nat → Parser α) (before after : Kind → Prop) (n : Nat) : Prop where
  starts : Starts P before after
  traced : ∀ ts, Traced P before after n ts

section Traced

variable {P : Nat → Parser β} {Q : β → Nat → Parser α} {before mid after : Kind → Prop}
  {n : Nat} {ts : List Token}

theorem Starts.narrow (h : Starts P before mid) (hafter : ∀ k, after k → mid k) :
    Starts P before after := by
  obtain ⟨more, b, n, hmore, htakes, hopens⟩ := h
  exact ⟨more, b, n, hmore, fun m hm rest hrest => htakes m hm rest (hafter _ hrest),
    fun rest hrest => hopens rest (hafter _ hrest)⟩

theorem Starts.bind (h : Starts P before mid) (h' : ∀ b, Starts (Q b) mid after) :
    Starts (fun m => P m >>= fun b => Q b m) before after := by
  obtain ⟨more, b, n, hmore, htakes, hopens⟩ := h
  obtain ⟨more', a, n', hmore', htakes', hopens'⟩ := h' b
  refine ⟨more ++ more', a, max n n', hmore.append hmore', htakes.bind htakes' hopens', ?_⟩
  intro rest hrest
  rw [List.append_assoc]
  exact hopens _ (hopens' rest hrest)

theorem Traced.narrow (h : Traced P before mid n ts) (hafter : ∀ k, after k → mid k) :
    Traced P before after n ts where
  ok b rest hrun := by
    obtain ⟨used, hts, hused, hnone, htakes⟩ := h.ok b rest hrun
    refine ⟨used, hts, hused, fun hnil k hk => hnone hnil k (hafter k hk), ?_⟩
    intro m hm rest' hrest'
    exact htakes m hm rest' (hrest'.imp_right (hafter _))
  refused wanted rest hrun := by
    obtain ⟨used, hts, hused, hrefuses, hcompletes⟩ := h.refused wanted rest hrun
    refine ⟨used, hts, hused, hrefuses, fun hne => ?_⟩
    obtain ⟨more, b, n', hmore, htakes⟩ := hcompletes hne
    exact ⟨more, b, n', hmore, fun m hm rest' hrest' => htakes m hm rest' (hafter _ hrest')⟩

theorem Traced.congr {P' : Nat → Parser β} (heq : ∀ m, P m = P' m)
    (h : Traced P' before after n ts) : Traced P before after n ts := by
  rwa [funext heq]

/-- A parser that can stop at a kind at which it does not start takes a token at least. -/
theorem Traced.enters (h : Traced P before after n ts) {k : Kind} (hafter : after k)
    (hbefore : ¬ before k) : Traced P (fun _ => False) after n ts where
  ok b rest hrun := by
    obtain ⟨used, hts, hused, hnone, htakes⟩ := h.ok b rest hrun
    exact ⟨used, hts, hused, fun hnil => absurd (hnone hnil k hafter) hbefore, htakes⟩
  refused := h.refused

/-- What the second part of a sequence uses is ahead of the first part. Where it uses nothing, the
kind ahead of the first part is the one ahead of both. -/
theorem ahead_of_parts {used rest rest' : List Token}
    (hnone : used = [] → ∀ k, after k → mid k)
    (h : kindAhead rest' = kindAhead rest ∨ after (kindAhead rest')) :
    kindAhead (used ++ rest') = kindAhead (used ++ rest) ∨ mid (kindAhead (used ++ rest')) := by
  rcases h with h | h
  · exact .inl (kindAhead_append_congr h used)
  · by_cases hnil : used = []
    · subst hnil
      exact .inr (hnone rfl _ h)
    · exact .inl (by rw [kindAhead_append hnil, kindAhead_append hnil])

theorem Traced.bind (h : Traced P before mid n ts) (h' : ∀ b, Foresees (Q b) mid after n) :
    Traced (fun m => P m >>= fun b => Q b m) before after n ts where
  ok a rest hrun := by
    obtain ⟨b, us, hP, hQ⟩ := run_bind_eq_ok hrun
    obtain ⟨used, rfl, hused, hnone, htakes⟩ := h.ok b us hP
    obtain ⟨used', rfl, hused', hnone', htakes'⟩ := ((h' b).traced us).ok a rest hQ
    have hfirst := htakes.bind htakes' fun rest' => ahead_of_parts hnone'
    rw [Nat.max_self] at hfirst
    refine ⟨used ++ used', by rw [List.append_assoc], hused.append hused', ?_, hfirst⟩
    intro hnil k hk
    obtain ⟨hnil, hnil'⟩ := List.append_eq_nil_iff.mp hnil
    exact hnone hnil k (hnone' hnil' k hk)
  refused wanted rest hrun := by
    rcases run_bind_eq_refused hrun with hP | ⟨b, us, hP, hQ⟩
    · -- The first part refuses. It is completed, and the second part is started after it.
      obtain ⟨used, rfl, hused, hrefuses, hcompletes⟩ := h.refused wanted rest hP
      refine ⟨used, rfl, hused, hrefuses.bind, fun hne => ?_⟩
      obtain ⟨more, b, n', hmore, htakes⟩ := hcompletes hne
      obtain ⟨more', a, n'', hmore', htakes', hopens'⟩ := (h' b).starts
      refine ⟨more ++ more', a, max n' n'', hmore.append hmore', ?_⟩
      rw [← List.append_assoc]
      exact htakes.bind htakes' hopens'
    · obtain ⟨used, rfl, hused, -, htakes⟩ := h.ok b us hP
      obtain ⟨used', rfl, hused', hrefuses, hcompletes⟩ := ((h' b).traced us).refused wanted rest hQ
      have hsecond := htakes.bind_refuses hrefuses fun rest' hrest' =>
        .inl (kindAhead_append_congr hrest' used')
      refine ⟨used ++ used', by rw [List.append_assoc], hused.append hused', hsecond, fun _ => ?_⟩
      by_cases hnil : used' = []
      · -- The second part has used nothing, and is completed from nothing.
        subst hnil
        obtain ⟨more, a, n', hmore, htakes', hopens⟩ := (h' b).starts
        refine ⟨more, a, max n n', hmore, ?_⟩
        rw [List.append_nil]
        exact htakes.bind htakes' fun rest' hrest' => .inr (hopens rest' hrest')
      · obtain ⟨more, a, n', hmore, htakes'⟩ := hcompletes hnil
        refine ⟨more, a, max n n', hmore, ?_⟩
        rw [List.append_assoc]
        refine htakes.bind htakes' fun rest' _ => .inl ?_
        rw [List.append_assoc, kindAhead_append hnil, kindAhead_append hnil]

theorem Foresees.completes (h : Foresees P before after n) {used : List Token}
    (hused : used ≠ [] → Completes P after used) : Completes P after used := by
  by_cases hnil : used = []
  · obtain ⟨more, b, n', hmore, htakes, -⟩ := h.starts
    exact ⟨more, b, n', hmore, by rwa [hnil]⟩
  · exact hused hnil

/-- A parser that stops at all the kinds in `mid`, where it is followed by one of them. -/
theorem Foresees.upTo (h : Foresees P before mid n) {k : Kind} (hk : mid k) :
    Foresees P before (· = k) n := by
  have hafter : ∀ k', k' = k → mid k' := fun k' heq => heq ▸ hk
  exact ⟨h.starts.narrow hafter, fun ts => (h.traced ts).narrow hafter⟩

theorem Foresees.bind (h : Foresees P before mid n) (h' : ∀ b, Foresees (Q b) mid after n) :
    Foresees (fun m => P m >>= fun b => Q b m) before after n :=
  ⟨h.starts.bind fun b => (h' b).starts, fun ts => (h.traced ts).bind h'⟩

end Traced

/-! ### Depth -/

section Depth

variable {P : Nat → Parser α} {before after : Kind → Prop} {n : Nat} {ts : List Token}

theorem Takes.succ {used : List Token} {a : α}
    (h : Takes (fun m => P (m + 1)) after n used a) : Takes P after (n + 1) used a := by
  intro m hm rest hrest
  obtain ⟨m, rfl⟩ : ∃ m', m = m' + 1 := ⟨m - 1, by omega⟩
  exact h m (by omega) rest hrest

theorem Starts.succ (h : Starts (fun m => P (m + 1)) before after) : Starts P before after := by
  obtain ⟨more, a, n, hmore, htakes, hopens⟩ := h
  exact ⟨more, a, n + 1, hmore, htakes.succ, hopens⟩

theorem Traced.succ (h : Traced (fun m => P (m + 1)) before after n ts) :
    Traced P before after (n + 1) ts where
  ok a rest hrun := by
    obtain ⟨used, hts, hused, hnone, htakes⟩ := h.ok a rest hrun
    exact ⟨used, hts, hused, hnone, htakes.succ⟩
  refused wanted rest hrun := by
    obtain ⟨used, hts, hused, hrefuses, hcompletes⟩ := h.refused wanted rest hrun
    refine ⟨used, hts, hused, ?_, fun hne => ?_⟩
    · intro m hm rest' hrest'
      obtain ⟨m, rfl⟩ : ∃ m', m = m' + 1 := ⟨m - 1, by omega⟩
      exact hrefuses m (by omega) rest' hrest'
    · obtain ⟨more, a, n', hmore, htakes⟩ := hcompletes hne
      exact ⟨more, a, n' + 1, hmore, htakes.succ⟩

theorem Foresees.succ (h : Foresees (fun m => P (m + 1)) before after n) :
    Foresees P before after (n + 1) :=
  ⟨h.starts.succ, fun ts => (h.traced ts).succ⟩

theorem Starts.zero (h : Starts P before after) (hzero : P 0 = starve) :
    Foresees P before after 0 where
  starts := h
  traced ts :=
    { ok := fun a rest hrun => by
        rw [hzero] at hrun
        cases hrun
      refused := fun wanted rest hrun => by
        rw [hzero] at hrun
        cases hrun }

theorem Takes.shift {d n' : Nat} {used : List Token} {a : α} (h : Takes P after n' used a)
    (hn : n' ≤ n + d) : Takes (fun m => P (m + d)) after n used a :=
  fun m hm => h (m + d) (by omega)

/-- A parser that is given more depth than its caller has. -/
theorem Foresees.shift {d : Nat} (h : Foresees P before after (n + d)) :
    Foresees (fun m => P (m + d)) before after n := by
  refine ⟨?_, fun ts => ⟨fun a rest hrun => ?_, fun wanted rest hrun => ?_⟩⟩
  · obtain ⟨more, a, k, hmore, htakes, hopens⟩ := h.starts
    exact ⟨more, a, k, hmore, htakes.shift (by omega), hopens⟩
  · obtain ⟨used, hts, hused, hnone, htakes⟩ := (h.traced ts).ok a rest hrun
    exact ⟨used, hts, hused, hnone, htakes.shift (by omega)⟩
  · obtain ⟨used, hts, hused, hrefuses, hcompletes⟩ := (h.traced ts).refused wanted rest hrun
    refine ⟨used, hts, hused, fun m hm => hrefuses (m + d) (by omega), fun hne => ?_⟩
    obtain ⟨more, a, k, hmore, htakes⟩ := hcompletes hne
    exact ⟨more, a, k, hmore, htakes.shift (by omega)⟩

end Depth

/-! ### Steps -/

section Steps

variable {before after : Kind → Prop} {n : Nat} {ts : List Token}

theorem foresees_pure {a : α} : Foresees (fun _ => pure a) after after n where
  starts := ⟨[], a, 0, inner_nil, fun _ _ _ _ => rfl, fun _ hrest => hrest⟩
  traced ts :=
    { ok := fun b rest hrun => by
        cases hrun
        exact ⟨[], rfl, inner_nil, fun _ _ hk => hk, fun _ _ _ _ => rfl⟩
      refused := fun wanted rest hrun => by cases hrun }

theorem traced_refuse (wanted : Wanted) :
    Traced (fun _ => (refuse wanted : Parser α)) before after n ts where
  ok a rest hrun := by cases hrun
  refused wanted' rest hrun := by
    cases hrun
    exact ⟨[], rfl, inner_nil, fun _ _ _ _ => rfl, fun hne => absurd rfl hne⟩

theorem traced_skip (h : kindAhead ts ≠ .eof) : Traced (fun _ => skip) before after n ts where
  ok a rest hrun := by
    cases hrun
    cases ts with
    | nil => exact absurd rfl h
    | cons t rest =>
      refine ⟨[t], rfl, List.forall_mem_singleton.mpr h, ?_, fun _ _ _ _ => rfl⟩
      exact fun hnil => absurd hnil (List.cons_ne_nil _ _)
  refused wanted rest hrun := by cases hrun

/-- A parser that looks at the token ahead and then takes a token at least. -/
theorem Traced.peek {f : Kind → Nat → Parser α}
    (h : Traced (f (kindAhead ts)) (fun _ => False) after n ts) :
    Traced (fun m => Parser.peek >>= fun k => f k m) before after n ts where
  ok a rest hrun := by
    obtain ⟨used, rfl, hused, hnone, htakes⟩ := h.ok a rest hrun
    refine ⟨used, rfl, hused, fun hnil k hk => (hnone hnil k hk).elim, ?_⟩
    intro m hm rest' hrest'
    have hahead : kindAhead (used ++ rest') = kindAhead (used ++ rest) :=
      (ahead_of_parts hnone hrest').resolve_right id
    show (f (kindAhead (used ++ rest')) m).run (used ++ rest') = _
    rw [hahead]
    exact htakes m hm rest' hrest'
  refused wanted rest hrun := by
    obtain ⟨used, rfl, hused, hrefuses, hcompletes⟩ := h.refused wanted rest hrun
    refine ⟨used, rfl, hused, ?_, fun hne => ?_⟩
    · intro m hm rest' hrest'
      show (f (kindAhead (used ++ rest')) m).run (used ++ rest') = _
      rw [kindAhead_append_congr hrest']
      exact hrefuses m hm rest' hrest'
    · obtain ⟨more, a, n', hmore, htakes⟩ := hcompletes hne
      refine ⟨more, a, n', hmore, fun m hm rest' hrest' => ?_⟩
      show (f (kindAhead (used ++ more ++ rest')) m).run _ = _
      rw [List.append_assoc, kindAhead_append hne, ← kindAhead_append hne rest,
        ← List.append_assoc]
      exact htakes m hm rest' hrest'

/-! A parser that looks at the token ahead may have nothing to do: it makes `a` of nothing if the
kind ahead is in `passes`, and takes a token at least otherwise. -/

theorem run_option {f : Kind → Nat → Parser α} {a : α} {passes : Kind → Prop}
    (hpass : ∀ k m, passes k → f k m = pure a) (m : Nat) (hts : passes (kindAhead ts)) :
    (peek >>= fun k => f k m).run ts = .ok a ts := by
  show (f (kindAhead ts) m).run ts = .ok a ts
  rw [hpass _ m hts]
  rfl

theorem starts_option {f : Kind → Nat → Parser α} {a : α} (passes : Kind → Prop)
    (hpass : ∀ k m, passes k → f k m = pure a) (hafter : ∀ k, after k → passes k) :
    Starts (fun m => peek >>= fun k => f k m) after after :=
  ⟨[], a, 0, inner_nil, fun m _ _ hrest => run_option hpass m (hafter _ hrest),
    fun _ hrest => hrest⟩

theorem foresees_option {f : Kind → Nat → Parser α} {a : α} (passes : Kind → Prop)
    (hpass : ∀ k m, passes k → f k m = pure a) (hafter : ∀ k, after k → passes k)
    (henter : ∀ ts, ¬ passes (kindAhead ts) →
      Traced (f (kindAhead ts)) (fun _ => False) after n ts) :
    Foresees (fun m => peek >>= fun k => f k m) after after n := by
  refine ⟨starts_option passes hpass hafter, fun ts => ?_⟩
  by_cases hts : passes (kindAhead ts)
  · have hrun := run_option hpass n hts
    refine ⟨fun b rest h => ?_, fun wanted rest h => ?_⟩
    · cases hrun.symm.trans h
      refine ⟨[], rfl, inner_nil, fun _ _ hk => hk, fun m _ rest' hrest' => ?_⟩
      have hpasses : passes (kindAhead rest') := by
        rcases hrest' with hsame | hrest'
        · rwa [hsame]
        · exact hafter _ hrest'
      exact run_option hpass m hpasses
    · cases hrun.symm.trans h
  · exact (henter ts hts).peek

end Steps

/-! ### Tokens -/

section Tokens

variable {before after : Kind → Prop} {n : Nat} {ts : List Token}

/-- A token of kind `k`, standing nowhere. -/
def filler (k : Kind) : Token := ⟨k, 0, 0, Position.origin⟩

/-- What a mark and a reserved word have in common. -/
theorem traced_expect {k : Kind} {wanted : Wanted} (hk : k ≠ .eof) :
    Traced (fun _ => peek >>= fun k' => if k' = k then skip else refuse wanted) before after n
      ts := by
  refine Traced.peek ?_
  by_cases h : kindAhead ts = k
  · simp only [if_pos h]
    exact traced_skip (by rwa [h])
  · simp only [if_neg h]
    exact traced_refuse _

theorem foresees_expect {k : Kind} {wanted : Wanted} (hk : k ≠ .eof) :
    Foresees (fun _ => peek >>= fun k' => if k' = k then skip else refuse wanted) (· = k) after
      n where
  starts := by
    refine ⟨[filler k], (), 0, List.forall_mem_singleton.mpr hk, fun _ _ rest _ => ?_,
      fun _ _ => rfl⟩
    show (if k = k then skip else refuse wanted).run (filler k :: rest) = .ok () rest
    rw [if_pos rfl]
    rfl
  traced _ := traced_expect hk

theorem traced_punct {mark : Punct} : Traced (fun _ => punct mark) before after n ts :=
  traced_expect (by simp)

theorem foresees_punct (mark : Punct) :
    Foresees (fun _ => punct mark) (· = .punct mark) after n :=
  foresees_expect (by simp)

theorem traced_keyword {word : Keyword} : Traced (fun _ => keyword word) before after n ts :=
  traced_expect (by simp)

/-- The kinds of names. -/
def IsName (k : Kind) : Prop := ∃ x, k = .ident x

theorem foresees_name : Foresees (fun _ => name) IsName after n where
  starts := ⟨[filler (.ident "x")], "x", 0, List.forall_mem_singleton.mpr (by simp [filler]),
    fun _ _ _ _ => rfl, fun _ _ => ⟨"x", rfl⟩⟩
  traced ts := by
    refine Traced.peek ?_
    cases hk : kindAhead ts with
    | ident x => exact (traced_skip (by simp [hk])).bind fun _ => foresees_pure
    | _ => exact traced_refuse _

theorem foresees_optionalName :
    Foresees (fun _ => optionalName) (¬ IsName ·) (¬ IsName ·) n := by
  refine foresees_option (¬ IsName ·) (a := none) ?_ (fun _ hk => hk) ?_
  · intro k _ hk
    cases k with
    | ident x => exact absurd ⟨x, rfl⟩ hk
    | _ => rfl
  · intro ts hts
    obtain ⟨x, hx⟩ := not_not.mp hts
    simp only [hx]
    exact (traced_skip (by simp [hx])).bind fun _ => foresees_pure

/-- The word between a test and what follows it. Where it is left out, the block that is ahead
belongs to what follows it. -/
theorem foresees_thenWord {Q : Nat → Parser α} (h : Foresees Q before after n) {k : Kind}
    (hafter : after k) (hbefore : ¬ before k) :
    Foresees (fun m => thenWord >>= fun _ => Q m) (· = .keyword .then) after n where
  starts := by
    obtain ⟨more, a, n', hmore, htakes, -⟩ := h.starts
    refine ⟨filler (.keyword .then) :: more, a, n', ?_, fun m hm rest hrest => ?_, fun _ _ => rfl⟩
    · exact List.forall_mem_cons.mpr ⟨by simp [filler], hmore⟩
    · exact htakes m hm rest hrest
  traced ts := by
    refine Traced.peek (f := fun k m => (if k = .punct .leftBrace then pure () else keyword .then)
      >>= fun _ => Q m) ?_
    by_cases hk : kindAhead ts = .punct .leftBrace
    · simp only [if_pos hk]
      exact (h.traced ts).enters hafter hbefore
    · simp only [if_neg hk]
      exact traced_keyword.bind fun _ => h

end Tokens

/-! ### Lists -/

section Lists

variable {item : Nat → Parser α} {opens : Kind → Prop} {close separator : Punct} {n : Nat}

/-- An item and the items after it. -/
theorem traced_item_cons {others : Nat → Parser (List α)}
    (hitem : Foresees item opens (· = .punct close) n) (hclose : ¬ opens (.punct close))
    (hothers : Foresees others (· = .punct close) (· = .punct close) n) (ts : List Token) :
    Traced (fun m => do
      let x ← item m
      let xs ← others m
      return x :: xs) (fun _ => False) (· = .punct close) n ts :=
  ((hitem.traced ts).enters rfl hclose).bind fun _ => hothers.bind fun _ => foresees_pure

/-- The items of a list, each read with the depth `d` more than there may be items. -/
theorem starts_items (d : Nat) (first : Bool) :
    Starts (fun m => items close separator (item (m + d)) m first) (· = .punct close)
      (· = .punct close) := by
  refine Starts.succ ?_
  simp only [items]
  refine starts_option (fun k => k = .eof ∨ k = .punct close) (a := []) ?_ fun _ hk => .inr hk
  intro k m hk
  rw [if_pos hk]

theorem foresees_items {depth : Nat} (hitem : Foresees item opens (· = .punct close) depth)
    (hclose : ¬ opens (.punct close)) (n d : Nat) (hn : n + d = depth) (first : Bool) :
    Foresees (fun m => items close separator (item (m + d)) m first) (· = .punct close)
      (· = .punct close) n := by
  induction n generalizing d first with
  | zero => exact (starts_items d first).zero rfl
  | succ n ih =>
    refine ⟨starts_items d first, fun ts => Traced.succ ?_⟩
    have hshift : ∀ m, m + 1 + d = m + (d + 1) := fun m => by omega
    have hitem' : Foresees (fun m => item (m + (d + 1))) opens (· = .punct close) n :=
      Foresees.shift (by rwa [← hshift, hn])
    have hcons := traced_item_cons hitem' hclose (ih (d + 1) (by omega) false)
    -- What follows the separator: another item, or the end of the list.
    have hnext := foresees_option (fun k => k = .punct close) (a := [])
      (f := fun k m => if k = .punct close then pure [] else do
        let x ← item (m + (d + 1))
        let xs ← items close separator (item (m + (d + 1))) m false
        return x :: xs) (fun k m hk => if_pos hk) (fun _ hk => hk)
      fun us hus => by simpa only [if_neg hus] using hcons us
    simp only [items, hshift]
    refine (foresees_option (fun k => k = .eof ∨ k = .punct close) (a := []) ?_
      (fun _ hk => .inr hk) fun us hus => ?_).traced ts
    · intro k m hk
      rw [if_pos hk]
    · simp only [if_neg hus]
      cases first with
      | true =>
        refine Traced.peek ?_
        simpa only [if_neg (not_or.mp hus).2] using hcons us
      | false => exact traced_punct.bind fun _ => hnext

theorem foresees_delimited {after : Kind → Prop} (opening : Punct)
    (hitem : Foresees item opens (· = .punct close) n) (hclose : ¬ opens (.punct close)) :
    Foresees (fun m => delimited m opening close separator (item m)) (· = .punct opening) after
      n :=
  (foresees_punct opening).bind fun _ =>
    (foresees_items hitem hclose n 0 rfl true).bind fun _ =>
    (foresees_punct close).bind fun _ => foresees_pure

end Lists

/-! ### Expressions -/

/-- The kinds at which every expression stops. -/
def Stop (k : Kind) : Prop := Closes k ∧ k ≠ .keyword .else

/-- The kind of the numeral that stands for an expression that is missing. -/
def IsFiller (k : Kind) : Prop := k = .int 0

theorem stop_punct {mark : Punct} (h : mark ≠ .leftParen) : Stop (.punct mark) :=
  ⟨⟨by simpa using h, by simp⟩, by simp⟩

theorem stop_eof : Stop .eof := ⟨⟨by simp, by simp⟩, by simp⟩

theorem stop_then : Stop (.keyword .then) := ⟨⟨by simp, by simp⟩, by simp⟩

theorem not_isFiller_punct (mark : Punct) : ¬ IsFiller (.punct mark) := by simp [IsFiller]

section Starting

variable {after : Kind → Prop}

theorem starts_primary : Starts primary IsFiller after := by
  refine Starts.succ ⟨[filler (.int 0)], .int 0, 0, ?_, fun m _ rest _ => ?_, fun _ _ => rfl⟩
  · exact List.forall_mem_singleton.mpr (by simp [filler])
  · simp only [primary]
    rfl

theorem starts_calls (t : Tree) : Starts (fun m => calls m t) Stop Stop := by
  refine Starts.succ ?_
  simp only [calls]
  exact starts_option (· ≠ .punct .leftParen) (fun k m hk => if_neg hk) fun k hk => hk.1.1

theorem starts_operators (t : Tree) (floor : Nat) :
    Starts (fun m => operators m t floor) Stop Stop := by
  refine Starts.succ ?_
  simp only [operators]
  refine starts_option (fun k => ∀ symbol, k ≠ .operator symbol) (a := t) ?_ fun k hk => hk.1.2
  intro k m hk
  cases k with
  | operator symbol => exact absurd rfl (hk symbol)
  | _ => rfl

theorem starts_atom : Starts atom IsFiller Stop := by
  refine Starts.succ ?_
  simp only [atom]
  exact starts_primary.bind fun t => starts_calls t

theorem starts_expression : Starts expression IsFiller Stop := by
  refine Starts.succ ?_
  simp only [expression]
  exact starts_atom.bind fun operand =>
    (starts_operators operand 0).bind fun t => starts_calls t

end Starting

/-- With depth `n` the parsers of the grammar foresee what they refuse. -/
structure Foreseers (n : Nat) : Prop where
  expression : Foresees Parser.expression IsFiller Stop n
  operators : ∀ t floor, Foresees (fun m => Parser.operators m t floor) Stop Stop n
  calls : ∀ t, Foresees (fun m => Parser.calls m t) Stop Stop n
  atom : Foresees Parser.atom IsFiller Stop n
  primary : Foresees Parser.primary IsFiller Stop n

theorem Foreseers.zero : Foreseers 0 where
  expression := starts_expression.zero rfl
  operators t floor := (starts_operators t floor).zero rfl
  calls t := (starts_calls t).zero rfl
  atom := starts_atom.zero rfl
  primary := starts_primary.zero rfl

section Expressions

variable {n : Nat} {ts : List Token}

/-- Expressions in a list are read up to the mark that closes it. -/
theorem Foreseers.listed (h : Foreseers n) {after : Kind → Prop} {opening close : Punct}
    (separator : Punct) (hclose : close ≠ .leftParen) :
    Foresees (fun m => delimited m opening close separator (Parser.expression m))
      (· = .punct opening) after n :=
  foresees_delimited opening (h.expression.upTo (stop_punct hclose)) (not_isFiller_punct close)

theorem foresees_binding (h : Foreseers n) :
    Foresees (fun m => binding (Parser.expression m)) IsName Stop n := by
  refine (foresees_name : Foresees _ IsName Stop n).bind fun x => ?_
  refine foresees_option (fun k => ∀ symbol, k ≠ .operator symbol) (a := ⟨x, none⟩) ?_
    (fun k hk => hk.1.2) fun ts hts => ?_
  · intro k m hk
    cases k with
    | operator symbol => exact absurd rfl (hk symbol)
    | _ => rfl
  · simp only [not_forall, not_not] at hts
    obtain ⟨symbol, hsymbol⟩ := hts
    simp only [hsymbol]
    by_cases hassign : symbol = assignSymbol
    · simp only [if_pos hassign]
      exact (traced_skip (by simp [hsymbol])).bind fun _ =>
        h.expression.bind fun t => foresees_pure
    · simp only [if_neg hassign]
      exact traced_refuse _

theorem foresees_expression_succ (h : Foreseers n) :
    Foresees expression IsFiller Stop (n + 1) := by
  refine Foresees.succ ?_
  simp only [expression]
  exact h.atom.bind fun operand => (h.operators operand 0).bind fun t => h.calls t

theorem foresees_operators_succ (h : Foreseers n) (t : Tree) (floor : Nat) :
    Foresees (fun m => operators m t floor) Stop Stop (n + 1) := by
  refine Foresees.succ ?_
  simp only [operators]
  refine foresees_option
    (fun k => ∀ symbol power, k = .operator symbol → bindingPower? symbol = some power →
      power ≤ floor) (a := t) ?_ (fun k hk symbol _ heq => absurd heq (hk.1.2 symbol)) ?_
  · intro k m hk
    cases k with
    | operator symbol =>
      cases hpower : bindingPower? symbol with
      | none => simp only [hpower]
      | some power => simp only [hpower, if_pos (hk symbol power rfl hpower)]
    | _ => rfl
  · intro ts hts
    simp only [not_forall] at hts
    obtain ⟨symbol, power, hsymbol, hpower, hfloor⟩ := hts
    simp only [hsymbol, hpower, if_neg hfloor]
    exact (traced_skip (by simp [hsymbol])).bind fun _ =>
      h.atom.bind fun operand => (h.operators operand power).bind fun right => h.operators _ floor

theorem foresees_calls_succ (h : Foreseers n) (t : Tree) :
    Foresees (fun m => calls m t) Stop Stop (n + 1) := by
  refine Foresees.succ ?_
  simp only [calls]
  refine foresees_option (· ≠ .punct .leftParen) (fun k m hk => if_neg hk) (fun k hk => hk.1.1) ?_
  intro ts hts
  simp only [not_not] at hts
  simp only [hts, if_true]
  refine Traced.bind ?_ fun args => h.calls _
  exact ((h.listed .comma (by simp)).traced ts).enters stop_eof (by simp)

theorem foresees_atom_succ (h : Foreseers n) : Foresees atom IsFiller Stop (n + 1) := by
  refine Foresees.succ ?_
  simp only [atom]
  exact h.primary.bind fun t => h.calls t

/-- What follows the test of a conditional: the word after it, and one or two expressions. -/
theorem foresees_branches (h : Foreseers n) (test : Tree) :
    Foresees (fun m => do
      thenWord
      let consequent ← Parser.expression m
      if (← peek) = .keyword .else then
        skip
        let alternative ← Parser.expression m
        return Term.conditional test consequent (some alternative)
      else return Term.conditional test consequent none) (· = .keyword .then) Stop n := by
  refine foresees_thenWord ?_ stop_eof (by simp [IsFiller] : ¬ IsFiller .eof)
  refine h.expression.bind fun consequent => ?_
  refine foresees_option (· ≠ .keyword .else) (fun k m hk => if_neg hk) (fun k hk => hk.2) ?_
  intro ts hts
  simp only [not_not] at hts
  simp only [hts, if_true]
  exact (traced_skip (by simp [hts])).bind fun _ =>
    h.expression.bind fun alternative => foresees_pure

/-- What follows the word that begins a declaration or a function: a name that may be left out, a
list in brackets, and an expression. -/
theorem foresees_bound (h : Foreseers n) {item : Nat → Parser α}
    {make : Option Name → List α → Tree → Tree}
    (hitem : Foresees item IsName (· = .punct .rightParen) n) :
    Foresees (fun m => do
      let f? ← optionalName
      let xs ← delimited m .leftParen .rightParen .comma (item m)
      let body ← Parser.expression m
      return make f? xs body) (¬ IsName ·) Stop n := by
  have hname (mark : Punct) : ¬ IsName (.punct mark) := by simp [IsName]
  exact (foresees_optionalName.upTo (hname .leftParen)).bind fun f? =>
    (foresees_delimited .leftParen hitem (hname .rightParen)).bind fun xs =>
    h.expression.bind fun body => foresees_pure

theorem foresees_primary_succ (h : Foreseers n) : Foresees primary IsFiller Stop (n + 1) := by
  refine ⟨starts_primary, fun ts => Traced.succ ?_⟩
  simp only [primary]
  refine Traced.peek ?_
  cases hk : kindAhead ts with
  | punct mark =>
    cases mark with
    | leftParen =>
      exact (traced_skip (by simp [hk])).bind fun _ =>
        (h.expression.upTo (stop_punct (by simp))).bind fun t =>
        (foresees_punct .rightParen).bind fun _ => foresees_pure
    | leftBrace =>
      refine Traced.bind ?_ fun items => foresees_pure
      exact ((h.listed .semicolon (by simp)).traced ts).enters stop_eof (by simp)
    | _ => exact traced_refuse _
  | operator symbol =>
    by_cases hsymbol : symbol = "!"
    · subst hsymbol
      exact (traced_skip (by simp [hk])).bind fun _ => h.expression.bind fun t => foresees_pure
    · refine Traced.congr (fun m => ?_) (traced_refuse .expression)
      split <;> simp_all
  | keyword word =>
    have hskip {after : Kind → Prop} : Traced (fun _ => skip) (fun _ => False) after n ts :=
      traced_skip (by simp [hk])
    cases word with
    | «let» =>
      exact hskip.bind fun _ =>
        foresees_bound h ((foresees_binding h).upTo (stop_punct (by simp)))
    | «if» =>
      exact hskip.bind fun _ =>
        (h.expression.upTo stop_then).bind fun test => foresees_branches h test
    | lambda => exact hskip.bind fun _ => foresees_bound h foresees_name
    | true => exact hskip.bind fun _ => foresees_pure
    | false => exact hskip.bind fun _ => foresees_pure
    | _ => exact traced_refuse _
  | eof => exact traced_refuse _
  | _ => exact (traced_skip (by simp [hk])).bind fun _ => foresees_pure

theorem foreseers (n : Nat) : Foreseers n := by
  induction n with
  | zero => exact .zero
  | succ n ih =>
    exact
      { expression := foresees_expression_succ ih
        operators := foresees_operators_succ ih
        calls := foresees_calls_succ ih
        atom := foresees_atom_succ ih
        primary := foresees_primary_succ ih }

end Expressions

/-! ### Programs -/

theorem starts_program : Starts program (· = .eof) (· = .eof) := by
  refine Starts.succ ?_
  simp only [program]
  refine starts_option (· = .eof) (fun k m hk => if_pos hk) fun _ hk => hk

/-- The end of an expression of a program: a semicolon, unless the input ends. -/
theorem foresees_terminator {Q : Nat → Parser α} {n : Nat}
    (h : Foresees Q (· = .eof) (· = .eof) n) :
    Foresees (fun m => peek >>= fun k =>
      if k = .eof then Q m else punct .semicolon >>= fun _ => Q m) (· = .eof) (· = .eof) n := by
  have hmark : Foresees
      (fun _ => peek >>= fun k => if k = .eof then pure () else punct .semicolon)
      (· = .eof) (· = .eof) n := by
    refine foresees_option (· = .eof) (fun k m hk => if_pos hk) (fun _ hk => hk) fun ts hts => ?_
    simp only [if_neg hts]
    exact traced_punct
  have hsplit : ∀ m, (peek >>= fun k =>
      if k = .eof then Q m else punct .semicolon >>= fun _ => Q m) =
      (peek >>= fun k => if k = .eof then pure () else punct .semicolon) >>= fun _ => Q m := by
    refine fun m => congrArg Parser.mk (funext fun ts => ?_)
    show (if kindAhead ts = .eof then Q m else punct .semicolon >>= fun _ => Q m).run ts =
      ((if kindAhead ts = .eof then pure () else punct .semicolon) >>= fun _ => Q m).run ts
    by_cases hts : kindAhead ts = .eof
    · rw [if_pos hts, if_pos hts]
      rfl
    · rw [if_neg hts, if_neg hts]
  simp only [hsplit]
  exact hmark.bind fun _ => h

theorem foresees_program (n : Nat) : Foresees program (· = .eof) (· = .eof) n := by
  induction n with
  | zero => exact starts_program.zero rfl
  | succ n ih =>
    refine Foresees.succ ?_
    simp only [program]
    refine foresees_option (· = .eof) (a := []) (fun k m hk => if_pos hk) (fun _ hk => hk) ?_
    intro ts hts
    simp only [if_neg hts]
    have hexpression := (foreseers n).expression.upTo stop_eof
    refine ((hexpression.traced ts).enters rfl (by simp [IsFiller])).bind fun t => ?_
    exact foresees_terminator (ih.bind fun ts => foresees_pure)

/-- Depth that is not needed changes nothing. -/
theorem program_run_of_le {ts : List Token} {n m : Nat} (hn : (program n).run ts ≠ .starved)
    (hm : n ≤ m) : (program m).run ts = (program n).run ts := by
  have htraced := (foresees_program n).traced ts
  cases hrun : (program n).run ts with
  | ok items rest =>
    obtain ⟨used, rfl, -, -, htakes⟩ := htraced.ok items rest hrun
    exact htakes m hm rest (.inl rfl)
  | refused wanted rest =>
    obtain ⟨used, rfl, -, hrefuses, -⟩ := htraced.refused wanted rest hrun
    exact hrefuses m hm rest rfl
  | starved => exact absurd hrun hn

/-- What a program does with enough depth it does with the depth that is given to it. -/
theorem program_run_depthBound {ts : List Token} {n : Nat} {r : Reply (List Tree)}
    (h : ∀ m ≥ n, (program m).run ts = r) : (program (depthBound ts)).run ts = r := by
  rw [← program_run_of_le (program_run_ne_starved ts) (Nat.le_max_right n _)]
  exact h _ (Nat.le_max_left n _)

end LetLambda.Parser

namespace LetLambda

open LetLambda.Parser (program depthBound kindAhead)

/-- The last of the tokens, and no other, is the end of input. -/
def Token.Ended (ts : List Token) : Prop :=
  ∃ body eof, ts = body ++ [eof] ∧ (∀ t ∈ body, t.kind ≠ .eof) ∧ eof.kind = .eof

/-- The end of input is not among inner tokens. -/
theorem Token.Ended.ne_nil_of_inner {ts used rest : List Token} (h : Token.Ended ts)
    (hts : ts = used ++ rest) (hused : Parser.Inner used) : rest ≠ [] := by
  rintro rfl
  obtain ⟨body, eof, rfl, -, heof⟩ := h
  rw [List.append_nil] at hts
  exact hused eof (by simp [← hts]) heof

namespace Tree

theorem ofTokens_of_refused {ts rest : List Token} {wanted : Wanted}
    (h : (program (depthBound ts)).run ts = .refused wanted rest) :
    ofTokens ts = (.error ⟨wanted.cause (kindAhead rest), positionAhead ts rest⟩, rest) := by
  unfold ofTokens
  split
  · next hrun => cases hrun.symm.trans h
  · next hrun =>
    cases hrun.symm.trans h
    rfl
  · next hrun => cases hrun.symm.trans h

theorem exists_refused_of_error {ts : List Token} {e : ParseError}
    (h : (ofTokens ts).1 = .error e) :
    ∃ wanted rest, (program (depthBound ts)).run ts = .refused wanted rest := by
  cases hrun : (program (depthBound ts)).run ts with
  | ok items rest =>
    rw [ofTokens_eq_ok_iff.mpr ⟨items, rest, hrun, rfl⟩] at h
    cases h
  | refused wanted rest => exact ⟨wanted, rest, rfl⟩
  | starved => exact absurd hrun (Parser.program_run_ne_starved ts)

/-- **Faults are seen at the first token that is wrong.** Every list that agrees as far as the token
at which the fault is seen has the same fault, and the tokens before it begin a program. -/
theorem ofTokens_points_at_first_fault {ts : List Token} {e : ParseError} (hts : Token.Ended ts)
    (h : (ofTokens ts).1 = .error e) :
    ∃ before t after, ts = before ++ t :: after ∧ (ofTokens ts).2 = t :: after ∧
      e.position = t.position ∧
      (∀ after', (ofTokens (before ++ t :: after')).1 = .error e) ∧
      ∃ more tree, (∀ u ∈ more, u.kind ≠ .eof) ∧
        ∀ eof : Token, eof.kind = .eof → (ofTokens (before ++ more ++ [eof])).1 = .ok tree := by
  obtain ⟨wanted, rest, hrun⟩ := exists_refused_of_error h
  have hforesees := Parser.foresees_program (depthBound ts)
  obtain ⟨used, heq, hused, hrefuses, hcompletes⟩ := (hforesees.traced ts).refused wanted rest hrun
  obtain ⟨more, items, n, hmore, htakes⟩ := hforesees.completes hcompletes
  obtain ⟨t, after, rfl⟩ : ∃ t after, rest = t :: after :=
    List.exists_cons_of_ne_nil (hts.ne_nil_of_inner heq hused)
  have hfault : ∀ after', ofTokens (used ++ t :: after') =
      (.error ⟨wanted.cause t.kind, t.position⟩, t :: after') := by
    intro after'
    have hrefused := Parser.program_run_depthBound fun m hm => hrefuses m hm (t :: after') rfl
    exact ofTokens_of_refused hrefused
  have hhere := hfault after
  rw [← heq] at hhere
  obtain rfl : _ = e := Except.error.inj ((congrArg Prod.fst hhere).symm.trans h)
  refine ⟨used, t, after, heq, by rw [hhere], rfl, fun after' => by rw [hfault], ?_⟩
  refine ⟨more, .seq items, hmore, fun eof heof => ?_⟩
  refine ofTokens_eq_ok_iff.mpr ⟨items, [eof], ?_, rfl⟩
  exact Parser.program_run_depthBound fun m hm => htakes m hm [eof] heof

/-- A conditional on a block in which a name is defined with another operator than that of
assignment. -/
def strayOperator : List Token :=
  [Token.Kind.keyword .if, .ident "a", .punct .leftBrace, .keyword .let, .punct .leftParen,
    .ident "x", .operator "+", .int 1, .punct .rightParen, .ident "x", .punct .rightBrace,
    .eof].zipIdx.map fun (k, i) => ⟨k, i, i + 1, ⟨1, i + 1⟩⟩

theorem ofTokens_points_at_first_fault_stray :
    (ofTokens strayOperator).1 = .error ⟨.expectedOperator "=" (.operator "+"), ⟨1, 7⟩⟩ ∧
    ∃ more tree, (∀ u ∈ more, u.kind ≠ .eof) ∧ ∀ eof : Token, eof.kind = .eof →
      (ofTokens (strayOperator.take 6 ++ more ++ [eof])).1 = .ok tree := by
  have hended : Token.Ended strayOperator :=
    ⟨strayOperator.take 11, ⟨.eof, 11, 12, ⟨1, 12⟩⟩, by decide +kernel, by decide +kernel, rfl⟩
  have hfault : (ofTokens strayOperator).1 =
      .error ⟨.expectedOperator "=" (.operator "+"), ⟨1, 7⟩⟩ := by decide +kernel
  have hstop : (ofTokens strayOperator).2 = strayOperator.drop 6 := by decide +kernel
  obtain ⟨before, t, after, hts, hrest, -, -, hbegins⟩ :=
    ofTokens_points_at_first_fault hended hfault
  rw [← hrest, hstop] at hts
  have hbefore : strayOperator.take 6 = before :=
    List.append_cancel_right ((List.take_append_drop 6 strayOperator).trans hts)
  rw [hbefore]
  exact ⟨hfault, hbegins⟩

end Tree

end LetLambda
