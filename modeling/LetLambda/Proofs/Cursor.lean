import LetLambda.Proofs.Foresight

/-!
# The parsers come to an end

Wherever a parser of the grammar is started in a list of tokens, it comes to an end, whatever the
tokens are: there may be none, the end of input may be missing, or stand in the middle. The place
that it has come to is not before the one where it was started nor after the last token, and no end
of input has been passed over on the way (`Forward`). An expression takes a token at least, and so
every loop of the grammar comes to an end.

Parsers that call each other are given a bound on their depth, and every turn of a loop counts as
one level more. What is shown is that a parser gives one and the same reply with every bound that is
four times the number of the tokens ahead and a little more (`Replies`): no part of it goes deeper.
The main statement is `parsers_reply`.
-/

namespace LetLambda

open Token (Kind)

/-! ### Places in a list of tokens -/

/-- From place `p` of the tokens one has come to place `q`: not backwards, not beyond the last
token, and over no end of input. -/
structure Forward (ts : List Token) (p q : Nat) : Prop where
  le : p ≤ q
  le_length : q ≤ ts.length
  inner : ∀ i t, p ≤ i → i < q → ts[i]? = some t → t.kind ≠ .eof

namespace Forward

variable {ts : List Token} {p q r : Nat}

theorem refl (h : p ≤ ts.length) : Forward ts p p :=
  ⟨Nat.le_refl p, h, fun _ _ hle hlt => absurd hlt (Nat.not_lt.mpr hle)⟩

theorem trans (h : Forward ts p q) (h' : Forward ts q r) : Forward ts p r := by
  refine ⟨Nat.le_trans h.le h'.le, h'.le_length, fun i t hp hr ht => ?_⟩
  rcases Nat.lt_or_ge i q with hq | hq
  · exact h.inner i t hp hq ht
  · exact h'.inner i t hq hr ht

/-- The tokens that are used are passed over. -/
theorem of_used {used rest : List Token} (hp : p ≤ ts.length) (h : ts.drop p = used ++ rest)
    (hused : Parser.Inner used) :
    rest = ts.drop (p + used.length) ∧ Forward ts p (p + used.length) := by
  have hlength := congrArg List.length h
  rw [List.length_drop, List.length_append] at hlength
  refine ⟨?_, Nat.le_add_right _ _, by omega, fun i t hle hlt ht => hused t ?_⟩
  · rw [← List.drop_drop, h, List.drop_left]
  · have hi : (ts.drop p)[i - p]? = some t := by
      rw [List.getElem?_drop, Nat.add_sub_cancel' hle, ht]
    rw [h, List.getElem?_append_left (by omega)] at hi
    exact List.mem_of_getElem? hi

end Forward

/-- The reply of a parser that was started at place `p` leaves off at a place that one comes to from
there, after `least` tokens or more if there is a result. -/
def Reply.Onward {α : Type} (ts : List Token) (p least : Nat) : Reply α → Prop
  | .ok _ rest => ∃ q, rest = ts.drop q ∧ p + least ≤ q ∧ Forward ts p q
  | .refused _ rest => ∃ q, rest = ts.drop q ∧ Forward ts p q
  | .starved => False

namespace Parser

variable {α β ι : Type}

/-- Started at place `p` of the tokens, the parsers `P i` with `S i` all give one reply, which
leaves off at a place further on, after `least` tokens or more if there is a result. -/
def Replies (S : ι → Prop) (P : ι → Parser α) (least : Nat) (ts : List Token) (p : Nat) : Prop :=
  ∃ reply : Reply α, reply.Onward ts p least ∧ ∀ i, S i → (P i).run (ts.drop p) = reply

section Steps

variable {S S' : ι → Prop} {P P' : ι → Parser α} {least : Nat} {ts : List Token} {p : Nat}

theorem Replies.mono (h : Replies S P least ts p) (hS : ∀ i, S' i → S i) :
    Replies S' P least ts p := by
  obtain ⟨reply, honward, hrun⟩ := h
  exact ⟨reply, honward, fun i hi => hrun i (hS i hi)⟩

theorem Replies.congr (h : Replies S P' least ts p) (heq : ∀ i, S i → P i = P' i) :
    Replies S P least ts p := by
  obtain ⟨reply, honward, hrun⟩ := h
  exact ⟨reply, honward, fun i hi => by rw [heq i hi, hrun i hi]⟩

theorem Replies.weaken (h : Replies S P least ts p) : Replies S P 0 ts p := by
  obtain ⟨reply, honward, hrun⟩ := h
  refine ⟨reply, ?_, hrun⟩
  cases reply with
  | ok a rest =>
    obtain ⟨q, hrest, hleast, hforward⟩ := honward
    exact ⟨q, hrest, by omega, hforward⟩
  | refused wanted rest => exact honward
  | starved => exact honward

/-- One parser after another. -/
theorem Replies.bind {P : ι → Parser β} {Q : β → ι → Parser α} (h : Replies S P least ts p)
    (h' : ∀ b q, p + least ≤ q → q ≤ ts.length → Replies S (Q b) 0 ts q) :
    Replies S (fun i => P i >>= fun b => Q b i) least ts p := by
  obtain ⟨reply, honward, hrun⟩ := h
  cases reply with
  | starved => exact honward.elim
  | refused wanted rest =>
    exact ⟨.refused wanted rest, honward, fun i hi => by rw [run_bind, hrun i hi]⟩
  | ok b rest =>
    obtain ⟨q, rfl, hleast, hforward⟩ := honward
    obtain ⟨reply, honward', hrun'⟩ := h' b q hleast hforward.le_length
    refine ⟨reply, ?_, fun i hi => by rw [run_bind, hrun i hi]; exact hrun' i hi⟩
    cases reply with
    | starved => exact honward'
    | refused wanted rest =>
      obtain ⟨r, hrest, hforward'⟩ := honward'
      exact ⟨r, hrest, hforward.trans hforward'⟩
    | ok a rest =>
      obtain ⟨r, hrest, hleast', hforward'⟩ := honward'
      exact ⟨r, hrest, by omega, hforward.trans hforward'⟩

theorem replies_pure (hp : p ≤ ts.length) (a : α) : Replies S (fun _ => pure a) 0 ts p :=
  ⟨.ok a (ts.drop p), ⟨p, rfl, Nat.le_refl p, .refl hp⟩, fun _ _ => rfl⟩

theorem replies_peek {f : Kind → ι → Parser α}
    (h : Replies S (f (kindAhead (ts.drop p))) least ts p) :
    Replies S (fun i => peek >>= fun k => f k i) least ts p := h

/-- A parser that is traced and does not starve gives the same reply with more depth. -/
theorem replies_of_traced {P : Nat → Parser α} {before after : Kind → Prop} {n : Nat}
    (hp : p ≤ ts.length) (htraced : Traced P before after n (ts.drop p))
    (hgives : ((P n).run (ts.drop p)).Gives fun _ rest => rest.length + least ≤ ts.length - p) :
    Replies (n ≤ ·) P least ts p := by
  cases hrun : (P n).run (ts.drop p) with
  | ok a rest =>
    obtain ⟨used, hts, hused, -, htakes⟩ := htraced.ok a rest hrun
    obtain ⟨hrest, hforward⟩ := Forward.of_used hp hts hused
    rw [hrun] at hgives
    have hlength := congrArg List.length hts
    rw [List.length_drop, List.length_append] at hlength
    have hleast : rest.length + least ≤ ts.length - p := hgives
    refine ⟨.ok a rest, ⟨_, hrest, by omega, hforward⟩, fun m hm => ?_⟩
    rw [hts]
    exact htakes m hm rest (.inl rfl)
  | refused wanted rest =>
    obtain ⟨used, hts, hused, hrefuses, -⟩ := htraced.refused wanted rest hrun
    refine ⟨.refused wanted rest, ⟨_, Forward.of_used hp hts hused⟩, fun m hm => ?_⟩
    rw [hts]
    exact hrefuses m hm rest rfl
  | starved =>
    rw [hrun] at hgives
    exact hgives.elim

/-- A parser that takes no account of the depth. -/
theorem replies_of_traced_const {q : Parser α} {before after : Kind → Prop} (hp : p ≤ ts.length)
    (htraced : Traced (fun _ => q) before after 0 (ts.drop p))
    (hgives : (q.run (ts.drop p)).Gives fun _ rest => rest.length + least ≤ ts.length - p) :
    Replies S (fun _ => q) least ts p := by
  obtain ⟨reply, honward, hrun⟩ := replies_of_traced hp htraced hgives
  exact ⟨reply, honward, fun _ _ => hrun 0 (Nat.le_refl 0)⟩

theorem replies_punct (hp : p ≤ ts.length) (mark : Punct) :
    Replies S (fun _ => punct mark) 1 ts p := by
  have htraced : Traced (fun _ => punct mark) (fun _ => True) (fun _ => True) 0 (ts.drop p) :=
    traced_punct
  refine replies_of_traced_const hp htraced (punct_gives fun rest hrest => ?_)
  rwa [← List.length_drop]

theorem replies_name (hp : p ≤ ts.length) : Replies S (fun _ => name) 1 ts p := by
  have htraced : Traced (fun _ => name) IsName (fun _ => True) 0 (ts.drop p) :=
    foresees_name.traced _
  refine replies_of_traced_const hp htraced (name_gives fun x rest hrest => ?_)
  rwa [← List.length_drop]

end Steps

/-! ### Lists -/

section Lists

variable {S : ι → Prop} {item : ι → Parser α} {close separator : Punct} {ts : List Token}

/-- The items of a list, which need not take any tokens: where a separator is due, it is taken. -/
theorem replies_items {count : ι → Nat} {first : Bool} {p : Nat} (hp : p ≤ ts.length)
    (hcount : ∀ i, S i → ts.length - p + first.toNat < count i)
    (hitem : ∀ q, p ≤ q → q ≤ ts.length → Replies S item 0 ts q) :
    Replies S (fun i => items close separator (item i) (count i) first) 0 ts p := by
  induction hm : ts.length - p + first.toNat using Nat.strongRecOn generalizing p count first with
  | _ m ih =>
    -- what follows the separator: an item and those after it, unless the list is closed
    have hnext {q : Nat} (hpq : p ≤ q) (hq : q ≤ ts.length) (hlt : ts.length - q < m) :
        Replies S (fun i => do
          if (← peek) = .punct close then return []
          else
            let x ← item i
            let xs ← items close separator (item i) (count i - 1) false
            return x :: xs) 0 ts q := by
      refine replies_peek ?_
      split
      · exact replies_pure hq []
      · refine (hitem q hpq hq).bind fun x r hqr hr => ?_
        refine Replies.bind (ih (ts.length - r) (by omega) hr ?_ ?_ rfl) fun xs _ _ hlength =>
          replies_pure hlength (x :: xs)
        · intro i hi
          have := hcount i hi
          simp only [Bool.toNat_false]
          omega
        · exact fun q' hq' => hitem q' (by omega)
    have hbody : Replies S (fun i => do
        let ahead ← peek
        if ahead = .eof ∨ ahead = .punct close then return []
        else
          if first then pure () else punct separator
          if (← peek) = .punct close then return []
          else
            let x ← item i
            let xs ← items close separator (item i) (count i - 1) false
            return x :: xs) 0 ts p := by
      refine replies_peek ?_
      split
      · exact replies_pure hp []
      · cases first with
        | true => exact hnext (Nat.le_refl p) hp (by simp only [Bool.toNat_true] at hm; omega)
        | false =>
          exact ((replies_punct hp separator).bind fun _ q hpq hq =>
            hnext (by omega) hq (by simp only [Bool.toNat_false] at hm; omega)).weaken
    refine hbody.congr fun i hi => ?_
    obtain ⟨k, hk⟩ : ∃ k, count i = k + 1 := ⟨count i - 1, by have := hcount i hi; omega⟩
    simp only [hk, items, Nat.add_sub_cancel]

/-- A list between two marks ends whatever its items are, if each of them does. -/
theorem replies_delimited {count : ι → Nat} {opening : Punct} {p : Nat} (hp : p ≤ ts.length)
    (hcount : ∀ i, S i → ts.length - p < count i)
    (hitem : ∀ q, p < q → q ≤ ts.length → Replies S item 0 ts q) :
    Replies S (fun i => delimited (count i) opening close separator (item i)) 1 ts p := by
  refine (replies_punct hp opening).bind fun _ q hq hlength => ?_
  refine Replies.bind (replies_items hlength ?_ ?_) fun xs r _ hlength' => ?_
  · intro i hi
    have := hcount i hi
    simp only [Bool.toNat_true]
    omega
  · exact fun r hr => hitem r (Nat.lt_of_lt_of_le hq hr)
  · exact (replies_punct hlength' close).weaken.bind fun _ _ _ hlength'' =>
      replies_pure hlength'' xs

end Lists

/-! ### The grammar -/

section Grammar

variable {ts : List Token} {p : Nat}

/-- A reply that leaves fewer tokens than there were, in terms of places. -/
theorem gives_of_length_lt {r : Reply α}
    (h : r.Gives fun _ rest => rest.length < (ts.drop p).length) :
    r.Gives fun _ rest => rest.length + 1 ≤ ts.length - p :=
  h.mono fun _ _ hlt => by rwa [← List.length_drop]

/-- A reply that leaves no more tokens than there were, in terms of places. -/
theorem gives_of_length_le {r : Reply α}
    (h : r.Gives fun _ rest => rest.length ≤ (ts.drop p).length) :
    r.Gives fun _ rest => rest.length + 0 ≤ ts.length - p :=
  h.mono fun _ _ hle => by rwa [← List.length_drop]

theorem replies_expression (hp : p ≤ ts.length) :
    Replies (4 * (ts.length - p) + 3 ≤ ·) expression 1 ts p :=
  replies_of_traced hp ((foreseers _).expression.traced _)
    (gives_of_length_lt ((enough _).expression _ (by rw [List.length_drop])))

theorem replies_operators (hp : p ≤ ts.length) (left : Tree) (floor : Nat) :
    Replies (4 * (ts.length - p) + 1 ≤ ·) (fun n => operators n left floor) 0 ts p :=
  replies_of_traced hp (((foreseers _).operators left floor).traced _)
    (gives_of_length_le ((enough _).operators left floor _ (by rw [List.length_drop])))

theorem replies_calls (hp : p ≤ ts.length) (callee : Tree) :
    Replies (4 * (ts.length - p) + 1 ≤ ·) (fun n => calls n callee) 0 ts p :=
  replies_of_traced hp (((foreseers _).calls callee).traced _)
    (gives_of_length_le ((enough _).calls callee _ (by rw [List.length_drop])))

theorem replies_atom (hp : p ≤ ts.length) : Replies (4 * (ts.length - p) + 2 ≤ ·) atom 1 ts p :=
  replies_of_traced hp ((foreseers _).atom.traced _)
    (gives_of_length_lt ((enough _).atom _ (by rw [List.length_drop])))

theorem replies_primary (hp : p ≤ ts.length) :
    Replies (4 * (ts.length - p) + 1 ≤ ·) primary 1 ts p :=
  replies_of_traced hp ((foreseers _).primary.traced _)
    (gives_of_length_lt ((enough _).primary _ (by rw [List.length_drop])))

theorem replies_binding (hp : p ≤ ts.length) :
    Replies (4 * (ts.length - p) + 3 ≤ ·) (fun n => binding (expression n)) 1 ts p := by
  refine replies_of_traced hp ((foresees_binding (foreseers _)).traced _) (gives_of_length_lt ?_)
  have hadvances := (enough (4 * (ts.length - p) + 3)).advances (Nat.le_refl _)
  exact binding_gives _ hadvances _ (by rw [List.length_drop]; omega)

theorem replies_program (hp : p ≤ ts.length) :
    Replies (4 * (ts.length - p) + 4 ≤ ·) program 0 ts p :=
  replies_of_traced hp ((foresees_program _).traced _)
    (gives_of_length_le (program_gives _ _ (by rw [List.length_drop])))

/-- The lists of the grammar. -/
theorem replies_list (hp : p ≤ ts.length) {item : Nat → Parser α} (opening close separator : Punct)
    (hitem : ∀ q, q ≤ ts.length → Replies (4 * (ts.length - q) + 3 ≤ ·) item 1 ts q) :
    Replies (4 * (ts.length - p) + 1 ≤ ·)
      (fun n => delimited n opening close separator (item n)) 1 ts p :=
  replies_delimited hp (fun n hn => by omega) fun q hpq hq =>
    ((hitem q hq).mono fun n hn => by omega).weaken

/-- The depth that a program is given is enough, wherever it begins. -/
theorem ofTokens_forward (hp : p ≤ ts.length) :
    ∃ q, (Tree.ofTokens (ts.drop p)).2 = ts.drop q ∧ Forward ts p q := by
  obtain ⟨reply, honward, hrun⟩ := replies_program hp
  have hrun := hrun (depthBound (ts.drop p)) (by rw [depthBound, List.length_drop])
  unfold Tree.ofTokens
  split
  · next hreply =>
    rw [← hrun, hreply] at honward
    obtain ⟨q, hrest, -, hforward⟩ := honward
    exact ⟨q, hrest, hforward⟩
  · next hreply =>
    rw [← hrun, hreply] at honward
    exact honward
  · next hreply => exact absurd hreply (program_run_ne_starved _)

end Grammar

/-- **The parsers come to an end, and go forward.** Started at any place of any list of tokens,
every parser of the grammar gives a reply, the same one with every depth that is four times the
number of the tokens ahead and a little more. The reply leaves off at a place that is not before the
first one nor beyond the last token, and no end of input stands between them; and a parser of an
expression, an operand or a list in brackets that gives a result has taken a token. -/
theorem parsers_reply {ts : List Token} {p : Nat} (hp : p ≤ ts.length) :
    Replies (4 * (ts.length - p) + 3 ≤ ·) expression 1 ts p ∧
    (∀ left floor, Replies (4 * (ts.length - p) + 1 ≤ ·) (operators · left floor) 0 ts p) ∧
    (∀ callee, Replies (4 * (ts.length - p) + 1 ≤ ·) (calls · callee) 0 ts p) ∧
    Replies (4 * (ts.length - p) + 2 ≤ ·) atom 1 ts p ∧
    Replies (4 * (ts.length - p) + 1 ≤ ·) primary 1 ts p ∧
    (∀ opening close separator,
      Replies (4 * (ts.length - p) + 1 ≤ ·)
        (fun n => delimited n opening close separator (expression n)) 1 ts p ∧
      Replies (4 * (ts.length - p) + 1 ≤ ·)
        (fun n => delimited n opening close separator (binding (expression n))) 1 ts p ∧
      Replies (4 * (ts.length - p) + 1 ≤ ·)
        (fun n => delimited n opening close separator name) 1 ts p) ∧
    Replies (4 * (ts.length - p) + 4 ≤ ·) program 0 ts p ∧
    ∃ q, (Tree.ofTokens (ts.drop p)).2 = ts.drop q ∧ Forward ts p q :=
  ⟨replies_expression hp, replies_operators hp, replies_calls hp, replies_atom hp,
    replies_primary hp, fun opening close separator =>
      ⟨replies_list hp opening close separator fun _ => replies_expression,
        replies_list hp opening close separator fun _ => replies_binding,
        replies_list hp opening close separator fun _ hq => replies_name hq⟩,
    replies_program hp, ofTokens_forward hp⟩

/-- A call that the end of input cuts off, with a name after it and nothing after that. -/
def cutOff : List Token :=
  [Kind.ident "f", .punct .leftParen, .int 1, .eof, .ident "x"].map fun k => ⟨k, 0, 0, .origin⟩

/-- The call is refused at the end of input, with every depth that is large enough; and the name
after it is an expression that takes the last token. -/
theorem parsers_reply_cutOff :
    (∀ n ≥ 23, (expression n).run cutOff = .refused (.punct .rightParen) (cutOff.drop 3)) ∧
      Forward cutOff 0 3 ∧ (∀ n ≥ 7, (expression n).run (cutOff.drop 4) = .ok (.var "x") []) ∧
      Forward cutOff 4 5 := by
  obtain ⟨reply, honward, hrun⟩ := (parsers_reply (Nat.zero_le cutOff.length)).1
  obtain ⟨reply', honward', hrun'⟩ := (parsers_reply (show 4 ≤ cutOff.length by decide)).1
  have hcall : (expression 23).run cutOff = .refused (.punct .rightParen) (cutOff.drop 3) := rfl
  have hname : (expression 7).run (cutOff.drop 4) = .ok (.var "x") [] := rfl
  obtain rfl := (hrun 23 (by decide)).symm.trans hcall
  obtain rfl := (hrun' 7 (by decide)).symm.trans hname
  obtain ⟨q, hrest, hforward⟩ := honward
  obtain ⟨q', -, hleast, hforward'⟩ := honward'
  have hlength : cutOff.length = 5 := rfl
  obtain rfl : q = 3 := by
    have hleft := congrArg List.length hrest
    have hle := hforward.le_length
    simp only [List.length_drop] at hleft
    omega
  obtain rfl : q' = 5 := Nat.le_antisymm hforward'.le_length hleast
  exact ⟨hrun, hforward, hrun', hforward'⟩

end Parser

end LetLambda
