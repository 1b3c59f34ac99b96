import LetLambda.Proofs.OrderSafety
import LetLambda.Proofs.Passing

/-!
# The transform copies nothing

What is to be done with the value of a tree comes once in its transform, however the tree branches,
and no part of the tree comes more often than in the tree. A conditional has two arms, but what
comes after it is put into one function that both arms call; a call hands it on as one argument; a
sequence may drop a term whose value nobody uses, but not what follows.

Numbers, texts and names of the source are counted, since the transform makes none of them itself
(`Original`). A receiver that adds at least `lo` and at most `hi` of them to those of the value is
used once, so that a transform has at least `lo` of them and at most `hi` more than the tree
(`occurrences_of_passes`). The two bounds differ on the way only: the value of an operand is carried
along while the others are transformed, and may be dropped.
-/

namespace LetLambda

open Symbols (Generated nameOf)

/-! ### Counting -/

namespace Term

/-- How often a tree comes in another. -/
def occurrences (t a : Tree) : Nat := t.subterms.count a

/-- How often a tree comes in trees. -/
def occurrencesAll (ts : List Tree) (a : Tree) : Nat := (partsAll true ts).count a

/-- How often a tree comes in definitions. -/
def occurrencesBindings (bs : List (Binding Tree)) (a : Tree) : Nat := (partsBindings true bs).count a

/-- A number, a text, or a variable with a name that was not generated. -/
inductive Original : Tree → Prop
  | int (n : Int64) : Original (.int n)
  | str (s : String) : Original (.str s)
  | var {x : Name} (h : ¬ Generated x) : Original (.var x)

namespace Original

variable {a : Tree}

theorem occurrences_absent (ha : Original a) : occurrences .absent a = 0 := by
  cases ha <;> simp [occurrences, subterms, absent, parts]

theorem occurrences_generated (ha : Original a) (stem : String) (n : Nat) :
    occurrences (.var (nameOf stem n)) a = 0 := by
  cases ha with
  | int i => simp [occurrences, subterms, parts]
  | str s => simp [occurrences, subterms, parts]
  | @var x h =>
    have hne : nameOf stem n ≠ x := fun he => h (he ▸ Symbols.generated_nameOf stem n)
    simp [occurrences, subterms, parts, hne]

theorem occurrences_assign (ha : Original a) (target value : Tree) :
    occurrences (.assign target value) a = target.occurrences a + value.occurrences a := by
  cases ha <;> simp [occurrences, subterms, parts]

theorem occurrences_binary (ha : Original a) (op : String) (left right : Tree) :
    occurrences (.binary op left right) a = left.occurrences a + right.occurrences a := by
  cases ha <;> simp [occurrences, subterms, parts]

theorem occurrences_negate (ha : Original a) (body : Tree) :
    occurrences (.negate body) a = body.occurrences a := by
  cases ha <;> simp [occurrences, subterms, parts]

theorem occurrences_seq (ha : Original a) (items : List Tree) :
    occurrences (.seq items) a = occurrencesAll items a := by
  cases ha <;> simp [occurrences, occurrencesAll, subterms, parts]

theorem occurrences_call (ha : Original a) (callee : Tree) (args : List Tree) :
    occurrences (.call callee args) a = callee.occurrences a + occurrencesAll args a := by
  cases ha <;> simp [occurrences, occurrencesAll, subterms, parts]

theorem occurrences_function (ha : Original a) (name? : Option Name) (params : List Name)
    (body : Tree) : occurrences (.function () name? params body) a = body.occurrences a := by
  cases ha <;> simp [occurrences, subterms, parts]

theorem occurrences_ifThen (ha : Original a) (test consequent : Tree) :
    occurrences (.conditional test consequent none) a =
      test.occurrences a + consequent.occurrences a := by
  cases ha <;> simp [occurrences, subterms, parts]

theorem occurrences_ifThenElse (ha : Original a) (test consequent alternative : Tree) :
    occurrences (.conditional test consequent (some alternative)) a =
      test.occurrences a + (consequent.occurrences a + alternative.occurrences a) := by
  cases ha <;> simp [occurrences, subterms, parts]

theorem occurrences_declare (ha : Original a) (bs : List (Binding Tree)) (body : Tree) :
    occurrences (.declare bs body) a = occurrencesBindings bs a + body.occurrences a := by
  cases ha <;> simp [occurrences, occurrencesBindings, subterms, parts]

end Original

@[simp] theorem occurrencesAll_nil (a : Tree) : occurrencesAll [] a = 0 := rfl

@[simp] theorem occurrencesAll_cons (t : Tree) (ts : List Tree) (a : Tree) :
    occurrencesAll (t :: ts) a = t.occurrences a + occurrencesAll ts a := List.count_append

@[simp] theorem occurrencesBindings_nil (a : Tree) : occurrencesBindings [] a = 0 := rfl

@[simp] theorem occurrencesBindings_none (x : Name) (bs : List (Binding Tree)) (a : Tree) :
    occurrencesBindings (⟨x, none⟩ :: bs) a = occurrencesBindings bs a := rfl

@[simp] theorem occurrencesBindings_some (x : Name) (t : Tree) (bs : List (Binding Tree))
    (a : Tree) : occurrencesBindings (⟨x, some t⟩ :: bs) a =
      t.occurrences a + occurrencesBindings bs a := List.count_append

end Term

open Term (Original occurrencesAll occurrencesBindings)

/-! ### Receivers -/

/-- In a result there are at least `lo` and at most `hi` of `a`. -/
def Tree.Holds (a : Tree) (lo hi : Nat) (m : Tree) : Prop :=
  lo ≤ m.occurrences a ∧ m.occurrences a ≤ hi

/-- The receiver adds at least `lo` and at most `hi` of `a` to those of the value, which may be
dropped. -/
def Receiver.Adds (a : Tree) (lo hi : Nat) (K : Receiver Unit) : Prop :=
  ∀ v m, K v m → Tree.Holds a lo (hi + v.occurrences a) m

section

variable {a : Tree} {lo hi : Nat} {K : Receiver Unit}

theorem Tree.Holds.mono {m : Tree} {hi' : Nat} (h : Tree.Holds a lo hi m) (hle : hi ≤ hi') :
    Tree.Holds a lo hi' m := ⟨h.1, Nat.le_trans h.2 hle⟩

/-- Handing a value to a generated name adds nothing. -/
theorem Receiver.adds_jump (ha : Original a) (stem : String) (n : Nat) :
    Receiver.Adds a 0 0 (.jump (nameOf stem n)) := by
  rintro v m rfl
  refine ⟨Nat.zero_le _, ?_⟩
  rw [ha.occurrences_call, ha.occurrences_generated, Term.occurrencesAll_cons,
    Term.occurrencesAll_nil]
  omega

/-- A receiver as a function of the language. -/
theorem Receiver.Adds.reified (hK : Receiver.Adds a lo hi K) (ha : Original a) {r : Tree}
    (h : Receiver.Reified K r) : Tree.Holds a lo hi r := by
  obtain ⟨i, n, body, rfl, hbody⟩ := h
  have hbody := hK _ _ hbody
  rw [ha.occurrences_generated, Nat.add_zero] at hbody
  unfold Tree.Holds
  rw [ha.occurrences_function]
  exact hbody

/-- What both arms of a conditional go on with is there once. -/
theorem Receiver.Adds.branches (hK : Receiver.Adds a lo hi K) (ha : Original a) {join : Name}
    {test consequent alternative rest m : Tree} (hrest : Receiver.Reified K rest)
    (hm : Receiver.Branches join test consequent alternative rest m) :
    Tree.Holds a lo
      (hi + (consequent.occurrences a + alternative.occurrences a) + test.occurrences a) m := by
  obtain ⟨i, rfl⟩ := hm
  have hrest := hK.reified ha hrest
  unfold Tree.Holds at hrest ⊢
  simp only [ha.occurrences_call, ha.occurrences_function, ha.occurrences_ifThenElse,
    Term.occurrencesAll_cons, Term.occurrencesAll_nil]
  omega

/-- What comes after a call is there once. -/
theorem Receiver.Adds.call (hK : Receiver.Adds a lo hi K) (ha : Original a) {f ret : Tree}
    (hret : Receiver.Reified K ret) (args : List Tree) :
    Tree.Holds a lo (hi + f.occurrences a + occurrencesAll args a) (.call f (ret :: args)) := by
  have hret := hK.reified ha hret
  unfold Tree.Holds at hret ⊢
  rw [ha.occurrences_call, Term.occurrencesAll_cons]
  omega

end

/-! ### The transform -/

variable {a : Tree}

mutual

/-- **A transform uses its receiver once, and every part of the tree at most once.** -/
theorem occurrences_of_passes (ha : Original a) (t : Tree) {lo hi : Nat} {K : Receiver Unit}
    (hK : Receiver.Adds a lo hi K) {m : Tree} (h : Passes t K m) :
    Tree.Holds a lo (hi + t.occurrences a) m := by
  cases t with
  | int n => exact hK _ _ h
  | str s => exact hK _ _ h
  | bool b => exact hK _ _ h
  | var x => exact hK _ _ h
  | negate t =>
    rw [ha.occurrences_negate]
    refine occurrences_of_passes ha t (fun v m h => ?_) h
    rw [← ha.occurrences_negate]
    exact hK _ _ h
  | binary op left right =>
    rw [ha.occurrences_binary]
    -- while the right operand is transformed, the left one waits
    have hleft : Receiver.Adds a lo (hi + right.occurrences a) fun l m =>
        Passes right (fun r m => K (.binary op l r) m) m := by
      intro l m h
      have hright : Receiver.Adds a lo (hi + l.occurrences a) fun r m => K (.binary op l r) m := by
        intro r m h
        refine (hK _ _ h).mono ?_
        rw [ha.occurrences_binary]
        omega
      exact (occurrences_of_passes ha right hright h).mono (by omega)
    exact (occurrences_of_passes ha left hleft h).mono (by omega)
  | assign target t =>
    cases target with
    | var x =>
      rw [ha.occurrences_assign]
      have hvalue : Receiver.Adds a lo (hi + (Term.var x).occurrences a) fun v m =>
          K (.assign (.var x) v) m := by
        intro v m h
        refine (hK _ _ h).mono ?_
        rw [ha.occurrences_assign]
        omega
      exact (occurrences_of_passes ha t hvalue h).mono (by omega)
    | _ => exact h.elim
  | declare bindings body =>
    rw [ha.occurrences_declare]
    have hbody (lo hi : Nat) (K : Receiver Unit) (hK : Receiver.Adds a lo hi K) (m : Tree)
        (h : Passes body K m) : Tree.Holds a lo (hi + body.occurrences a) m :=
      occurrences_of_passes ha body hK h
    exact (occurrences_of_passesBindings ha bindings hbody hK h).mono (by omega)
  | function mark name? params body =>
    obtain ⟨i, n, body', hbody, h⟩ := h
    have hbody := (occurrences_of_passes ha body (Receiver.adds_jump ha "K" n) hbody).2
    refine (hK _ _ h).mono ?_
    rw [ha.occurrences_function, ha.occurrences_function]
    omega
  | conditional test consequent alternative? =>
    cases alternative? with
    | none =>
      rw [ha.occurrences_ifThen]
      have htest : Receiver.Adds a lo (hi + consequent.occurrences a) fun v m => ∃ n rest c,
          Receiver.Reified K rest ∧ Passes consequent (.jump (nameOf "I" n)) c ∧
          Receiver.Branches (nameOf "I" n) v c (.call (.var (nameOf "I" n)) [.absent]) rest m := by
        rintro v m ⟨n, rest, c, hrest, hc, hm⟩
        have hc := (occurrences_of_passes ha consequent (Receiver.adds_jump ha "I" n) hc).2
        have halternative := (Receiver.adds_jump ha "I" n .absent _ rfl).2
        rw [ha.occurrences_absent] at halternative
        exact (hK.branches ha hrest hm).mono (by omega)
      exact (occurrences_of_passes ha test htest h).mono (by omega)
    | some alternative =>
      rw [ha.occurrences_ifThenElse]
      have htest : Receiver.Adds a lo (hi + (consequent.occurrences a + alternative.occurrences a))
          fun v m => ∃ n rest c b, Receiver.Reified K rest ∧
            Passes consequent (.jump (nameOf "I" n)) c ∧
            Passes alternative (.jump (nameOf "I" n)) b ∧
            Receiver.Branches (nameOf "I" n) v c b rest m := by
        rintro v m ⟨n, rest, c, b, hrest, hc, hb, hm⟩
        have hc := (occurrences_of_passes ha consequent (Receiver.adds_jump ha "I" n) hc).2
        have hb := (occurrences_of_passes ha alternative (Receiver.adds_jump ha "I" n) hb).2
        exact (hK.branches ha hrest hm).mono (by omega)
      exact (occurrences_of_passes ha test htest h).mono (by omega)
  | seq items =>
    rw [ha.occurrences_seq]
    exact occurrences_of_passesSequence ha items hK h
  | call callee args =>
    rw [ha.occurrences_call]
    have hcallee : Receiver.Adds a lo (hi + occurrencesAll args a) fun f m =>
        PassesAll args (fun vs m => ∃ ret, Receiver.Reified K ret ∧ m = .call f (ret :: vs)) m := by
      intro f m h
      have hargs (vs : List Tree) (m : Tree)
          (h : ∃ ret, Receiver.Reified K ret ∧ m = .call f (ret :: vs)) :
          Tree.Holds a lo (hi + f.occurrences a + occurrencesAll vs a) m := by
        obtain ⟨ret, hret, rfl⟩ := h
        exact hK.call ha hret vs
      exact (occurrences_of_passesAll ha args hargs h).mono (by omega)
    exact (occurrences_of_passes ha callee hcallee h).mono (by omega)
termination_by structural t

theorem occurrences_of_passesSequence (ha : Original a) (ts : List Tree) {lo hi : Nat}
    {K : Receiver Unit} (hK : Receiver.Adds a lo hi K) {m : Tree} (h : PassesSequence ts K m) :
    Tree.Holds a lo (hi + occurrencesAll ts a) m := by
  cases ts with
  | nil =>
    have h := hK _ _ h
    rwa [ha.occurrences_absent] at h
  | cons t ts =>
    rw [Term.occurrencesAll_cons]
    cases ts with
    | nil => exact occurrences_of_passes ha t hK h
    | cons u ts =>
      by_cases hp : t.erase.isPure
      · rw [PassesSequence, if_pos hp] at h
        exact (occurrences_of_passesSequence ha (u :: ts) hK h).mono (by omega)
      · rw [PassesSequence, if_neg hp] at h
        have hfirst : Receiver.Adds a lo (hi + occurrencesAll (u :: ts) a) fun v m =>
            ∃ rest, PassesSequence (u :: ts) K rest ∧
              m = if v.erase.isPure then rest else .seq [v, rest] := by
          rintro v m ⟨rest, hrest, rfl⟩
          have hrest := occurrences_of_passesSequence ha (u :: ts) hK hrest
          split
          · exact hrest.mono (by omega)
          · unfold Tree.Holds at hrest ⊢
            rw [ha.occurrences_seq, Term.occurrencesAll_cons, Term.occurrencesAll_cons,
              Term.occurrencesAll_nil]
            omega
        exact (occurrences_of_passes ha t hfirst h).mono (by omega)
termination_by structural ts

theorem occurrences_of_passesAll (ha : Original a) (ts : List Tree) {lo hi : Nat}
    {K : List Tree → Tree → Prop}
    (hK : ∀ vs m, K vs m → Tree.Holds a lo (hi + occurrencesAll vs a) m) {m : Tree}
    (h : PassesAll ts K m) : Tree.Holds a lo (hi + occurrencesAll ts a) m := by
  cases ts with
  | nil => exact hK _ _ h
  | cons t ts =>
    rw [Term.occurrencesAll_cons]
    have hfirst : Receiver.Adds a lo (hi + occurrencesAll ts a) fun v m =>
        PassesAll ts (fun vs m => K (v :: vs) m) m := by
      intro v m h
      have hrest (vs : List Tree) (m : Tree) (h : K (v :: vs) m) :
          Tree.Holds a lo (hi + v.occurrences a + occurrencesAll vs a) m := by
        refine (hK _ _ h).mono ?_
        rw [Term.occurrencesAll_cons]
        omega
      exact (occurrences_of_passesAll ha ts hrest h).mono (by omega)
    exact (occurrences_of_passes ha t hfirst h).mono (by omega)
termination_by structural ts

theorem occurrences_of_passesBindings (ha : Original a) (bs : List (Binding Tree))
    {body : Receiver Unit → Tree → Prop} {most : Nat}
    (hbody : ∀ lo hi (K : Receiver Unit), Receiver.Adds a lo hi K →
      ∀ m, body K m → Tree.Holds a lo (hi + most) m)
    {lo hi : Nat} {K : Receiver Unit} (hK : Receiver.Adds a lo hi K) {m : Tree}
    (h : PassesBindings bs body K m) :
    Tree.Holds a lo (hi + (occurrencesBindings bs a + most)) m := by
  cases bs with
  | nil =>
    rw [Term.occurrencesBindings_nil, Nat.zero_add]
    exact hbody lo hi K hK m h
  | cons b bs =>
    obtain ⟨x, t?⟩ := b
    cases t? with
    | none =>
      obtain ⟨i, n, inner, after, hinner, hafter, rfl⟩ := h
      have hinner :=
        (occurrences_of_passesBindings ha bs hbody (Receiver.adds_jump ha "K" n) hinner).2
      refine (hK.call ha hafter [.absent]).mono ?_
      rw [ha.occurrences_function, Term.occurrencesAll_cons, ha.occurrences_absent,
        Term.occurrencesAll_nil, Term.occurrencesBindings_none]
      omega
    | some t =>
      rw [Term.occurrencesBindings_some]
      have hvalue : Receiver.Adds a lo (hi + (occurrencesBindings bs a + most)) fun v m =>
          ∃ i n inner after, PassesBindings bs body (.jump (nameOf "K" n)) inner ∧
            Receiver.Reified K after ∧
            m = .call (.function i none [nameOf "K" n, x] inner) [after, v] := by
        rintro v m ⟨i, n, inner, after, hinner, hafter, rfl⟩
        have hinner :=
          (occurrences_of_passesBindings ha bs hbody (Receiver.adds_jump ha "K" n) hinner).2
        refine (hK.call ha hafter [v]).mono ?_
        rw [ha.occurrences_function, Term.occurrencesAll_cons, Term.occurrencesAll_nil]
        omega
      exact (occurrences_of_passes ha t hvalue h).mono (by omega)
termination_by structural bs

end

/-- A transform whose value is handed to the function named `x`, as a relation. -/
theorem passes_jump_of_transformWith {t m : Tree} {x : Name} {symbols symbols' : Symbols}
    (h : t.transformWith symbols (fun v => .call (.var x) [v]) = (.ok m, symbols')) :
    Passes t (.jump x) m := by
  rw [← t.erase_tree, ← m.erase_tree] at h
  unfold Tree.transformWith Transform.transform at h
  cases hcheck : t.erase.check with
  | error fault =>
    rw [hcheck] at h
    exact absurd h Transform.not_yields_throw
  | ok u =>
    rw [hcheck] at h
    exact passes_of_cps markable_unit t (receives_jump x) h

/-- **The transform emits the rest of the program once and copies no code.** Whatever names have been
given out before, if the value of a tree is handed to a name that does not come in the tree and was
not generated, then this name comes once in the transform as a variable; and no text and no number
comes there more often than in the tree. -/
theorem transformWith_linear {t m : Tree} {x : Name} {symbols symbols' : Symbols}
    (hnew : ∀ s ∈ t.subterms, x ∉ s.ownNames) (hx : ¬ Generated x)
    (h : t.transformWith symbols (fun v => .call (.var x) [v]) = (.ok m, symbols')) :
    m.occurrences (.var x) = 1 ∧ (∀ s, m.occurrences (.str s) ≤ t.occurrences (.str s)) ∧
      ∀ n, m.occurrences (.int n) ≤ t.occurrences (.int n) := by
  have hpasses := passes_jump_of_transformWith h
  -- the receiver adds the name itself, and nothing else that is counted
  have hjump (a : Tree) (ha : Original a) :
      Receiver.Adds a ((Term.var x).occurrences a) ((Term.var x).occurrences a) (.jump x) := by
    rintro v m rfl
    unfold Tree.Holds
    rw [ha.occurrences_call, Term.occurrencesAll_cons, Term.occurrencesAll_nil]
    omega
  have hliteral (a : Tree) (ha : Original a) (hvar : (Term.var x).occurrences a = 0) :
      m.occurrences a ≤ t.occurrences a := by
    have hm := (occurrences_of_passes ha t (hjump a ha) hpasses).2
    omega
  refine ⟨?_, fun s => hliteral _ (.str s) ?_, fun n => hliteral _ (.int n) ?_⟩
  · have hm := occurrences_of_passes (.var hx) t (hjump _ (.var hx)) hpasses
    have hself : (Term.var x).occurrences (.var x) = 1 := List.count_singleton_self
    have hzero : t.occurrences (.var x) = 0 :=
      List.count_eq_zero.mpr fun hmem => hnew _ hmem List.mem_cons_self
    rw [hself, hzero] at hm
    exact Nat.le_antisymm hm.2 hm.1
  · simp [Term.occurrences, Term.subterms, Term.parts]
  · simp [Term.occurrences, Term.subterms, Term.parts]

/-- A call whose argument is a text, a sequence with a number nobody uses and a conditional without
alternative, all within a `let`. -/
def winding : Tree :=
  .declare [⟨"y", some (.call (.var "f") [.str "a", .int 1])⟩, ⟨"z", none⟩]
    (.seq [.int 1, .assign (.var "z") (.str "a"), .conditional (.var "y") (.int 2) none])

theorem transformWith_linear_winding :
    ∃ m symbols', winding.transformWith ⟨7⟩ (fun v => .call (.var "rest") [v]) = (.ok m, symbols') ∧
      (∀ s ∈ winding.subterms, "rest" ∉ s.ownNames) ∧ ¬ Generated "rest" ∧
      m.occurrences (.var "rest") = 1 ∧ m.occurrences (.str "a") ≤ 2 ∧
      m.occurrences (.int 1) ≤ 2 ∧ m.occurrences (.int 2) ≤ 1 := by
  have hm : winding.transformWith ⟨7⟩ (fun v => .call (.var "rest") [v]) = (.ok _, _) := rfl
  have hnew : ∀ s ∈ winding.subterms, "rest" ∉ s.ownNames := by decide
  have hx : ¬ Generated "rest" := by decide
  obtain ⟨hrest, htexts, hnumbers⟩ := transformWith_linear hnew hx hm
  exact ⟨_, _, hm, hnew, hx, hrest, htexts "a", hnumbers 1, hnumbers 2⟩

end LetLambda
