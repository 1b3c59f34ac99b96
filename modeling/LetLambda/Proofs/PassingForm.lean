import LetLambda.Proofs.Names
import LetLambda.Proofs.Passing

/-!
# Continuation-passing form

What comes out of the transform is a serious term. A trivial term gives a value at once: it holds
no call, and its function literals first take the function that their value is handed to. A
serious term is a trivial one, or it ends in a call: of a function that is told by a first argument
where to go on, or of the function that a value is handed to. The arms of a conditional go on with
one and the same function.
-/

namespace LetLambda

open Symbols (nameOf)

/-! ### The grammar -/

/-- The name and the parameters of a function literal. -/
abbrev Header := Option Name × List Name

mutual

/-- A term that gives a value at once. The literals of `headers` are those that it may hold, each
with a parameter more. -/
inductive Trivial (headers : List Header) : Tree → Prop
  | int (n : Int64) : Trivial headers (.int n)
  | str (s : String) : Trivial headers (.str s)
  | bool (b : Bool) : Trivial headers (.bool b)
  | var (x : Name) : Trivial headers (.var x)
  | negate {t : Tree} (ht : Trivial headers t) : Trivial headers (.negate t)
  | binary (op : String) {l r : Tree} (hl : Trivial headers l) (hr : Trivial headers r) :
    Trivial headers (.binary op l r)
  | assign (x : Name) {t : Tree} (ht : Trivial headers t) : Trivial headers (.assign (.var x) t)
  | function {name? : Option Name} {params : List Name} (n : Nat) {body : Tree}
    (h : (name?, params) ∈ headers) (hbody : Serious headers body) :
    Trivial headers (.function () name? (nameOf "K" n :: params) body)

/-- A term that ends by handing its value on. -/
inductive Serious (headers : List Header) : Tree → Prop
  | trivial {t : Tree} (ht : Trivial headers t) : Serious headers t
  | seq {t m : Tree} (ht : Trivial headers t) (impure : t.isPure = false)
    (hm : Serious headers m) : Serious headers (.seq [t, m])
  | call {f : Tree} {args : List Tree} (n : Nat) {rest : Tree} (hf : Trivial headers f)
    (hrest : Serious headers rest) (hargs : ∀ t ∈ args, Trivial headers t) :
    Serious headers (.call f (.function () none [nameOf "R" n] rest :: args))
  | branch (i n : Nat) {test consequent alternative rest : Tree} (htest : Trivial headers test)
    (hconsequent : Serious headers consequent) (halternative : Serious headers alternative)
    (hrest : Serious headers rest) :
    Serious headers (.call
      (.function () none [nameOf "I" i] (.conditional test consequent (some alternative)))
      [.function () none [nameOf "R" n] rest])
  | jump {stem : String} (hstem : stem = "K" ∨ stem = "I") (n : Nat) {t : Tree}
    (ht : Trivial headers t) : Serious headers (.call (.var (nameOf stem n)) [t])

end

namespace Term

mutual

/-- The function literals of a tree, and the functions of one parameter that bindings become. -/
def headers : Tree → List Header
  | int _ | str _ | bool _ | var _ => []
  | assign target value => target.headers ++ value.headers
  | binary _ left right => left.headers ++ right.headers
  | negate body => body.headers
  | seq items => headersAll items
  | call callee args => callee.headers ++ headersAll args
  | function _ name? params body => (name?, params) :: body.headers
  | conditional test consequent none => test.headers ++ consequent.headers
  | conditional test consequent (some alternative) =>
    test.headers ++ (consequent.headers ++ alternative.headers)
  | declare bindings body => headersBindings bindings ++ body.headers
termination_by structural t => t

/-- The function literals of trees. -/
def headersAll : List Tree → List Header
  | [] => []
  | t :: ts => t.headers ++ headersAll ts
termination_by structural ts => ts

/-- The functions of one parameter that bindings become, and the function literals in them. -/
def headersBindings : List (Binding Tree) → List Header
  | [] => []
  | ⟨x, none⟩ :: bs => (none, [x]) :: headersBindings bs
  | ⟨x, some t⟩ :: bs => (none, [x]) :: (t.headers ++ headersBindings bs)
termination_by structural bs => bs

end

mutual

/-- Whether calls stand in tail position only, no `let` is left and every conditional has both
arms. The first argument says whether the tree itself is in tail position. -/
def tailCalls : Bool → Tree → Bool
  | _, int _ | _, str _ | _, bool _ | _, var _ => true
  | _, assign target value => target.tailCalls false && value.tailCalls false
  | _, binary _ left right => left.tailCalls false && right.tailCalls false
  | _, negate body => body.tailCalls false
  | tail, seq items => tailCallsLast tail items
  | tail, call callee args => tail && callee.tailCalls false && tailCallsAll args
  | _, function _ _ _ body => body.tailCalls true
  | _, conditional _ _ none => false
  | tail, conditional test consequent (some alternative) =>
    test.tailCalls false && consequent.tailCalls tail && alternative.tailCalls tail
  | _, declare .. => false
termination_by structural _ t => t

/-- The same of the items of a sequence, of which the last is in tail position if the sequence
is. -/
def tailCallsLast : Bool → List Tree → Bool
  | _, [] => true
  | tail, [t] => t.tailCalls tail
  | tail, t :: u :: ts => t.tailCalls false && tailCallsLast tail (u :: ts)
termination_by structural _ ts => ts

/-- The same of arguments, none of which is in tail position. -/
def tailCallsAll : List Tree → Bool
  | [] => true
  | t :: ts => t.tailCalls false && tailCallsAll ts
termination_by structural ts => ts

end

end Term

/-! ### Calls in tail position -/

variable {headers : List Header}

theorem Term.tailCallsAll_of_forall {ts : List Tree} (h : ∀ t ∈ ts, t.tailCalls false = true) :
    tailCallsAll ts = true := by
  induction ts with
  | nil => rfl
  | cons t ts ih =>
    rw [tailCallsAll, h t List.mem_cons_self, ih fun u hu => h u (List.mem_cons_of_mem t hu),
      Bool.and_self]

mutual

/-- A trivial term holds no call but those in the bodies of its literals, so that it does not
matter whether it is in tail position. -/
theorem Trivial.tailCalls {t : Tree} (h : Trivial headers t) (tail : Bool) :
    t.tailCalls tail = true := by
  match h with
  | .int n => rfl
  | .str s => rfl
  | .bool b => rfl
  | .var x => rfl
  | .negate ht => simp only [Term.tailCalls, ht.tailCalls false]
  | .binary op hl hr =>
    simp only [Term.tailCalls, hl.tailCalls false, hr.tailCalls false, Bool.and_self]
  | .assign x ht => simp only [Term.tailCalls, ht.tailCalls false, Bool.and_self]
  | .function n _ hbody => simp only [Term.tailCalls, hbody.tailCalls]
termination_by structural h

theorem Serious.tailCalls {m : Tree} (h : Serious headers m) : m.tailCalls true = true := by
  match h with
  | .trivial ht => exact ht.tailCalls true
  | .seq ht _ hm =>
    simp only [Term.tailCalls, Term.tailCallsLast, ht.tailCalls false, hm.tailCalls, Bool.and_self]
  | .call n hf hrest hargs =>
    have hall := Term.tailCallsAll_of_forall fun t ht => (hargs t ht).tailCalls false
    simp only [Term.tailCalls, Term.tailCallsAll, hf.tailCalls false, hrest.tailCalls, hall,
      Bool.and_self]
  | .branch i n htest hc ha hrest =>
    simp only [Term.tailCalls, Term.tailCallsAll, htest.tailCalls false, hc.tailCalls, ha.tailCalls,
      hrest.tailCalls, Bool.and_self]
  | .jump hstem n ht =>
    simp only [Term.tailCalls, Term.tailCallsAll, ht.tailCalls false, Bool.and_self]
termination_by structural h

end

/-! ### Well-formed output -/

theorem bind_eq_ok_iff_exists {ε α β : Type} {x : Except ε α} {f : α → Except ε β} {b : β} :
    (x >>= f) = .ok b ↔ ∃ a, x = .ok a ∧ f a = .ok b := by
  cases x with
  | error e => exact ⟨nofun, fun ⟨_, h, _⟩ => nomatch h⟩
  | ok a =>
    constructor
    · intro h
      exact ⟨a, rfl, h⟩
    · rintro ⟨_, ⟨⟩, h⟩
      exact h

theorem Malformed.bind_eq_ok_iff {x : Except Malformed Unit} {f : Unit → Except Malformed Unit} :
    (x >>= f) = .ok () ↔ x = .ok () ∧ f () = .ok () :=
  bind_eq_ok_iff_exists.trans ⟨fun ⟨_, h⟩ => h, fun h => ⟨(), h⟩⟩

theorem Malformed.unlessNamed_nameOf (fault : Malformed) (stem : String) (n : Nat) :
    fault.unlessNamed (nameOf stem n) = .ok () := if_neg (Symbols.nameOf_ne_empty stem n)

theorem Term.checkAll_of_forall {ts : List Tree} (h : ∀ t ∈ ts, t.check = .ok ()) :
    checkAll ts = .ok () := by
  induction ts with
  | nil => rfl
  | cons t ts ih =>
    rw [checkAll, Malformed.bind_eq_ok_iff]
    exact ⟨h t List.mem_cons_self, ih fun u hu => h u (List.mem_cons_of_mem t hu)⟩

/-- A trivial term without empty names. -/
structure Simple (headers : List Header) (t : Tree) : Prop where
  trivial : Trivial headers t
  check : t.check = .ok ()

/-- A serious term without empty names. -/
structure Passing (headers : List Header) (m : Tree) : Prop where
  serious : Serious headers m
  check : m.check = .ok ()

namespace Simple

theorem passing {t : Tree} (h : Simple headers t) : Passing headers t :=
  ⟨.trivial h.trivial, h.check⟩

theorem absent : Simple headers .absent := ⟨.bool false, rfl⟩

theorem generated (stem : String) (n : Nat) : Simple headers (.var (nameOf stem n)) :=
  ⟨.var _, Malformed.unlessNamed_nameOf _ stem n⟩

theorem function {name? : Option Name} {params : List Name} {n : Nat} {body : Tree}
    (h : (name?, params) ∈ headers) (hname : Malformed.checkFunctionName name? = .ok ())
    (hparams : Malformed.checkParams params = .ok ()) (hbody : Passing headers body) :
    Simple headers (.function () name? (nameOf "K" n :: params) body) := by
  refine ⟨.function n h hbody.serious, ?_⟩
  simp only [Term.check, Malformed.checkParams, Malformed.bind_eq_ok_iff,
    Malformed.unlessNamed_nameOf, hname, hparams, hbody.check, and_self]

/-- The function that a binding becomes. -/
theorem binder {x : Name} {n : Nat} {inner : Tree} (h : (none, [x]) ∈ headers)
    (hx : Malformed.bindingName.unlessNamed x = .ok ()) (hinner : Passing headers inner) :
    Simple headers (.function () none [nameOf "K" n, x] inner) := by
  refine .function h rfl ?_ hinner
  have hne : x ≠ "" := by
    rintro rfl
    cases hx
  rw [Malformed.checkParams, Malformed.unlessNamed, if_neg hne]
  rfl

end Simple

namespace Passing

theorem jump {stem : String} (hstem : stem = "K" ∨ stem = "I") {n : Nat} {t m : Tree}
    (ht : Simple headers t) (hm : Receiver.jump (nameOf stem n) t m) : Passing headers m := by
  subst hm
  refine ⟨.jump hstem n ht.trivial, ?_⟩
  simp only [Term.check, Term.checkAll, Malformed.bind_eq_ok_iff, Malformed.unlessNamed_nameOf,
    ht.check, and_self]

theorem call {K : Receiver Unit} (hK : ∀ v m, Simple headers v → K v m → Passing headers m)
    {f ret : Tree} {args : List Tree} (hf : Simple headers f) (hret : Receiver.Reified K ret)
    (hargs : ∀ t ∈ args, Simple headers t) : Passing headers (.call f (ret :: args)) := by
  obtain ⟨i, n, body, rfl, hbody⟩ := hret
  have hrest := hK _ _ (.generated "R" n) hbody
  refine ⟨.call n hf.trivial hrest.serious fun t ht => (hargs t ht).trivial, ?_⟩
  simp only [Term.check, Term.checkAll, Malformed.checkFunctionName, Malformed.checkParams,
    Malformed.bind_eq_ok_iff, Malformed.unlessNamed_nameOf, hf.check, hrest.check,
    Term.checkAll_of_forall fun t ht => (hargs t ht).check, and_self]

theorem branch {K : Receiver Unit} (hK : ∀ v m, Simple headers v → K v m → Passing headers m)
    {n : Nat} {test consequent alternative rest m : Tree} (htest : Simple headers test)
    (hc : Passing headers consequent) (ha : Passing headers alternative)
    (hrest : Receiver.Reified K rest)
    (hm : Receiver.Branches (nameOf "I" n) test consequent alternative rest m) :
    Passing headers m := by
  obtain ⟨i, rfl⟩ := hm
  obtain ⟨j, l, body, rfl, hbody⟩ := hrest
  have hrest := hK _ _ (.generated "R" l) hbody
  refine ⟨.branch n l htest.trivial hc.serious ha.serious hrest.serious, ?_⟩
  simp only [Term.check, Term.checkAll, Malformed.checkFunctionName, Malformed.checkParams,
    Malformed.bind_eq_ok_iff, Malformed.unlessNamed_nameOf, htest.check, hc.check, ha.check,
    hrest.check, and_self]

end Passing

/-! ### The transform -/

open Malformed (bind_eq_ok_iff)

mutual

/-- **Receivers of trivial terms that give serious ones make a transform serious.** -/
theorem passing_of_passes (t : Tree) (hh : t.headers ⊆ headers) (hc : t.check = .ok ())
    {K : Receiver Unit} (hK : ∀ v m, Simple headers v → K v m → Passing headers m) {m : Tree}
    (h : Passes t K m) : Passing headers m := by
  match t with
  | .int n => exact hK _ _ ⟨.int n, rfl⟩ h
  | .str s => exact hK _ _ ⟨.str s, rfl⟩ h
  | .bool b => exact hK _ _ ⟨.bool b, rfl⟩ h
  | .var x => exact hK _ _ ⟨.var x, hc⟩ h
  | .negate t =>
    refine passing_of_passes t hh hc (fun v m hv => hK _ _ ⟨.negate hv.trivial, hv.check⟩) h
  | .binary op left right =>
    simp only [Term.headers, List.append_subset] at hh
    simp only [Term.check, bind_eq_ok_iff] at hc
    refine passing_of_passes left hh.1 hc.2.1 (fun l m hl h => ?_) h
    refine passing_of_passes right hh.2 hc.2.2 (fun r m hr h => ?_) h
    refine hK _ _ ⟨.binary op hl.trivial hr.trivial, ?_⟩ h
    simp only [Term.check, bind_eq_ok_iff, hc.1, hl.check, hr.check, and_self]
  | .assign (.var x) t =>
    simp only [Term.headers, List.append_subset] at hh
    simp only [Term.check, bind_eq_ok_iff] at hc
    refine passing_of_passes t hh.2 hc.2 (fun v m hv => hK _ _ ⟨.assign x hv.trivial, ?_⟩) h
    simp only [Term.check, bind_eq_ok_iff, hc.1, hv.check, and_self]
  | .declare bindings body =>
    simp only [Term.headers, List.append_subset] at hh
    simp only [Term.check, bind_eq_ok_iff] at hc
    have hbody (K : Receiver Unit) (hK : ∀ v m, Simple headers v → K v m → Passing headers m)
        (m : Tree) (h : Passes body K m) : Passing headers m :=
      passing_of_passes body hh.2 hc.2 hK h
    exact passing_of_passesBindings bindings hh.1 hc.1 hbody hK h
  | .function _ name? params body =>
    simp only [Term.headers, List.cons_subset] at hh
    simp only [Term.check, bind_eq_ok_iff] at hc
    obtain ⟨i, n, body', hb, h⟩ := h
    have hbody := passing_of_passes body hh.2 hc.2.2 (fun v m hv => .jump (.inl rfl) hv) hb
    exact hK _ _ (.function hh.1 hc.1 hc.2.1 hbody) h
  | .conditional test consequent none =>
    simp only [Term.headers, List.append_subset] at hh
    simp only [Term.check, bind_eq_ok_iff] at hc
    refine passing_of_passes test hh.1 hc.1 ?_ h
    rintro v m hv ⟨n, rest, c, hrest, hcons, hm⟩
    exact .branch hK hv
      (passing_of_passes consequent hh.2 hc.2 (fun v m hv => .jump (.inr rfl) hv) hcons)
      (.jump (.inr rfl) .absent rfl) hrest hm
  | .conditional test consequent (some alternative) =>
    simp only [Term.headers, List.append_subset] at hh
    simp only [Term.check, bind_eq_ok_iff] at hc
    refine passing_of_passes test hh.1 hc.1 ?_ h
    rintro v m hv ⟨n, rest, c, a, hrest, hcons, halt, hm⟩
    exact .branch hK hv
      (passing_of_passes consequent hh.2.1 hc.2.1 (fun v m hv => .jump (.inr rfl) hv) hcons)
      (passing_of_passes alternative hh.2.2 hc.2.2 (fun v m hv => .jump (.inr rfl) hv) halt)
      hrest hm
  | .seq items => exact passing_of_passesSequence items hh hc hK h
  | .call callee args =>
    simp only [Term.headers, List.append_subset] at hh
    simp only [Term.check, bind_eq_ok_iff] at hc
    refine passing_of_passes callee hh.1 hc.1 (fun f m hf h => ?_) h
    refine passing_of_passesAll args hh.2 hc.2 ?_ h
    rintro vs m hvs ⟨ret, hret, rfl⟩
    exact .call hK hf hret hvs
termination_by structural t

theorem passing_of_passesSequence (ts : List Tree) (hh : Term.headersAll ts ⊆ headers)
    (hc : Term.checkAll ts = .ok ()) {K : Receiver Unit}
    (hK : ∀ v m, Simple headers v → K v m → Passing headers m) {m : Tree}
    (h : PassesSequence ts K m) : Passing headers m := by
  match ts with
  | [] => exact hK _ _ .absent h
  | [t] =>
    simp only [Term.headersAll, List.append_subset] at hh
    simp only [Term.checkAll, bind_eq_ok_iff] at hc
    exact passing_of_passes t hh.1 hc.1 hK h
  | t :: u :: ts =>
    rw [Term.headersAll, List.append_subset] at hh
    rw [Term.checkAll, bind_eq_ok_iff] at hc
    by_cases hp : t.erase.isPure
    · rw [PassesSequence, if_pos hp] at h
      exact passing_of_passesSequence (u :: ts) hh.2 hc.2 hK h
    · rw [PassesSequence, if_neg hp] at h
      refine passing_of_passes t hh.1 hc.1 ?_ h
      rintro v m hv ⟨rest, hrest, rfl⟩
      have hrest := passing_of_passesSequence (u :: ts) hh.2 hc.2 hK hrest
      rw [Term.erase_tree]
      by_cases hp : v.isPure
      · rwa [if_pos hp]
      · rw [if_neg hp]
        refine ⟨.seq hv.trivial (Bool.eq_false_iff.mpr hp) hrest.serious, ?_⟩
        simp only [Term.check, Term.checkAll, bind_eq_ok_iff, hv.check, hrest.check, and_self]
termination_by structural ts

theorem passing_of_passesAll (ts : List Tree) (hh : Term.headersAll ts ⊆ headers)
    (hc : Term.checkAll ts = .ok ()) {K : List Tree → Tree → Prop}
    (hK : ∀ vs m, (∀ v ∈ vs, Simple headers v) → K vs m → Passing headers m) {m : Tree}
    (h : PassesAll ts K m) : Passing headers m := by
  match ts with
  | [] => exact hK _ _ (by simp) h
  | t :: ts =>
    rw [Term.headersAll, List.append_subset] at hh
    rw [Term.checkAll, bind_eq_ok_iff] at hc
    refine passing_of_passes t hh.1 hc.1 (fun v m hv h => ?_) h
    refine passing_of_passesAll ts hh.2 hc.2 (fun vs m hvs => hK _ _ ?_) h
    exact List.forall_mem_cons.mpr ⟨hv, hvs⟩
termination_by structural ts

theorem passing_of_passesBindings (bs : List (Binding Tree))
    (hh : Term.headersBindings bs ⊆ headers) (hc : Term.checkBindings bs = .ok ())
    {body : Receiver Unit → Tree → Prop}
    (hbody : ∀ K : Receiver Unit, (∀ v m, Simple headers v → K v m → Passing headers m) →
      ∀ m, body K m → Passing headers m)
    {K : Receiver Unit} (hK : ∀ v m, Simple headers v → K v m → Passing headers m) {m : Tree}
    (h : PassesBindings bs body K m) : Passing headers m := by
  match bs with
  | [] => exact hbody K hK m h
  | ⟨x, none⟩ :: bs =>
    simp only [Term.headersBindings, List.cons_subset] at hh
    simp only [Term.checkBindings, bind_eq_ok_iff] at hc
    obtain ⟨i, n, inner, after, hi, ha, rfl⟩ := h
    have hinner := passing_of_passesBindings bs hh.2 hc.2 hbody
      (fun v m hv => .jump (.inl rfl) hv) hi
    exact .call hK (.binder hh.1 hc.1 hinner) ha (List.forall_mem_singleton.mpr .absent)
  | ⟨x, some t⟩ :: bs =>
    simp only [Term.headersBindings, List.cons_subset, List.append_subset] at hh
    simp only [Term.checkBindings, bind_eq_ok_iff] at hc
    refine passing_of_passes t hh.2.1 hc.2.1 ?_ h
    rintro v m hv ⟨i, n, inner, after, hi, ha, rfl⟩
    have hinner := passing_of_passesBindings bs hh.2.2 hc.2.2 hbody
      (fun v m hv => .jump (.inl rfl) hv) hi
    exact .call hK (.binder hh.1 hc.1 hinner) ha (List.forall_mem_singleton.mpr hv)
termination_by structural bs

end

theorem passing_of_transformWith {t m : Tree} {symbols symbols' : Symbols}
    (h : t.transformWith symbols id = (.ok m, symbols')) : Passing t.headers m := by
  rw [← t.erase_tree, ← m.erase_tree] at h
  obtain ⟨hc, hp⟩ := passes_of_transformWith markable_unit h
  rw [t.erase_tree] at hc
  refine passing_of_passes t (List.Subset.refl _) hc ?_ hp
  rintro v m hv rfl
  exact hv.passing

/-- **The transform gives continuation-passing form.** Whatever names have been given out before,
a tree is transformed to a serious term whose literals are those of the tree with one parameter
more, or are made of its bindings; so calls stand in tail position only, no `let` is left and every
conditional has both arms. No name in it is empty. -/
theorem transformWith_serious {t m : Tree} {symbols symbols' : Symbols}
    (h : t.transformWith symbols id = (.ok m, symbols')) :
    Serious t.headers m ∧ m.tailCalls true = true ∧ m.check = .ok () := by
  have hm := passing_of_transformWith h
  exact ⟨hm.serious, hm.serious.tailCalls, hm.check⟩

/-- A call as a definition, and a conditional without alternative around an assignment. -/
def assigning : Tree :=
  .declare [⟨"x", some (.call (.var "f") [.int 1])⟩]
    (.conditional (.var "x") (.assign (.var "x") (.int 2)) none)

/-- The form of `assigning` when four names have been given out before. -/
def assigningPassed : Tree :=
  .call (.var "f")
    [.function () none [nameOf "R" 9]
      (.call
        (.function () none [nameOf "K" 5, "x"]
          (.call
            (.function () none [nameOf "I" 6]
              (.conditional (.var "x")
                (.call (.var (nameOf "I" 6)) [.assign (.var "x") (.int 2)])
                (some (.call (.var (nameOf "I" 6)) [.bool false]))))
            [.function () none [nameOf "R" 7]
              (.call (.var (nameOf "K" 5)) [.var (nameOf "R" 7)])]))
        [.function () none [nameOf "R" 8] (.var (nameOf "R" 8)), .var (nameOf "R" 9)]),
      .int 1]

theorem transformWith_serious_assigning :
    assigning.transformWith ⟨4⟩ id = (.ok assigningPassed, ⟨9⟩) ∧
      Serious assigning.headers assigningPassed ∧ assigningPassed.tailCalls true = true ∧
      assigningPassed.check = .ok () := by
  have h : assigning.transformWith ⟨4⟩ id = (.ok assigningPassed, ⟨9⟩) := rfl
  exact ⟨h, transformWith_serious h⟩

end LetLambda
