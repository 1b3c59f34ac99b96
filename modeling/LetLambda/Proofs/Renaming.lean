import LetLambda.Proofs.OrderSafety
import Mathlib.Logic.Basic

/-!
# Terms up to the names that they bind

Two trees are alike up to the names that they bind if each is the other with its parameters, its
`let` bindings and the own names of its functions renamed. Under their binders a matching says which
name of the one stands for which name of the other (`Matching`); `Alpha R` relates trees whose
unbound names match as `R` says.

Matchings serve two ends. With equality, `Alpha` is renaming of bound names (`AlphaEq`). With
equality on a set of names, a tree is related to itself just if its free variables are in that set
(`alpha_among_iff`).
-/

namespace LetLambda

/-! ### Free variables -/

namespace Term

variable {ι : Type}

mutual

/-- The free variables of a term. The target of an assignment counts as a variable, and a binding of
a `let` is seen by the definitions after it and by the body. -/
def free : Term ι → List Name
  | int _ | str _ | bool _ => []
  | var x => [x]
  | assign target value => target.free ++ value.free
  | binary _ left right => left.free ++ right.free
  | negate body => body.free
  | seq items => freeAll items
  | call callee args => callee.free ++ freeAll args
  | function _ name? params body => body.free.filter fun x => x ∉ name?.toList ++ params
  | conditional test consequent none => test.free ++ consequent.free
  | conditional test consequent (some alternative) =>
    test.free ++ (consequent.free ++ alternative.free)
  | declare bindings body => freeLet bindings body.free
termination_by structural t => t

/-- The free variables of terms. -/
def freeAll : List (Term ι) → List Name
  | [] => []
  | t :: ts => t.free ++ freeAll ts
termination_by structural ts => ts

/-- The free variables of a `let` whose body has the free variables `inner`. -/
def freeLet : List (Binding (Term ι)) → List Name → List Name
  | [], inner => inner
  | ⟨x, none⟩ :: bs, inner => (freeLet bs inner).filter fun y => y ≠ x
  | ⟨x, some t⟩ :: bs, inner => t.free ++ (freeLet bs inner).filter fun y => y ≠ x
termination_by structural bs => bs

end

theorem mem_free_function {x : Name} {i : ι} {name? : Option Name} {params : List Name}
    {body : Term ι} :
    x ∈ (function i name? params body).free ↔ x ∈ body.free ∧ x ∉ name?.toList ++ params := by
  rw [free, List.mem_filter, decide_eq_true_iff]

theorem mem_free_conditional {x : Name} {test consequent : Term ι}
    {alternative? : Option (Term ι)} :
    x ∈ (conditional test consequent alternative?).free ↔
      x ∈ test.free ∨ x ∈ consequent.free ∨ ∃ t, alternative? = some t ∧ x ∈ t.free := by
  cases alternative? <;> simp [free]

theorem mem_freeLet_none {x y : Name} {bs : List (Binding (Term ι))} {inner : List Name} :
    y ∈ freeLet (⟨x, none⟩ :: bs) inner ↔ y ∈ freeLet bs inner ∧ y ≠ x := by
  rw [freeLet, List.mem_filter, decide_eq_true_iff]

theorem mem_freeLet_some {x y : Name} {t : Term ι} {bs : List (Binding (Term ι))}
    {inner : List Name} :
    y ∈ freeLet (⟨x, some t⟩ :: bs) inner ↔ y ∈ t.free ∨ (y ∈ freeLet bs inner ∧ y ≠ x) := by
  rw [freeLet, List.mem_append, List.mem_filter, decide_eq_true_iff]

end Term

/-! ### Names that match -/

/-- Which names of one tree stand for which names of another. -/
abbrev Matching := Name → Name → Prop

namespace Matching

/-- The names that match under a binder of `x` in the one tree and of `y` in the other. -/
def bind (R : Matching) (x y : Name) : Matching :=
  fun a b => (a = x ∧ b = y) ∨ (a ≠ x ∧ b ≠ y ∧ R a b)

/-- The names that match under binders one after another, of which the last is the innermost. -/
def bindAll (R : Matching) : List Name → List Name → Matching
  | x :: xs, y :: ys => (R.bind x y).bindAll xs ys
  | _, _ => R

/-- The names of a set match themselves. -/
def among (S : Name → Prop) : Matching := fun a b => a = b ∧ S a

/-- All that matches by `R` matches by `S`. -/
def Le (R S : Matching) : Prop := ∀ a b, R a b → S a b

variable {R S : Matching}

theorem Le.refl (R : Matching) : R.Le R := fun _ _ => id

theorem Le.trans {T : Matching} (h : R.Le S) (h' : S.Le T) : R.Le T := fun a b => h' a b ∘ h a b

theorem Le.bind (h : R.Le S) (x y : Name) : (R.bind x y).Le (S.bind x y) := by
  rintro a b (hab | ⟨ha, hb, hab⟩)
  · exact .inl hab
  · exact .inr ⟨ha, hb, h a b hab⟩

theorem Le.bindAll (h : R.Le S) (xs ys : List Name) : (R.bindAll xs ys).Le (S.bindAll xs ys) := by
  induction xs generalizing R S ys with
  | nil => exact h
  | cons x xs ih =>
    cases ys with
    | nil => exact h
    | cons y ys => exact ih (h.bind x y) ys

theorem bind_among (S : Name → Prop) (x : Name) :
    (among S).bind x x = among fun a => a = x ∨ S a := by
  funext a b
  apply propext
  constructor
  · rintro (⟨rfl, rfl⟩ | ⟨ha, hb, rfl, hS⟩)
    · exact ⟨rfl, .inl rfl⟩
    · exact ⟨rfl, .inr hS⟩
  · rintro ⟨rfl, hS⟩
    by_cases ha : a = x
    · exact .inl ⟨ha, ha⟩
    · exact .inr ⟨ha, ha, rfl, hS.resolve_left ha⟩

theorem bindAll_among (S : Name → Prop) (xs : List Name) :
    (among S).bindAll xs xs = among fun a => a ∈ xs ∨ S a := by
  induction xs generalizing S with
  | nil => simp [bindAll]
  | cons x xs ih =>
    rw [bindAll, bind_among, ih]
    congr 1
    funext a
    rw [List.mem_cons, or_left_comm, or_assoc]

end Matching

/-! ### Renaming of bound names -/

mutual

/-- Two trees differ in the names that they bind at most, and their other names match. -/
inductive Alpha : Matching → Tree → Tree → Prop
  | int {R : Matching} (n : Int64) : Alpha R (.int n) (.int n)
  | str {R : Matching} (s : String) : Alpha R (.str s) (.str s)
  | bool {R : Matching} (b : Bool) : Alpha R (.bool b) (.bool b)
  | var {R : Matching} {x y : Name} (h : R x y) : Alpha R (.var x) (.var y)
  | assign {R : Matching} {s s' t t' : Tree} (hs : Alpha R s s') (ht : Alpha R t t') :
    Alpha R (.assign s t) (.assign s' t')
  | binary {R : Matching} (op : String) {s s' t t' : Tree} (hs : Alpha R s s')
    (ht : Alpha R t t') : Alpha R (.binary op s t) (.binary op s' t')
  | negate {R : Matching} {t t' : Tree} (ht : Alpha R t t') : Alpha R (.negate t) (.negate t')
  | seq {R : Matching} {ts ts' : List Tree} (hts : AlphaAll R ts ts') :
    Alpha R (.seq ts) (.seq ts')
  | call {R : Matching} {f f' : Tree} {ts ts' : List Tree} (hf : Alpha R f f')
    (hts : AlphaAll R ts ts') : Alpha R (.call f ts) (.call f' ts')
  | function {R : Matching} {name? name?' : Option Name} {params params' : List Name}
    {body body' : Tree} (hname : name?.isSome = name?'.isSome)
    (hparams : params.length = params'.length)
    (hbody : Alpha ((R.bindAll name?.toList name?'.toList).bindAll params params') body body') :
    Alpha R (.function () name? params body) (.function () name?' params' body')
  | ifThen {R : Matching} {s s' t t' : Tree} (hs : Alpha R s s') (ht : Alpha R t t') :
    Alpha R (.conditional s t none) (.conditional s' t' none)
  | ifThenElse {R : Matching} {s s' t t' u u' : Tree} (hs : Alpha R s s') (ht : Alpha R t t')
    (hu : Alpha R u u') : Alpha R (.conditional s t (some u)) (.conditional s' t' (some u'))
  | declare {R : Matching} {bs bs' : List (Binding Tree)} {t t' : Tree}
    (h : AlphaLet R bs t bs' t') : Alpha R (.declare bs t) (.declare bs' t')

/-- The same of the trees of two lists. -/
inductive AlphaAll : Matching → List Tree → List Tree → Prop
  | nil {R : Matching} : AlphaAll R [] []
  | cons {R : Matching} {t t' : Tree} {ts ts' : List Tree} (ht : Alpha R t t')
    (hts : AlphaAll R ts ts') : AlphaAll R (t :: ts) (t' :: ts')

/-- The same of the bindings and the bodies of two `let`s. -/
inductive AlphaLet : Matching → List (Binding Tree) → Tree → List (Binding Tree) → Tree → Prop
  | nil {R : Matching} {t t' : Tree} (ht : Alpha R t t') : AlphaLet R [] t [] t'
  | none {R : Matching} {x y : Name} {bs bs' : List (Binding Tree)} {t t' : Tree}
    (h : AlphaLet (R.bind x y) bs t bs' t') : AlphaLet R (⟨x, none⟩ :: bs) t (⟨y, none⟩ :: bs') t'
  | some {R : Matching} {x y : Name} {d d' : Tree} {bs bs' : List (Binding Tree)} {t t' : Tree}
    (hd : Alpha R d d') (h : AlphaLet (R.bind x y) bs t bs' t') :
    AlphaLet R (⟨x, some d⟩ :: bs) t (⟨y, some d'⟩ :: bs') t'

end

/-- Two trees differ in the names that they bind at most. -/
def AlphaEq (t t' : Tree) : Prop := Alpha Eq t t'

mutual

theorem Alpha.mono {R S : Matching} {t t' : Tree} (h : Alpha R t t') (hRS : R.Le S) :
    Alpha S t t' := by
  match h with
  | .int n => exact .int n
  | .str s => exact .str s
  | .bool b => exact .bool b
  | .var h => exact .var (hRS _ _ h)
  | .assign hs ht => exact .assign (hs.mono hRS) (ht.mono hRS)
  | .binary op hs ht => exact .binary op (hs.mono hRS) (ht.mono hRS)
  | .negate ht => exact .negate (ht.mono hRS)
  | .seq hts => exact .seq (hts.mono hRS)
  | .call hf hts => exact .call (hf.mono hRS) (hts.mono hRS)
  | .function hname hparams hbody =>
    exact .function hname hparams (hbody.mono ((hRS.bindAll _ _).bindAll _ _))
  | .ifThen hs ht => exact .ifThen (hs.mono hRS) (ht.mono hRS)
  | .ifThenElse hs ht hu => exact .ifThenElse (hs.mono hRS) (ht.mono hRS) (hu.mono hRS)
  | .declare h => exact .declare (h.mono hRS)
termination_by structural h

theorem AlphaAll.mono {R S : Matching} {ts ts' : List Tree} (h : AlphaAll R ts ts') (hRS : R.Le S) :
    AlphaAll S ts ts' := by
  match h with
  | .nil => exact .nil
  | .cons ht hts => exact .cons (ht.mono hRS) (hts.mono hRS)
termination_by structural h

theorem AlphaLet.mono {R S : Matching} {bs bs' : List (Binding Tree)} {t t' : Tree}
    (h : AlphaLet R bs t bs' t') (hRS : R.Le S) : AlphaLet S bs t bs' t' := by
  match h with
  | .nil ht => exact .nil (ht.mono hRS)
  | .none h => exact .none (h.mono (hRS.bind _ _))
  | .some hd h => exact .some (hd.mono hRS) (h.mono (hRS.bind _ _))
termination_by structural h

end

mutual

/-- Renaming does not make a tree pure. -/
theorem Alpha.isPure_eq {R : Matching} {t t' : Tree} (h : Alpha R t t') :
    t.isPure = t'.isPure := by
  match h with
  | .int n => rfl
  | .str s => rfl
  | .bool b => rfl
  | .var h => rfl
  | .assign hs ht => rfl
  | .binary op hs ht => rw [Term.isPure, Term.isPure, hs.isPure_eq, ht.isPure_eq]
  | .negate ht => rw [Term.isPure, Term.isPure, ht.isPure_eq]
  | .seq hts => rw [Term.isPure, Term.isPure, hts.allPure_eq]
  | .call hf hts => rfl
  | .function hname hparams hbody => rfl
  | .ifThen hs ht => rw [Term.isPure, Term.isPure, hs.isPure_eq, ht.isPure_eq]
  | .ifThenElse hs ht hu =>
    rw [Term.isPure, Term.isPure, hs.isPure_eq, ht.isPure_eq, hu.isPure_eq]
  | .declare h => rw [Term.isPure, Term.isPure, h.isPure_eq]
termination_by structural h

theorem AlphaAll.allPure_eq {R : Matching} {ts ts' : List Tree} (h : AlphaAll R ts ts') :
    Term.allPure ts = Term.allPure ts' := by
  match h with
  | .nil => rfl
  | .cons ht hts => rw [Term.allPure, Term.allPure, ht.isPure_eq, hts.allPure_eq]
termination_by structural h

theorem AlphaLet.isPure_eq {R : Matching} {bs bs' : List (Binding Tree)} {t t' : Tree}
    (h : AlphaLet R bs t bs' t') :
    (Term.bindingsPure bs && t.isPure) = (Term.bindingsPure bs' && t'.isPure) := by
  match h with
  | .nil ht => rw [Term.bindingsPure, ht.isPure_eq]
  | .none h => rw [Term.bindingsPure, Term.bindingsPure, h.isPure_eq]
  | .some hd h =>
    rw [Term.bindingsPure, Term.bindingsPure, Bool.and_assoc, Bool.and_assoc, hd.isPure_eq,
      h.isPure_eq]
termination_by structural h

end

theorem AlphaAll.append_singleton {R : Matching} {ts ts' : List Tree} {t t' : Tree}
    (hts : AlphaAll R ts ts') (ht : Alpha R t t') : AlphaAll R (ts ++ [t]) (ts' ++ [t']) := by
  induction ts generalizing ts' with
  | nil =>
    cases hts
    exact .cons ht .nil
  | cons u ts ih =>
    cases hts with
    | cons hu hts => exact .cons hu (ih hts)

/-! ### Free variables as names that match themselves -/

open Matching (among)

mutual

/-- **A tree is matched with itself by the names of a set just if its free variables are in it.** -/
theorem alpha_among_iff (t : Tree) {S : Name → Prop} :
    Alpha (among S) t t ↔ ∀ x ∈ t.free, S x := by
  cases t with
  | int n => exact ⟨fun _ => nofun, fun _ => .int n⟩
  | str s => exact ⟨fun _ => nofun, fun _ => .str s⟩
  | bool b => exact ⟨fun _ => nofun, fun _ => .bool b⟩
  | var x =>
    rw [Term.free, List.forall_mem_singleton]
    constructor
    · intro h
      cases h with
      | var h => exact h.2
    · exact fun h => .var ⟨rfl, h⟩
  | assign target value =>
    rw [Term.free, List.forall_mem_append, ← alpha_among_iff target, ← alpha_among_iff value]
    constructor
    · intro h
      cases h with
      | assign hs ht => exact ⟨hs, ht⟩
    · exact fun h => .assign h.1 h.2
  | binary op left right =>
    rw [Term.free, List.forall_mem_append, ← alpha_among_iff left, ← alpha_among_iff right]
    constructor
    · intro h
      cases h with
      | binary _ hs ht => exact ⟨hs, ht⟩
    · exact fun h => .binary op h.1 h.2
  | negate body =>
    rw [Term.free, ← alpha_among_iff body]
    constructor
    · intro h
      cases h with
      | negate ht => exact ht
    · exact fun h => .negate h
  | seq items =>
    rw [Term.free, ← alphaAll_among_iff items]
    constructor
    · intro h
      cases h with
      | seq hts => exact hts
    · exact fun h => .seq h
  | call callee args =>
    rw [Term.free, List.forall_mem_append, ← alpha_among_iff callee, ← alphaAll_among_iff args]
    constructor
    · intro h
      cases h with
      | call hf hts => exact ⟨hf, hts⟩
    · exact fun h => .call h.1 h.2
  | function i name? params body =>
    -- Under binders that are the same on both sides, the names of a larger set match themselves.
    have hbody : Alpha (((among S).bindAll name?.toList name?.toList).bindAll params params) body
        body ↔ ∀ x ∈ body.free, x ∈ params ∨ x ∈ name?.toList ∨ S x := by
      rw [Matching.bindAll_among, Matching.bindAll_among]
      exact alpha_among_iff body
    have hfree : (∀ x ∈ (Term.function i name? params body).free, S x) ↔
        ∀ x ∈ body.free, x ∈ params ∨ x ∈ name?.toList ∨ S x := by
      refine forall_congr' fun x => ?_
      rw [Term.mem_free_function, List.mem_append, and_imp, not_or, and_imp, or_left_comm,
        or_iff_not_imp_left, or_iff_not_imp_left]
    rw [hfree, ← hbody]
    constructor
    · intro h
      cases h with
      | function _ _ h => exact h
    · exact fun h => .function rfl rfl h
  | conditional test consequent alternative? =>
    cases alternative? with
    | none =>
      rw [Term.free, List.forall_mem_append, ← alpha_among_iff test, ← alpha_among_iff consequent]
      constructor
      · intro h
        cases h with
        | ifThen hs ht => exact ⟨hs, ht⟩
      · exact fun h => .ifThen h.1 h.2
    | some alternative =>
      rw [Term.free, List.forall_mem_append, List.forall_mem_append, ← alpha_among_iff test,
        ← alpha_among_iff consequent, ← alpha_among_iff alternative]
      constructor
      · intro h
        cases h with
        | ifThenElse hs ht hu => exact ⟨hs, ht, hu⟩
      · exact fun h => .ifThenElse h.1 h.2.1 h.2.2
  | declare bindings body =>
    rw [Term.free, ← alphaLet_among_iff bindings fun S => alpha_among_iff body]
    constructor
    · intro h
      cases h with
      | declare h => exact h
    · exact fun h => .declare h
termination_by structural t

theorem alphaAll_among_iff (ts : List Tree) {S : Name → Prop} :
    AlphaAll (among S) ts ts ↔ ∀ x ∈ Term.freeAll ts, S x := by
  cases ts with
  | nil => exact ⟨fun _ => nofun, fun _ => .nil⟩
  | cons t ts =>
    rw [Term.freeAll, List.forall_mem_append, ← alpha_among_iff t, ← alphaAll_among_iff ts]
    constructor
    · intro h
      cases h with
      | cons ht hts => exact ⟨ht, hts⟩
    · exact fun h => .cons h.1 h.2
termination_by structural ts

theorem alphaLet_among_iff (bs : List (Binding Tree)) {t : Tree}
    (ht : ∀ S, Alpha (among S) t t ↔ ∀ x ∈ t.free, S x) {S : Name → Prop} :
    AlphaLet (among S) bs t bs t ↔ ∀ x ∈ Term.freeLet bs t.free, S x := by
  cases bs with
  | nil =>
    rw [Term.freeLet, ← ht]
    constructor
    · intro h
      cases h with
      | nil h => exact h
    · exact fun h => .nil h
  | cons b bs =>
    cases b with
    | mk x d? =>
      have hrest : AlphaLet ((among S).bind x x) bs t bs t ↔
          ∀ y ∈ Term.freeLet bs t.free, y ≠ x → S y := by
        rw [Matching.bind_among, alphaLet_among_iff bs ht]
        refine forall₂_congr fun y _ => ?_
        rw [or_iff_not_imp_left]
      cases d? with
      | none =>
        have hfree : (∀ y ∈ Term.freeLet (⟨x, none⟩ :: bs) t.free, S y) ↔
            ∀ y ∈ Term.freeLet bs t.free, y ≠ x → S y := by
          refine forall_congr' fun y => ?_
          rw [Term.mem_freeLet_none, and_imp]
        rw [hfree, ← hrest]
        constructor
        · intro h
          cases h with
          | none h => exact h
        · exact fun h => .none h
      | some d =>
        have hfree : (∀ y ∈ Term.freeLet (⟨x, some d⟩ :: bs) t.free, S y) ↔
            (∀ y ∈ d.free, S y) ∧ ∀ y ∈ Term.freeLet bs t.free, y ≠ x → S y := by
          rw [← forall_and]
          refine forall_congr' fun y => ?_
          rw [Term.mem_freeLet_some, or_imp, and_imp]
        rw [hfree, ← hrest, ← alpha_among_iff d]
        constructor
        · intro h
          cases h with
          | some hd h => exact ⟨hd, h⟩
        · exact fun h => .some h.1 h.2
termination_by structural bs

end

/-! ### Trees without generated names -/

/-- No name of a tree begins as generated names do. -/
def Ordinary (t : Tree) : Prop :=
  Throughout (fun s => ∀ x ∈ s.ownNames, ¬ Symbols.Generated x) t

instance (t : Tree) : Decidable (Ordinary t) :=
  inferInstanceAs (Decidable (∀ s ∈ t.subterms, ∀ x ∈ s.ownNames, ¬ Symbols.Generated x))

namespace Term

variable {x : Name}

mutual

/-- A free variable of a tree stands somewhere in it. -/
theorem var_mem_parts (t : Tree) (h : x ∈ t.free) : var x ∈ t.parts true := by
  cases t with
  | int n | str s | bool b => cases h
  | var y =>
    cases List.mem_singleton.mp h
    exact List.mem_cons_self
  | assign target value =>
    refine List.mem_cons_of_mem _ (List.mem_append.mpr ?_)
    exact (List.mem_append.mp h).imp (var_mem_parts target) (var_mem_parts value)
  | binary op left right =>
    refine List.mem_cons_of_mem _ (List.mem_append.mpr ?_)
    exact (List.mem_append.mp h).imp (var_mem_parts left) (var_mem_parts right)
  | negate body => exact List.mem_cons_of_mem _ (var_mem_parts body h)
  | seq items => exact List.mem_cons_of_mem _ (var_mem_partsAll items h)
  | call callee args =>
    refine List.mem_cons_of_mem _ (List.mem_append.mpr ?_)
    exact (List.mem_append.mp h).imp (var_mem_parts callee) (var_mem_partsAll args)
  | function i name? params body =>
    exact List.mem_cons_of_mem _ (var_mem_parts body (mem_free_function.mp h).1)
  | conditional test consequent alternative? =>
    cases alternative? with
    | none =>
      refine List.mem_cons_of_mem _ (List.mem_append.mpr ?_)
      exact (List.mem_append.mp h).imp (var_mem_parts test) (var_mem_parts consequent)
    | some alternative =>
      refine List.mem_cons_of_mem _ (List.mem_append.mpr ?_)
      refine (List.mem_append.mp h).imp (var_mem_parts test) fun h => List.mem_append.mpr ?_
      exact (List.mem_append.mp h).imp (var_mem_parts consequent) (var_mem_parts alternative)
  | declare bindings body =>
    refine List.mem_cons_of_mem _ (List.mem_append.mpr ?_)
    exact (var_mem_partsBindings bindings h).imp id (var_mem_parts body)
termination_by structural t

theorem var_mem_partsAll (ts : List Tree) (h : x ∈ freeAll ts) : var x ∈ partsAll true ts := by
  cases ts with
  | nil => cases h
  | cons t ts =>
    refine List.mem_append.mpr ?_
    exact (List.mem_append.mp h).imp (var_mem_parts t) (var_mem_partsAll ts)
termination_by structural ts

theorem var_mem_partsBindings (bs : List (Binding Tree)) {inner : List Name}
    (h : x ∈ freeLet bs inner) : var x ∈ partsBindings true bs ∨ x ∈ inner := by
  cases bs with
  | nil => exact .inr h
  | cons b bs =>
    cases b with
    | mk y d? =>
      cases d? with
      | none => exact var_mem_partsBindings bs (mem_freeLet_none.mp h).1
      | some d =>
        rcases mem_freeLet_some.mp h with h | ⟨h, -⟩
        · exact .inl (List.mem_append_left _ (var_mem_parts d h))
        · exact (var_mem_partsBindings bs h).imp (List.mem_append_right _) id
termination_by structural bs

end

end Term

theorem Ordinary.not_generated {t : Tree} (ht : Ordinary t) {x : Name} (h : x ∈ t.free) :
    ¬ Symbols.Generated x :=
  ht _ (t.var_mem_parts h) x List.mem_cons_self

end LetLambda
