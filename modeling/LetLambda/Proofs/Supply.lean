import LetLambda.Numeral
import LetLambda.Proofs.Hygiene
import Mathlib.Data.List.DropRight

/-!
# The life of a supply of names

A supply is used step after step: a name is drawn from it, or a tree is transformed with it. A step
puts names into the world, the one that it draws or the generated parameters of the tree that it
gives. It stamps them with numbers that the supply gives out in this step and in no other (`Stamps`),
and a name shows its number (`number_nameOf`). So no name is put into the world twice.
-/

namespace LetLambda.Symbols

/-! ### The number of a name -/

/-- The number in which a name ends. -/
def number (x : Name) : Nat := Numeral.value (x.toList.rtakeWhile Numeral.isDigit)

/-- A stem that does not run into a number after it: its last character is no digit. -/
def Separable (stem : String) : Prop :=
  stem.toList.getLast?.all (fun c => !Numeral.isDigit c) = true

instance (stem : String) : Decidable (Separable stem) := inferInstanceAs (Decidable (_ = true))

theorem separable_of_mem_stems {stem : String} (h : stem ∈ stems) : Separable stem := by
  rcases h with _ | ⟨_, _ | ⟨_, _ | ⟨_, h⟩⟩⟩
  · decide
  · decide
  · decide
  · cases h

theorem rtakeWhile_append {p : Char → Bool} {u : List Char}
    (hu : u.getLast?.all (fun c => !p c) = true) (v : List Char) (hv : ∀ c ∈ v, p c = true) :
    (u ++ v).rtakeWhile p = v := by
  induction v using List.reverseRecOn with
  | nil =>
    rw [List.append_nil]
    refine List.rtakeWhile_eq_nil_iff.mpr fun hne => ?_
    rw [List.getLast?_eq_some_getLast hne] at hu
    exact Bool.eq_false_iff.mp ((Bool.not_eq_true' _).mp hu)
  | append_singleton v c ih =>
    rw [← List.append_assoc, List.rtakeWhile_concat_pos _ _ _ (hv c (by simp))]
    rw [ih fun d hd => hv d (List.mem_append_left _ hd)]

/-- A generated name shows its number. -/
theorem number_nameOf {stem : String} (h : Separable stem) (n : Nat) :
    number (nameOf stem n) = n := by
  have hlast : (sign.toList ++ stem.toList).getLast?.all (fun c => !Numeral.isDigit c) = true := by
    rw [List.getLast?_append]
    unfold Separable at h
    cases hstem : stem.toList.getLast? with
    | none => decide
    | some c => rwa [hstem] at h
  have hdigits : ∀ c ∈ Nat.toDigits 10 n, Numeral.isDigit c = true := fun c hc =>
    Nat.isDigit_of_mem_toDigits (by decide) (by decide) hc
  rw [number, toList_nameOf, ← List.append_assoc, rtakeWhile_append hlast _ hdigits]
  exact Nat.ofDigitChars_ten_toDigits

/-! ### One step -/

/-- A use of a supply. -/
inductive Use where
  /-- A name is drawn. -/
  | fresh (stem : String)
  /-- A tree is transformed, and its value goes to `k`. -/
  | transform (t : Tree) (k : Tree → Tree)

namespace Use

/-- The names that a use puts into the world, each as often as it does, and the supply after it. -/
def perform : Use → Symbols → List Name × Symbols
  | fresh stem, s => ([(s.fresh stem).1], (s.fresh stem).2)
  | transform t k, s =>
    match t.transformWith s k with
    | (.ok m, s') => (m.binders, s')
    | (.error _, s') => ([], s')

/-- A stem that can be told from a number, or a tree without generated names. What the value of the
tree goes to may not use the generated parameters of the value again, nor add to them. -/
def Proper : Use → Prop
  | fresh stem => Separable stem
  | transform t k => (∀ u ∈ t.subterms, ∀ x ∈ u.ownNames, ¬ Generated x) ∧
    ∀ v b, (k v).binders.count b ≤ v.binders.count b

end Use

/-- On the way from `s` to `s'`, the names are put into the world once each, with numbers that are
given out on this way. -/
structure Stamps (s s' : Symbols) (names : List Name) : Prop where
  le : s.issued ≤ s'.issued
  nodup : names.Nodup
  within : ∀ x ∈ names, s.issued < number x ∧ number x ≤ s'.issued

theorem Stamps.nil {s s' : Symbols} (h : s.issued ≤ s'.issued) : Stamps s s' [] :=
  ⟨h, List.nodup_nil, List.forall_mem_nil _⟩

/-- What comes later has larger numbers. -/
theorem Stamps.append {s s₁ s₂ : Symbols} {names names' : List Name} (h : Stamps s s₁ names)
    (h' : Stamps s₁ s₂ names') : Stamps s s₂ (names ++ names') := by
  refine ⟨Nat.le_trans h.le h'.le, List.nodup_append'.mpr ⟨h.nodup, h'.nodup, ?_⟩, ?_⟩
  · intro x hx hx'
    exact Nat.lt_irrefl _ (Nat.lt_of_lt_of_le (h'.within x hx').1 (h.within x hx).2)
  · intro x hx
    rcases List.mem_append.mp hx with hx | hx
    · exact ⟨(h.within x hx).1, Nat.le_trans (h.within x hx).2 h'.le⟩
    · exact ⟨Nat.lt_of_le_of_lt h.le (h'.within x hx).1, (h'.within x hx).2⟩

theorem number_of_mem_drawn {s s' : Symbols} {x : Name} (hx : x ∈ s.drawn s') :
    s.issued < number x ∧ number x ≤ s'.issued := by
  obtain ⟨n, hn, hx⟩ := List.mem_flatMap.mp hx
  obtain ⟨stem, hstem, rfl⟩ := List.mem_map.mp hx
  rw [number_nameOf (separable_of_mem_stems hstem)]
  have hrange := List.mem_range'_1.mp hn
  omega

theorem Spends.stamps {s s' : Symbols} {used : List Name} (h : Spends s s' [] used) :
    Stamps s s' used :=
  ⟨h.le, h.nodup, fun _ hx => number_of_mem_drawn (h.mem_drawn hx)⟩

/-- What a step puts into the world, it stamps. A transform that fails leaves a gap in the numbers. -/
theorem Use.stamps_perform {use : Use} (h : use.Proper) (s : Symbols) :
    Stamps s (use.perform s).2 (use.perform s).1 := by
  cases use with
  | fresh stem =>
    refine ⟨Nat.le_succ _, List.nodup_singleton _, List.forall_mem_singleton.mpr ?_⟩
    change s.issued < number (nameOf stem (s.issued + 1)) ∧
      number (nameOf stem (s.issued + 1)) ≤ s.issued + 1
    rw [number_nameOf h]
    exact ⟨Nat.lt_succ_self _, Nat.le_refl _⟩
  | transform t k =>
    have hplain : Throughout (PlainUnless fun _ => True) t := fun u hu =>
      ⟨h.1 u hu, fun _ _ => trivial⟩
    have haccounts := Tree.accounts_transformWith hplain (fun _ _ => trivial) h.2 s
    rw [perform]
    obtain ⟨⟨r, s'⟩, hr⟩ : ∃ p, t.transformWith s k = p := ⟨_, rfl⟩
    rw [hr] at haccounts ⊢
    cases r with
    | error e => exact .nil haccounts.1
    | ok m => exact haccounts.stamps

/-! ### Step after step -/

namespace Use

/-- The supply after some uses of it. -/
def after (s : Symbols) : List Use → Symbols
  | [] => s
  | use :: uses => after (use.perform s).2 uses

/-- The names that uses of a supply put into the world, in this order. -/
def names (s : Symbols) : List Use → List Name
  | [] => []
  | use :: uses => (use.perform s).1 ++ names (use.perform s).2 uses

theorem after_append (s : Symbols) (uses uses' : List Use) :
    after s (uses ++ uses') = after (after s uses) uses' := by
  induction uses generalizing s with
  | nil => rfl
  | cons use uses ih => exact ih _

/-- What steps put into the world, they stamp. -/
theorem stamps_names {uses : List Use} (h : ∀ use ∈ uses, use.Proper) (s : Symbols) :
    Stamps s (after s uses) (names s uses) := by
  induction uses generalizing s with
  | nil => exact .nil (Nat.le_refl _)
  | cons use uses ih =>
    obtain ⟨huse, huses⟩ := List.forall_mem_cons.mp h
    exact (stamps_perform huse s).append (ih huses _)

end Use

/-- **Generated names never repeat in the life of a supply.** Whatever steps are taken, transforms
that fail among them, the names drawn and the generated parameters of all trees that were given are
pairwise different. The number of each was given out in the step that put it into the world. -/
theorem names_never_repeat (s : Symbols) (uses : List Use) (h : ∀ use ∈ uses, use.Proper) :
    (Use.names s uses).Nodup ∧
      ∀ before use later, uses = before ++ use :: later →
        ∀ x ∈ (use.perform (Use.after s before)).1,
          (Use.after s before).issued < number x ∧
            number x ≤ (Use.after s (before ++ [use])).issued := by
  refine ⟨(Use.stamps_names h s).nodup, ?_⟩
  rintro before use later rfl x hx
  have huse : use.Proper := h use (List.mem_append_right _ List.mem_cons_self)
  rw [Use.after_append]
  exact (Use.stamps_perform huse _).within x hx

/-- A name without a stem, a transform that fails after it has drawn names, a transform that does not,
and a name with the stem of a parameter. -/
def errands : List Use :=
  [.fresh "",
    .transform (.seq [.call (.var "f") [.int 1], .assign (.int 1) (.int 2)]) id,
    .transform (.function () (some "g") ["x"]
      (.conditional (.call (.var "x") []) (.call (.var "g") [.var "x"]) none)) id,
    .fresh "K"]

theorem names_never_repeat_errands :
    (∀ use ∈ errands, use.Proper) ∧
      Use.names .new errands = ["β_1", "β_K3", "β_R4", "β_I5", "β_R7", "β_R6", "β_K8"] ∧
      (Use.names .new errands).Nodup ∧
      ∀ before use later, errands = before ++ use :: later →
        ∀ x ∈ (use.perform (Use.after .new before)).1,
          (Use.after .new before).issued < number x ∧
            number x ≤ (Use.after .new (before ++ [use])).issued := by
  have hproper : ∀ use ∈ errands, use.Proper := by
    have hfails : Use.Proper (.transform
        (.seq [.call (.var "f") [.int 1], .assign (.int 1) (.int 2)]) id) :=
      ⟨by decide +kernel, fun v b => Nat.le_refl _⟩
    have hgives : Use.Proper (.transform (.function () (some "g") ["x"]
        (.conditional (.call (.var "x") []) (.call (.var "g") [.var "x"]) none)) id) :=
      ⟨by decide +kernel, fun v b => Nat.le_refl _⟩
    have hempty : Separable "" := by decide
    have hstem : Separable "K" := by decide
    exact List.forall_mem_cons.mpr ⟨hempty, List.forall_mem_cons.mpr ⟨hfails,
      List.forall_mem_cons.mpr ⟨hgives, List.forall_mem_singleton.mpr hstem⟩⟩⟩
  exact ⟨hproper, by decide +kernel, names_never_repeat .new errands hproper⟩

end LetLambda.Symbols
