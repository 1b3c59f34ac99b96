import LetLambda.Cps.Symbols

/-!
# Generated names

A generated name is told from the names of a source text by how it begins, and two of them are the
same only if they have the same stem and the same number.
-/

namespace LetLambda.Symbols

/-- A name that begins as generated names do. -/
def Generated (x : Name) : Prop := sign.toList <+: x.toList

instance (x : Name) : Decidable (Generated x) := inferInstanceAs (Decidable (_ <+: _))

theorem toList_nameOf (stem : String) (n : Nat) :
    (nameOf stem n).toList = sign.toList ++ (stem.toList ++ Nat.toDigits 10 n) := by
  simp only [nameOf, String.toList_append, List.append_assoc, Nat.toString_eq_ofList_toDigits,
    String.toList_ofList]

theorem generated_nameOf (stem : String) (n : Nat) : Generated (nameOf stem n) := by
  unfold Generated
  rw [toList_nameOf]
  exact List.prefix_append _ _

theorem nameOf_ne_empty (stem : String) (n : Nat) : nameOf stem n ≠ "" := by
  intro h
  have hs : sign.toList = [] := by
    have h' := congrArg String.toList h
    rw [toList_nameOf] at h'
    exact List.append_eq_nil_iff.mp h' |>.1
  exact absurd hs (by decide)

/-- Generated names with stems of one length differ in their stems or in their numbers. -/
theorem nameOf_inj {s t : String} (hlen : s.toList.length = t.toList.length) {m n : Nat}
    (h : nameOf s m = nameOf t n) : s = t ∧ m = n := by
  have h' := congrArg String.toList h
  rw [toList_nameOf, toList_nameOf] at h'
  obtain ⟨hs, hd⟩ := List.append_inj (List.append_cancel_left h') hlen
  refine ⟨String.toList_inj.mp hs, ?_⟩
  calc
    m = Nat.ofDigitChars 10 (Nat.toDigits 10 m) 0 := Nat.ofDigitChars_ten_toDigits.symm
    _ = Nat.ofDigitChars 10 (Nat.toDigits 10 n) 0 := by rw [hd]
    _ = n := Nat.ofDigitChars_ten_toDigits

end LetLambda.Symbols
