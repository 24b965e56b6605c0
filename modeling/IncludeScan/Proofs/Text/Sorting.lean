import IncludeScan.Text.Units
import Mathlib.Data.List.Nodup
import Mathlib.Data.Nat.Basic

/-!
# Proofs/Text/Sorting — names are sorted in one way only

The code units of a text determine it: the first unit of a pair is never a character of its own
(`units_injective`).  So the order by code units is a linear order, and lists that hold the same
names are sorted into the same list (`sortNames_eq_of_perm`).
-/

namespace IncludeScan.Text

/-! ## The units of a text determine it -/

/-- No character is the first unit of a pair. -/
theorem toNat_not_surrogate (c : Char) : c.toNat < 0xD800 ∨ 0xDFFF < c.toNat := by
  rcases c.valid with h | ⟨h, -⟩
  · exact Or.inl h
  · exact Or.inr h

theorem toNat_lt (c : Char) : c.toNat < 0x110000 := by
  rcases c.valid with h | ⟨-, h⟩
  · exact Nat.lt_trans h (by decide)
  · exact h

/-- **The first character of a text is told by the units.** -/
theorem eq_of_charUnits_append {c d : Char} {us vs : List Nat}
    (h : charUnits c ++ us = charUnits d ++ vs) : c = d ∧ us = vs := by
  have hc := toNat_not_surrogate c
  have hd := toNat_not_surrogate d
  have hc' := toNat_lt c
  have hd' := toNat_lt d
  unfold charUnits at h
  split at h <;> split at h
  · obtain ⟨hunit, hrest⟩ := List.cons.inj h
    exact ⟨Char.toNat_inj.1 hunit, hrest⟩
  · obtain ⟨hunit, -⟩ := List.cons.inj h
    omega
  · obtain ⟨hunit, -⟩ := List.cons.inj h
    omega
  · obtain ⟨hfirst, hrest⟩ := List.cons.inj h
    obtain ⟨hsecond, hrest⟩ := List.cons.inj hrest
    exact ⟨Char.toNat_inj.1 (by omega), hrest⟩

theorem charUnits_ne_nil (c : Char) : charUnits c ≠ [] := by
  unfold charUnits
  split <;> exact List.cons_ne_nil _ _

/-- **Texts with the same units are the same.** -/
theorem units_injective : Function.Injective units := by
  intro a b h
  rw [← String.toList_inj]
  unfold units at h
  generalize a.toList = as, b.toList = bs at h ⊢
  induction as generalizing bs with
  | nil =>
    rcases bs with - | ⟨d, bs⟩
    · rfl
    · simp [charUnits_ne_nil] at h
  | cons c as ih =>
    rcases bs with - | ⟨d, bs⟩
    · simp [charUnits_ne_nil] at h
    · obtain ⟨rfl, hrest⟩ := eq_of_charUnits_append h
      rw [ih bs hrest]

/-! ## The order of names -/

theorem unitsLE_iff {a b : String} : unitsLE a b = true ↔ ¬ units b < units a := by
  rw [unitsLE, unitsLT, Bool.not_eq_true', decide_eq_false_iff_not]

theorem unitsLE_trans (a b c : String) (h : unitsLE a b = true) (h' : unitsLE b c = true) :
    unitsLE a c = true := by
  rw [unitsLE_iff, List.not_lt] at *
  exact List.le_trans h h'

theorem unitsLE_total (a b : String) : (unitsLE a b || unitsLE b a) = true := by
  rw [Bool.or_eq_true, unitsLE_iff, unitsLE_iff, List.not_lt, List.not_lt]
  exact List.le_total _ _

theorem unitsLE_antisymm {a b : String} (h : unitsLE a b = true) (h' : unitsLE b a = true) :
    a = b := by
  rw [unitsLE_iff, List.not_lt] at *
  exact units_injective (List.le_antisymm h h')

/-- **What is sorted by name is in the order of the names.** -/
theorem pairwise_mergeSort_units {α : Type} (name : α → String) (entries : List α) :
    (entries.mergeSort fun a b => unitsLE (name a) (name b)).Pairwise
      fun a b => unitsLE (name a) (name b) = true :=
  List.pairwise_mergeSort (fun a b c => unitsLE_trans (name a) (name b) (name c))
    (fun a b => unitsLE_total (name a) (name b)) entries

theorem sortNames_perm (names : List String) : (sortNames names).Perm names :=
  List.mergeSort_perm names _

/-- **The order in which names are given does not matter.** -/
theorem sortNames_eq_of_perm {names others : List String} (h : names.Perm others) :
    sortNames names = sortNames others :=
  List.Perm.eq_of_pairwise (fun _ _ _ _ h h' => unitsLE_antisymm h h')
    (pairwise_mergeSort_units id names) (pairwise_mergeSort_units id others)
    ((sortNames_perm names).trans (h.trans (sortNames_perm others).symm))

end IncludeScan.Text
