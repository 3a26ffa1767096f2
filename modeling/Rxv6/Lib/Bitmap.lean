import Mathlib.Tactic

namespace Rxv6.Lib.Bitmap

open List

/-- The bit at `i`; a bit outside the map reads as clear. -/
def test (b : List Bool) (i : Nat) : Bool := b[i]?.getD false

/-- First fit: the lowest clear bit at or above `lo`. -/
def firstClear (b : List Bool) (lo : Nat) : Option Nat :=
  (List.range b.length).find? fun i ↦ lo ≤ i && !test b i

variable {b : List Bool} {lo i j : Nat} {v : Bool}

theorem lt_length_of_test (h : test b i = true) : i < b.length := by
  by_contra hge
  simp [test, getElem?_eq_none (Nat.le_of_not_lt hge)] at h

theorem firstClear_some (h : firstClear b lo = some i) :
    i < b.length ∧ lo ≤ i ∧ test b i = false := by
  have hmem := mem_of_find?_eq_some h
  have hp := find?_some h
  simp only [Bool.and_eq_true, decide_eq_true_eq, Bool.not_eq_true'] at hp
  exact ⟨mem_range.mp hmem, hp.1, hp.2⟩

theorem firstClear_isSome (hlo : lo ≤ i) (hi : i < b.length) (ht : test b i = false) :
    (firstClear b lo).isSome :=
  find?_isSome.mpr ⟨i, mem_range.mpr hi, by simp [hlo, ht]⟩

theorem test_set_self (hi : i < b.length) : test (b.set i v) i = v := by
  simp [test, hi]

theorem test_set_ne (h : i ≠ j) : test (b.set i v) j = test b j := by
  simp [test, getElem?_set_ne h]

/-- How many bits are clear at or above `lo`. -/
def clear (b : List Bool) (lo : Nat) : Nat :=
  ((Finset.range b.length).filter fun i ↦ lo ≤ i ∧ test b i = false).card

theorem firstClear_none (h : firstClear b lo = none) : clear b lo = 0 := by
  rw [clear, Finset.card_eq_zero, Finset.filter_eq_empty_iff]
  rintro i hi ⟨hlo, ht⟩
  have := firstClear_isSome hlo (Finset.mem_range.mp hi) ht
  rw [h] at this
  cases this

theorem clear_set (h : firstClear b lo = some i) : clear b lo = clear (b.set i true) lo + 1 := by
  obtain ⟨hlt, hlo, ht⟩ := firstClear_some h
  have herase : ((Finset.range (b.set i true).length).filter fun j ↦ lo ≤ j ∧ test (b.set i true) j = false) =
      ((Finset.range b.length).filter fun j ↦ lo ≤ j ∧ test b j = false).erase i := by
    ext j
    simp only [Finset.mem_filter]
    by_cases hj : j = i
    · subst hj
      simp [test_set_self hlt]
    · rw [test_set_ne (Ne.symm hj)]
      simp [hj]
  rw [clear, clear, herase, Finset.card_erase_add_one]
  simp [hlt, hlo, ht]

end Rxv6.Lib.Bitmap
