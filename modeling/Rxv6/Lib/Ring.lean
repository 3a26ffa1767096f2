import Mathlib.Tactic

namespace Rxv6.Lib.Ring

open Function List

variable {α : Type*}

/-- Store a list in consecutive slots of a ring of `cap` slots, from the free-running
position `pos` on. -/
def store (cap : Nat) (buf : Nat → α) (pos : Nat) : List α → Nat → α
  | [] => buf
  | a :: l => store cap (update buf (pos % cap) a) (pos + 1) l

/-- The `n` elements from the free-running position `pos` on. -/
def load (cap : Nat) (buf : Nat → α) (pos n : Nat) : List α :=
  (List.range n).map fun i ↦ buf ((pos + i) % cap)

/-- The ring holds the queue `q`, its first element at position `pos`. -/
def Holds (cap : Nat) (buf : Nat → α) (pos : Nat) (q : List α) : Prop :=
  ∀ i (h : i < q.length), buf ((pos + i) % cap) = q[i]

variable {cap pos n : Nat} {buf : Nat → α} {q l : List α}

theorem mod_ne_of_lt {i j : Nat} (hij : i < j) (hj : j < i + cap) : i % cap ≠ j % cap := by
  intro h
  have hd : cap ∣ j - i := (Nat.modEq_iff_dvd' hij.le).mp h
  have hle := Nat.le_of_dvd (by omega) hd
  omega

theorem store_of_ne {k : Nat} (h : ∀ i < l.length, (pos + i) % cap ≠ k) :
    store cap buf pos l k = buf k := by
  induction l generalizing buf pos with
  | nil => rfl
  | cons a l ih =>
    rw [store, ih]
    · have h0 := h 0 (by simp)
      exact update_of_ne (Ne.symm h0) _ _
    · intro i hi
      have hs := h (i + 1) (by simpa using hi)
      rwa [show pos + (i + 1) = pos + 1 + i by omega] at hs

theorem store_self (hl : l.length ≤ cap) {i : Nat} (h : i < l.length) :
    store cap buf pos l ((pos + i) % cap) = l[i] := by
  induction l generalizing buf pos i with
  | nil => exact absurd h (by simp)
  | cons a l ih =>
    simp only [length_cons] at hl h
    cases i with
    | zero =>
      rw [store, store_of_ne]
      · simp
      · intro j hj
        exact (mod_ne_of_lt (by omega) (by omega)).symm
    | succ i =>
      rw [show pos + (i + 1) = pos + 1 + i by omega]
      exact ih (by omega) (by omega)

section

variable (h : Holds cap buf pos q)
include h

theorem Holds.store (hfit : q.length + l.length ≤ cap) :
    Holds cap (Ring.store cap buf (pos + q.length) l) pos (q ++ l) := by
  intro i hi
  rw [length_append] at hi
  by_cases hq : i < q.length
  · rw [getElem_append_left hq, ← h i hq]
    refine store_of_ne fun j hj ↦ ?_
    exact (mod_ne_of_lt (by omega) (by omega)).symm
  · rw [getElem_append_right (by omega)]
    have hpos : pos + i = pos + q.length + (i - q.length) := by omega
    rw [hpos]
    exact store_self (by omega) (by omega)

theorem Holds.load (hn : n ≤ q.length) :
    Ring.load cap buf pos n = q.take n := by
  refine ext_getElem (by simp [Ring.load, hn]) fun i hi hi' ↦ ?_
  simp only [Ring.load, length_map, length_range] at hi
  simp only [Ring.load, getElem_map, getElem_range, getElem_take]
  exact h i (by omega)

theorem Holds.drop (hn : n ≤ q.length) :
    Holds cap buf (pos + n) (q.drop n) := by
  intro i hi
  rw [length_drop] at hi
  have hq := h (n + i) (by omega)
  rw [getElem_drop, ← hq, Nat.add_assoc]

end

end Rxv6.Lib.Ring
