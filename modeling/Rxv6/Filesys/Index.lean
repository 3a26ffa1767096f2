import Rxv6.Lib.BlockTree
import Rxv6.Filesys.Inode

namespace Rxv6.Filesys

open Lib.BlockTree Sector List

/-- The positions of the three-level index of an inode. Slots 0 to 11 of the inode lead to data
blocks, slot 12 to the indirect block, slot 13 to the doubly indirect block. -/
def IsPos : List Nat → Prop
  | [i] => i < 14
  | [i, j] => i < 128 ∧ (j = 12 ∨ j = 13)
  | [i, j, k] => i < 128 ∧ j < 128 ∧ k = 13
  | _ => False

theorem IsPos.above {i : Nat} {p : List Nat} (h : IsPos (i :: p)) : p = [] ∨ IsPos p := by
  match p with
  | [] => exact .inl rfl
  | [j] =>
    right
    simp only [IsPos] at h ⊢
    omega
  | [j, k] =>
    right
    simp only [IsPos] at h ⊢
    omega
  | j :: k :: l :: p => exact h.elim

def fileShape : Shape := ⟨{u | IsPos u}, IsPos.above⟩

/-- The position of the address of block `b` of a file. The index has room for
`12 + 128 + 128 * 128 = 16524` blocks. -/
def blockPos (b : Nat) : List Nat :=
  if b < 12 then [b]
  else if b < 140 then [b - 12, 12]
  else [(b - 140) % 128, (b - 140) / 128, 13]

variable {u : List Nat} {b c i k : Nat}

theorem mem_fileShape : u ∈ fileShape.pos ↔ IsPos u := Iff.rfl

theorem index_cases (h : fileShape.Index u) :
    u = [12] ∨ u = [13] ∨ ∃ j < 128, u = [j, 13] := by
  obtain ⟨hu, i, hi⟩ := h
  match u with
  | [] => exact absurd hu id
  | [j] =>
    rcases hi.2 with rfl | rfl
    · exact .inl rfl
    · exact .inr (.inl rfl)
  | [j, k] =>
    obtain ⟨-, hj, rfl⟩ := hi
    exact .inr (.inr ⟨j, hj, rfl⟩)
  | _ :: _ :: _ :: _ => exact hi.elim

theorem isPos_blockPos (hb : b < 16524) : IsPos (blockPos b) := by
  unfold blockPos
  split
  · simp only [IsPos]
    omega
  · split
    · simp only [IsPos, true_or, and_true]
      omega
    · simp only [IsPos, and_true]
      omega

theorem blockPos_inj (h : blockPos b = blockPos c) : b = c := by
  unfold blockPos at h
  split at h <;> split at h <;> try split at h
  all_goals try split at h
  all_goals simp only [List.cons.injEq, reduceCtorEq, and_false] at h
  all_goals omega

theorem blockPos_ne_index (h : fileShape.Index u) : blockPos b ≠ u := by
  intro he
  unfold blockPos at he
  rcases index_cases h with rfl | rfl | ⟨j, -, rfl⟩ <;> split at he <;> try split at he
  all_goals simp only [List.cons.injEq, reduceCtorEq, and_false] at he
  all_goals omega

/-- The byte at offset `k` of a file. Unallocated blocks read as zeros. -/
def fileByte (L : Nat → Sector) (d : InodeDisk) (k : Nat) : UInt8 :=
  if addr word L d (blockPos (k / 512)) = 0 then 0
  else byte (L (addr word L d (blockPos (k / 512)))) (k % 512)

variable {L L' : Nat → Sector} {d d' : InodeDisk} {st : State} {G : Op → State → Prop}
variable {J : State → Prop}

theorem word_of_ge {s : Sector} (hi : 128 ≤ i) : word s i = 0 := by
  have hb : ∀ k, 512 ≤ k → byte s k = 0 := fun k hk ↦ dif_neg (by omega)
  simp only [word, hb (4 * i) (by omega), hb (4 * i + 1) (by omega), hb (4 * i + 2) (by omega),
    hb (4 * i + 3) (by omega)]
  rfl

theorem addr_of_ge (hb : 16524 ≤ b) : addr word L d (blockPos b) = 0 := by
  rw [blockPos, if_neg (by omega), if_neg (by omega)]
  have hj : addr word L d [(b - 140) / 128, 13] = 0 := by
    rw [addr_cons (cons_ne_nil _ _), word_of_ge (by omega), ite_self]
  rw [addr_cons (cons_ne_nil _ _), if_pos hj]

theorem wp_getBlockSectorDisk {Q : Option Nat → State → Prop} (hJ : J st)
    (hQ : Q (nonzero (addr word st.disk d (blockPos b))) st) :
    wp G J (getBlockSectorDisk d b) Q st := by
  unfold getBlockSectorDisk
  unfold blockPos at hQ
  split
  · next hb =>
    rw [if_pos hb] at hQ
    exact hQ
  · next hb =>
    rw [if_neg hb] at hQ
    split
    · next hb' =>
      rw [if_pos hb', addr_cons (cons_ne_nil _ _), addr_singleton] at hQ
      split
      · next h0 =>
        rw [if_pos h0] at hQ
        exact hQ
      · next h0 =>
        rw [if_neg h0] at hQ
        exact wp_bind.mpr (wp_bread hJ hQ)
    · next hb' =>
      rw [if_neg hb', addr_cons (cons_ne_nil _ _), addr_cons (cons_ne_nil _ _), addr_singleton] at hQ
      split
      · next h0 =>
        rw [if_pos h0] at hQ
        exact hQ
      · next h0 =>
        rw [if_neg h0] at hQ
        refine wp_bind.mpr (wp_bread hJ ?_)
        split
        · next h1 =>
          rw [if_pos h1] at hQ
          exact hQ
        · next h1 =>
          rw [if_neg h1] at hQ
          exact wp_bind.mpr (wp_bread hJ hQ)

theorem nonzero_eq_none {x : Nat} : nonzero x = none ↔ x = 0 := by
  unfold nonzero
  split <;> simp_all

theorem nonzero_eq_some {x y : Nat} : nonzero x = some y ↔ x = y ∧ y ≠ 0 := by
  unfold nonzero
  split
  · next h =>
    refine ⟨fun h' ↦ (by cases h'), fun h' ↦ ?_⟩
    exact absurd (h'.1 ▸ h) h'.2
  · next h =>
    refine ⟨fun h' ↦ ?_, fun h' ↦ by rw [h'.1]⟩
    cases h'
    exact ⟨rfl, h⟩

theorem fileByte_of_ge (hk : 16524 ≤ k / 512) : fileByte L d k = 0 := if_pos (addr_of_ge hk)

theorem fileByte_congr
    (ha : addr word L' d' (blockPos (k / 512)) = addr word L d (blockPos (k / 512)))
    (hL : addr word L d (blockPos (k / 512)) ≠ 0 →
      L' (addr word L d (blockPos (k / 512))) = L (addr word L d (blockPos (k / 512)))) :
    fileByte L' d' k = fileByte L d k := by
  unfold fileByte
  rw [ha]
  split
  · rfl
  · next h0 => rw [hL h0]

end Rxv6.Filesys
