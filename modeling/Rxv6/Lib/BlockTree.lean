import Mathlib.Data.Set.Basic

namespace Rxv6.Lib.BlockTree

open Function List

variable {B : Type}

/-- The address stored at a position of the pointer tree below the root block `d`. A
position lists the slots from the position up to the root, address `0` means no block. -/
def addr (ptr : B → Nat → Nat) (L : Nat → B) (d : B) : List Nat → Nat
  | [] => 0
  | [i] => ptr d i
  | i :: j :: p =>
    if addr ptr L d (j :: p) = 0 then 0 else ptr (L (addr ptr L d (j :: p))) i

structure Shape where
  pos : Set (List Nat)
  above : ∀ {i p}, i :: p ∈ pos → p = [] ∨ p ∈ pos

def Shape.Index (S : Shape) (p : List Nat) : Prop := p ∈ S.pos ∧ ∃ i, i :: p ∈ S.pos

variable {ptr : B → Nat → Nat} {L L' : Nat → B} {d d' : B} {S : Shape}
variable {i x y : Nat} {p q u v : List Nat}

theorem addr_singleton : addr ptr L d [i] = ptr d i := rfl

theorem addr_cons (hp : p ≠ []) :
    addr ptr L d (i :: p) =
      if addr ptr L d p = 0 then 0 else ptr (L (addr ptr L d p)) i := by
  cases p with
  | nil => exact absurd rfl hp
  | cons j p => rfl

theorem addr_cons_of_eq (hp : addr ptr L d p = y) (hy : y ≠ 0) :
    addr ptr L d (i :: p) = ptr (L y) i := by
  have hne : p ≠ [] := by
    rintro rfl
    exact hy hp.symm
  rw [addr_cons hne, hp, if_neg hy]

theorem addr_congr (hu : u ∈ S.pos)
    (h : ∀ q, S.Index q → addr ptr L d q ≠ 0 → ptr (L' (addr ptr L d q)) = ptr (L (addr ptr L d q))) :
    addr ptr L' d u = addr ptr L d u := by
  induction u with
  | nil => rfl
  | cons k q ih =>
    rcases S.above hu with rfl | hq
    · rfl
    · cases q with
      | nil => rfl
      | cons j q =>
        have hq' := ih hq
        simp only [addr, hq']
        split
        · rfl
        · next h0 => rw [h _ ⟨hq, k, hu⟩ h0]

theorem addr_update (hu : u ∈ S.pos) (b : B)
    (h : ∀ q, S.Index q → addr ptr L d q ≠ y) :
    addr ptr (update L y b) d u = addr ptr L d u :=
  addr_congr hu fun q hq _ ↦ by rw [update_of_ne (h q hq)]

theorem addr_link_root (hu : u ∈ S.pos) (hslot : ∀ j, ptr d' j = if j = i then x else ptr d j)
    (hfree : ptr d i = 0) (hempty : ∀ j, [j, i] ∈ S.pos → ptr (L x) j = 0) :
    addr ptr L d' u = if u = [i] then x else addr ptr L d u := by
  induction u with
  | nil => rfl
  | cons k q ih =>
    cases q with
    | nil =>
      simp only [addr, hslot, List.cons.injEq, and_true]
    | cons j q =>
      have hq := (S.above hu).resolve_left (cons_ne_nil _ _)
      rw [if_neg (by simp), addr_cons (cons_ne_nil _ _), ih hq]
      split
      · next he =>
        cases he
        rw [hempty k hu]
        simp [addr, hfree]
      · rfl

theorem addr_link {b : B} (hu : u ∈ S.pos) (hy : addr ptr L d p = y)
    (hy0 : y ≠ 0) (honly : ∀ q, S.Index q → addr ptr L d q = y → q = p)
    (hslot : ∀ j, ptr b j = if j = i then x else ptr (L y) j)
    (hfree : ptr (L y) i = 0) (hxy : x ≠ y)
    (hempty : ∀ j, j :: i :: p ∈ S.pos → ptr (L x) j = 0) :
    addr ptr (update L y b) d u = if u = i :: p then x else addr ptr L d u := by
  have hp : p ≠ [] := by
    rintro rfl
    exact hy0 hy.symm
  induction u with
  | nil => rfl
  | cons k q ih =>
    cases q with
    | nil => rw [if_neg (by simp [hp.symm])]; rfl
    | cons j q =>
      have hq := (S.above hu).resolve_left (cons_ne_nil _ _)
      rw [addr_cons (cons_ne_nil _ _), addr_cons (cons_ne_nil _ _), ih hq]
      by_cases he : j :: q = i :: p
      · have hqp : j :: q ≠ p := by
          intro h
          have hlen := congrArg List.length (he.symm.trans h)
          simp at hlen
        rw [if_pos he, if_neg (fun h ↦ hqp (List.cons.inj h).2), he, addr_cons_of_eq hy hy0,
          hfree, if_pos rfl, update_of_ne hxy, hempty k (he ▸ hu), ite_self]
      · rw [if_neg he]
        by_cases hqp : j :: q = p
        · rw [hqp, hy, if_neg hy0, if_neg hy0, update_self, hslot]
          simp
        · have hne : addr ptr L d (j :: q) ≠ y := fun h ↦ hqp (honly _ ⟨hq, k, hu⟩ h)
          rw [if_neg (fun h ↦ hqp (List.cons.inj h).2), update_of_ne hne]

variable {used used' : Nat → Prop}

structure Tree (ptr : B → Nat → Nat) (S : Shape) (L : Nat → B) (d : B) (used : Nat → Prop) :
    Prop where
  inj : ∀ {u v}, u ∈ S.pos → v ∈ S.pos → addr ptr L d u ≠ 0 → addr ptr L d u = addr ptr L d v → u = v
  used : ∀ {u}, u ∈ S.pos → addr ptr L d u ≠ 0 → used (addr ptr L d u)

section

variable (h : Tree ptr S L d used)
include h

theorem Tree.mono (hle : ∀ z, used z → used' z) :
    Tree ptr S L d used' :=
  ⟨h.inj, fun hu h0 ↦ hle _ (h.used hu h0)⟩

theorem Tree.congr
    (he : ∀ u ∈ S.pos, addr ptr L' d' u = addr ptr L d u) : Tree ptr S L' d' used := by
  refine ⟨fun {u v} hu hv h0 hsame ↦ ?_, fun {u} hu h0 ↦ ?_⟩
  · rw [he u hu] at h0 hsame
    rw [he v hv] at hsame
    exact h.inj hu hv h0 hsame
  · rw [he u hu] at h0 ⊢
    exact h.used hu h0

theorem Tree.link
    (he : ∀ u ∈ S.pos, addr ptr L' d' u = if u = p then x else addr ptr L d u)
    (hx : ∀ u ∈ S.pos, addr ptr L d u ≠ x) (hle : ∀ z, used z → used' z) (hux : used' x) :
    Tree ptr S L' d' used' := by
  refine ⟨fun {u v} hu hv h0 hsame ↦ ?_, fun {u} hu h0 ↦ ?_⟩
  · rw [he u hu] at h0 hsame
    rw [he v hv] at hsame
    by_cases hup : u = p <;> by_cases hvp : v = p
    · exact hup.trans hvp.symm
    · rw [if_pos hup, if_neg hvp] at hsame
      exact absurd hsame.symm (hx v hv)
    · rw [if_neg hup, if_pos hvp] at hsame
      exact absurd hsame (hx u hu)
    · rw [if_neg hup] at h0 hsame
      rw [if_neg hvp] at hsame
      exact h.inj hu hv h0 hsame
  · rw [he u hu] at h0 ⊢
    by_cases hup : u = p
    · rw [if_pos hup]
      exact hux
    · rw [if_neg hup] at h0 ⊢
      exact hle _ (h.used hu h0)

end

end Rxv6.Lib.BlockTree
