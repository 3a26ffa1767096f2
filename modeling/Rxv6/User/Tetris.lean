import Mathlib.Tactic

namespace Rxv6.User.Tetris

open List

abbrev Row := List UInt8

def boardW : Nat := 10

def totalH : Nat := 22

/-- The fields that `clear_lines` reads or writes. -/
structure Game where
  board : List Row
  score : UInt32
  lines : UInt32
  level : UInt32

def Row.full (r : Row) : Bool := r.all (· ≠ 0)

def Row.empty : Row := replicate boardW 0

/-- The loop that copies the rows: `dst`, `src`, `cleared` and the board at its end. -/
def copyRows : Nat → Nat → Nat → List Row → Nat × Nat × Nat × List Row
  | dst, 0, cleared, board =>
    if (board.getD 0 []).full then (dst, 0, cleared + 1, board)
    else (dst - 1, 0, cleared, if dst ≠ 0 then board.set dst (board.getD 0 []) else board)
  | dst, src + 1, cleared, board =>
    if (board.getD (src + 1) []).full then copyRows dst src (cleared + 1) board
    else
      let board := if dst ≠ src + 1 then board.set dst (board.getD (src + 1) []) else board
      if dst = 0 then (dst, src + 1, cleared, board) else copyRows (dst - 1) src cleared board

def clearRows (src cleared : Nat) : Nat → List Row → List Row
  | 0, board => board
  | dst + 1, board =>
    clearRows src cleared dst (if dst + 1 ≤ src ∨ 0 < cleared then board.set (dst + 1) Row.empty else board)

def clearLines (g : Game) : Game :=
  let (dst, src, cleared, board) := copyRows (totalH - 1) (totalH - 1) 0 g.board
  let board := clearRows src cleared dst board
  if 0 < cleared then
    let lines := g.lines + UInt32.ofNat cleared
    let points := if cleared = 1 then 100 else if cleared = 2 then 300 else if cleared = 3 then 500 else 800
    ⟨board.set 0 Row.empty, g.score + points * g.level, lines, lines / 10 + 1⟩
  else { g with board }

/-- A row is copied over the last of the stale rows `J`, and becomes one itself. -/
theorem copy_row (A J B : List Row) (r : Row) : (A ++ r :: J ++ B).getD A.length [] = r ∧
    (if A.length + J.length ≠ A.length then (A ++ r :: J ++ B).set (A.length + J.length) r
      else A ++ r :: J ++ B) = A ++ (r :: J).dropLast ++ r :: B := by
  refine ⟨by simp, ?_⟩
  cases J using List.reverseRecOn with
  | nil => simp
  | append_singleton J x =>
    rw [← cons_append, dropLast_concat]
    simp

/-- The rows up to `src` are the old ones, those of `J` are stale and those of `B` are in place. -/
theorem copyRows_eq (A J B : List Row) (r : Row) :
    ∃ J', J'.length = ((A ++ [r]).filter Row.full).length + J.length ∧
      copyRows (A.length + J.length) A.length J.length (A ++ r :: J ++ B) =
        (J'.length - 1, 0, J'.length, J' ++ (A ++ [r]).filter (!·.full) ++ B) := by
  induction A using List.reverseRecOn generalizing J B r with
  | nil =>
    obtain ⟨hsrc, hcopy⟩ := copy_row [] J B r
    simp only [length_nil] at hcopy hsrc ⊢
    rw [copyRows, hsrc, hcopy]
    by_cases hr : r.full
    · exact ⟨r :: J, by simp [hr, Nat.add_comm], by simp [hr]⟩
    · exact ⟨(r :: J).dropLast, by simp [hr], by simp [hr]⟩
  | append_singleton A q ih =>
    obtain ⟨hsrc, hcopy⟩ := copy_row (A ++ [q]) J B r
    rw [length_append, length_singleton] at hcopy hsrc ⊢
    rw [copyRows, hsrc, filter_append _ [r], filter_append _ [r]]
    by_cases hr : r.full
    · obtain ⟨J', hlen, hrun⟩ := ih (r :: J) B q
      rw [length_cons, ← Nat.add_assoc, Nat.add_right_comm] at hrun
      refine ⟨J', ?_, ?_⟩
      · rw [hlen]
        simp [hr]
        omega
      · simpa [hr] using hrun
    · obtain ⟨J', hlen, hrun⟩ := ih (r :: J).dropLast (r :: B) q
      refine ⟨J', ?_, ?_⟩
      · rw [hlen]
        simp [hr]
      · simp only [hcopy]
        simpa [hr] using hrun

theorem clearRows_eq {src cleared : Nat} (hc : 0 < cleared) (x : Row) (J B : List Row) :
    clearRows src cleared J.length (x :: J ++ B) = x :: replicate J.length Row.empty ++ B := by
  induction J using List.reverseRecOn generalizing B with
  | nil => rfl
  | append_singleton J y ih =>
    have hset : (x :: (J ++ [y]) ++ B).set (J.length + 1) Row.empty = x :: J ++ Row.empty :: B := by simp
    rw [length_append, length_singleton, clearRows, if_pos (.inr hc), hset, ih, replicate_succ']
    simp

/-- The rows that are not full stay in their order under as many empty rows as there were full ones. -/
theorem clearLines_compacts (g : Game) (h : g.board.length = totalH) :
    (clearLines g).board =
        replicate (g.board.filter Row.full).length Row.empty ++ g.board.filter (!·.full) ∧
      (clearLines g).lines = g.lines + UInt32.ofNat (g.board.filter Row.full).length ∧
      ((∀ r ∈ g.board, r.full = false) → clearLines g = g) := by
  obtain ⟨A, r, hA⟩ := (eq_nil_or_concat' g.board).resolve_left (ne_nil_of_length_eq_add_one h)
  obtain ⟨J, hlen, hrun⟩ := copyRows_eq A [] [] r
  have hsrc : totalH - 1 = A.length := by rw [← h, hA, length_append]; rfl
  rw [append_nil, append_nil, ← hA] at hrun
  rw [← hA, length_nil, Nat.add_zero] at hlen
  rw [clearLines, hsrc, show copyRows A.length A.length 0 g.board = _ from hrun, ← hlen]
  cases J with
  | nil =>
    have hnone := filter_eq_nil_iff.mp (length_eq_zero_iff.mp hlen.symm)
    have hself : g.board.filter (!·.full) = g.board := filter_eq_self.mpr fun q hq ↦ by simp [hnone q hq]
    refine ⟨rfl, (UInt32.add_zero _).symm, fun _ ↦ ?_⟩
    change { g with board := g.board.filter (!·.full) } = g
    rw [hself]
  | cons x J =>
    refine ⟨?_, rfl, fun hnone ↦ ?_⟩
    · change (clearRows 0 (J.length + 1) J.length (x :: J ++ _)).set 0 Row.empty = _
      rw [clearRows_eq (Nat.succ_pos _)]
      rfl
    · rw [filter_eq_nil_iff.mpr fun q hq ↦ by simp [hnone q hq]] at hlen
      cases hlen

theorem clearLines_compacts_one :
    (clearLines ⟨replicate 21 Row.empty ++ [replicate 10 34], 0, 0, 1⟩).board = replicate 22 Row.empty :=
  (clearLines_compacts ⟨replicate 21 Row.empty ++ [replicate 10 34], 0, 0, 1⟩ rfl).1.trans (by decide)

end Rxv6.User.Tetris
