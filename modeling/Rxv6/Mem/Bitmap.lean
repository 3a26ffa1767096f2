import Mathlib.Tactic

namespace Rxv6.Mem

open Function List

abbrev Bytes := Nat → BitVec 8

/-- A bitmap of `bitCnt` bits in the memory from `bits` on. -/
structure Bitmap where
  bits : Nat
  bitCnt : Nat
  deriving DecidableEq

namespace Bitmap

/-- `bit_cnt.div_ceil(8)`. -/
def byteCnt (bitCnt : Nat) : Nat := (bitCnt + 7) / 8

/-- `create_in_buf`: all bits are clear. -/
def createInBuf (m : Bytes) (bitCnt buf : Nat) : Bytes × Bitmap :=
  (fun a ↦ if buf ≤ a ∧ a < buf + byteCnt bitCnt then 0 else m a, ⟨buf, bitCnt⟩)

variable (b : Bitmap)

def set (m : Bytes) (idx : Nat) (value : Bool) : Bytes :=
  let byte := b.bits + idx / 8
  let mask := 1#8 <<< (idx % 8)
  update m byte (if value then m byte ||| mask else m byte &&& ~~~mask)

def test (m : Bytes) (idx : Nat) : Bool := (m (b.bits + idx / 8) >>> (idx % 8)) &&& 1#8 != 0#8

def setMultiple (m : Bytes) (start cnt : Nat) (value : Bool) : Bytes :=
  (List.range' start cnt).foldl (fun m i ↦ b.set m i value) m

/-- The inner loop of `scan_and_flip`: `run` bits are equal to `value`, and `rest` are not looked at yet. -/
def countRun (m : Bytes) (i : Nat) (value : Bool) : Nat → Nat → Nat
  | 0, run => run
  | rest + 1, run => if b.test m (i + run) = value then countRun m i value rest (run + 1) else run

/-- The outer loop of `scan_and_flip`. Each turn moves `i` up, so that `bitCnt + 1` turns are enough. -/
def scan (m : Bytes) (cnt : Nat) (value : Bool) : Nat → Nat → Option Nat
  | 0, _ => none
  | turns + 1, i =>
    if i + cnt ≤ b.bitCnt then
      if b.test m i ≠ value then scan m cnt value turns (i + 1)
      else
        let run := b.countRun m i value (cnt - 1) 1
        if cnt ≤ run then some i else scan m cnt value turns (i + run + 1)
    else none

def scanAndFlip (m : Bytes) (start cnt : Nat) (value : Bool) : Option Nat × Bytes :=
  if cnt = 0 then (some start, m)
  else if b.bitCnt < start + cnt then (none, m)
  else
    match b.scan m cnt value (b.bitCnt + 1) start with
    | none => (none, m)
    | some i => (some i, b.setMultiple m i cnt (!value))

variable {b} {m m' : Bytes} {i j cnt : Nat} {v : Bool}

theorem test_eq : b.test m i = (m (b.bits + i / 8)).getLsbD (i % 8) := by
  rw [test]
  generalize m _ = x
  generalize i % 8 = k
  have hbit : ((x >>> k) &&& 1#8).toNat = x.toNat / 2 ^ k % 2 := by
    rw [BitVec.toNat_and, BitVec.toNat_ushiftRight, Nat.shiftRight_eq_div_pow]
    exact Nat.and_one_is_mod _
  have hne : (x >>> k) &&& 1#8 ≠ 0#8 ↔ x.toNat / 2 ^ k % 2 = 1 := by
    rw [Ne, ← BitVec.toNat_inj, hbit]
    simp
  rw [Bool.eq_iff_iff, bne_iff_ne, hne, BitVec.getLsbD, Nat.testBit_eq_decide_div_mod_eq, decide_eq_true_iff]

theorem test_set : b.test (b.set m i v) j = if j = i then v else b.test m j := by
  have hj : j % 8 < 8 := Nat.mod_lt _ (by omega)
  rw [test_eq, test_eq, set]
  by_cases hbyte : j / 8 = i / 8
  · rw [hbyte, update_self]
    have hij : j = i ↔ j % 8 = i % 8 := by omega
    have hmask : (1#8 <<< (i % 8)).getLsbD (j % 8) = decide (j % 8 = i % 8) := by
      rw [BitVec.getLsbD_shiftLeft, BitVec.getLsbD_one]
      simp only [hj]
      by_cases he : j % 8 = i % 8
      · simp [he]
      · rw [decide_eq_false he]
        simp only [Bool.and_eq_false_iff, Bool.not_eq_false', decide_eq_true_eq, decide_eq_false_iff_not]
        omega
    cases v with
    | true =>
      rw [if_pos rfl, BitVec.getLsbD_or, hmask]
      by_cases he : j = i
      · simp [he]
      · simp [he, mt hij.mpr he]
    | false =>
      rw [if_neg (by simp), BitVec.getLsbD_and, BitVec.getLsbD_not, hmask]
      by_cases he : j = i
      · simp [he]
      · simp [he, mt hij.mpr he, hj]
  · rw [update_of_ne (by omega), if_neg (by rintro rfl; exact hbyte rfl)]

theorem test_setMultiple {start : Nat} :
    b.test (b.setMultiple m start cnt v) j = if start ≤ j ∧ j < start + cnt then v else b.test m j := by
  unfold setMultiple
  induction cnt generalizing m start with
  | zero => simp only [range'_zero, foldl_nil]; rw [if_neg (by omega)]
  | succ cnt ih =>
    rw [range'_succ, foldl_cons, ih, test_set]
    by_cases hj : j = start
    · subst hj
      rw [if_neg (by omega), if_pos rfl, if_pos (by omega)]
    · rw [if_neg hj]
      by_cases hin : start + 1 ≤ j ∧ j < start + 1 + cnt
      · rw [if_pos hin, if_pos (by omega)]
      · rw [if_neg hin, if_neg (by omega)]

def Holds (b : Bitmap) (a : Nat) : Prop := b.bits ≤ a ∧ a < b.bits + byteCnt b.bitCnt

theorem byte_holds (hi : i < b.bitCnt) : b.Holds (b.bits + i / 8) := by
  unfold Holds byteCnt
  omega

theorem setMultiple_other {start a : Nat} (hend : start + cnt ≤ b.bitCnt) (ha : ¬ b.Holds a) :
    b.setMultiple m start cnt v a = m a := by
  unfold setMultiple
  induction cnt generalizing m start with
  | zero => rfl
  | succ cnt ih =>
    rw [range'_succ, foldl_cons, ih (by omega)]
    refine update_of_ne ?_ _ _
    rintro rfl
    exact ha (byte_holds (by omega))

theorem test_congr (hm : ∀ a, b.Holds a → m' a = m a) (hi : i < b.bitCnt) : b.test m' i = b.test m i := by
  rw [test, test, hm _ (byte_holds hi)]

theorem test_createInBuf {buf : Nat} (hi : i < cnt) : (createInBuf m cnt buf).2.test (createInBuf m cnt buf).1 i = false := by
  have hbyte := byte_holds (b := ⟨buf, cnt⟩) hi
  rw [test, createInBuf]
  simp only [Holds] at hbyte
  simp [hbyte]

/-- The `cnt` bits from `i` on are all equal to `v`. -/
def RunAt (f : Nat → Bool) (size cnt : Nat) (v : Bool) (i : Nat) : Prop :=
  0 < cnt ∧ i + cnt ≤ size ∧ ∀ k < cnt, f (i + k) = v

theorem countRun_spec (rest run : Nat) (hrun : ∀ k < run, b.test m (i + k) = v) :
    let r := b.countRun m i v rest run
    run ≤ r ∧ r ≤ run + rest ∧ (∀ k < r, b.test m (i + k) = v) ∧
      (r < run + rest → b.test m (i + r) ≠ v) := by
  induction rest generalizing run with
  | zero => exact ⟨le_rfl, le_rfl, hrun, fun h ↦ by simp [countRun] at h⟩
  | succ rest ih =>
    unfold countRun
    split
    · next ht =>
      obtain ⟨h1, h2, h3, h4⟩ := ih (run + 1) fun k hk ↦ by
        by_cases hkr : k = run
        · exact hkr ▸ ht
        · exact hrun k (by omega)
      exact ⟨by omega, by omega, h3, fun h ↦ h4 (by omega)⟩
    · next ht => exact ⟨le_rfl, by omega, hrun, fun _ ↦ ht⟩

theorem scan_spec (hcnt : 0 < cnt) (turns : Nat) : ∀ i, b.bitCnt < turns + i →
    (∃ j, b.scan m cnt v turns i = some j ∧ i ≤ j ∧ RunAt (b.test m) b.bitCnt cnt v j ∧
        ∀ k, i ≤ k → k < j → ¬ RunAt (b.test m) b.bitCnt cnt v k) ∨
      (b.scan m cnt v turns i = none ∧ ∀ k, i ≤ k → ¬ RunAt (b.test m) b.bitCnt cnt v k) := by
  induction turns with
  | zero =>
    intro i hi
    exact .inr ⟨rfl, fun k hk hr ↦ by have := hr.2.1; omega⟩
  | succ turns ih =>
    intro i hi
    unfold scan
    split
    · next hfit =>
      have hskip : ∀ n, i < n → (∀ k, i ≤ k → k < n → ¬ RunAt (b.test m) b.bitCnt cnt v k) →
          (∃ j, b.scan m cnt v turns n = some j ∧ i ≤ j ∧ RunAt (b.test m) b.bitCnt cnt v j ∧
              ∀ k, i ≤ k → k < j → ¬ RunAt (b.test m) b.bitCnt cnt v k) ∨
            (b.scan m cnt v turns n = none ∧ ∀ k, i ≤ k → ¬ RunAt (b.test m) b.bitCnt cnt v k) := by
        intro n hn hno
        rcases ih n (by omega) with ⟨j, hj, hnj, hr, hlow⟩ | ⟨hnone, hall⟩
        · refine .inl ⟨j, hj, by omega, hr, fun k hk hkj ↦ ?_⟩
          by_cases hkn : k < n
          · exact hno k hk hkn
          · exact hlow k (by omega) hkj
        · refine .inr ⟨hnone, fun k hk ↦ ?_⟩
          by_cases hkn : k < n
          · exact hno k hk hkn
          · exact hall k (by omega)
      split
      · next ht =>
        refine hskip (i + 1) (by omega) fun k hk hkn hr ↦ ht ?_
        have := hr.2.2 0 hr.1
        rwa [show k + 0 = i by omega] at this
      · next ht =>
        have hone : ∀ k < 1, b.test m (i + k) = v := fun k hk ↦ by
          rw [show i + k = i by omega]
          exact not_not.mp ht
        obtain ⟨h1, h2, h3, h4⟩ := countRun_spec (cnt - 1) 1 hone
        simp only
        split
        · next hlen =>
          exact .inl ⟨i, rfl, le_rfl, ⟨hcnt, hfit, fun k hk ↦ h3 k (by omega)⟩, fun k hk hki ↦ by omega⟩
        · next hlen =>
          refine hskip _ (by omega) fun k hk hkn hr ↦ ?_
          have hstop := h4 (by omega)
          have := hr.2.2 (i + b.countRun m i v (cnt - 1) 1 - k) (by omega)
          rw [show k + (i + b.countRun m i v (cnt - 1) 1 - k) = i + b.countRun m i v (cnt - 1) 1 by omega] at this
          exact hstop this
    · next hfit => exact .inr ⟨rfl, fun k hk hr ↦ by have := hr.2.1; omega⟩

theorem scanAndFlip_spec (hcnt : 0 < cnt) :
    (∃ i, b.scanAndFlip m 0 cnt v = (some i, b.setMultiple m i cnt (!v)) ∧ RunAt (b.test m) b.bitCnt cnt v i ∧
        ∀ k < i, ¬ RunAt (b.test m) b.bitCnt cnt v k) ∨
      (b.scanAndFlip m 0 cnt v = (none, m) ∧ ∀ k, ¬ RunAt (b.test m) b.bitCnt cnt v k) := by
  unfold scanAndFlip
  rw [if_neg (by omega)]
  split
  · next hbig => exact .inr ⟨rfl, fun k hr ↦ by have := hr.2.1; omega⟩
  · rcases scan_spec (b := b) hcnt (b.bitCnt + 1) 0 (by omega) with
      ⟨j, hj, -, hr, hlow⟩ | ⟨hnone, hall⟩
    · refine .inl ⟨j, ?_, hr, fun k hk ↦ hlow k (Nat.zero_le k) hk⟩
      rw [hj]
    · refine .inr ⟨?_, fun k ↦ hall k (Nat.zero_le k)⟩
      rw [hnone]

end Bitmap

end Rxv6.Mem
