import Rxv6.Filesys.State

namespace Rxv6.Filesys.FreeMapBytes

open List Lib

abbrev Bytes := List (BitVec 8)

def bitGet (bm : Bytes) (sector : Nat) : Bool :=
  bm[sector / 8]?.any fun b ↦ b &&& 1#8 <<< (sector % 8) != 0

def bitSet (bm : Bytes) (sector : Nat) (val : Bool) : Bytes :=
  bm.modify (sector / 8) fun b ↦
    if val then b ||| 1#8 <<< (sector % 8) else b &&& ~~~(1#8 <<< (sector % 8))

/-- The loop of `allocate` and `release` over `cnt` sectors. -/
def setAll (val : Bool) (sector cnt : Nat) (bm : Bytes) : Bytes :=
  (List.range cnt).foldl (fun bm i ↦ bitSet bm (sector + i) val) bm

/-- The loop `'outer`; the outer `none` is an overflow of `start + cnt`. -/
def search (total cnt : Nat) (bm : Bytes) (start : Nat) : Option (Option Nat) :=
  if 2 ^ 32 ≤ start + cnt then none
  else if start + cnt ≤ total then
    match h : (List.range cnt).find? fun i ↦ bitGet bm (start + i) with
    | some i => search total cnt bm (start + i + 1)
    | none => some (some start)
  else some none
termination_by total - start
decreasing_by
  have := mem_range.mp (mem_of_find?_eq_some h)
  omega

def allocate (total cnt : Nat) (bm : Bytes) : Option (Option Nat × Bytes) :=
  if cnt = 0 then some (none, bm)
  else (search total cnt bm 2).map fun
    | some start => (some start, setAll true start cnt bm)
    | none => (none, bm)

def release (sector cnt : Nat) (bm : Bytes) : Bytes := setAll false sector cnt bm

/-- `cnt` sectors of the device from `start` on, which is not below `lo`, are all free. -/
def FreeRun (total cnt : Nat) (bm : Bytes) (lo start : Nat) : Prop :=
  lo ≤ start ∧ start + cnt ≤ total ∧ ∀ i < cnt, bitGet bm (start + i) = false

variable {bm : Bytes} {total cnt sector start s : Nat} {val : Bool}

theorem bitGet_eq : bitGet bm s = bm[s / 8]?.any (·.getLsbD (s % 8)) := by
  have hmask (b : BitVec 8) : (b &&& 1#8 <<< (s % 8) != 0) = b.getLsbD (s % 8) := by
    have hlt := Nat.mod_lt s (show 8 > 0 by decide)
    interval_cases s % 8 <;> revert b <;> decide
  simp only [bitGet, hmask]

theorem bitGet_bitSet (h : sector / 8 < bm.length) :
    bitGet (bitSet bm sector val) s = if s = sector then val else bitGet bm s := by
  rw [bitGet_eq, bitGet_eq, bitSet, getElem?_modify]
  by_cases hb : sector / 8 = s / 8
  · have hs : s = sector ↔ s % 8 = sector % 8 := by omega
    rw [getElem?_eq_getElem (hb ▸ h)]
    cases val <;> grind
  · grind

theorem setAll_eq (hfit : ∀ i < cnt, (sector + i) / 8 < bm.length) :
    (setAll val sector cnt bm).length = bm.length ∧ ∀ s, bitGet (setAll val sector cnt bm) s =
      if sector ≤ s ∧ s < sector + cnt then val else bitGet bm s := by
  induction cnt with
  | zero => exact ⟨rfl, fun s ↦ (if_neg (by omega)).symm⟩
  | succ cnt ih =>
    obtain ⟨hlen, hget⟩ := ih fun i hi ↦ hfit i (by omega)
    have hstep : setAll val sector (cnt + 1) bm = bitSet (setAll val sector cnt bm) (sector + cnt) val := by
      rw [setAll, range_succ, foldl_append]
      rfl
    rw [hstep]
    refine ⟨(length_modify ..).trans hlen, fun s ↦ ?_⟩
    rw [bitGet_bitSet (hlen ▸ hfit cnt (by omega)), hget]
    split_ifs <;> first | rfl | omega

theorem ext_bitGet {bm' : Bytes} (hlen : bm'.length = bm.length) (h : ∀ s, bitGet bm' s = bitGet bm s) :
    bm' = bm := by
  refine ext_getElem hlen fun j hj hj' ↦ BitVec.eq_of_getLsbD_eq fun k hk ↦ ?_
  have hs := h (8 * j + k)
  rw [bitGet_eq, bitGet_eq, show (8 * j + k) / 8 = j by omega, show (8 * j + k) % 8 = k by omega,
    getElem?_eq_getElem hj, getElem?_eq_getElem hj'] at hs
  exact hs

/-- No start is lost: a run that reaches over a used sector is not free. -/
theorem freeRun_skip {i : Nat} (hi : i < cnt) (hused : bitGet bm (start + i) = true) :
    FreeRun total cnt bm start s ↔ FreeRun total cnt bm (start + i + 1) s := by
  refine ⟨fun ⟨hlo, hfit, hfree⟩ ↦ ⟨?_, hfit, hfree⟩, fun ⟨hlo, h⟩ ↦ ⟨by omega, h⟩⟩
  by_contra hlt
  have hfalse := hfree (start + i - s) (by omega)
  rw [show s + (start + i - s) = start + i by omega, hused] at hfalse
  cases hfalse

theorem search_spec (hstart : start + cnt < 2 ^ 32) (htotal : total + cnt < 2 ^ 32) :
    (∃ s, search total cnt bm start = some (some s) ∧ IsLeast {s | FreeRun total cnt bm start s} s) ∨
      search total cnt bm start = some none ∧ ∀ s, ¬ FreeRun total cnt bm start s := by
  fun_induction search total cnt bm start with
  | case1 start h => omega
  | case2 start h hfit i hfind ih =>
    have hi := mem_range.mp (mem_of_find?_eq_some hfind)
    have hused := find?_some hfind
    simp only [freeRun_skip hi hused]
    exact ih (by omega)
  | case3 start h hfit hnone =>
    refine .inl ⟨start, rfl, ⟨le_rfl, hfit, fun i hi ↦ ?_⟩, fun s hs ↦ hs.1⟩
    exact Bool.eq_false_of_not_eq_true (find?_eq_none.mp hnone i (mem_range.mpr hi))
  | case4 start h hfit => exact .inr ⟨rfl, fun s ⟨hlo, hin, _⟩ ↦ by omega⟩

/-- `allocate` is first fit, and `release` undoes it. -/
theorem allocate_firstFit (hlen : bm.length = (total + 7) / 8) (htotal : total < 2 ^ 28) (hpos : 1 ≤ cnt)
    (hcnt : cnt < 2 ^ 28) :
    (∃ start bm', allocate total cnt bm = some (some start, bm') ∧
      IsLeast {s | FreeRun total cnt bm 2 s} start ∧ bm'.length = bm.length ∧
      (∀ s, bitGet bm' s = (bitGet bm s || decide (start ≤ s ∧ s < start + cnt))) ∧
      release start cnt bm' = bm) ∨
    allocate total cnt bm = some (none, bm) ∧ ¬ ∃ s, FreeRun total cnt bm 2 s := by
  rw [allocate, if_neg (by omega)]
  obtain ⟨start, hs, hleast⟩ | ⟨hs, hnone⟩ := @search_spec bm total cnt 2 (by omega) (by omega)
  · obtain ⟨hlo, hin, hfree⟩ := hleast.1
    have hfit (i : Nat) (hi : i < cnt) : (start + i) / 8 < bm.length := by omega
    obtain ⟨hlen', hget⟩ := @setAll_eq bm cnt start true hfit
    obtain ⟨hlen'', hget'⟩ := @setAll_eq _ cnt start false (hlen' ▸ hfit)
    refine .inl ⟨start, _, by rw [hs]; rfl, hleast, hlen', fun s ↦ ?_,
      ext_bitGet (hlen''.trans hlen') fun s ↦ ?_⟩
    · rw [hget]
      split_ifs with h <;> simp [h]
    · rw [release, hget', hget]
      split_ifs with h
      · rw [← hfree (s - start) (by omega), show start + (s - start) = s by omega]
      · rfl
  · exact .inr ⟨by rw [hs]; rfl, not_exists.mpr hnone⟩

/-- Sector 3 is used, so that a run of two starts at 4. -/
theorem allocate_firstFit_two : ∃ start bm', allocate 8 2 [0x0b#8] = some (some start, bm') ∧
    release start 2 bm' = [0x0b#8] := by
  obtain ⟨start, bm', ha, -, -, -, hr⟩ | ⟨-, hnone⟩ :=
    @allocate_firstFit [0x0b#8] 8 2 rfl (by decide) (by decide) (by decide)
  · exact ⟨start, bm', ha, hr⟩
  · exact absurd ⟨4, by decide, by decide, by decide⟩ hnone

section Refinement

variable {m : FreeMap}

/-- The bytes hold the bit vector on which the rest of the file system is modelled. -/
def Represents (bm : Bytes) (m : FreeMap) : Prop :=
  bm.length = (m.bits.length + 7) / 8 ∧ ∀ s, bitGet bm s = m.test s

theorem Represents.set (h : Represents bm m) (hs : s < m.bits.length) :
    Represents (setAll val s 1 bm) (m.set s val) := by
  have hlen := h.1
  obtain ⟨hlen', hget⟩ := @setAll_eq bm 1 s val fun i hi ↦ by omega
  refine ⟨?_, fun x ↦ ?_⟩
  · rw [hlen', hlen, FreeMap.set, length_set]
  · rw [hget, FreeMap.test_set hs, h.2]
    exact if_congr (by omega) rfl rfl

theorem Represents.freeRun (h : Represents bm m) :
    FreeRun m.bits.length 1 bm 2 s ↔ s < m.bits.length ∧ (2 ≤ s && !Bitmap.test m.bits s) = true := by
  simp only [FreeRun, Nat.lt_one_iff, forall_eq, add_zero, h.2, FreeMap.test]
  grind

/-- The calls of one sector on the bytes do what the calls on the bit vector do. -/
theorem allocate_refines (h : Represents bm m) (hsize : m.bits.length + 1 < 2 ^ 32) :
    (∃ bm', allocate m.bits.length 1 bm = some (m.allocate.1, bm') ∧ Represents bm' m.allocate.2) ∧
      ∀ s < m.bits.length, Represents (release s 1 bm) (m.release s) := by
  refine ⟨?_, fun s hs ↦ h.set hs⟩
  rw [allocate, if_neg one_ne_zero, FreeMap.allocate]
  obtain ⟨start, hs, hin, hleast⟩ | ⟨hs, hnone⟩ := @search_spec bm m.bits.length 1 2 (by omega) hsize <;> rw [hs]
  · obtain ⟨hlt, hclear⟩ := h.freeRun.mp hin
    have hfirst : Bitmap.firstClear m.bits 2 = some start := by
      refine find?_range_eq_some.mpr ⟨hclear, mem_range.mpr hlt, fun j hj ↦ ?_⟩
      by_contra hclear'
      exact hj.not_ge (hleast (h.freeRun.mpr ⟨hj.trans hlt, by grind⟩))
    rw [hfirst]
    exact ⟨_, rfl, h.set hlt⟩
  · have hfull : Bitmap.firstClear m.bits 2 = none :=
      find?_range_eq_none.mpr fun j hj ↦ by
        have := mt h.freeRun.mpr (hnone j)
        grind
    rw [hfull]
    exact ⟨bm, rfl, h⟩

end Refinement

theorem allocate_refines_eight : ∃ bm', allocate 8 1 [0x0b#8] = some (some 2, bm') := by
  have h : Represents [0x0b#8] ⟨[true, true, false, true] ++ replicate 4 false, by decide⟩ := by
    refine ⟨rfl, fun s ↦ ?_⟩
    obtain hlt | hge := Nat.lt_or_ge s 8
    · interval_cases s <;> rfl
    · rw [bitGet, getElem?_eq_none (Nat.div_pos hge (by decide)), FreeMap.test, Bitmap.test, getElem?_eq_none hge]
      rfl
  obtain ⟨⟨bm', h, -⟩, -⟩ := allocate_refines h (by decide)
  exact ⟨bm', h⟩

end Rxv6.Filesys.FreeMapBytes
