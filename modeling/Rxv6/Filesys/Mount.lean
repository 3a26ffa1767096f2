import Rxv6.Filesys.Volume
import Mathlib.Data.Nat.Bitwise

namespace Rxv6.Filesys

open Lib Sector InodeDisk

namespace FreeMap

/-- `free_map::init`. -/
def init (count : Nat) (h : count < 4294967296) : FreeMap where
  bits := ((List.replicate count false).set 0 true).set 1 true
  fits := by
    rw [List.length_set, List.length_set, List.length_replicate]
    exact h

def byteCount (m : FreeMap) : Nat := (m.bits.length + 7) / 8

/-- `bit_get` in one byte. -/
def bitOf (byte : UInt8) (k : Nat) : Bool := byte &&& 1 <<< UInt8.ofNat k != 0

def load (m : FreeMap) (data : List UInt8) : FreeMap where
  bits := (List.range m.bits.length).map fun i ↦
    if i / 8 < data.length then bitOf (data.getD (i / 8) 0) (i % 8) else m.test i
  fits := by
    rw [List.length_map, List.length_range]
    exact m.fits

theorem bitOf_eq (byte : UInt8) {k : Nat} (hk : k < 8) : bitOf byte k = byte.toNat.testBit k := by
  have hpow : (1 <<< UInt8.ofNat k).toNat = 2 ^ k := by
    interval_cases k <;> rfl
  rw [Bool.eq_iff_iff, bitOf, bne_iff_ne, ne_eq, ← UInt8.toNat_inj, UInt8.toNat_and, hpow, Nat.and_two_pow]
  cases byte.toNat.testBit k <;> simp

theorem test_load {m : FreeMap} {data : List UInt8} {i : Nat} (hi : i < m.bits.length) (hd : i / 8 < data.length) :
    (m.load data).test i = (data.getD (i / 8) 0).toNat.testBit (i % 8) := by
  simp [test, Bitmap.test, load, hi, hd, bitOf_eq _ (Nat.mod_lt i (by decide))]

end FreeMap

def freeMapOpen : Prog Unit := do
  inodeOpen 0
  let m ← getFreeMap
  let data ← readAt 0 m.byteCount 0
  setFreeMap (m.load data)

/-- `filesys::init(false)` with a disk of `count` sectors. -/
def mount (disk : Nat → Sector) (count : Nat) (h : count < 4294967296) : State :=
  (run freeMapOpen ⟨disk, .init count h, fun _ ↦ none⟩).2

def unmounted (disk : Nat → Sector) (count : Nat) (h : count < 4294967296) : State :=
  (State.mk disk (.init count h) fun _ ↦ none).opened 0

theorem mount_eq (disk : Nat → Sector) (count : Nat) (h : count < 4294967296) :
    mount disk count h = (unmounted disk count h).withMap
      ((FreeMap.init count h).load (bytesAt (unmounted disk count h) 0 ((count + 7) / 8) 0)) := by
  have hopen : (run (inodeOpen 0) ⟨disk, .init count h, fun _ ↦ none⟩).2 = unmounted disk count h :=
    run_of_ends (ends_inodeOpen _ 0)
  have hcount : (FreeMap.init count h).byteCount = (count + 7) / 8 := by
    simp [FreeMap.byteCount, FreeMap.init]
  have hmap : run getFreeMap (unmounted disk count h) = (FreeMap.init count h, unmounted disk count h) := rfl
  rw [mount, freeMapOpen, run_bind, hopen, run_bind, hmap, run_bind]
  simp only [hcount, run_readAt_eq]
  rfl

end Rxv6.Filesys
