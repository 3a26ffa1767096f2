import Mathlib.Tactic

namespace Rxv6.Filesys

/-- A disk sector of `BLOCK_SECTOR_SIZE` bytes. -/
abbrev Sector := Fin 512 → UInt8

namespace Sector

def zero : Sector := fun _ ↦ 0

def byte (s : Sector) (k : Nat) : UInt8 := if h : k < 512 then s ⟨k, h⟩ else 0

def setByte (s : Sector) (i : Nat) (v : UInt8) : Sector := fun k ↦ if k.val = i then v else s k

/-- The little-endian `u32` at index `i` of the sector seen as an array of 128. -/
def word (s : Sector) (i : Nat) : Nat :=
  (byte s (4 * i)).toNat + 256 * (byte s (4 * i + 1)).toNat +
    65536 * (byte s (4 * i + 2)).toNat + 16777216 * (byte s (4 * i + 3)).toNat

def setWord (s : Sector) (i v : Nat) : Sector := fun k ↦
  if k.val / 4 = i then UInt8.ofNat (v / 256 ^ (k.val % 4)) else s k

/-- `data[ofs..ofs + b.len()].copy_from_slice(b)`. -/
def splice (s : Sector) (ofs : Nat) (b : List UInt8) : Sector := fun k ↦
  if ofs ≤ k.val ∧ k.val < ofs + b.length then b.getD (k.val - ofs) 0 else s k

variable {s : Sector} {i j k v ofs : Nat} {b : UInt8}

@[simp] theorem byte_zero : byte zero k = 0 := by
  simp [byte, zero]

@[simp] theorem word_zero : word zero i = 0 := by
  simp [word]

theorem byte_setWord :
    byte (setWord s i v) k =
      if k / 4 = i ∧ k < 512 then UInt8.ofNat (v / 256 ^ (k % 4)) else byte s k := by
  unfold byte setWord
  by_cases hk : k < 512
  · simp [hk]
  · simp [hk]

theorem byte_splice {b : List UInt8} :
    byte (splice s ofs b) k =
      if ofs ≤ k ∧ k < ofs + b.length ∧ k < 512 then b.getD (k - ofs) 0 else byte s k := by
  unfold byte splice
  by_cases hk : k < 512
  · simp [hk]
  · simp [hk]

theorem word_congr {t : Sector} (h : ∀ k, k / 4 = i → byte s k = byte t k) :
    word s i = word t i := by
  simp only [word, h (4 * i) (by omega), h (4 * i + 1) (by omega), h (4 * i + 2) (by omega),
    h (4 * i + 3) (by omega)]

theorem byte_setByte : byte (setByte s i b) k = if k = i ∧ k < 512 then b else byte s k := by
  unfold byte setByte
  by_cases hk : k < 512
  · simp [hk]
  · simp [hk]

theorem word_setByte (h : j / 4 ≠ i) : word (setByte s j b) i = word s i := by
  refine word_congr fun k hk ↦ ?_
  rw [byte_setByte, if_neg (by omega)]

theorem word_setWord_ne (h : j ≠ i) : word (setWord s i v) j = word s j := by
  refine word_congr fun k hk ↦ ?_
  rw [byte_setWord, if_neg (by omega)]

theorem word_setWord_self (hi : i < 128) (hv : v < 4294967296) : word (setWord s i v) i = v := by
  have hb : ∀ r < 4, byte (setWord s i v) (4 * i + r) = UInt8.ofNat (v / 256 ^ r) := by
    intro r hr
    rw [byte_setWord, if_pos ⟨by omega, by omega⟩]
    congr 3
    omega
  have h0 := hb 0 (by omega)
  have h1 := hb 1 (by omega)
  have h2 := hb 2 (by omega)
  have h3 := hb 3 (by omega)
  simp only [Nat.add_zero] at h0
  simp only [word, h0, h1, h2, h3, UInt8.toNat_ofNat']
  omega

theorem word_setWord (hi : i < 128) (hv : v < 4294967296) :
    word (setWord s i v) j = if j = i then v else word s j := by
  split
  · next h =>
    rw [h]
    exact word_setWord_self hi hv
  · next h => exact word_setWord_ne h

end Sector

def i32 (w : Nat) : Int := if w < 2147483648 then w else (w : Int) - 4294967296

def u32 (x : Int) : Nat := (x % 4294967296).toNat

theorem u32_lt (x : Int) : u32 x < 4294967296 := by
  unfold u32
  omega

theorem i32_u32 {x : Int} (hlo : -2147483648 ≤ x) (hhi : x < 2147483648) : i32 (u32 x) = x := by
  unfold i32 u32
  split <;> omega

open Sector

/-- The on-disk inode is a view of one sector: words 0 to 11 are `direct_blocks`, word 12 is
`indirect_block`, word 13 `doubly_indirect_block`, word 14 `length`, word 15 `write_end`,
word 16 `magic`, byte 68 `is_dir` and byte 69 `is_symlink`. -/
abbrev InodeDisk := Sector

namespace InodeDisk

def length (d : InodeDisk) : Int := i32 (word d 14)

def isDir (d : InodeDisk) : Bool := byte d 68 != 0

def isSymlink (d : InodeDisk) : Bool := byte d 69 != 0

/-- `InodeDisk::new_boxed`: all zero except the magic number. -/
def newBoxed : InodeDisk := setWord zero 16 0x494e4f44

def setEnd (d : InodeDisk) (e : Int) : InodeDisk := setWord (setWord d 14 (u32 e)) 15 (u32 e)

def setIsDir (d : InodeDisk) (b : Bool) : InodeDisk := setByte d 68 (if b then 1 else 0)

variable {d : InodeDisk} {e : Int} {i : Nat}

theorem word_setEnd (hi : i < 14) : word (setEnd d e) i = word d i := by
  rw [setEnd, word_setWord_ne (by omega), word_setWord_ne (by omega)]

theorem length_setEnd (hlo : -2147483648 ≤ e) (hhi : e < 2147483648) :
    length (setEnd d e) = e := by
  rw [length, setEnd, word_setWord_ne (by omega), word_setWord_self (by omega) (u32_lt e), i32_u32 hlo hhi]

end InodeDisk

end Rxv6.Filesys
