import Rxv6.Tools.Mkdisk
import Mathlib.Data.List.GetD

namespace Rxv6.Tools.Mkdisk

open Filesys Filesys.Sector Function List Option

open DiskBuilder InodeDisk

section Bytes

variable {t : Sector} {bytes : List UInt8} {i k v : Nat}

theorem byte_replaced (hlen : bytes.length = 512) (hk : k < 512) :
    byte (splice t 0 (bytes.take 512)) k = bytes.getD k 0 := by
  rw [take_of_length_le hlen.le, byte_splice, if_pos ⟨Nat.zero_le _, by omega, hk⟩, Nat.sub_zero]

theorem splice_sectorBytes (s : Sector) : splice t 0 ((DiskBuilder.sectorBytes s).take 512) = s := by
  funext k
  have hlen : (sectorBytes s).length = 512 := length_ofFn
  have hbyte : byte (splice t 0 ((sectorBytes s).take 512)) k = _ := byte_replaced hlen k.isLt
  rw [byte, dif_pos k.isLt, sectorBytes, getD_eq_getElem?_getD, List.getElem?_ofFn,
    dif_pos k.isLt] at hbyte
  exact hbyte

theorem word_of_bytes {s : Sector} (hi : i < 128) (hv : v < 4294967296)
    (h : ∀ k < 4, byte s (4 * i + k) = UInt8.ofNat (v / 256 ^ k)) : word s i = v := by
  have hcongr : word s i = word (setWord zero i v) i := word_congr fun k hk ↦ by
    have hsplit : k = 4 * i + k % 4 := by omega
    rw [byte_setWord, if_pos ⟨hk, by omega⟩, hsplit, h (k % 4) (by omega)]
    congr 3
    omega
  rw [hcongr, word_setWord_self hi hv]

theorem getD_flatMap_leBytes (l : List Nat) (r : List UInt8) (hi : i < l.length) (hk : k < 4) :
    (l.flatMap leBytes ++ r).getD (4 * i + k) 0 = UInt8.ofNat (l.getD i 0 / 256 ^ k) := by
  induction l generalizing i with
  | nil => cases hi
  | cons v l ih =>
    rw [flatMap_cons, append_assoc]
    cases i with
    | zero =>
      rw [getD_append _ _ _ _ (by simp [leBytes]; omega)]
      simp [leBytes, hk]
    | succ i =>
      rw [getD_append_right _ _ _ _ (by simp [leBytes]; omega)]
      simpa [leBytes, show 4 * (i + 1) + k - 4 = 4 * i + k by omega] using ih (by simpa using hi)

theorem length_flatMap_leBytes (l : List Nat) : (l.flatMap leBytes).length = 4 * l.length := by
  simp [leBytes, mul_comm]

def InodeDisk.words (d : InodeDisk) : List Nat :=
  d.directBlocks ++ [d.indirectBlock, d.doublyIndirectBlock, u32 d.length, u32 d.writeEnd, d.magic]

theorem InodeDisk.toBytes_eq (d : InodeDisk) :
    d.toBytes = d.words.flatMap leBytes ++ ([d.isDir, d.isSymlink] ++ List.replicate 442 0) := by
  simp only [toBytes, words, flatMap_append, flatMap_cons, flatMap_nil,
    append_assoc, nil_append]

variable {d : InodeDisk}

section

variable (h : d.directBlocks.length = 12)
include h

theorem InodeDisk.length_toBytes : d.toBytes.length = 512 := by
  simp only [toBytes_eq, length_append, length_flatMap_leBytes, words, h,
    length_cons, length_nil, length_replicate]

theorem InodeDisk.word_toBytes (hi : i < 17)
    (hv : d.words.getD i 0 < 4294967296) : word (splice t 0 (d.toBytes.take 512)) i = d.words.getD i 0 := by
  have hlen : d.words.length = 17 := by simp [words, h]
  refine word_of_bytes (by omega) hv fun k hk ↦ ?_
  rw [byte_replaced (length_toBytes h) (by omega), toBytes_eq,
    getD_flatMap_leBytes _ _ (by omega) hk]

theorem InodeDisk.isDir_toBytes :
    byte (splice t 0 (d.toBytes.take 512)) 68 = d.isDir := by
  have hlen : (d.words.flatMap leBytes).length = 68 := by
    rw [length_flatMap_leBytes]
    simp [words, h]
  rw [byte_replaced (length_toBytes h) (by omega), toBytes_eq,
    getD_append_right _ _ _ _ (by omega), hlen]
  rfl

end

theorem word_pointers (first count : Nat) (hcount : count ≤ 128) (hfirst : first + count ≤ 4294967296) :
    word (pointers first count) i = if i < count then first + i else 0 := by
  induction count with
  | zero => simp [pointers]
  | succ count ih =>
    have hrec := ih (by omega) (by omega)
    rw [pointers] at hrec ⊢
    rw [range_succ, foldl_append, foldl_cons, foldl_nil, word_setWord (by omega) (by omega), hrec]
    split_ifs <;> first | rfl | omega

theorem directFor_spec (first m : Nat) (hm : m ≤ 12) :
    ((List.range m).foldl (fun d i ↦ d.set i (first + i)) (List.replicate 12 0)).length = 12 ∧
      ∀ i, ((List.range m).foldl (fun d i ↦ d.set i (first + i)) (List.replicate 12 0)).getD i 0 =
        if i < m then first + i else 0 := by
  induction m with
  | zero =>
    refine ⟨length_replicate, fun i ↦ ?_⟩
    exact getElem?_getD_replicate_default_eq 0 12 i
  | succ m ih =>
    obtain ⟨hlen, hget⟩ := ih (by omega)
    rw [range_succ, foldl_append, foldl_cons, foldl_nil]
    refine ⟨by rw [length_set, hlen], fun i ↦ ?_⟩
    have hi := hget i
    rw [getD_eq_getElem?_getD] at hi ⊢
    rw [getElem?_set]
    by_cases him : m = i
    · rw [if_pos him, if_pos (by omega), if_pos (by omega), him]
      rfl
    · rw [if_neg him, hi]
      split_ifs <;> first | rfl | omega

theorem length_directFor (first n : Nat) : (DiskBuilder.directFor first n).length = 12 :=
  (directFor_spec first (min n 12) (min_le_right _ _)).1

theorem getD_directFor (first n : Nat) (hi : i < 12) :
    (DiskBuilder.directFor first n).getD i 0 = if i < n then first + i else 0 := by
  rw [directFor, (directFor_spec first (min n 12) (min_le_right _ _)).2]
  split_ifs <;> first | rfl | omega

theorem getD_chunk (bytes : List UInt8) (i : Nat) (hk : k < 512) :
    (chunk bytes i).getD k 0 = bytes.getD (512 * i + k) 0 := by
  rw [chunk, getD_eq_getElem?_getD, getD_eq_getElem?_getD]
  by_cases hlt : 512 * i + k < bytes.length
  · rw [getElem?_take_of_lt (by omega), getElem?_drop]
  · rw [getElem?_eq_none (by rw [length_take]; omega), getElem?_eq_none (by omega)]

theorem byte_chunk (bytes : List UInt8) (i : Nat) (hk : k < 512) :
    byte (splice zero 0 (chunk bytes i)) k = bytes.getD (512 * i + k) 0 := by
  rw [byte_splice, ← getD_chunk bytes i hk]
  split
  · rw [Nat.sub_zero]
  · next h =>
    rw [byte_zero, getD_eq_default _ _ (by omega)]

end Bytes

/-- The sectors below the mark are the ones in use, and those above it have not been written. -/
structure Sound (b : DiskBuilder) : Prop where
  length : b.used.length = b.sectorCount
  small : b.sectorCount < 4294967296
  ge : 2 ≤ b.nextFree
  le : b.nextFree ≤ b.sectorCount
  marks : ∀ i, b.used.getD i false = decide (i < b.nextFree)
  blank : ∀ z, b.nextFree ≤ z → b.data z = zero

structure Bumped (b : DiskBuilder) (n : Nat) (b' : DiskBuilder) : Prop where
  nextFree : b'.nextFree = b.nextFree + n
  data : b'.data = b.data
  sectorCount : b'.sectorCount = b.sectorCount
  sound : Sound b'

section Builder

variable {b b' : DiskBuilder} {s n first : Nat} {f : Sector → Sector} {bytes : List UInt8}

theorem sound_new {sizeMb : Nat} (h : DiskBuilder.new sizeMb = some b) : Sound b := by
  unfold DiskBuilder.new at h
  simp only at h
  split at h
  · next h2 =>
    cases h
    refine ⟨by simp, Nat.mod_lt _ (by decide), le_rfl, h2, fun i ↦ ?_, fun _ _ ↦ rfl⟩
    generalize sizeMb * 1024 * 1024 / 512 % 4294967296 = c at h2
    rw [getD_eq_getElem?_getD, getElem?_set, getElem?_set]
    by_cases h1 : 1 = i
    · simp [← h1, show 1 < c by omega]
    · by_cases h0 : 0 = i
      · simp [← h0, show 0 < c by omega]
      · rw [if_neg h1, if_neg h0, getElem?_getD_replicate_default_eq]
        simp only [Bool.false_eq, decide_eq_false_iff_not]
        omega
  · cases h

theorem Sound.allocSector (h : Sound b) (ha : b.allocSector = some (s, b')) :
    s = b.nextFree ∧ Bumped b 1 b' := by
  unfold DiskBuilder.allocSector at ha
  split at ha
  · next hlt =>
    cases ha
    refine ⟨rfl, rfl, rfl, rfl, ?_, h.small, Nat.le_succ_of_le h.ge, h.length ▸ hlt, fun i ↦ ?_,
      fun z hz ↦ h.blank z (Nat.le_of_succ_le hz)⟩
    · rw [length_set, h.length]
    · have hi := h.marks i
      rw [getD_eq_getElem?_getD] at hi ⊢
      rw [getElem?_set]
      by_cases hib : b.nextFree = i
      · simp [← hib, hlt]
      · rw [if_neg hib, hi]
        simp only [decide_eq_decide]
        omega
  · cases ha

theorem Sound.allocTimes (n : Nat) : ∀ {b b' : DiskBuilder}, Sound b → DiskBuilder.allocTimes n b = some b' →
    Bumped b n b' := by
  induction n with
  | zero =>
    intro b b' h ha
    cases ha
    exact ⟨rfl, rfl, rfl, h⟩
  | succ n ih =>
    intro b b' h ha
    obtain ⟨⟨s, b₁⟩, h₁, ha⟩ := bind_eq_some_iff.mp ha
    obtain ⟨-, hb⟩ := h.allocSector h₁
    have hrest := ih hb.sound ha
    refine ⟨?_, hrest.data.trans hb.data, hrest.sectorCount.trans hb.sectorCount, hrest.sound⟩
    rw [hrest.nextFree, hb.nextFree]
    omega

theorem Sound.allocSectors (h : Sound b) (hn : n < 4294967296) (ha : b.allocSectors n = some (first, b')) :
    first = b.nextFree ∧ Bumped b n b' := by
  obtain ⟨b₁, h₁, he⟩ := bind_eq_some_iff.mp ha
  cases he
  rw [Nat.mod_eq_of_lt hn] at h₁
  exact ⟨rfl, h.allocTimes n h₁⟩

theorem change_eq_some : b.change s f = some b' ↔
    s < b.sectorCount ∧ b' = { b with data := update b.data s (f (b.data s)) } := by
  unfold change
  split
  · next h => exact ⟨fun he ↦ ⟨h, (some.inj he).symm⟩, fun he ↦ by rw [he.2]⟩
  · next h => exact ⟨fun he ↦ (some_ne_none _ he.symm).elim, fun he ↦ absurd he.1 h⟩

theorem Sound.rewrite (h : Sound b) {D : Nat → Sector} (hD : ∀ z, b.nextFree ≤ z → D z = zero) :
    Sound { b with data := D } :=
  ⟨h.length, h.small, h.ge, h.le, h.marks, hD⟩

theorem foldlM_range_succ {α : Type} (f : α → Nat → Option α) (a : α) (m : Nat) :
    (List.range (m + 1)).foldlM f a = ((List.range m).foldlM f a).bind fun r ↦ f r m := by
  rw [range_succ]
  simp

theorem foldlM_change {g : Nat → Sector → Sector} (m : Nat) :
    (List.range m).foldlM (fun b i ↦ b.change (first + i) (g i)) b = some b' →
      (m ≠ 0 → first + m ≤ b.sectorCount) ∧ b' = { b with
        data := fun z ↦ if first ≤ z ∧ z < first + m then g (z - first) (b.data z) else b.data z } := by
  induction m generalizing b' with
  | zero =>
    rintro ⟨⟩
    refine ⟨fun h ↦ absurd rfl h, ?_⟩
    simp only [add_zero, show ∀ z, ¬ (first ≤ z ∧ z < first) by omega, if_false]
  | succ m ih =>
    intro h
    rw [foldlM_range_succ] at h
    obtain ⟨b₁, h₁, h₂⟩ := bind_eq_some_iff.mp h
    obtain ⟨-, rfl⟩ := ih h₁
    obtain ⟨hlt, rfl⟩ := change_eq_some.mp h₂
    refine ⟨fun _ ↦ hlt, ?_⟩
    simp only [DiskBuilder.mk.injEq, and_true]
    funext z
    rw [update_apply]
    by_cases hz : z = first + m
    · subst hz
      rw [if_pos rfl, if_neg (by omega), if_pos (by omega), Nat.add_sub_cancel_left]
    · rw [if_neg hz]
      refine if_congr ?_ rfl rfl
      omega

/-- The sectors from the mark of `b` on have been allocated up to `next`, and those before are as they
were. -/
structure Extended (b : DiskBuilder) (next : Nat) (b' : DiskBuilder) : Prop where
  nextFree : b'.nextFree = next
  sectorCount : b'.sectorCount = b.sectorCount
  sound : Sound b'
  kept : ∀ z < b.nextFree, b'.data z = b.data z

theorem Extended.trans {b'' : DiskBuilder} {m : Nat} (h : Extended b m b') (hm : b.nextFree ≤ m)
    (h' : Extended b' n b'') : Extended b n b'' :=
  ⟨h'.nextFree, h'.sectorCount.trans h.sectorCount, h'.sound, fun z hz ↦
    (h'.kept z (by rw [h.nextFree]; omega)).trans (h.kept z hz)⟩

theorem Extended.refl (h : Sound b) : Extended b b.nextFree b := ⟨rfl, rfl, h, fun _ _ ↦ rfl⟩

theorem Sound.allocWrite {b₁ : DiskBuilder} {v : Sector} (h : Sound b) (ha : b.allocSector = some (s, b₁))
    (hw : b₁.writeSectorBytes s (DiskBuilder.sectorBytes v) = some b') :
    s = b.nextFree ∧ b'.data s = v ∧ Extended b (b.nextFree + 1) b' := by
  obtain ⟨rfl, hb⟩ := h.allocSector ha
  obtain ⟨-, rfl⟩ := change_eq_some.mp hw
  refine ⟨rfl, ?_, hb.nextFree, hb.sectorCount, hb.sound.rewrite fun z hz ↦ ?_, fun z hz ↦ ?_⟩
  · simp only [update_self, splice_sectorBytes]
  · rw [update_of_ne (by rw [hb.nextFree] at hz; omega)]
    exact hb.sound.blank z hz
  · simp only [update_of_ne hz.ne, hb.data]

theorem Sound.writeIndirect (h : Sound b) {indirect : Nat}
    (hw : b.writeIndirect first n = some (indirect, b')) :
    indirect = (if 12 < n then b.nextFree else 0) ∧
      (12 < n → b'.data b.nextFree = pointers (first + 12) (min (n - 12) 128)) ∧
      Extended b (b.nextFree + if 12 < n then 1 else 0) b' := by
  unfold DiskBuilder.writeIndirect at hw
  split at hw
  · next hn =>
    obtain ⟨⟨s, b₁⟩, ha, hw⟩ := bind_eq_some_iff.mp hw
    obtain ⟨b₂, hw, he⟩ := bind_eq_some_iff.mp hw
    cases he
    obtain ⟨rfl, hdata, hext⟩ := h.allocWrite ha hw
    rw [if_pos hn, if_pos hn]
    exact ⟨rfl, fun _ ↦ hdata, hext⟩
  · next hn =>
    cases hw
    rw [if_neg hn, if_neg hn]
    exact ⟨rfl, fun hn' ↦ absurd hn' hn, .refl h⟩

theorem Sound.foldlM_writeInner (h : Sound b) {outer : Sector} (m : Nat) :
    (List.range m).foldlM (DiskBuilder.writeInner first n) (zero, b) = some (outer, b') →
      m ≤ 128 ∧ (∀ j, word outer j = if j < m then b.nextFree + j else 0) ∧
        (∀ j < m, b'.data (b.nextFree + j) =
          pointers (first + (140 + j * 128)) (min (n - (140 + j * 128)) 128)) ∧
        Extended b (b.nextFree + m) b' := by
  induction m generalizing outer b' with
  | zero =>
    rintro ⟨⟩
    exact ⟨Nat.zero_le _, fun _ ↦ by simp, fun _ hj ↦ absurd hj (Nat.not_lt_zero _), .refl h⟩
  | succ m ih =>
    intro hw
    rw [foldlM_range_succ] at hw
    obtain ⟨⟨outer₁, b₁⟩, h₁, h₂⟩ := bind_eq_some_iff.mp hw
    obtain ⟨-, houter, hinner, hext⟩ := ih h₁
    obtain ⟨⟨inner, b₃⟩, ha, h₂⟩ := bind_eq_some_iff.mp h₂
    simp only at h₂
    split at h₂
    · next hm =>
      obtain ⟨b₄, h₄, he⟩ := bind_eq_some_iff.mp h₂
      cases he
      obtain ⟨rfl, hdata, hext'⟩ := hext.sound.allocWrite ha h₄
      rw [hext.nextFree] at hdata hext' ⊢
      have hle := hext'.sound.le
      have hsmall := hext'.sound.small
      rw [hext'.nextFree] at hle
      refine ⟨hm, fun j ↦ ?_, fun j hj ↦ ?_, hext.trans (by omega) hext'⟩
      · rw [word_setWord hm (by omega), houter]
        split_ifs <;> first | rfl | omega
      · rcases Nat.lt_succ_iff_lt_or_eq.mp hj with hj | rfl
        · rw [hext'.kept _ (by rw [hext.nextFree]; omega)]
          exact hinner j hj
        · exact hdata
    · cases h₂

def innerCount (n : Nat) : Nat := (n - 140 + 127) / 128

theorem Sound.writeDoubly (h : Sound b) {doubly : Nat} (hw : b.writeDoubly first n = some (doubly, b')) :
    n ≤ 16524 ∧ doubly = (if 140 < n then b.nextFree else 0) ∧
      (140 < n → ∀ j, word (b'.data b.nextFree) j = if j < innerCount n then b.nextFree + 1 + j else 0) ∧
      (140 < n → ∀ j < innerCount n, b'.data (b.nextFree + 1 + j) =
        pointers (first + (140 + j * 128)) (min (n - (140 + j * 128)) 128)) ∧
      Extended b (b.nextFree + if 140 < n then 1 + innerCount n else 0) b' := by
  unfold DiskBuilder.writeDoubly at hw
  split at hw
  · next hn =>
    obtain ⟨⟨s, b₁⟩, ha, hw⟩ := bind_eq_some_iff.mp hw
    obtain ⟨⟨outer, b₂⟩, hf, hw⟩ := bind_eq_some_iff.mp hw
    obtain ⟨b₃, hw, he⟩ := bind_eq_some_iff.mp hw
    cases he
    obtain ⟨rfl, hb⟩ := h.allocSector ha
    obtain ⟨hm, houter, hinner, hext⟩ := hb.sound.foldlM_writeInner _ hf
    obtain ⟨-, rfl⟩ := change_eq_some.mp hw
    rw [hb.nextFree] at houter hinner hext
    have hlast := hext.nextFree
    refine ⟨by omega, (if_pos hn).symm, fun _ j ↦ ?_, fun _ j hj ↦ ?_, ?_⟩
    · simp only [update_self, splice_sectorBytes]
      exact houter j
    · simp only [update_of_ne (show b.nextFree + 1 + j ≠ b.nextFree by omega)]
      exact hinner j hj
    · rw [if_pos hn, ← add_assoc]
      refine ⟨hlast, hext.sectorCount.trans hb.sectorCount, hext.sound.rewrite fun z hz ↦ ?_, fun z hz ↦ ?_⟩
      · rw [update_of_ne (by omega)]
        exact hext.sound.blank z hz
      · simp only [update_of_ne hz.ne]
        rw [hext.kept z (by rw [hb.nextFree]; omega), hb.data]
  · next hn =>
    cases hw
    rw [if_neg hn, if_neg hn]
    exact ⟨by omega, rfl, fun hn' ↦ absurd hn' hn, fun hn' ↦ absurd hn' hn, .refl h⟩

end Builder

def Contents (D : Nat → Sector) (first : Nat) (bytes : List UInt8) : Prop :=
  ∀ k < 512 * sectorsFor bytes.length, byte (D (first + k / 512)) (k % 512) = bytes.getD k 0

/-- The index of a file of `n` sectors from `first` on, with its index blocks from `idx` on. -/
structure Indexed (D : Nat → Sector) (d : Sector) (first n idx : Nat) : Prop where
  direct : ∀ i < 12, word d i = if i < n then first + i else 0
  indirect : word d 12 = if 12 < n then idx else 0
  doubly : word d 13 = if 140 < n then idx + 1 else 0
  pointers : 12 < n → ∀ i < 128, word (D idx) i = if 12 + i < n then first + (12 + i) else 0
  outer : 140 < n → ∀ j < 128, word (D (idx + 1)) j = if 140 + 128 * j < n then idx + 2 + j else 0
  inner : ∀ j, 140 + 128 * j < n → ∀ i < 128,
    word (D (idx + 2 + j)) i = if 140 + 128 * j + i < n then first + (140 + 128 * j + i) else 0

def indexCount (n : Nat) : Nat := (if 12 < n then 1 else 0) + if 140 < n then 1 + innerCount n else 0

structure FileAt (D : Nat → Sector) (s first idx : Nat) (bytes : List UInt8) (isDir : Bool) : Prop where
  size : sectorsFor bytes.length ≤ 16524
  index : Indexed D (D s) first (sectorsFor bytes.length) idx
  contents : Contents D first bytes
  length : Filesys.InodeDisk.length (D s) = bytes.length
  isDir : Filesys.InodeDisk.isDir (D s) = isDir

section Files

variable {b b' : DiskBuilder} {D D' : Nat → Sector} {d : Sector} {s n first idx : Nat} {bytes : List UInt8}

variable {b₁ : DiskBuilder} {isDir : Bool} {inode : InodeDisk} {len : Nat}

theorem Sound.allocCopy (h : Sound b) (hn : n = sectorsFor bytes.length)
    (ha : b.allocSectors n = some (first, b₁)) (hc : b₁.copyData first bytes = some b') :
    first = b.nextFree ∧ Contents b'.data first bytes ∧ Extended b (b.nextFree + n) b' := by
  subst hn
  obtain ⟨hle, rfl⟩ := foldlM_change _ hc
  have hlt : sectorsFor bytes.length < 4294967296 := by
    obtain ⟨b₂, h₂, he⟩ := bind_eq_some_iff.mp ha
    cases he
    have hcount := (h.allocTimes _ h₂).sectorCount
    have hsmall := h.small
    by_contra hbig
    omega
  obtain ⟨rfl, hb⟩ := h.allocSectors hlt ha
  have hnext := hb.nextFree
  refine ⟨rfl, fun k hk ↦ ?_, hnext, hb.sectorCount, hb.sound.rewrite fun z hz ↦ ?_, fun z hz ↦ ?_⟩
  · have hblank : b₁.data (b.nextFree + k / 512) = zero := by
      rw [hb.data]
      exact h.blank _ (Nat.le_add_right _ _)
    simp only
    rw [if_pos (by omega), Nat.add_sub_cancel_left, hblank, byte_chunk _ _ (Nat.mod_lt _ (by decide)),
      Nat.div_add_mod]
  · rw [if_neg (by omega)]
    exact hb.sound.blank z hz
  · simp only
    rw [if_neg (by omega), hb.data]

theorem Indexed.congr (h : Indexed D d first n idx) (hD : ∀ z, idx ≤ z → z < idx + indexCount n → D' z = D z) :
    Indexed D' d first n idx := by
  unfold indexCount innerCount at hD
  refine ⟨h.direct, h.indirect, h.doubly, fun hn i hi ↦ ?_, fun hn j hj ↦ ?_, fun j hj i hi ↦ ?_⟩
  · rw [hD idx le_rfl (by rw [if_pos hn]; omega)]
    exact h.pointers hn i hi
  · rw [hD (idx + 1) (by omega) (by rw [if_pos hn]; omega)]
    exact h.outer hn j hj
  · rw [hD (idx + 2 + j) (by omega) (by rw [if_pos (by omega), if_pos (by omega)]; omega)]
    exact h.inner j hj i hi

theorem Contents.congr (h : Contents D first bytes)
    (hD : ∀ z, first ≤ z → z < first + sectorsFor bytes.length → D' z = D z) : Contents D' first bytes := by
  intro k hk
  rw [hD _ (by omega) (by omega)]
  exact h k hk

theorem FileAt.congr (h : FileAt D s first idx bytes isDir) (hs : D' s = D s)
    (hfirst : ∀ z, first ≤ z → z < first + sectorsFor bytes.length → D' z = D z)
    (hidx : ∀ z, idx ≤ z → z < idx + indexCount (sectorsFor bytes.length) → D' z = D z) :
    FileAt D' s first idx bytes isDir := by
  refine ⟨h.size, ?_, h.contents.congr hfirst, ?_, ?_⟩
  · rw [hs]
    exact h.index.congr hidx
  · rw [hs]
    exact h.length
  · rw [hs]
    exact h.isDir

structure InodeAt (d : Sector) (first n indirect doubly : Nat) (len : Nat) (isDir : Bool) : Prop where
  direct : ∀ i < 12, word d i = if i < n then first + i else 0
  indirect : word d 12 = indirect
  doubly : word d 13 = doubly
  length : len < 2147483648 → Filesys.InodeDisk.length d = len
  isDir : Filesys.InodeDisk.isDir d = isDir

theorem inodeAt_toBytes {t : Sector}
    (hdirect : inode.directBlocks = DiskBuilder.directFor first n) (hfirst : n ≠ 0 → first + n ≤ 4294967296)
    (hindirect : inode.indirectBlock < 4294967296) (hdoubly : inode.doublyIndirectBlock < 4294967296)
    (hlen : inode.length = len) :
    InodeAt (splice t 0 (inode.toBytes.take 512)) first n inode.indirectBlock inode.doublyIndirectBlock len
      (inode.isDir != 0) := by
  have h12 : inode.directBlocks.length = 12 := by rw [hdirect, length_directFor]
  have hrest : ∀ i, inode.words.getD (12 + i) 0 = [inode.indirectBlock, inode.doublyIndirectBlock,
      u32 inode.length, u32 inode.writeEnd, inode.magic].getD i 0 := fun i ↦ by
    rw [words, getD_append_right _ _ _ _ (by omega), h12, Nat.add_sub_cancel_left]
  refine ⟨fun i hi ↦ ?_, ?_, ?_, fun hsmall ↦ ?_, ?_⟩
  · have hget : inode.words.getD i 0 = if i < n then first + i else 0 := by
      rw [words, getD_append _ _ _ _ (by omega), hdirect, getD_directFor first n hi]
    rw [word_toBytes h12 (by omega), hget]
    rw [hget]
    split <;> omega
  · rw [word_toBytes h12 (by omega)]
    · exact hrest 0
    · rw [hrest 0]
      exact hindirect
  · rw [word_toBytes h12 (by omega)]
    · exact hrest 1
    · rw [hrest 1]
      exact hdoubly
  · rw [Filesys.InodeDisk.length, word_toBytes h12 (by omega)]
    · rw [show inode.words.getD 14 0 = u32 inode.length from hrest 2, hlen, i32_u32 (by omega) (by omega)]
    · rw [hrest 2]
      exact u32_lt _
  · rw [Filesys.InodeDisk.isDir, isDir_toBytes h12]

theorem InodeAt.indexed
    (h : InodeAt d first n (if 12 < n then idx else 0) (if 140 < n then idx + 1 else 0) len isDir)
    (hfirst : first + n ≤ 4294967296)
    (hpointers : 12 < n → D idx = Mkdisk.pointers (first + 12) (min (n - 12) 128))
    (houter : 140 < n → ∀ j, word (D (idx + 1)) j = if j < innerCount n then idx + 2 + j else 0)
    (hinner : 140 < n → ∀ j < innerCount n, D (idx + 2 + j) =
      Mkdisk.pointers (first + (140 + j * 128)) (min (n - (140 + j * 128)) 128)) :
    Indexed D d first n idx := by
  unfold innerCount at houter hinner
  refine ⟨h.direct, h.indirect, h.doubly, fun hn i hi ↦ ?_, fun hn j hj ↦ ?_, fun j hj i hi ↦ ?_⟩
  · rw [hpointers hn, word_pointers _ _ (min_le_right _ _) (by omega)]
    split_ifs <;> omega
  · rw [houter hn j]
    split_ifs <;> omega
  · rw [hinner (by omega) j (by omega), word_pointers _ _ (min_le_right _ _) (by omega)]
    split_ifs <;> omega

theorem FileAt.ofInode (hn : n = sectorsFor bytes.length) (hsize : n ≤ 16524)
    (hdirect : inode.directBlocks = DiskBuilder.directFor first n)
    (hindirect : inode.indirectBlock = if 12 < n then idx else 0)
    (hdoubly : inode.doublyIndirectBlock = if 140 < n then idx + 1 else 0) (hlen : inode.length = bytes.length)
    (hcontents : Contents D first bytes)
    (hindexed : ∀ v len isDir, InodeAt v first n (if 12 < n then idx else 0) (if 140 < n then idx + 1 else 0)
      len isDir → Indexed D v first n idx)
    (hs : s < first) (hidx : first + n ≤ idx) (hfit : idx + indexCount n ≤ 4294967296) :
    FileAt (update D s (splice (D s) 0 (inode.toBytes.take 512))) s first idx bytes (inode.isDir != 0) := by
  have hother : ∀ v z, first ≤ z → update D s v z = D z := fun v z hz ↦ update_of_ne (by omega) _ _
  unfold indexCount at hfit
  have hinode : InodeAt (splice (D s) 0 (inode.toBytes.take 512)) first n inode.indirectBlock
      inode.doublyIndirectBlock bytes.length (inode.isDir != 0) := by
    refine inodeAt_toBytes hdirect (by omega) ?_ ?_ hlen
    · rw [hindirect]
      split_ifs with h12
      · rw [if_pos h12] at hfit
        omega
      · decide
    · rw [hdoubly]
      split_ifs with h140
      · rw [if_pos (by omega), if_pos h140] at hfit
        omega
      · decide
  have hbytes : bytes.length < 2147483648 := by
    unfold sectorsFor at hn
    omega
  subst hn
  refine ⟨hsize, ?_, hcontents.congr fun z hz _ ↦ hother _ z hz, ?_, ?_⟩
  · rw [update_self]
    rw [hindirect, hdoubly] at hinode
    exact (hindexed _ _ _ hinode).congr fun z hz _ ↦ hother _ z (by omega)
  · rw [update_self, hinode.length hbytes]
  · rw [update_self, hinode.isDir]

theorem Extended.write {next : Nat} {v : Sector} (h : Extended b next b') (hs : s < next) :
    Sound { b' with data := update b'.data s v } ∧
      ∀ z < b.nextFree, z ≠ s → update b'.data s v z = b.data z := by
  refine ⟨h.sound.rewrite fun z hz ↦ ?_, fun z hz hne ↦ ?_⟩
  · rw [update_of_ne (by rw [h.nextFree] at hz; omega)]
    exact h.sound.blank z hz
  · rw [update_of_ne hne, h.kept z hz]

theorem Sound.blocks {b₂ b₃ b₄ : DiskBuilder} {indirect doubly : Nat} (h : Sound b)
    (hn : n = sectorsFor bytes.length) (hs : b.allocSectors n = some (first, b₁))
    (hc : b₁.copyData first bytes = some b₂) (hi : b₂.writeIndirect first n = some (indirect, b₃))
    (hd : b₃.writeDoubly first n = some (doubly, b₄)) :
    first = b.nextFree ∧ n ≤ 16524 ∧ indirect = (if 12 < n then first + n else 0) ∧
      doubly = (if 140 < n then first + n + 1 else 0) ∧ Contents b₄.data first bytes ∧
      (∀ v len isDir, InodeAt v first n indirect doubly len isDir → Indexed b₄.data v first n (first + n)) ∧
      Extended b (first + n + indexCount n) b₄ := by
  obtain ⟨rfl, hcontents, hext₂⟩ := h.allocCopy hn hs hc
  obtain ⟨rfl, hpointers, hext₃⟩ := hext₂.sound.writeIndirect hi
  obtain ⟨hsize, rfl, houter, hinner, hext₄⟩ := hext₃.sound.writeDoubly hd
  have h₂ := hext₂.nextFree
  have h₃ := hext₃.nextFree
  rw [h₂] at hpointers h₃ ⊢
  have hnext : (b₃.nextFree + if 140 < n then 1 + innerCount n else 0) = b.nextFree + n + indexCount n := by
    unfold indexCount
    omega
  rw [hnext] at hext₄
  have hext : Extended b (b.nextFree + n + indexCount n) b₄ :=
    hext₂.trans (by omega) (hext₃.trans (by omega) hext₄)
  have h₃' : 140 < n → b₃.nextFree = b.nextFree + n + 1 := fun hn ↦ by
    rw [if_pos (by omega)] at h₃
    exact h₃
  have hdoubly : (if 140 < n then b₃.nextFree else 0) = if 140 < n then b.nextFree + n + 1 else 0 := by
    split_ifs with hn
    · exact h₃' hn
    · rfl
  rw [hdoubly]
  refine ⟨rfl, hsize, rfl, rfl, ?_, fun v len isDir hv ↦ hv.indexed ?_ (fun hn ↦ ?_) (fun hn j ↦ ?_)
    (fun hn j hj ↦ ?_), hext⟩
  · refine hcontents.congr fun z _ hz ↦ ?_
    rw [hext₄.kept z (by omega), hext₃.kept z (by omega)]
  · have hle := hext.sound.le
    have hsmall := hext.sound.small
    rw [hext.nextFree] at hle
    omega
  · rw [hext₄.kept _ (by rw [h₃, if_pos hn]; omega)]
    exact hpointers hn
  · rw [← h₃' hn, houter hn, h₃' hn]
  · rw [← hinner hn j hj, h₃' hn]

theorem Sound.writeFile (h : Sound b) (hw : b.writeFile bytes = some (s, b')) :
    s = b.nextFree ∧ FileAt b'.data s (s + 1) (s + 1 + sectorsFor bytes.length) bytes false ∧
      Extended b (s + 1 + sectorsFor bytes.length + indexCount (sectorsFor bytes.length)) b' := by
  obtain ⟨⟨s, b₁⟩, ha, hw⟩ := bind_eq_some_iff.mp hw
  obtain ⟨⟨first, b₂⟩, hs, hw⟩ := bind_eq_some_iff.mp hw
  obtain ⟨b₃, hc, hw⟩ := bind_eq_some_iff.mp hw
  obtain ⟨⟨indirect, b₄⟩, hi, hw⟩ := bind_eq_some_iff.mp hw
  obtain ⟨⟨doubly, b₅⟩, hd, hw⟩ := bind_eq_some_iff.mp hw
  obtain ⟨b₆, hw, he⟩ := bind_eq_some_iff.mp hw
  cases he
  obtain ⟨rfl, hb⟩ := h.allocSector ha
  obtain ⟨rfl, hsize, rfl, rfl, hcontents, hindexed, hext⟩ := hb.sound.blocks rfl hs hc hi hd
  obtain ⟨-, rfl⟩ := change_eq_some.mp hw
  have h₁ := hb.nextFree
  have hle := hext.sound.le
  have hsmall := hext.sound.small
  rw [hext.nextFree] at hle
  obtain ⟨hsound, hkept⟩ := hext.write (show b.nextFree < _ by omega)
  rw [← h₁]
  refine ⟨rfl, ?_, hext.nextFree, hext.sectorCount.trans hb.sectorCount, hsound, fun z hz ↦ ?_⟩
  · exact FileAt.ofInode rfl hsize rfl rfl rfl rfl hcontents hindexed (by omega) le_rfl (by omega)
  · exact (hkept z (by omega) hz.ne).trans (by rw [hb.data])

end Files

/-- A file without a doubly indirect block, of which the index has room for 140 sectors. -/
structure SmallAt (D : Nat → Sector) (s first n : Nat) (bytes : List UInt8) (isDir : Bool) : Prop where
  count : n = sectorsFor bytes.length
  index : Indexed D (D s) first (min n 140) (first + n)
  contents : Contents D first bytes
  length : bytes.length < 2147483648 → Filesys.InodeDisk.length (D s) = bytes.length
  isDir : Filesys.InodeDisk.isDir (D s) = isDir

section SmallFiles

variable {b b' b₁ b₂ b₃ : DiskBuilder} {s n first : Nat} {bytes : List UInt8}

theorem Extended.small {inode : InodeDisk}
    (hext : Extended b (b.nextFree + n + if 12 < n then 1 else 0) b₃) (hn : n = sectorsFor bytes.length)
    (hcontents : Contents b₃.data b.nextFree bytes)
    (hpointers : 12 < n → b₃.data (b.nextFree + n) = pointers (b.nextFree + 12) (min (n - 12) 128))
    (hdirect : inode.directBlocks = DiskBuilder.directFor b.nextFree n)
    (hindirect : inode.indirectBlock = if 12 < n then b.nextFree + n else 0)
    (hdoubly : inode.doublyIndirectBlock = 0) (hlen : inode.length = bytes.length) (hs : s < b.nextFree)
    (hw : b₃.writeSectorBytes s inode.toBytes = some b') :
    SmallAt b'.data s b.nextFree n bytes (inode.isDir != 0) ∧ b'.used = b₃.used ∧ Sound b' ∧
      b'.nextFree = b.nextFree + n + (if 12 < n then 1 else 0) ∧ b'.sectorCount = b.sectorCount ∧
      ∀ z < b.nextFree, z ≠ s → b'.data z = b.data z := by
  obtain ⟨-, rfl⟩ := change_eq_some.mp hw
  obtain ⟨hsound, hkept⟩ := hext.write (show s < _ by omega)
  have hle := hext.sound.le
  have hsmall := hext.sound.small
  rw [hext.nextFree] at hle
  have hother : ∀ v z, b.nextFree ≤ z → update b₃.data s v z = b₃.data z := fun v z hz ↦
    update_of_ne (by omega) _ _
  have hinode : InodeAt (splice (b₃.data s) 0 (inode.toBytes.take 512)) b.nextFree n inode.indirectBlock
      inode.doublyIndirectBlock bytes.length (inode.isDir != 0) := by
    refine inodeAt_toBytes hdirect (by omega) ?_ (by omega) hlen
    rw [hindirect]
    split_ifs with h12
    · omega
    · decide
  refine ⟨⟨hn, ?_, hcontents.congr fun z hz _ ↦ hother _ z hz, fun hbytes ↦ ?_, ?_⟩, rfl, hsound,
    hext.nextFree, hext.sectorCount, hkept⟩
  · simp only [update_self]
    -- The index is the one of a file of the first 140 sectors.
    have hmin : InodeAt (splice (b₃.data s) 0 (inode.toBytes.take 512)) b.nextFree (min n 140)
        (if 12 < min n 140 then b.nextFree + n else 0) (if 140 < min n 140 then b.nextFree + n + 1 else 0)
        bytes.length (inode.isDir != 0) := by
      refine ⟨fun i hi ↦ ?_, ?_, ?_, hinode.length, hinode.isDir⟩
      · rw [hinode.direct i hi]
        split_ifs <;> first | rfl | omega
      · rw [hinode.indirect, hindirect]
        split_ifs <;> first | rfl | omega
      · rw [hinode.doubly, hdoubly, if_neg (by omega)]
    refine (hmin.indexed (by omega) (fun h12 ↦ ?_) (fun h ↦ by omega) fun h ↦ by omega).congr
      fun z hz _ ↦ hother _ z (by omega)
    rw [hpointers (by omega)]
    congr 1
    omega
  · simp only [update_self, hinode.length hbytes]
  · simp only [update_self, hinode.isDir]

theorem Sound.writeRootDir {entries : List (List UInt8 × Nat)} (h : Sound b)
    (hw : b.writeRootDir entries = some b') :
    ∃ n, SmallAt b'.data 1 b.nextFree n (DiskBuilder.rootBytes entries) true ∧ Sound b' ∧
      b'.nextFree = b.nextFree + n + (if 12 < n then 1 else 0) ∧ b'.sectorCount = b.sectorCount ∧
      ∀ z < b.nextFree, z ≠ 1 → b'.data z = b.data z := by
  obtain ⟨⟨first, b₁⟩, hs, hw⟩ := bind_eq_some_iff.mp hw
  obtain ⟨b₂, hc, hw⟩ := bind_eq_some_iff.mp hw
  obtain ⟨⟨indirect, b₃⟩, hi, hw⟩ := bind_eq_some_iff.mp hw
  obtain ⟨rfl, hcontents, hext₂⟩ := h.allocCopy rfl hs hc
  obtain ⟨rfl, hpointers, hext₃⟩ := hext₂.sound.writeIndirect hi
  rw [hext₂.nextFree] at hpointers hext₃ hw
  have hext := hext₂.trans (by omega) hext₃
  have hcontents₃ : Contents b₃.data b.nextFree (rootBytes entries) :=
    hcontents.congr fun z _ hz ↦ hext₃.kept z (by rw [hext₂.nextFree]; exact hz)
  obtain ⟨hsmall, -, hrest⟩ := hext.small rfl hcontents₃ hpointers rfl rfl rfl rfl (by have := h.ge; omega) hw
  exact ⟨_, hsmall, hrest⟩

theorem length_bitmap (used : List Bool) (size : Nat) : (bitmap used size).length = size := by
  have hfold : ∀ (l : List Nat) (bm : List UInt8), (l.foldl (fun bm i ↦
      if used.getD i false then bm.modify (i / 8) (· ||| 1 <<< UInt8.ofNat (i % 8)) else bm) bm).length =
        bm.length := by
    intro l
    induction l with
    | nil => exact fun _ ↦ rfl
    | cons i l ih =>
      intro bm
      rw [foldl_cons, ih]
      split
      · rw [length_modify]
      · rfl
  rw [bitmap, hfold, length_replicate]

theorem Sound.writeMapIndirect {size indirect : Nat} (h : Sound b) (hn : n = sectorsFor size)
    (hfirst : first + n = b.nextFree) (hcontents : Contents b.data first (bitmap b.used size))
    (hw : b.writeMapIndirect first n size = some (indirect, b')) :
    indirect = (if 12 < n then b.nextFree else 0) ∧
      (12 < n → b'.data b.nextFree = pointers (first + 12) (min (n - 12) 128)) ∧
      Contents b'.data first (bitmap b'.used size) ∧ Sound b' ∧
      b'.nextFree = b.nextFree + (if 12 < n then 1 else 0) ∧ b'.sectorCount = b.sectorCount ∧
      ∀ z < first, b'.data z = b.data z := by
  unfold DiskBuilder.writeMapIndirect at hw
  split at hw
  · next h12 =>
    obtain ⟨⟨s, b₁⟩, ha, hw⟩ := bind_eq_some_iff.mp hw
    obtain ⟨b₂, hc, hw⟩ := bind_eq_some_iff.mp hw
    obtain ⟨b₃, hw, he⟩ := bind_eq_some_iff.mp hw
    cases he
    obtain ⟨rfl, hb⟩ := h.allocSector ha
    obtain ⟨-, rfl⟩ := foldlM_change _ hc
    obtain ⟨-, rfl⟩ := change_eq_some.mp hw
    have hnext := hb.nextFree
    rw [if_pos h12, if_pos h12]
    simp only [length_bitmap]
    refine ⟨trivial, fun _ ↦ ?_, fun k hk ↦ ?_, ?_, hnext, hb.sectorCount, fun z hz ↦ ?_⟩
    · rw [update_self, splice_sectorBytes]
    · rw [length_bitmap] at hk
      rw [update_of_ne (by omega), if_pos (by omega), Nat.add_sub_cancel_left,
        byte_chunk _ _ (Nat.mod_lt _ (by decide)), Nat.div_add_mod]
    · refine hb.sound.rewrite fun z hz ↦ ?_
      rw [update_of_ne (by omega), if_neg (by omega)]
      exact hb.sound.blank z hz
    · rw [update_of_ne (by omega), if_neg (by omega), hb.data]
  · next h12 =>
    cases hw
    rw [if_neg h12, if_neg h12]
    exact ⟨rfl, fun h ↦ absurd h h12, hcontents, h, rfl, rfl, fun _ _ ↦ rfl⟩

theorem Sound.writeFreeMap (h : Sound b) (hw : b.writeFreeMap = some b') :
    ∃ n, SmallAt b'.data 0 b.nextFree n (bitmap b'.used ((b.sectorCount + 7) / 8)) false ∧ Sound b' ∧
      b'.nextFree = b.nextFree + n + (if 12 < n then 1 else 0) ∧ b'.sectorCount = b.sectorCount ∧
      ∀ z < b.nextFree, z ≠ 0 → b'.data z = b.data z := by
  obtain ⟨⟨first, b₁⟩, hs, hw⟩ := bind_eq_some_iff.mp hw
  obtain ⟨b₂, hc, hw⟩ := bind_eq_some_iff.mp hw
  obtain ⟨⟨indirect, b₃⟩, hi, hw⟩ := bind_eq_some_iff.mp hw
  have hused : b₂.used = b₁.used := by
    obtain ⟨-, rfl⟩ := foldlM_change _ hc
    rfl
  obtain ⟨rfl, hcontents, hext₂⟩ := h.allocCopy (by rw [length_bitmap]) hs hc
  rw [← hused] at hcontents
  obtain ⟨rfl, hpointers, hcontents₃, hsound, hnext, hcount, hkept⟩ :=
    hext₂.sound.writeMapIndirect rfl hext₂.nextFree.symm hcontents hi
  rw [hext₂.nextFree] at hpointers hnext hw
  have hext : Extended b _ b₃ := ⟨hnext, hcount.trans hext₂.sectorCount, hsound, fun z hz ↦
    (hkept z hz).trans (hext₂.kept z hz)⟩
  have hlen : sectorsFor ((b.sectorCount + 7) / 8) =
      sectorsFor (bitmap b₃.used ((b.sectorCount + 7) / 8)).length := by rw [length_bitmap]
  obtain ⟨hsmall, hused', hrest⟩ := hext.small hlen hcontents₃ hpointers rfl rfl rfl (by rw [length_bitmap])
    (by have := h.ge; omega) hw
  rw [← hused'] at hsmall
  exact ⟨_, hsmall, hrest⟩

end SmallFiles

end Rxv6.Tools.Mkdisk
