import Rxv6.Tools.MkdiskLayout
import Rxv6.Filesys.Volume

namespace Rxv6.Tools.Mkdisk

open Filesys Filesys.Sector Lib.BlockTree Lib.Runs Function List

section Addresses

/-- The address at a position of the index of a file of `n` sectors. -/
def slot (first n idx : Nat) : List Nat → Nat
  | [i] =>
    if i < 12 then if i < n then first + i else 0
    else if i = 12 then if 12 < n then idx else 0
    else if 140 < n then idx + 1 else 0
  | [i, j] =>
    if j = 12 then if 12 + i < n then first + (12 + i) else 0
    else if 140 + 128 * i < n then idx + 2 + i else 0
  | [i, j, _] => if 140 + 128 * j + i < n then first + (140 + 128 * j + i) else 0
  | _ => 0

variable {D : Nat → Sector} {d : Sector} {s first n idx : Nat} {u : List Nat} {bytes : List UInt8}

theorem Indexed.addr_outer (h : Indexed D d first n idx) {j : Nat} (hj : j < 128) :
    addr word D d [j, 13] = if 140 + 128 * j < n then idx + 2 + j else 0 := by
  rw [addr_cons (cons_ne_nil _ _), addr_singleton, h.doubly]
  by_cases hn : 140 < n
  · rw [if_pos hn, if_neg (Nat.succ_ne_zero idx), h.outer hn j hj]
  · rw [if_neg hn, if_pos rfl, if_neg (by omega)]

theorem Indexed.addr_eq (h : Indexed D d first n idx) (hidx : 0 < idx) (hu : IsPos u) :
    addr word D d u = slot first n idx u := by
  rcases u with _ | ⟨i, _ | ⟨j, _ | ⟨k, _ | ⟨l, u⟩⟩⟩⟩
  · exact hu.elim
  · have hi : i < 14 := hu
    rw [addr_singleton, slot]
    by_cases hi12 : i < 12
    · rw [if_pos hi12, h.direct i hi12]
    · rcases (show i = 12 ∨ i = 13 by omega) with rfl | rfl
      · exact h.indirect
      · exact h.doubly
  · obtain ⟨hi, rfl | rfl⟩ := hu
    · rw [addr_cons (cons_ne_nil _ _), addr_singleton, h.indirect, slot, if_pos rfl]
      by_cases hn : 12 < n
      · rw [if_pos hn, if_neg (by omega), h.pointers hn i hi]
      · rw [if_neg hn, if_pos rfl, if_neg (by omega)]
    · rw [h.addr_outer hi, slot, if_neg (show ¬ 13 = 12 by decide)]
  · obtain ⟨hi, hj, rfl⟩ := hu
    rw [addr_cons (cons_ne_nil _ _), h.addr_outer hj, slot]
    by_cases hjn : 140 + 128 * j < n
    · rw [if_pos hjn, if_neg (by omega), h.inner j hjn i hi]
    · rw [if_neg hjn, if_pos rfl, if_neg (by omega)]
  · exact hu.elim

theorem slot_blockPos (first n idx b : Nat) : slot first n idx (blockPos b) = if b < n then first + b else 0 := by
  unfold blockPos
  split_ifs <;> simp only [slot] <;> split_ifs <;> omega

theorem FileAt.fileByte {isDir : Bool} (h : FileAt D s first idx bytes isDir) (hfirst : 0 < first)
    (hidx : 0 < idx) (k : Nat) : Filesys.fileByte D (D s) k = bytes.getD k 0 := by
  have hsize := h.size
  have hlen : sectorsFor bytes.length = (bytes.length + 511) / 512 := rfl
  by_cases hk : k / 512 < sectorsFor bytes.length
  · have haddr : addr word D (D s) (blockPos (k / 512)) = first + k / 512 := by
      rw [h.index.addr_eq hidx (isPos_blockPos (by omega)), slot_blockPos, if_pos hk]
    rw [Filesys.fileByte, haddr, if_neg (by omega)]
    exact h.contents k (by omega)
  · have hbytes : bytes.getD k 0 = 0 := getD_eq_default _ _ (by omega)
    rw [hbytes]
    by_cases hbig : k / 512 < 16524
    · rw [Filesys.fileByte, h.index.addr_eq hidx (isPos_blockPos hbig), slot_blockPos, if_neg hk, if_pos rfl]
    · exact fileByte_of_ge (by omega)

end Addresses

section Steps

inductive Step
  | file (bytes : List UInt8)
  | rootDir (entries : List (List UInt8 × Nat))
  | freeMap

def DiskBuilder.step (b : DiskBuilder) : Step → Option DiskBuilder
  | .file bytes => (b.writeFile bytes).map Prod.snd
  | .rootDir entries => b.writeRootDir entries
  | .freeMap => b.writeFreeMap

variable {b b' : DiskBuilder} {s : Nat} {bytes : List UInt8}

theorem Sound.step {x : Step} (h : Sound b) (hx : b.step x = some b') :
    Sound b' ∧ b.nextFree ≤ b'.nextFree ∧ ∀ z, 2 ≤ z → z < b.nextFree → b'.data z = b.data z := by
  cases x with
  | file bytes =>
    obtain ⟨⟨s, b''⟩, hw, rfl⟩ := Option.map_eq_some_iff.mp hx
    obtain ⟨rfl, -, hext⟩ := h.writeFile hw
    have hnext := hext.nextFree
    exact ⟨hext.sound, show b.nextFree ≤ b''.nextFree by omega, fun z _ hz ↦ hext.kept z hz⟩
  | rootDir entries =>
    obtain ⟨n, -, hsound, hnext, -, hkept⟩ := h.writeRootDir hx
    exact ⟨hsound, by omega, fun z h2 hz ↦ hkept z hz (by omega)⟩
  | freeMap =>
    obtain ⟨n, -, hsound, hnext, -, hkept⟩ := h.writeFreeMap hx
    exact ⟨hsound, by omega, fun z h2 hz ↦ hkept z hz (by omega)⟩

theorem Sound.run (h : Sound b) (hrun : Run DiskBuilder.step always b b') :
    Sound b' ∧ b.nextFree ≤ b'.nextFree ∧ ∀ z, 2 ≤ z → z < b.nextFree → b'.data z = b.data z := by
  induction hrun with
  | refl => exact ⟨h, le_rfl, fun _ _ _ ↦ rfl⟩
  | snoc _ _ hx ih =>
    obtain ⟨hsound, hle, hkept⟩ := ih
    obtain ⟨hsound', hle', hkept'⟩ := hsound.step hx
    exact ⟨hsound', hle.trans hle', fun z h2 hz ↦ (hkept' z h2 (by omega)).trans (hkept z h2 hz)⟩

theorem Sound.file_kept {s : Nat} {b₁ : DiskBuilder} (h : Sound b) (hw : b.writeFile bytes = some (s, b₁))
    (hrun : Run DiskBuilder.step always b₁ b') :
    FileAt b'.data s (s + 1) (s + 1 + sectorsFor bytes.length) bytes false ∧ 2 ≤ s ∧
      s + 1 + sectorsFor bytes.length + indexCount (sectorsFor bytes.length) ≤ b'.nextFree ∧ Sound b' := by
  obtain ⟨rfl, hfile, hext⟩ := h.writeFile hw
  obtain ⟨hsound, hle, hkept⟩ := hext.sound.run hrun
  rw [hext.nextFree] at hle hkept
  have hge := h.ge
  refine ⟨hfile.congr (hkept _ hge (by omega)) (fun z hz hlt ↦ hkept z (by omega) (by omega))
    fun z hz hlt ↦ hkept z (by omega) (by omega), hge, hle, hsound⟩

end Steps

section Reading

variable {st : State} {s first idx : Nat} {bytes : List UInt8}

theorem map_getD_range (bytes : List UInt8) (off size : Nat) :
    (List.range (min size (bytes.length - off))).map (fun k ↦ bytes.getD (off + k) 0) =
      (bytes.drop off).take size := by
  refine ext_getElem (by simp) fun i hi hi' ↦ ?_
  simp only [length_map, length_range] at hi
  simp [getElem?_eq_getElem (show off + i < bytes.length by omega)]

theorem FileAt.bytesAt {isDir : Bool} (h : FileAt st.disk s first idx bytes isDir) (hfirst : 0 < first)
    (hidx : 0 < idx) (hread : st.readLength s = bytes.length) (size off : Nat) :
    Filesys.bytesAt st s size off = (bytes.drop off).take size := by
  rw [Filesys.bytesAt, ← map_getD_range]
  simp only [h.fileByte hfirst hidx]
  congr 2
  omega

/-- A file that `write_file` has written is what the kernel reads from the image: `open` finds its length and
a file that is no directory, and `read_at` gives the bytes that are asked for, whatever has been written
before and after. -/
theorem written_file_reads_back {sizeMb : Nat} {b₀ b₁ b₂ b₃ : DiskBuilder} (hnew : DiskBuilder.new sizeMb = some b₀)
    (hbefore : Run DiskBuilder.step always b₀ b₁) (hwrite : b₁.writeFile bytes = some (s, b₂))
    (hafter : Run DiskBuilder.step always b₂ b₃) (hdisk : ∀ z < b₃.sectorCount, st.disk z = b₃.data z)
    (hopen : ∀ i, st.openInodes s = some i →
      i.length = st.fileLength s ∧ i.isDir = Filesys.InodeDisk.isDir (st.disk s)) :
    (∃ i, (run (inodeOpen s) st).2.openInodes s = some i ∧ i.length = bytes.length ∧ i.isDir = false) ∧
      ∀ size off, (run (readAt s size off) (run (inodeOpen s) st).2).1 = (bytes.drop off).take size := by
  obtain ⟨hfile, hge, hend, hsound⟩ := ((sound_new hnew).run hbefore).1.file_kept hwrite hafter
  have hle := hsound.le
  have hfile : FileAt st.disk s (s + 1) (s + 1 + sectorsFor bytes.length) bytes false :=
    hfile.congr (hdisk s (by omega)) (fun z _ hz ↦ hdisk z (by omega)) fun z _ hz ↦ hdisk z (by omega)
  have hstate : (run (inodeOpen s) st).2 = st.opened s := run_of_ends (ends_inodeOpen st s)
  rw [hstate]
  have hentry : ∃ i, (st.opened s).openInodes s = some i ∧ i.length = bytes.length ∧ i.isDir = false := by
    refine ⟨_, update_self _ _ _, ?_⟩
    cases hi : st.openInodes s with
    | none => exact ⟨hfile.length, hfile.isDir⟩
    | some i =>
      obtain ⟨hlen, hdir⟩ := hopen i hi
      exact ⟨hlen.trans hfile.length, hdir.trans hfile.isDir⟩
  refine ⟨hentry, fun size off ↦ ?_⟩
  obtain ⟨i, hi, hlen, -⟩ := hentry
  have hread : (st.opened s).readLength s = bytes.length := by
    rw [State.readLength, hi]
    exact hlen
  have hopened : FileAt (st.opened s).disk s (s + 1) (s + 1 + sectorsFor bytes.length) bytes false := hfile
  rw [run_readAt, hopened.bytesAt (Nat.succ_pos s) (by omega) hread]

/-- A file of 141 sectors on a disk of one megabyte. -/
theorem written_file_reads_back_doubly : ∃ b₀ b₁, DiskBuilder.new 1 = some b₀ ∧
    b₀.writeFile (List.replicate 71681 7) = some (2, b₁) ∧
    (run (readAt 2 1 71680) (run (inodeOpen 2) { blank with disk := b₁.data }).2).1 = [7] := by
  have hrun : ((DiskBuilder.new 1).bind fun b ↦ b.writeFile (List.replicate 71681 7)).map Prod.fst = some 2 := by
    decide +kernel
  obtain ⟨⟨-, b₁⟩, hbind, rfl⟩ := Option.map_eq_some_iff.mp hrun
  obtain ⟨b₀, hnew, hw⟩ := Option.bind_eq_some_iff.mp hbind
  refine ⟨b₀, b₁, hnew, hw, ?_⟩
  have hdisk : ∀ z < b₁.sectorCount, State.disk { blank with disk := b₁.data } z = b₁.data z := fun _ _ ↦ rfl
  have hread := (written_file_reads_back hnew (.refl b₀) hw (.refl b₁) hdisk (fun i hi ↦ by cases hi)).2 1 71680
  rw [hread, drop_replicate]
  rfl

end Reading

end Rxv6.Tools.Mkdisk
