import Rxv6.Filesys.Write

namespace Rxv6.Filesys

open Lib.BlockTree Function Sector InodeDisk List

def State.fileLength (st : State) (i : Nat) : Int := InodeDisk.length (st.disk i)

/-- What `length` answers: the length in memory if the inode is open. -/
def State.readLength (st : State) (i : Nat) : Int :=
  match st.openInodes i with
  | some x => x.length
  | none => st.fileLength i

section Read

variable {st : State} {d : InodeDisk} {i b ofs c : Nat}

theorem ends_readChunk (hc : ofs + c ≤ 512) :
    Ends (readChunk d b ofs c) (fun r st' ↦
      r = (List.range c).map (fun k ↦ fileByte st.disk d (512 * b + ofs + k)) ∧ st' = st) st := by
  refine wp_bind.mpr (wp_getBlockSectorDisk trivial ?_)
  have hbyte : ∀ k ∈ List.range c, fileByte st.disk d (512 * b + ofs + k) =
      if addr word st.disk d (blockPos b) = 0 then 0
      else byte (st.disk (addr word st.disk d (blockPos b))) (ofs + k) := by
    intro k hk
    have hk := mem_range.mp hk
    rw [fileByte, show (512 * b + ofs + k) / 512 = b by omega,
      show (512 * b + ofs + k) % 512 = ofs + k by omega]
  cases hx : nonzero _ with
  | none =>
    have h0 := nonzero_eq_none.mp hx
    refine ⟨?_, rfl⟩
    rw [map_congr_left hbyte]
    simp [if_pos h0]
  | some x =>
    obtain ⟨ha, hx0⟩ := nonzero_eq_some.mp hx
    refine wp_bind.mpr (wp_bread trivial ⟨?_, rfl⟩)
    rw [map_congr_left hbyte, ha, slice]
    simp only [if_neg hx0]

theorem range_add_map {f : Nat → UInt8} {a m off : Nat} :
    (List.range (a + m)).map (fun k ↦ f (off + k)) =
      (List.range a).map (fun k ↦ f (off + k)) ++ (List.range m).map (fun k ↦ f (off + a + k)) := by
  rw [range_add, map_append, map_map]
  simp only [comp_def, Nat.add_assoc]

theorem ends_readLoop {len : Int} : ∀ turns wanted off, wanted ≤ turns →
    Ends (readLoop d len turns wanted off) (fun r st' ↦
      r = (List.range (min wanted (len - off).toNat)).map (fun k ↦ fileByte st.disk d (off + k)) ∧
        st' = st) st := by
  intro turns
  induction turns with
  | zero =>
    intro wanted off hw
    obtain rfl : wanted = 0 := by omega
    exact ⟨by simp, rfl⟩
  | succ turns ih =>
    intro wanted off hw
    unfold readLoop
    split
    · next hgo =>
      set chunk := min (512 - off % 512) _ with hchunk
      refine wp_seq (ends_readChunk (by omega)) ?_
      rintro bytes st₁ ⟨rfl, rfl⟩
      refine wp_seq (ih _ (off + chunk) (by omega)) ?_
      rintro rest st₂ ⟨rfl, rfl⟩
      refine ⟨?_, rfl⟩
      have hsum : min wanted (len - off).toNat =
          chunk + min (wanted - chunk) (len - ((off + chunk : Nat))).toNat := by
        omega
      rw [hsum, range_add_map, show 512 * (off / 512) + off % 512 = off by omega]
    · next hstop =>
      have hzero : min wanted (len - off).toNat = 0 := by omega
      rw [hzero]
      exact ⟨rfl, rfl⟩

/-- What `read_at` gives: the bytes of the file up to the length that it sees. -/
def bytesAt (st : State) (i size off : Nat) : List UInt8 :=
  (List.range (min size (st.readLength i - off).toNat)).map fun k ↦
    fileByte st.disk (st.disk i) (off + k)

theorem ends_inodeLength (st : State) (i : Nat) : Ends (inodeLength i) (fun r st' ↦ r = st.readLength i ∧ st' = st) st := by
  unfold inodeLength State.readLength
  refine ends_getInode ?_
  cases st.openInodes i with
  | some x => exact ⟨rfl, rfl⟩
  | none => exact wp_bind.mpr (wp_bread trivial ⟨rfl, rfl⟩)

theorem ends_readAt (st : State) (i size off : Nat) :
    Ends (readAt i size off) (fun r st' ↦ r = bytesAt st i size off ∧ st' = st) st := by
  refine wp_seq (ends_inodeLength _ _) ?_
  rintro len st₁ ⟨rfl, rfl⟩
  split
  · next hge =>
    have hzero : min size (st₁.readLength i - off).toNat = 0 := by omega
    refine ⟨?_, rfl⟩
    rw [bytesAt, hzero]
    rfl
  · exact wp_bind.mpr (wp_bread trivial (ends_readLoop size size off le_rfl))

theorem run_readAt (st : State) (i size off : Nat) :
    (run (readAt i size off) st).1 = bytesAt st i size off :=
  (run_of_ends (ends_readAt st i size off)).1

end Read

/-- The uses of a sector: the inode `i`, or the block at a position of its index. -/
inductive Use
  | inode (i : Nat)
  | block (i : Nat) (u : List Nat)

namespace Use

def sector (st : State) : Use → Nat
  | inode i => i
  | block i u => addr word st.disk (st.disk i) u

def In (st : State) (I : Set Nat) : Use → Prop
  | inode i => i ∈ I
  | block i u => i ∈ I ∧ IsPos u ∧ addr word st.disk (st.disk i) u ≠ 0

end Use

/-- A well-formed file system with the inodes `I`. A sector that is marked used lies on the disk
(`FreeMap.lt_of_test`). -/
structure WellFormed (st : State) (I : Set Nat) : Prop where
  distinct : ∀ a b : Use, a.In st I → b.In st I → a.sector st = b.sector st → a = b
  used : ∀ a : Use, a.In st I → st.Used (a.sector st)
  tail : ∀ i ∈ I, ∀ k : Nat, st.fileLength i ≤ k → fileByte st.disk (st.disk i) k = 0

variable {st st₁ st' : State} {I : Set Nat} {s off n size : Nat} {buf : List UInt8} {d : InodeDisk}
  {L : Nat → Sector}

theorem WellFormed.tree (h : WellFormed st I) (hs : s ∈ I) :
    Tree word fileShape st.disk (st.disk s) st.Used where
  inj {u v} hu hv h0 he := by
    have := h.distinct (.block s u) (.block s v) ⟨hs, hu, h0⟩ ⟨hs, hv, he ▸ h0⟩ he
    cases this
    rfl
  used {u} hu h0 := h.used (.block s u) ⟨hs, hu, h0⟩

/-- The state after `write_at`: the loop has reached `st₁` with the copy `d` of the inode. -/
structure Written (st : State) (s : Nat) (buf : List UInt8) (off n : Nat) (st₁ : State) (d : InodeDisk)
    (st' : State) : Prop where
  writing : Writing st (st.disk s) buf off st₁ d n none
  disk : st'.disk = update st₁.disk s (extend d (off + n))
  freeMap : st'.freeMap = st₁.freeMap
  openInodes : st'.openInodes = update st₁.openInodes s
    ((st₁.openInodes s).map fun i ↦ { i with length := (extend d (off + n)).length })

theorem ends_writeAt (h : WellFormed st I) (hs : s ∈ I)
    (hdeny : writeDenied (st.openInodes s) = false) (hmax : off + size ≤ 16524 * 512) :
    Ends (writeAt s buf size off)
      (fun n st' ↦ n ≤ size ∧ (n ≤ buf.length → ∃ st₁ d, Written st s buf off n st₁ d st')) st := by
  refine ends_getInode ?_
  rw [if_neg (by simp [hdeny])]
  refine ends_bread ?_
  have hstart : Writing st (st.disk s) buf off st (st.disk s) 0 none := Writing.start (h.tree hs)
  have hloop := ends_writeLoop hmax size st (st.disk s) 0 hstart (.inl (.inl rfl)) (Nat.zero_le _)
  refine wp_seq hloop ?_
  rintro ⟨d, n⟩ st₁ ⟨hn, hw⟩
  refine ends_bwrite ?_
  refine ends_setInode ?_
  exact ⟨hn, fun hlen ↦ ⟨st₁, d, hw hlen, rfl, rfl, rfl⟩⟩

theorem length_extend (hmax : off + n < 2147483648) :
    (extend d (off + n)).length = max d.length ((off + n : Nat) : Int) := by
  unfold extend
  split
  · next h =>
    rw [length_setEnd (by omega) (by omega)]
    omega
  · next h => omega

theorem word_extend {e i : Nat} (hi : i < 14) : word (extend d e) i = word d i := by
  unfold extend
  split
  · exact word_setEnd hi
  · rfl

theorem addr_root_congr {d' : InodeDisk} (h : ∀ i < 14, word d' i = word d i) :
    ∀ u, IsPos u → addr word L d' u = addr word L d u := by
  intro u
  induction u with
  | nil => exact fun _ ↦ rfl
  | cons i p ih =>
    intro hu
    cases p with
    | nil => exact h i hu
    | cons j p =>
      rw [addr_cons (cons_ne_nil _ _), addr_cons (cons_ne_nil _ _),
        ih (hu.above.resolve_left (cons_ne_nil _ _))]

namespace Written

variable {u : List Nat} {i : Nat}

section

variable (h : Written st s buf off n st₁ d st')

include h

section

variable (hwf : WellFormed st I) (hs : s ∈ I) (hi : i ∈ I)
include hwf hs hi

theorem inode_kept : st₁.disk i = st.disk i := by
  refine h.writing.foreign i (hwf.used (.inode i) hi) fun u hu h0 he ↦ ?_
  cases hwf.distinct (.block s u) (.inode i) ⟨hs, hu, h0⟩ hi he

theorem block_kept (hne : i ≠ s) (hu : IsPos u) (h0 : addr word st.disk (st.disk i) u ≠ 0) :
    st'.disk (addr word st.disk (st.disk i) u) = st.disk (addr word st.disk (st.disk i) u) := by
  have hns : addr word st.disk (st.disk i) u ≠ s := fun he ↦ by
    cases hwf.distinct (.block i u) (.inode s) ⟨hi, hu, h0⟩ hs he
  rw [h.disk, update_of_ne hns]
  refine h.writing.foreign _ (hwf.used (.block i u) ⟨hi, hu, h0⟩) fun v hv hv0 he ↦ hne ?_
  cases hwf.distinct (.block s v) (.block i u) ⟨hs, hv, hv0⟩ ⟨hi, hu, h0⟩ he
  rfl

theorem disk_other (hne : i ≠ s) : st'.disk i = st.disk i := by
  rw [h.disk, update_of_ne hne, h.inode_kept hwf hs hi]

theorem addr_other (hne : i ≠ s) (hu : IsPos u) :
    addr word st'.disk (st'.disk i) u = addr word st.disk (st.disk i) u := by
  rw [h.disk_other hwf hs hi hne]
  exact addr_congr (S := fileShape) hu fun q hq h0 ↦ by rw [h.block_kept hwf hs hi hne hq.1 h0]

theorem fileByte_other (hne : i ≠ s) (k : Nat) :
    fileByte st'.disk (st'.disk i) k = fileByte st.disk (st.disk i) k := by
  by_cases hk : k / 512 < 16524
  · have hpos := isPos_blockPos hk
    exact fileByte_congr (h.addr_other hwf hs hi hne hpos) fun h0 ↦ h.block_kept hwf hs hi hne hpos h0
  · rw [fileByte_of_ge (by omega), fileByte_of_ge (by omega)]

end

theorem disk_self : st'.disk s = extend d (off + n) := by
  rw [h.disk, update_self]

section

variable (hwf : WellFormed st I) (hs : s ∈ I)
include hwf hs

theorem ne_self (hu : IsPos u)
    (h0 : addr word st₁.disk d u ≠ 0) : addr word st₁.disk d u ≠ s := by
  refine h.writing.ne_foreign hu (hwf.used (.inode s) hs) (fun v hv hv0 he ↦ ?_) h0
  cases hwf.distinct (.block s v) (.inode s) ⟨hs, hv, hv0⟩ hs he

theorem addr_self
    (hu : IsPos u) : addr word st'.disk (st'.disk s) u = addr word st₁.disk d u := by
  rw [h.disk_self, addr_root_congr (fun i hi ↦ word_extend hi) u hu, h.disk]
  exact addr_congr (S := fileShape) hu fun q hq h0 ↦ by rw [update_of_ne (h.ne_self hwf hs hq.1 h0)]

theorem fileByte_self (k : Nat) : fileByte st'.disk (st'.disk s) k =
      overwrite (fileByte st.disk (st.disk s)) buf off n k := by
  rw [← h.writing.content k (by simp)]
  by_cases hk : k / 512 < 16524
  · have hpos := isPos_blockPos hk
    refine fileByte_congr (h.addr_self hwf hs hpos) fun h0 ↦ ?_
    rw [h.disk, update_of_ne (h.ne_self hwf hs hpos h0)]
  · rw [fileByte_of_ge (by omega), fileByte_of_ge (by omega)]

end

theorem length_self (hmax : off + n < 2147483648) :
    st'.fileLength s = max (st.fileLength s) ((off + n : Nat) : Int) := by
  have hd : d.length = st.fileLength s := by
    rw [State.fileLength, InodeDisk.length, InodeDisk.length]
    rw [word_congr fun k hk ↦ h.writing.fields k (by omega)]
  rw [State.fileLength, h.disk_self, length_extend hmax, hd]

theorem use_cases (hwf : WellFormed st I) (hs : s ∈ I) {a : Use}
    (ha : a.In st' I) : a.In st I ∧ a.sector st' = a.sector st ∨
      ∃ u, IsPos u ∧ a = .block s u ∧ ¬ st.Used (a.sector st') := by
  cases a with
  | inode i => exact .inl ⟨ha, rfl⟩
  | block i u =>
    obtain ⟨hi, hu, h0⟩ := ha
    by_cases hne : i = s
    · subst hne
      have haddr := h.addr_self hwf hi hu
      by_cases hsame : addr word st₁.disk d u = addr word st.disk (st.disk i) u
      · exact .inl ⟨⟨hi, hu, by rwa [haddr, hsame] at h0⟩, haddr.trans hsame⟩
      · refine .inr ⟨u, hu, rfl, ?_⟩
        rw [Use.sector, haddr]
        exact (h.writing.fresh u hu hsame).2
    · have haddr := h.addr_other hwf hs hi hne hu
      exact .inl ⟨⟨hi, hu, by rwa [haddr] at h0⟩, haddr⟩

theorem wellFormed (hwf : WellFormed st I) (hs : s ∈ I)
    (hmax : off + n < 2147483648) : WellFormed st' I := by
  have htree := h.writing.tree
  refine ⟨fun a b ha hb he ↦ ?_, fun a ha ↦ ?_, fun i hi k hk ↦ ?_⟩
  · rcases h.use_cases hwf hs ha with ⟨hao, hae⟩ | ⟨u, hu, rfl, hau⟩ <;>
      rcases h.use_cases hwf hs hb with ⟨hbo, hbe⟩ | ⟨v, hv, rfl, hbu⟩
    · exact hwf.distinct a b hao hbo (hae.symm.trans (he.trans hbe))
    · refine absurd (hwf.used a hao) ?_
      rwa [← hae, he]
    · refine absurd (hwf.used b hbo) ?_
      rwa [← hbe, ← he]
    · have h0 := ha.2.2
      rw [Use.sector, Use.sector, h.addr_self hwf hs hu, h.addr_self hwf hs hv] at he
      rw [h.addr_self hwf hs hu] at h0
      rw [htree.inj hu hv h0 he]
  · rw [State.Used, h.freeMap]
    rcases h.use_cases hwf hs ha with ⟨hao, hae⟩ | ⟨u, hu, rfl, -⟩
    · rw [hae]
      exact h.writing.mono _ (hwf.used a hao)
    · have h0 := ha.2.2
      rw [h.addr_self hwf hs hu] at h0
      rw [Use.sector, h.addr_self hwf hs hu]
      exact htree.used hu h0
  · by_cases hne : i = s
    · subst hne
      rw [h.length_self hmax] at hk
      rw [h.fileByte_self hwf hi, overwrite, if_neg (by omega)]
      exact hwf.tail i hi k (by omega)
    · rw [State.fileLength, h.disk_other hwf hs hi hne] at hk
      rw [h.fileByte_other hwf hs hi hne]
      exact hwf.tail i hi k hk

theorem readLength_self : st'.readLength s = st'.fileLength s := by
  rw [State.readLength, h.openInodes, update_self]
  cases st₁.openInodes s with
  | none => rfl
  | some x =>
    rw [State.fileLength, h.disk_self]
    rfl

theorem readLength_other (hwf : WellFormed st I) (hs : s ∈ I)
    (hi : i ∈ I) (hne : i ≠ s) : st'.readLength i = st.readLength i := by
  rw [State.readLength, State.readLength, h.openInodes, update_of_ne hne, h.writing.openInodes,
    State.fileLength, State.fileLength, h.disk_other hwf hs hi hne]

end

end Written

theorem bytesAt_one {k : Nat} (hk : (k : Int) < st.readLength s) :
    bytesAt st s 1 k = [fileByte st.disk (st.disk s) k] := by
  have hone : min 1 (st.readLength s - k).toNat = 1 := by omega
  rw [bytesAt, hone]
  simp

/-- Inodes are independent byte arrays: `write_at` puts the bytes that it counts at their place, fills
a gap with zeros and leaves every other byte and every other inode as it was. The call returns unless
it comes to slice `buf` beyond its end, that is, unless it counts more bytes than `buf` has. -/
theorem write_at_byteArray (h : WellFormed st I) (hs : s ∈ I)
    (hdeny : writeDenied (st.openInodes s) = false) (hmax : off + size ≤ (12 + 128 + 128 * 128) * 512)
    (hn : run (writeAt s buf size off) st = (n, st')) (hlen : n ≤ buf.length) :
    n ≤ size ∧ (run (readAt s n off) st').1 = buf.take n ∧
      (∀ k : Nat, k < st.fileLength s → ¬ (off ≤ k ∧ k < off + n) →
        (run (readAt s 1 k) st').1 = [fileByte st.disk (st.disk s) k] ∧
          (k < st.readLength s → (run (readAt s 1 k) st').1 = (run (readAt s 1 k) st).1)) ∧
      (∀ k : Nat, st.fileLength s ≤ k → k < off → (run (readAt s 1 k) st').1 = [0]) ∧
      (∀ i ∈ I, i ≠ s → ∀ size off, (run (readAt i size off) st').1 = (run (readAt i size off) st).1) ∧
      WellFormed st' I := by
  have hends : Ends (writeAt s buf size off) _ st := ends_writeAt h hs hdeny hmax
  obtain ⟨hle, hwritten⟩ := run_of_ends hends
  rw [hn] at hle hwritten
  obtain ⟨st₁, d, hw⟩ := hwritten hlen
  simp only at hw
  have hwf' := hw.wellFormed h hs (by omega)
  have hlength := hw.readLength_self.trans (hw.length_self (by omega))
  have hkept : ∀ k : Nat, k < st.fileLength s → ¬ (off ≤ k ∧ k < off + n) →
      (run (readAt s 1 k) st').1 = [fileByte st.disk (st.disk s) k] := by
    intro k hk hout
    rw [run_readAt, bytesAt_one (by omega), hw.fileByte_self h hs, overwrite, if_neg hout]
  refine ⟨hle, ?_, fun k hk hout ↦ ⟨hkept k hk hout, fun hread ↦ ?_⟩, fun k hk hoff ↦ ?_,
    fun i hi hne size off ↦ ?_, hwf'⟩
  · have hmin : min n (st'.readLength s - off).toNat = n := by
      omega
    rw [run_readAt, bytesAt, hmin]
    refine ext_getElem (by simp; omega) fun j hj hj' ↦ ?_
    have hjn : j < n := by simpa using hj
    rw [getElem_map, getElem_range, getElem_take, hw.fileByte_self h hs, overwrite,
      if_pos (by omega), Nat.add_sub_cancel_left, getD_eq_getElem?_getD,
      getElem?_eq_getElem (by omega), Option.getD_some]
  · rw [hkept k hk hout, run_readAt, bytesAt_one hread]
  · rw [run_readAt, bytesAt_one (by omega), hw.fileByte_self h hs, overwrite,
      if_neg (by omega), h.tail s hs k hk]
  · rw [run_readAt, run_readAt, bytesAt, hw.readLength_other h hs hi hne]
    exact map_congr_left fun k _ ↦ hw.fileByte_other h hs hi hne (off + k)

def blank : State where
  disk _ := zero
  freeMap := ⟨[true, true, false, false], by decide⟩
  openInodes _ := none

theorem addr_of_empty (h : ∀ i < 14, word d i = 0) :
    ∀ u, IsPos u → addr word L d u = 0 := by
  intro u
  induction u with
  | nil => exact fun _ ↦ rfl
  | cons i p ih =>
    intro hu
    cases p with
    | nil => exact h i hu
    | cons j p => rw [addr_cons (cons_ne_nil _ _), if_pos (ih (hu.above.resolve_left (cons_ne_nil _ _)))]

theorem wellFormed_empty (hd : st.disk s = zero) (hu : st.Used s) : WellFormed st {s} := by
  have haddr : ∀ u, IsPos u → addr word st.disk (st.disk s) u = 0 :=
    addr_of_empty fun i _ ↦ by rw [hd, word_zero]
  have hin : ∀ a : Use, a.In st {s} → a = .inode s := by
    intro a ha
    cases a with
    | inode i => exact congrArg Use.inode ha
    | block i u =>
      obtain ⟨rfl, hu, h0⟩ := ha
      exact absurd (haddr u hu) h0
  refine ⟨fun a b ha hb _ ↦ (hin a ha).trans (hin b hb).symm, fun a ha ↦ ?_, ?_⟩
  · rw [hin a ha]
    exact hu
  · rintro i rfl k -
    by_cases hk : k / 512 < 16524
    · rw [fileByte, if_pos (haddr _ (isPos_blockPos hk))]
    · exact fileByte_of_ge (by omega)

theorem wellFormed_blank : WellFormed blank {1} :=
  wellFormed_empty rfl (show blank.freeMap.test 1 = true by decide)

/-- Three bytes are written across the end of the first block of an empty file. They are read back, and
the bytes before them are zeros. -/
theorem write_at_byteArray_blank :
    (run (writeAt 1 [7, 8, 9] 3 511) blank).1 = 3 ∧
      (run (readAt 1 3 511) (run (writeAt 1 [7, 8, 9] 3 511) blank).2).1 = [7, 8, 9] ∧
      ∀ k < 511, (run (readAt 1 1 k) (run (writeAt 1 [7, 8, 9] 3 511) blank).2).1 = [0] := by
  have hthree : (run (writeAt 1 [7, 8, 9] 3 511) blank).1 = 3 := by decide +kernel
  obtain ⟨-, hread, -, hgap, -⟩ := write_at_byteArray wellFormed_blank (Set.mem_singleton 1) rfl (by norm_num)
    (Prod.mk.eta).symm (show (run (writeAt 1 [7, 8, 9] 3 511) blank).1 ≤ [7, 8, 9].length from hthree.le)
  rw [hthree] at hread
  exact ⟨hthree, hread, fun k hk ↦ hgap k (Nat.cast_nonneg k) hk⟩

end Rxv6.Filesys
