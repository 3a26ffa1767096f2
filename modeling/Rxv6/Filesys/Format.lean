import Rxv6.Filesys.Mount
import Rxv6.Filesys.NewBlocks
import Rxv6.Filesys.Truncate

namespace Rxv6.Filesys

open Lib Lib.BlockTree Function Sector InodeDisk List

open Bitmap

namespace FreeMap

def byteAt (m : FreeMap) (j : Nat) : UInt8 := UInt8.ofNat (Nat.ofBits fun k : Fin 8 ↦ m.test (8 * j + k))

def bytes (m : FreeMap) : List UInt8 := (List.range m.byteCount).map m.byteAt

variable {m : FreeMap} {count j k z : Nat} {h : count < 4294967296}

theorem testBit_byteAt (hk : k < 8) : (m.byteAt j).toNat.testBit k = m.test (8 * j + k) := by
  have hlt := Nat.ofBits_lt_two_pow fun k : Fin 8 ↦ m.test (8 * j + k)
  rw [byteAt, UInt8.toNat_ofNat', Nat.mod_eq_of_lt hlt, Nat.testBit_ofBits_lt _ _ hk]

theorem getD_bytes (hk : k < m.byteCount) : m.bytes.getD k 0 = m.byteAt k := by
  simp [bytes, hk]

theorem length_init : (init count h).bits.length = count := by simp [init]

theorem test_init (hcount : 2 ≤ count) : (init count h).test z = true ↔ z = 0 ∨ z = 1 := by
  by_cases h1 : z = 1
  · simp only [h1, test, init, or_true, iff_true]
    rw [test_set_self (by rw [length_set, length_replicate]; omega)]
  · by_cases h0 : z = 0
    · simp only [h0, test, init, true_or, iff_true]
      rw [test_set_ne (by omega), test_set_self (by rw [length_replicate]; omega)]
    · simp only [test, init, h0, h1]
      rw [test_set_ne (symm h1), test_set_ne (symm h0), Bitmap.test]
      by_cases hz : z < count <;> simp

theorem length_allocate (m : FreeMap) : m.allocate.2.bits.length = m.bits.length := by
  unfold allocate
  split
  · rfl
  · exact length_set

end FreeMap

/-- `free_map::flush`. Nothing below `write_at` flushes, so `IN_FLUSH` is not set when it is tested. -/
def flush : Prog Unit := do
  let m ← getFreeMap
  let _ ← writeAt 0 m.bytes m.byteCount 0

def freeMapCreate : Prog Unit := do
  let m ← getFreeMap
  let _ ← inodeCreate 0 m.byteCount false
  flush

def freeMapClose : Prog Unit := do
  flush
  inodeClose 0

def doFormat (count : Nat) (h : count < 4294967296) : Prog Unit := do
  freeMapCreate
  let _ ← Dir.create 1 1
  freeMapClose
  setFreeMap (.init count h)
  freeMapOpen

def raw (disk : Nat → Sector) (count : Nat) (h : count < 4294967296) : State :=
  ⟨disk, .init count h, fun _ ↦ none⟩

/-- `filesys::init(true)` with a disk of `count` sectors. -/
def format (disk : Nat → Sector) (count : Nat) (h : count < 4294967296) : State :=
  (run (doFormat count h) (raw disk count h)).2

variable {st st' : State} {I : Set Nat} {L : Nat → Sector} {buf : List UInt8} {count off s size z : Nat}
variable {hc : count < 4294967296} {len : Int} {isDir : Bool}

open FreeMap

open State

theorem mount_used {m : FreeMap} (hm : m.bits.length = count)
    (hlen : InodeDisk.length (L 0) = ((count + 7) / 8 : Nat))
    (hbytes : ∀ k < (count + 7) / 8, fileByte L (L 0) k = m.byteAt k) :
    (mount L count hc).Used z ↔ m.test z = true := by
  have hread : (unmounted L count hc).readLength 0 = ((count + 7) / 8 : Nat) := hlen
  have hdata : bytesAt (unmounted L count hc) 0 ((count + 7) / 8) 0 = m.bytes := by
    rw [bytesAt, hread, bytes, byteCount, hm]
    simp only [zero_add, Nat.cast_zero, sub_zero, Int.toNat_natCast, min_self]
    exact map_congr_left fun k hk ↦ hbytes k (mem_range.mp hk)
  have hcount : m.byteCount = (count + 7) / 8 := by rw [byteCount, hm]
  rw [Used, mount_eq, withMap_freeMap, hdata]
  by_cases hz : z < count
  · rw [test_load (by rw [length_init]; exact hz), getD_bytes (by omega),
      testBit_byteAt (by omega), Nat.div_add_mod]
    rw [bytes, length_map, length_range]
    omega
  · refine ⟨fun h ↦ absurd (lt_of_test h) ?_, fun h ↦ absurd (lt_of_test h) (by omega)⟩
    rw [load, length_map, length_range, length_init]
    exact hz

def Op.KeepsSize : Op → Prop
  | .setFreeMap _ => False
  | _ => True

theorem length_bits {α : Type} {p : Prog α} (h : p.Only Op.KeepsSize) (st : State) :
    (run p st).2.freeMap.bits.length = st.freeMap.bits.length := by
  refine h.invariant (J := fun t : State ↦ t.freeMap.bits.length = st.freeMap.bits.length)
    (fun op t hop ht ↦ ?_) rfl
  cases op with
  | allocate => exact (length_allocate t.freeMap).trans ht
  | release s => exact length_set.trans ht
  | setFreeMap m => exact hop.elim
  | _ => exact ht

section Size

variable {b i j x : Nat} {d : InodeDisk}

theorem only_ite {α : Type} {P : Op → Prop} {c : Prop} [Decidable c] {p q : Prog α} (hp : p.Only P)
    (hq : q.Only P) : (if c then p else q).Only P := by
  split <;> assumption

theorem only_getBlockSectorDisk : (getBlockSectorDisk d b).Only Op.KeepsSize := by
  refine only_ite trivial (only_ite (only_ite trivial ⟨trivial, fun _ ↦ trivial⟩) (only_ite trivial ?_))
  exact ⟨trivial, fun _ ↦ only_ite trivial ⟨trivial, fun _ ↦ trivial⟩⟩

theorem only_indexBlockFor : (indexBlockFor d i).Only Op.KeepsSize := by
  refine only_ite ⟨trivial, fun o ↦ ?_⟩ trivial
  cases o with
  | none => trivial
  | some y => exact ⟨trivial, fun _ ↦ trivial⟩

theorem only_innerBlockFor : (innerBlockFor x j).Only Op.KeepsSize := by
  refine ⟨trivial, fun buf ↦ only_ite ⟨trivial, fun o ↦ ?_⟩ trivial⟩
  cases o with
  | none => trivial
  | some z => exact ⟨trivial, fun _ ↦ ⟨trivial, fun _ ↦ trivial⟩⟩

theorem only_allocateBlockFor : (allocateBlockFor d b).Only Op.KeepsSize := by
  refine ⟨trivial, fun o ↦ ?_⟩
  cases o with
  | none => trivial
  | some x =>
    refine only_ite trivial (only_ite (only_indexBlockFor.bind fun o ↦ ?_) (only_indexBlockFor.bind fun o ↦ ?_))
    · cases o with
      | none => trivial
      | some d => exact ⟨trivial, fun _ ↦ trivial⟩
    · cases o with
      | none => trivial
      | some d =>
        refine only_innerBlockFor.bind fun o ↦ ?_
        cases o with
        | none => trivial
        | some z => exact ⟨trivial, fun _ ↦ trivial⟩

theorem only_writeLoop (turns : Nat) : ∀ d n off, (writeLoop buf size turns d n off).Only Op.KeepsSize := by
  induction turns with
  | zero => exact fun d n off ↦ trivial
  | succ turns ih =>
    intro d n off
    unfold writeLoop
    split
    · have hsector : (dataSectorFor d (off / 512)).Only Op.KeepsSize := by
        refine only_getBlockSectorDisk.bind fun o ↦ ?_
        cases o with
        | some x => trivial
        | none =>
          refine only_allocateBlockFor.bind fun r ↦ ?_
          obtain ⟨o, d⟩ := r
          cases o with
          | some x => exact ⟨trivial, fun _ ↦ trivial⟩
          | none => trivial
      refine hsector.bind fun r ↦ ?_
      obtain ⟨o, d⟩ := r
      cases o with
      | none => trivial
      | some x => exact ⟨trivial, fun _ ↦ ih _ _ _⟩
    · trivial

theorem only_writeAt : (writeAt s buf size off).Only Op.KeepsSize :=
  ⟨trivial, fun _ ↦ only_ite trivial ⟨trivial, fun d ↦ (only_writeLoop size d 0 off).bind fun _ ↦
    ⟨trivial, fun _ ↦ ⟨trivial, fun _ ↦ trivial⟩⟩⟩⟩

theorem only_inodeCreate : (inodeCreate s len isDir).Only Op.KeepsSize := by
  have hloop : ∀ l d, (createLoop l d).Only Op.KeepsSize := by
    intro l
    induction l with
    | nil => exact fun d ↦ trivial
    | cons b l ih =>
      refine fun d ↦ ⟨trivial, fun o ↦ ?_⟩
      cases o with
      | none => trivial
      | some x => exact ⟨trivial, fun _ ↦ ih _⟩
  refine (hloop _ _).bind fun o ↦ ?_
  cases o with
  | none => trivial
  | some d => exact ⟨trivial, fun _ ↦ trivial⟩

end Size

/-- The files of the inodes `I` are complete, and none is open. -/
structure Stage (st : State) (I : Set Nat) (count : Nat) : Prop where
  wf : WellFormed st I
  closed : ∀ i, st.openInodes i = none
  bits : st.freeMap.bits.length = count
  nonneg : ∀ i ∈ I, 0 ≤ st.fileLength i
  blocks : ∀ i ∈ I, ∀ k : Nat, k < st.fileLength i → addr word st.disk (st.disk i) (blockPos (k / 512)) ≠ 0

theorem Stage.solid (h : Stage st I count) (hs : s ∈ I) : Solid st I s where
  wf := h.wf
  mem := hs
  writable := by rw [h.closed]; rfl
  length := by rw [readLength, h.closed]
  nonneg := h.nonneg s hs
  blocks := h.blocks s hs

def SameIndex (st st' : State) (s : Nat) : Prop :=
  ∀ u, IsPos u → addr word st'.disk (st'.disk s) u = addr word st.disk (st.disk s) u

theorem SameIndex.holds (h : SameIndex st st' s) : st'.Holds s z ↔ st.Holds s z :=
  and_congr_right fun _ ↦ exists_congr fun u ↦ and_congr_right fun hu ↦ by rw [h u hu]

open Program

theorem Stage.ends_writeAt (h : Stage st I count) (hs : s ∈ I) (hpos : 0 < size) (hlen : size ≤ buf.length)
    (hend : ((off + size : Nat) : Int) ≤ st.fileLength s) (hmax : off + size ≤ 16524 * 512) :
    Ends (writeAt s buf size off) (fun _ st' ↦ Stage st' I count ∧ st'.freeMap = st.freeMap ∧
      (∀ i ∈ I, SameIndex st st' i) ∧ st'.file s = (st.file s).write buf off size ∧
      ∀ i ∈ I, i ≠ s → st'.file i = st.file i) st := by
  have hsolid := h.solid hs
  have hthere : ∀ k, off ≤ k → k < off + size → addr word st.disk (st.disk s) (blockPos (k / 512)) ≠ 0 :=
    fun k _ hk ↦ h.blocks s hs k (by omega)
  have hlast := ends_writeAt_last h.wf hs hsolid.writable hmax hpos hlen rfl fun k hk hk' _ ↦ hthere k hk hk'
  refine wp_mono (Prog.wp_and hlast (hsolid.ends_writeAt_there hlen hend hmax)) ?_
  rintro n st' ⟨⟨st₁, d, hw, hout⟩, hmap⟩
  have hneed : st.need (st.disk s) ((off + size - 1) / 512) = 0 :=
    if_pos (hthere _ (by omega) (by omega))
  obtain ⟨rfl, -, -⟩ := hout.full (by omega)
  have hmap₁ : ∀ z, st₁.Used z → st.Used z := fun z hz ↦ by
    rwa [Used, ← hmap, hw.freeMap]
  have hindex : ∀ i ∈ I, SameIndex st st' i := by
    intro i hi u hu
    by_cases hne : i = s
    · subst hne
      rw [hw.addr_self h.wf hi hu]
      by_contra hdiff
      obtain ⟨h0, hnew⟩ := hw.writing.fresh u hu hdiff
      exact hnew (hmap₁ _ (hw.writing.tree.used hu fun he ↦ hdiff (he.trans h0.symm)))
    · exact hw.addr_other h.wf hs hi hne hu
  have hother : ∀ i ∈ I, i ≠ s → st'.file i = st.file i := fun i hi hne ↦
    congrArg₂ File.mk (congrArg InodeDisk.length (hw.disk_other h.wf hs hi hne))
      (funext (hw.fileByte_other h.wf hs hi hne))
  have hself : st'.file s = (st.file s).write buf off n :=
    congrArg₂ File.mk (hw.length_self (by omega)) (funext (hw.fileByte_self h.wf hs))
  have hlength : ∀ i ∈ I, st'.fileLength i = st.fileLength i := by
    intro i hi
    by_cases hne : i = s
    · subst hne
      rw [hw.length_self (by omega)]
      exact max_eq_left hend
    · exact congrArg File.length (hother i hi hne)
  refine ⟨⟨hw.wellFormed h.wf hs (by omega), fun i ↦ ?_, hmap ▸ h.bits,
    fun i hi ↦ hlength i hi ▸ h.nonneg i hi, fun i hi k hk ↦ ?_⟩, hmap, hindex, hself, hother⟩
  · rw [(hw.kept h.wf hs).inode]
    by_cases hne : i = s
    · rw [hne, update_self, h.closed]
      rfl
    · rw [update_of_ne hne, h.closed]
  · have hk' : k < st.fileLength i := hlength i hi ▸ hk
    have h0 := h.blocks i hi k hk'
    by_cases hk16 : k / 512 < 16524
    · rwa [hindex i hi _ (isPos_blockPos hk16)]
    · exact absurd (addr_of_ge (by omega)) h0

/-- `inode::create` has made the inode `s` and taken the sectors `T`, of which the inode knows the first
twelve. -/
structure Made (st st' : State) (I : Set Nat) (s : Nat) (len : Int) (T : List Nat) : Prop where
  wf : WellFormed st' (insert s I)
  openInodes : st'.openInodes = st.openInodes
  bits : st'.freeMap.bits.length = st.freeMap.bits.length
  length : st'.fileLength s = len
  took : Took st st' T
  holds : ∀ z, st'.Holds s z ↔ z ∈ T.take 12
  present : ∀ b < 12, b < bytesToSectors len → addr word st'.disk (st'.disk s) (blockPos b) ≠ 0
  others : ∀ i ∈ I, st'.fileLength i = st.fileLength i ∧ SameIndex st st' i

variable {T : List Nat} {disk : Nat → Sector} {st₁ : State}

theorem holds_take {d : InodeDisk} (hd : st.disk s = d) (hT : ∀ x ∈ T, 2 ≤ x)
    (hword : ∀ j < 14, word d j = if j < 12 then T.getD j 0 else 0) : st.Holds s z ↔ z ∈ T.take 12 := by
  have h12 : word d 12 = 0 := hword 12 (by omega)
  have h13 : word d 13 = 0 := hword 13 (by omega)
  have hdirect : ∀ j < 12, addr word st.disk d [j] = T.getD j 0 := fun j hj ↦
    (hword j (by omega)).trans (if_pos hj)
  unfold Holds
  rw [hd, mem_take_iff_getElem]
  constructor
  · rintro ⟨h0, u, hu, rfl⟩
    obtain ⟨j, hj, rfl⟩ := pos_of_direct h12 h13 hu h0
    rw [hdirect j hj] at h0 ⊢
    have hjT : j < T.length := by
      by_contra hge
      exact h0 (getD_eq_default _ _ (by omega))
    exact ⟨j, by omega, (getD_eq_getElem _ _ hjT).symm⟩
  · rintro ⟨j, hj, rfl⟩
    have hge := hT _ (getElem_mem (by omega : j < T.length))
    have hpos : IsPos (blockPos j) := isPos_blockPos (by omega)
    rw [blockPos, if_pos (by omega)] at hpos
    exact ⟨by omega, [j], hpos, (hdirect j (by omega)).trans (getD_eq_getElem _ _ _)⟩

theorem ends_inodeCreate_made (hwf : WellFormed st I) (hfresh : Fresh st I s) (hlo : 0 ≤ len)
    (hhi : len < 2147483648) (hfree : bytesToSectors len ≤ st.free) :
    Ends (inodeCreate s len isDir) (fun ok st' ↦ ok = true ∧
      ∃ T, T.length = bytesToSectors len ∧ Made st st' I s len T) st := by
  have hbits : Ends (inodeCreate s len isDir)
      (fun _ st' ↦ st'.freeMap.bits.length = st.freeMap.bits.length) st :=
    Prog.wp_of_run (length_bits only_inodeCreate st)
  refine wp_mono (Prog.wp_and (ends_inodeCreate len isDir hwf hfresh (by omega) hhi)
    (Prog.wp_and (ends_inodeCreate_zeroed st s len isDir) hbits)) ?_
  rintro ok st' ⟨⟨hcreated, hfail⟩, ⟨st₁, T, hz, -, htrue⟩, hlen⟩
  cases ok with
  | false => exact absurd (hfail rfl).2.2 (by omega)
  | true =>
    have hc := hcreated rfl
    obtain ⟨hT, d, rfl, hword⟩ := htrue rfl
    refine ⟨rfl, T, hT, hc.wf, hc.openInodes, hlen, hc.length, ⟨hz.took.nodup, hz.took.free, hz.took.ge,
      hz.took.used, hz.took.space⟩, fun z ↦ holds_take (update_self _ _ _) hz.took.ge hword, hc.present,
      fun i hi ↦ ⟨congrArg InodeDisk.length (hc.untouched.inode hi), fun u hu ↦ hc.untouched.addr hi hu⟩⟩

theorem Made.stage (h : Stage st I count) (hm : Made st st' I s len T) (hlo : 0 ≤ len)
    (hhi : len ≤ 6144) : Stage st' (insert s I) count := by
  refine ⟨hm.wf, fun i ↦ by rw [hm.openInodes, h.closed], hm.bits.trans h.bits, fun i hi ↦ ?_,
    fun i hi k hk ↦ ?_⟩
  · rcases hi with rfl | hi
    · rw [hm.length]
      exact hlo
    · rw [(hm.others i hi).1]
      exact h.nonneg i hi
  · rcases hi with rfl | hi
    · rw [hm.length] at hk
      exact hm.present _ (by omega) (lt_bytesToSectors.mpr (by omega))
    · rw [(hm.others i hi).1] at hk
      have h0 := h.blocks i hi k hk
      by_cases hk16 : k / 512 < 16524
      · rwa [(hm.others i hi).2 _ (isPos_blockPos hk16)]
      · exact absurd (addr_of_ge (by omega)) h0

structure Saved (st : State) (count : Nat) : Prop where
  length : st.fileLength 0 = ((count + 7) / 8 : Nat)
  bytes : ∀ k < (count + 7) / 8, fileByte st.disk (st.disk 0) k = st.freeMap.byteAt k

theorem Stage.ends_flush (h : Stage st I count) (h0 : 0 ∈ I)
    (hlen : st.fileLength 0 = ((count + 7) / 8 : Nat)) (hcount : 0 < count) (hmax : (count + 7) / 8 ≤ 16524 * 512) :
    Ends flush (fun _ st' ↦ Stage st' I count ∧ st'.freeMap = st.freeMap ∧ (∀ i ∈ I, SameIndex st st' i) ∧
      Saved st' count) st := by
  have hbytes : st.freeMap.byteCount = (count + 7) / 8 := by rw [byteCount, h.bits]
  have hbuf : st.freeMap.bytes.length = (count + 7) / 8 := by
    rw [bytes, length_map, length_range, hbytes]
  refine wp_bind.mpr (wp_perform fun _ ↦ ⟨trivial, ?_⟩)
  change Ends (writeAt 0 st.freeMap.bytes st.freeMap.byteCount 0 >>= _) _ st
  rw [hbytes]
  refine wp_seq (h.ends_writeAt h0 (by omega) hbuf.ge (by omega) (by omega)) ?_
  rintro n st' ⟨hstage, hmap, hindex, hfile, -⟩
  refine ⟨hstage, hmap, hindex, ?_, fun k hk ↦ ?_⟩
  · refine (congrArg File.length hfile).trans (max_eq_left ?_) |>.trans hlen
    rw [zero_add]
    exact hlen.ge
  · refine (congrFun (congrArg File.bytes hfile) k).trans ((if_pos (by omega)).trans ?_)
    rw [Nat.sub_zero, getD_bytes (by omega), hmap]

structure Rooted (st st' : State) (count : Nat) : Prop where
  stage : Stage st' (insert 1 {0}) count
  index : SameIndex st st' 0
  length : st'.fileLength 0 = st.fileLength 0
  new : ∀ z, st'.Holds 1 z → ¬ st.Used z
  used : ∀ z, st'.Used z ↔ st.Used z ∨ st'.Holds 1 z

theorem Rooted.ends_writeAt (h : Rooted st st₁ count) (hlen : size ≤ buf.length)
    (hpos : 0 < size) (hend : ((off + size : Nat) : Int) ≤ st₁.fileLength 1) (hmax : off + size ≤ 16524 * 512) :
    Ends (writeAt 1 buf size off)
      (fun _ st' ↦ Rooted st st' count ∧ st'.fileLength 1 = st₁.fileLength 1) st₁ := by
  refine wp_mono (h.stage.ends_writeAt (.inl rfl) hpos hlen hend hmax) ?_
  rintro n st' ⟨hstage, hmap, hindex, hfile, hother⟩
  have h0 : 0 ∈ (insert 1 {0} : Set Nat) := .inr rfl
  have hholds : ∀ z, st'.Holds 1 z ↔ st₁.Holds 1 z := fun z ↦ (hindex 1 (.inl rfl)).holds
  refine ⟨⟨hstage, fun u hu ↦ (hindex 0 h0 u hu).trans (h.index u hu), ?_,
    fun z hz ↦ h.new z ((hholds z).mp hz), fun z ↦ ?_⟩, ?_⟩
  · exact (congrArg File.length (hother 0 h0 (by omega))).trans h.length
  · rw [hholds, Used, hmap]
    exact h.used z
  · exact (congrArg File.length hfile).trans (max_eq_left hend)

theorem Stage.ends_rootCreate (h : Stage st {0} count) (hfresh : Fresh st {0} 1) (hfree : 1 ≤ st.free) :
    Ends (Dir.create 1 1) (fun _ st' ↦ Rooted st st' count) st := by
  have hmade : Ends (inodeCreate 1 (entrySize * 2) true) _ st := ends_inodeCreate_made h.wf hfresh (by decide)
    (by decide) (le_of_eq_of_le (by decide) hfree)
  refine wp_seq hmade ?_
  rintro ok st₁ ⟨rfl, T, hT, hm⟩
  have hone : T.take 12 = T := take_of_length_le (by rw [hT]; decide)
  have hroot : Rooted st st₁ count := by
    refine ⟨hm.stage h (by decide) (by decide), (hm.others 0 rfl).2, (hm.others 0 rfl).1, fun z hz ↦ ?_,
      fun z ↦ ?_⟩
    · exact hm.took.free z (mem_of_mem_take ((hm.holds z).mp hz))
    · rw [hm.holds, hone]
      exact hm.took.used z
  have hlen : st₁.fileLength 1 = 40 := hm.length
  have hdot : entrySize ≤ (Dir.dot 1).toBytes.length := by decide
  have hdotdot : entrySize ≤ (Dir.dotdot 1).toBytes.length := by decide
  refine wp_seq (hroot.ends_writeAt hdot (by decide) (hlen ▸ by decide) (by decide)) ?_
  rintro n st₂ ⟨hroot₂, hlen₂⟩
  refine wp_seq (hroot₂.ends_writeAt hdotdot (by decide) (hlen₂ ▸ hlen ▸ by decide) (by decide)) ?_
  exact fun _ st₃ h₃ ↦ h₃.1

theorem ends_freeMapOpen (st : State) : Ends freeMapOpen (fun _ st' ↦ st'.disk = st.disk) st := by
  refine wp_seq (ends_inodeOpen st 0) fun _ st₁ h₁ ↦ ?_
  have hdisk : st₁.disk = st.disk := by rw [h₁]; rfl
  refine wp_bind.mpr (wp_perform fun _ ↦ ⟨trivial, ?_⟩)
  refine wp_seq (ends_readAt _ _ _ _) fun data st₂ h₂ ↦ ?_
  exact wp_perform fun _ ↦ ⟨trivial, h₂.2 ▸ hdisk⟩

/-- What `do_format` comes to once the free map is complete: its map is saved as it is, with the sector of
the root directory. -/
theorem Stage.ends_rest (h : Stage st {0} count) (hlen : st.fileLength 0 = ((count + 7) / 8 : Nat))
    (hfresh : Fresh st {0} 1) (hfree : 1 ≤ st.free) (hcount : 0 < count)
    (hmax : (count + 7) / 8 ≤ 16524 * 512) :
    Ends (do
        let _ ← Dir.create 1 1
        freeMapClose
        setFreeMap (.init count hc)
        freeMapOpen)
      (fun _ st' ↦ (∀ z, st'.Holds 0 z ↔ st.Holds 0 z) ∧ (∀ z, st'.Holds 1 z → ¬ st.Used z) ∧
        ∀ z, (mount st'.disk count hc).Used z ↔ st.Used z ∨ st'.Holds 1 z) st := by
  refine wp_seq (h.ends_rootCreate hfresh hfree) fun _ st₁ hr ↦ ?_
  have hflush := hr.stage.ends_flush (.inr rfl) (hr.length.trans hlen) hcount hmax
  refine wp_bind.mpr (wp_seq hflush ?_)
  rintro _ st₂ ⟨hstage, hmap, hindex, hsaved⟩
  refine ends_getInode ?_
  rw [hstage.closed 0]
  refine wp_bind.mpr (wp_perform fun _ ↦ ⟨trivial, ?_⟩)
  refine wp_mono (ends_freeMapOpen _) fun _ st₃ hdisk ↦ ?_
  have hdisk : st₃.disk = st₂.disk := hdisk
  have h0 : ∀ z, st₃.Holds 0 z ↔ st₁.Holds 0 z := fun z ↦ by
    rw [Holds, hdisk]
    exact (hindex 0 (.inr rfl)).holds
  have h1 : ∀ z, st₃.Holds 1 z ↔ st₁.Holds 1 z := fun z ↦ by
    rw [Holds, hdisk]
    exact (hindex 1 (.inl rfl)).holds
  refine ⟨fun z ↦ (h0 z).trans hr.index.holds, fun z hz ↦ hr.new z ((h1 z).mp hz), fun z ↦ ?_⟩
  rw [h1, ← hr.used, hdisk, mount_used hstage.bits hsaved.length hsaved.bytes, hmap]
  rfl

theorem Use.not_in_empty (a : Use) : ¬ a.In st ∅ := fun ha ↦ by
  cases a with
  | inode i => exact ha
  | block i u => exact ha.1

theorem stage_raw (disk : Nat → Sector) : Stage (raw disk count hc) ∅ count :=
  ⟨⟨fun a _ ha ↦ absurd ha a.not_in_empty, fun a ha ↦ absurd ha a.not_in_empty, fun _ hi ↦ hi.elim⟩,
    fun _ ↦ rfl, length_init (h := hc), fun _ hi ↦ hi.elim, fun _ hi ↦ hi.elim⟩

open Finset

theorem free_raw (disk : Nat → Sector) (hc : count < 4294967296) (hcount : 2 ≤ count) :
    (raw disk count hc).free = count - 2 := by
  have hfilter : ((Finset.range (init count hc).bits.length).filter fun i ↦
      2 ≤ i ∧ test (init count hc).bits i = false) = Finset.Ico 2 count := by
    ext i
    have htest : test (init count hc).bits i = true ↔ i = 0 ∨ i = 1 := test_init hcount
    rw [Finset.mem_filter, Finset.mem_range, length_init, Finset.mem_Ico, ← Bool.not_eq_true, htest]
    omega
  exact (congrArg card hfilter).trans (Nat.card_Ico _ _)

theorem used_raw (hcount : 2 ≤ count) : (raw disk count hc).Used z ↔ z = 0 ∨ z = 1 :=
  test_init (h := hc) hcount

theorem fresh_one (hu : st.Used 1) (h : ¬ st.Holds 0 1) : Fresh st {0} 1 := by
  refine ⟨hu, fun a ha he ↦ ?_⟩
  cases a with
  | inode i =>
    have hi : i = 0 := ha
    have he : i = 1 := he
    omega
  | block i u =>
    obtain ⟨rfl, hpos, h0⟩ := ha
    exact h ⟨by omega, u, hpos, he⟩

theorem ends_mapCreate (disk : Nat → Sector) (hcount : 4 ≤ count) :
    Ends (inodeCreate 0 ((count + 7) / 8 : Nat) false) (fun _ st' ↦ ∃ T,
      T.length = ((count + 7) / 8 + 511) / 512 ∧ Made (raw disk count hc) st' ∅ 0 ((count + 7) / 8 : Nat) T)
      (raw disk count hc) := by
  have hblocks : bytesToSectors ((count + 7) / 8 : Nat) = ((count + 7) / 8 + 511) / 512 := by
    rw [bytesToSectors, if_neg (by omega), Int.toNat_natCast]
  have hfree := free_raw disk hc (by omega)
  have hused : (raw disk count hc).Used 0 := (used_raw (by omega)).mpr (.inl rfl)
  refine wp_mono (ends_inodeCreate_made (stage_raw disk).wf ⟨hused, fun a ha ↦ absurd ha a.not_in_empty⟩
    (by omega) (by omega) (by omega)) ?_
  rintro ok st' ⟨-, T, hT, hm⟩
  exact ⟨T, hT.trans hblocks, hm⟩

theorem Made.used_raw (hcount : 4 ≤ count)
    (hm : Made (raw disk count hc) st' ∅ 0 len T) : st'.Used z ↔ (z = 0 ∨ z = 1) ∨ z ∈ T := by
  rw [hm.took.used z]
  exact or_congr_left (Filesys.used_raw (by omega))

theorem Made.not_holds_one (hm : Made (raw disk count hc) st' ∅ 0 len T) : ¬ st'.Holds 0 1 := fun h ↦ by
  have := hm.took.ge 1 (mem_of_mem_take ((hm.holds 1).mp h))
  omega

/-- On a disk of at most 49152 sectors the free map has its blocks in the inode, and the map that is read
back marks what the two inodes use. -/
theorem format_marks_exactly (disk : Nat → Sector) (count : Nat) (hc : count < 4294967296) (hlo : 4 ≤ count)
    (hhi : count ≤ 49152) (z : Nat) :
    (mount (format disk count hc).disk count hc).Used z ↔
      z = 0 ∨ z = 1 ∨ (format disk count hc).Holds 0 z ∨ (format disk count hc).Holds 1 z := by
  have hends : Ends (doFormat count hc) (fun _ st' ↦ (mount st'.disk count hc).Used z ↔
      z = 0 ∨ z = 1 ∨ st'.Holds 0 z ∨ st'.Holds 1 z) (raw disk count hc) := by
    refine wp_bind.mpr (wp_bind.mpr (wp_perform fun _ ↦ ⟨trivial, ?_⟩))
    change Ends (inodeCreate 0 (FreeMap.init count hc).byteCount false >>= _) _ (raw disk count hc)
    rw [FreeMap.byteCount, FreeMap.length_init]
    refine wp_seq (ends_mapCreate disk hlo) ?_
    rintro _ st₁ ⟨T, hT, hm⟩
    have hstage : Stage st₁ {0} count := by
      have h := hm.stage (stage_raw disk) (by omega) (by omega)
      rwa [insert_empty_eq] at h
    refine wp_mono (hstage.ends_flush rfl hm.length (by omega) (by omega)) ?_
    rintro _ st₂ ⟨hstage₂, hmap, hindex, hsaved⟩
    have hused : ∀ z, st₂.Used z ↔ st₁.Used z := fun z ↦ by rw [State.Used, hmap, State.Used]
    have hholds : ∀ z, st₂.Holds 0 z ↔ z ∈ T := fun z ↦ by
      rw [(hindex 0 rfl).holds, hm.holds, take_of_length_le (by omega)]
    have hfresh : Fresh st₂ {0} 1 := by
      refine fresh_one ((hused 1).mpr ((hm.used_raw hlo).mpr (.inl (.inr rfl)))) ?_
      rw [(hindex 0 rfl).holds]
      exact hm.not_holds_one
    have hfree : 1 ≤ st₂.free := by
      have hraw := free_raw disk hc (by omega)
      have hspace := hm.took.space
      rw [State.free, hmap, ← State.free]
      omega
    refine wp_mono (hstage₂.ends_rest hsaved.length hfresh hfree (by omega) (by omega)) ?_
    rintro _ st' ⟨h0, -, hmount⟩
    rw [hmount, hused, hm.used_raw hlo, h0, hholds]
    tauto
  exact run_of_ends hends

/-- On a disk of eight sectors, sector 2 is a block of one of the two inodes and sector 7 is free. -/
theorem format_marks_exactly_eight :
    (mount (format (fun _ ↦ zero) 8 (by decide)).disk 8 (by decide)).Used 1 ∧
      ((format (fun _ ↦ zero) 8 (by decide)).Holds 0 2 ∨ (format (fun _ ↦ zero) 8 (by decide)).Holds 1 2) ∧
      ¬ (format (fun _ ↦ zero) 8 (by decide)).Holds 0 7 ∧ ¬ (format (fun _ ↦ zero) 8 (by decide)).Holds 1 7 := by
  have hmarks := format_marks_exactly (fun _ ↦ zero) 8 (by decide) (by decide) (by decide)
  have htwo : (mount (format (fun _ ↦ zero) 8 (by decide)).disk 8 (by decide)).Used 2 :=
    show FreeMap.test _ 2 = true by decide +kernel
  have hseven : ¬ (mount (format (fun _ ↦ zero) 8 (by decide)).disk 8 (by decide)).Used 7 :=
    show ¬ FreeMap.test _ 7 = true by decide +kernel
  rw [hmarks 7] at hseven
  rcases (hmarks 2).mp htwo with h | h | h
  · cases h
  · cases h
  · exact ⟨(hmarks 1).mpr (.inr (.inl rfl)), h, by tauto, by tauto⟩

theorem Written.not_holds {d : InodeDisk} {n x : Nat} (hw : Written st s buf off n st₁ d st')
    (hwf : WellFormed st I) (hs : s ∈ I) (hx : st.Used x) (h : ¬ st.Holds s x) : ¬ st'.Holds s x := by
  rintro ⟨h0, u, hu, he⟩
  rw [hw.addr_self hwf hs hu] at he
  by_cases hsame : addr word st₁.disk d u = addr word st.disk (st.disk s) u
  · exact h ⟨h0, u, hu, hsame.symm.trans he⟩
  · exact (hw.writing.fresh u hu hsame).2 (he ▸ hx)

/-- A free map of thirteen blocks whose inode has the first twelve: `flush` takes another sector for the
last one and one for the indirect block. -/
theorem Made.ends_flush_last (hlo : 49152 < count) (hhi : count ≤ 53248)
    (hm : Made (raw disk count hc) st ∅ 0 ((count + 7) / 8 : Nat) T) (hT : T.length = 13) :
    Ends flush (fun _ st' ↦ Stage st' {0} count ∧ st'.fileLength 0 = ((count + 7) / 8 : Nat) ∧ 1 ≤ st'.free ∧
      ∀ x, st.Used x → st'.Used x ∧ (¬ st.Holds 0 x → ¬ st'.Holds 0 x)) st := by
  have hwf : WellFormed st {0} := by
    have h := hm.wf
    rwa [insert_empty_eq] at h
  have hclosed : ∀ i, st.openInodes i = none := fun i ↦ by rw [hm.openInodes]; rfl
  have hbits : st.freeMap.bits.length = count := hm.bits.trans (length_init (h := hc))
  have hcount : st.freeMap.byteCount = (count + 7) / 8 := by rw [byteCount, hbits]
  have hbuf : (count + 7) / 8 ≤ st.freeMap.bytes.length := by
    rw [bytes, length_map, length_range, hcount]
  have hpres : ∀ b < 12, addr word st.disk (st.disk 0) (blockPos b) ≠ 0 := fun b hb ↦
    hm.present b hb (lt_bytesToSectors.mpr (by omega))
  have hlast : Ends (writeAt 0 st.freeMap.bytes ((count + 7) / 8) 0) _ st :=
    ends_writeAt_last (b := 12) hwf rfl (by rw [hclosed]; rfl) (by omega) (by omega) hbuf (by omega)
      fun k _ hk hne ↦ hpres (k / 512) (by omega)
  have hsize : (run (writeAt 0 st.freeMap.bytes ((count + 7) / 8) 0) st).2.freeMap.bits.length = count :=
    (length_bits only_writeAt st).trans hbits
  refine wp_bind.mpr (wp_perform fun _ ↦ ⟨trivial, ?_⟩)
  change Ends (writeAt 0 st.freeMap.bytes st.freeMap.byteCount 0 >>= _) _ st
  rw [hcount]
  refine wp_seq (Prog.wp_and hlast
    (Prog.wp_of_run (Q := fun _ st' ↦ st'.freeMap.bits.length = count) hsize)) ?_
  rintro n st' ⟨⟨st₁, d, hw, hout⟩, hsize⟩
  have hspace := hm.took.space
  rw [free_raw disk hc (by omega)] at hspace
  have hneed := need_le st (st.disk 0) 12
  obtain ⟨rfl, hfree, hblock⟩ := hout.full (by omega)
  have hlen : st'.fileLength 0 = ((count + 7) / 8 : Nat) := by
    rw [hw.length_self (by omega), hm.length, zero_add, max_self]
  refine ⟨⟨hw.wellFormed hwf rfl (by omega), fun i ↦ ?_, hsize, ?_, ?_⟩, hlen, ?_, fun x hx ↦ ?_⟩
  · rw [(hw.kept hwf rfl).inode, hclosed 0]
    by_cases hi : i = 0
    · rw [hi]
      rfl
    · rw [update_of_ne hi, hclosed]
  · rintro i rfl
    omega
  · rintro i rfl k hk
    have hpos : IsPos (blockPos (k / 512)) := isPos_blockPos (by omega)
    rw [hw.addr_self hwf rfl hpos]
    by_cases hlt : k / 512 < 12
    · rw [hw.writing.addr_keep hpos (hpres _ hlt)]
      exact hpres _ hlt
    · rwa [show k / 512 = 12 by omega]
  · rw [free, hw.freeMap, ← free]
    omega
  · exact ⟨(hw.kept hwf rfl).used x hx, hw.not_holds hwf rfl hx⟩

theorem format_loses (hlo : 49152 < count) (hhi : count ≤ 53248) : ∃ x,
    (mount (format disk count hc).disk count hc).Used x ∧ x ≠ 0 ∧ x ≠ 1 ∧
      ¬ (format disk count hc).Holds 0 x ∧ ¬ (format disk count hc).Holds 1 x := by
  have hends : Ends (doFormat count hc) (fun _ st' ↦ ∃ x, (mount st'.disk count hc).Used x ∧ x ≠ 0 ∧ x ≠ 1 ∧
      ¬ st'.Holds 0 x ∧ ¬ st'.Holds 1 x) (raw disk count hc) := by
    refine wp_bind.mpr (wp_bind.mpr (wp_perform fun _ ↦ ⟨trivial, ?_⟩))
    change Ends (inodeCreate 0 (init count hc).byteCount false >>= _) _ (raw disk count hc)
    rw [byteCount, length_init]
    refine wp_seq (ends_mapCreate disk (by omega)) ?_
    rintro _ st₁ ⟨T, hT, hm⟩
    have hT : T.length = 13 := by omega
    refine wp_mono (hm.ends_flush_last hlo hhi hT) ?_
    rintro _ st₂ ⟨hstage, hlen, hfree, hkeep⟩
    have hone : st₁.Used 1 := (hm.used_raw (by omega)).mpr (.inl (.inr rfl))
    have hfresh := fresh_one (hkeep 1 hone).1 ((hkeep 1 hone).2 hm.not_holds_one)
    have hx : T[12] ∈ T := getElem_mem _
    have hused : st₁.Used T[12] := (hm.used_raw (by omega)).mpr (.inr hx)
    have hlost : ¬ st₁.Holds 0 T[12] := by
      rw [hm.holds, mem_take_iff_getElem]
      rintro ⟨j, hj, he⟩
      have := (Nodup.getElem_inj_iff hm.took.nodup).mp he
      omega
    refine wp_mono (hstage.ends_rest hlen hfresh hfree (by omega) (by omega)) ?_
    rintro _ st' ⟨h0, h1, hmount⟩
    have hge := hm.took.ge _ hx
    refine ⟨T[12], (hmount _).mpr (.inl (hkeep _ hused).1), by omega, by omega, ?_,
      fun h ↦ h1 _ h (hkeep _ hused).1⟩
    rw [h0]
    exact (hkeep _ hused).2 hlost
  exact run_of_ends hends

theorem size_lt : 49153 < 4294967296 := by norm_num

/-- One sector more, and the thirteenth block that `inode::create` takes is marked for ever: neither inode
has it. -/
theorem format_leaks_sector : ∃ x,
    (mount (format (fun _ ↦ zero) 49153 size_lt).disk 49153 size_lt).Used x ∧ x ≠ 0 ∧ x ≠ 1 ∧
      ¬ (format (fun _ ↦ zero) 49153 size_lt).Holds 0 x ∧ ¬ (format (fun _ ↦ zero) 49153 size_lt).Holds 1 x :=
  format_loses (by norm_num) (by norm_num)

end Rxv6.Filesys
