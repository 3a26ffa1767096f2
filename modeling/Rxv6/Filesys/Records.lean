import Rxv6.Filesys.Directory
import Rxv6.Filesys.Space

namespace Rxv6.Filesys

open Lib Lib.BlockTree Function Sector InodeDisk List

namespace DirEntry

variable {e : DirEntry} {name : List UInt8} {x : Nat}

theorem length_toBytes (hn : e.name.length = 15) : e.toBytes.length = 20 := by
  simp [toBytes, hn]

theorem ofBytes_toBytes (hn : e.name.length = 15) (hx : e.inodeSector < 4294967296) :
    ofBytes e.toBytes = e := by
  obtain ⟨x, name, u⟩ := e
  simp only at hx
  have hname : ((toBytes ⟨x, name, u⟩).drop 4).take 15 = name := by
    exact take_left' hn
  have huse : (toBytes ⟨x, name, u⟩).getD 19 0 = u := by
    rw [toBytes]
    simp [hn]
  simp only [ofBytes, nameMax, hname, huse, mk.injEq, and_true]
  simp only [toBytes, cons_append, getD_cons_zero, getD_cons_succ, UInt8.toNat_ofNat']
  omega

theorem length_makeEntry (name : List UInt8) (x : Nat) : (makeEntry name x).name.length = 15 := by
  simp only [makeEntry, nameMax, length_append, length_take, length_replicate]
  omega

theorem text_makeEntry (hlen : name.length ≤ 14) (hnul : 0 ∉ name) : (makeEntry name x).text = name := by
  have htake : name.take nameMax = name := take_of_length_le hlen
  rw [text, makeEntry, htake]
  have hall : ∀ b ∈ name, (decide (b ≠ 0)) = true := by
    intro b hb
    exact decide_eq_true (fun h0 ↦ hnul (h0 ▸ hb))
  rw [takeWhile_append_of_pos hall, nameMax, show 14 + 1 - name.length = (14 - name.length) + 1 by omega,
    replicate_succ, takeWhile_cons_of_neg (by simp), append_nil]

end DirEntry

def State.record (st : State) (s i : Nat) : DirEntry :=
  DirEntry.ofBytes ((List.range 20).map fun k ↦ fileByte st.disk (st.disk s) (20 * i + k))

open State

theorem State.length_record (st : State) (s i : Nat) : (st.record s i).name.length = 15 := by
  simp [record, DirEntry.ofBytes, nameMax]

theorem State.record_sector_lt (st : State) (s i : Nat) : (st.record s i).inodeSector < 4294967296 := by
  rw [record]
  simp only [DirEntry.ofBytes]
  have hb := fun k ↦ (((range 20).map fun k ↦
    fileByte st.disk (st.disk s) (20 * i + k)).getD k 0).toNat_lt
  have := hb 0
  have := hb 1
  have := hb 2
  have := hb 3
  omega

def State.slots (st : State) (s : Nat) : Nat := entryCount (st.readLength s)

variable {st : State} {s i : Nat} {name : List UInt8}

theorem State.lt_slots : i < st.slots s ↔ ((20 * i + 20 : Nat) : Int) ≤ st.readLength s := by
  simp only [slots, entryCount, entrySize]
  omega

theorem run_inodeLength : run (inodeLength s) st = (st.readLength s, st) := by
  obtain ⟨h1, h2⟩ := run_of_ends (ends_inodeLength st s)
  exact Prod.ext h1 h2

theorem run_readAt_eq (size off : Nat) : run (readAt s size off) st = (bytesAt st s size off, st) := by
  obtain ⟨h1, h2⟩ := run_of_ends (ends_readAt st s size off)
  exact Prod.ext h1 h2

theorem bytesAt_record (hi : i < st.slots s) :
    bytesAt st s 20 (i * 20) = (List.range 20).map fun k ↦ fileByte st.disk (st.disk s) (20 * i + k) := by
  have hmin : min 20 (st.readLength s - (i * 20 : Nat)).toNat = 20 := by
    have := lt_slots.mp hi
    omega
  rw [bytesAt, hmin, mul_comm]

theorem run_readEntry (hi : i < st.slots s) : run (readEntry s i) st = (some (st.record s i), st) := by
  have hbytes : bytesAt st s entrySize (i * entrySize) = _ := bytesAt_record hi
  rw [readEntry, run_bind, run_readAt_eq, hbytes]
  rfl

section Scan

variable {α : Type} {l : List Nat} {f : Nat → DirEntry → Prog (Option α)}

theorem run_scan_none (hl : ∀ i ∈ l, i < st.slots s)
    (hf : ∀ i ∈ l, run (f i (st.record s i)) st = (none, st)) : run (scan s f l) st = (none, st) := by
  induction l with
  | nil => rfl
  | cons i l ih =>
    rw [scan, run_bind, run_readEntry (hl i mem_cons_self)]
    rw [run_bind, hf i mem_cons_self]
    exact ih (fun j hj ↦ hl j (mem_cons_of_mem i hj)) fun j hj ↦ hf j (mem_cons_of_mem i hj)

theorem run_scan_some {l' : List Nat} {a : α} {st' : State} (hl : ∀ j ∈ l, j < st.slots s)
    (hf : ∀ j ∈ l, run (f j (st.record s j)) st = (none, st)) (hi : i < st.slots s)
    (ha : run (f i (st.record s i)) st = (some a, st')) :
    run (scan s f (l ++ i :: l')) st = (some a, st') := by
  induction l with
  | nil =>
    rw [nil_append, scan, run_bind, run_readEntry hi]
    rw [run_bind, ha]
    rfl
  | cons j l ih =>
    rw [cons_append, scan, run_bind, run_readEntry (hl j mem_cons_self)]
    rw [run_bind, hf j mem_cons_self]
    exact ih (fun k hk ↦ hl k (mem_cons_of_mem j hk)) fun k hk ↦ hf k (mem_cons_of_mem j hk)

theorem run_scan_range (st : State) (s : Nat) (p : DirEntry → Bool) (f : Nat → DirEntry → Prog (Option α))
    (hno : ∀ i e, p e = false → run (f i e) st = (none, st)) :
    (∀ i < st.slots s, p (st.record s i) = false) ∧ run (scan s f (List.range (st.slots s))) st = (none, st) ∨
      ∃ i < st.slots s, p (st.record s i) = true ∧ (∀ j < i, p (st.record s j) = false) ∧
        ∀ a st', run (f i (st.record s i)) st = (some a, st') →
          run (scan s f (List.range (st.slots s))) st = (some a, st') := by
  by_cases hall : ∀ i < st.slots s, p (st.record s i) = false
  · refine .inl ⟨hall, run_scan_none (fun i hi ↦ mem_range.mp hi) fun i hi ↦ ?_⟩
    exact hno i _ (hall i (mem_range.mp hi))
  · have hex : ∃ i, i < st.slots s ∧ p (st.record s i) = true := by
      by_contra hnone
      refine hall fun i hi ↦ ?_
      by_contra hp
      exact hnone ⟨i, hi, by simpa using hp⟩
    classical
    obtain ⟨hi, hp⟩ := Nat.find_spec hex
    set i := Nat.find hex with hidef
    have hmin : ∀ j < i, p (st.record s j) = false := by
      intro j hj
      by_contra hpj
      exact Nat.find_min hex hj ⟨hj.trans hi, by simpa using hpj⟩
    refine .inr ⟨i, hi, hp, hmin, fun a st' ha ↦ ?_⟩
    have hsplit : range (st.slots s) =
        range i ++ i :: (range (st.slots s - i - 1)).map (i + 1 + ·) := by
      conv_lhs => rw [show st.slots s = i + (1 + (st.slots s - i - 1)) by omega, range_add]
      rw [range_add]
      simp
    rw [hsplit]
    refine run_scan_some (fun j hj ↦ (mem_range.mp hj).trans hi) (fun j hj ↦ ?_) hi ha
    exact hno j _ (hmin j (mem_range.mp hj))

end Scan

theorem run_lookup (st : State) (s : Nat) (name : List UInt8) :
    (∀ i < st.slots s, (st.record s i).nameMatches name = false) ∧ run (Dir.lookup s name) st = (none, st) ∨
      ∃ i < st.slots s, (st.record s i).nameMatches name = true ∧
        run (Dir.lookup s name) st = (some (st.record s i).inodeSector, st) := by
  have hrun : run (Dir.lookup s name) st = run (scan s (fun _ e ↦
      pure (if e.nameMatches name then some e.inodeSector else none)) (range (st.slots s))) st := by
    rw [Dir.lookup, run_bind, run_inodeLength]
    rfl
  rw [hrun]
  rcases run_scan_range st s ((·.nameMatches name)) (fun _ e ↦
      (pure (if e.nameMatches name then some e.inodeSector else none))) (by
        intro i e he
        rw [he]
        rfl) with hnone | ⟨i, hi, hp, -, hrun⟩
  · exact .inl hnone
  · refine .inr ⟨i, hi, hp, hrun _ _ ?_⟩
    rw [hp]
    rfl

def maxLength : Nat := 16524 * 512

structure Solid (st : State) (I : Set Nat) (s : Nat) : Prop where
  wf : WellFormed st I
  mem : s ∈ I
  writable : writeDenied (st.openInodes s) = false
  length : st.readLength s = st.fileLength s
  nonneg : 0 ≤ st.fileLength s
  blocks : ∀ k : Nat, k < st.fileLength s → addr word st.disk (st.disk s) (blockPos (k / 512)) ≠ 0

structure Kept (st st' : State) (I : Set Nat) (s : Nat) : Prop where
  disk : ∀ t ∈ I, t ≠ s → st'.disk t = st.disk t
  addr : ∀ t ∈ I, t ≠ s → ∀ u, IsPos u → addr word st'.disk (st'.disk t) u = addr word st.disk (st.disk t) u
  bytes : ∀ t ∈ I, t ≠ s → ∀ k, fileByte st'.disk (st'.disk t) k = fileByte st.disk (st.disk t) k
  fields : ∀ k, 64 ≤ k → byte (st'.disk s) k = byte (st.disk s) k
  inode : st'.openInodes = update st.openInodes s
    ((st.openInodes s).map fun i ↦ { i with length := st'.fileLength s })
  used : ∀ z, st.Used z → st'.Used z

variable {I : Set Nat} {st' st₁ : State} {d : InodeDisk} {e : DirEntry} {j n off size : Nat} {buf : List UInt8}

theorem byte_extend {k m : Nat} (hk : 64 ≤ k) : byte (extend d m) k = byte d k := by
  unfold extend
  split
  · rw [setEnd, byte_setWord, if_neg (by omega), byte_setWord, if_neg (by omega)]
  · rfl

theorem Written.kept (h : Written st s buf off n st₁ d st') (hwf : WellFormed st I) (hs : s ∈ I) :
    Kept st st' I s where
  disk t ht hne := h.disk_other hwf hs ht hne
  addr t ht hne u hu := h.addr_other hwf hs ht hne hu
  bytes t ht hne k := h.fileByte_other hwf hs ht hne k
  fields k hk := by
    rw [h.disk_self, byte_extend hk, h.writing.fields k (by omega)]
  inode := by
    rw [h.openInodes, h.writing.openInodes, fileLength, h.disk_self]
  used z hz := by
    rw [Used, h.freeMap]
    exact h.writing.mono z hz

theorem Kept.denied (h : Kept st st' I s) : writeDenied (st'.openInodes s) = writeDenied (st.openInodes s) := by
  rw [h.inode, update_self]
  cases st.openInodes s <;> rfl

theorem Solid.present (h : Solid st I s) (hsize : size ≤ 512) (hoff : (off : Int) ≤ st.fileLength s) {k : Nat}
    (hk : off ≤ k) (hk' : k < off + size) (hlast : k / 512 ≠ (off + size - 1) / 512) :
    addr word st.disk (st.disk s) (blockPos (k / 512)) ≠ 0 := by
  have := h.blocks (off - 1) (by omega)
  rwa [show (off - 1) / 512 = k / 512 by omega] at this

theorem Solid.written (h : Solid st I s) (hsize : size ≤ 512) (hn : n ≤ size)
    (hoff : (off : Int) ≤ st.fileLength s) (hmax : off + size ≤ maxLength)
    (hw : Written st s buf off n st₁ d st')
    (hout : Outcome st (st.disk s) off size ((off + size - 1) / 512) (d, n) st₁) : Solid st' I s := by
  unfold maxLength at hmax
  have hlength := hw.length_self (by omega)
  have hlt : ∀ k : Nat, k < st.fileLength s ∨ off ≤ k ∧ k < off + n → k / 512 < 16524 := by
    rintro k (hk | hk)
    · by_contra hge
      exact h.blocks k hk (addr_of_ge (by omega))
    · omega
  have haddr : ∀ k : Nat, k < st.fileLength s ∨ off ≤ k ∧ k < off + n →
      addr word st.disk (st.disk s) (blockPos (k / 512)) ≠ 0 →
      addr word st'.disk (st'.disk s) (blockPos (k / 512)) ≠ 0 := by
    intro k hk h0
    have hpos := isPos_blockPos (hlt k hk)
    rw [hw.addr_self h.wf h.mem hpos, hw.writing.addr_keep hpos h0]
    exact h0
  refine ⟨hw.wellFormed h.wf h.mem (by omega), h.mem, ?_, hw.readLength_self, ?_, fun k hk ↦ ?_⟩
  · rw [(hw.kept h.wf h.mem).denied]
    exact h.writable
  · omega
  · by_cases hold : k < st.fileLength s
    · exact haddr k (.inl hold) (h.blocks k hold)
    · have hnew : off ≤ k ∧ k < off + n := by omega
      by_cases hlast : k / 512 = (off + size - 1) / 512
      · rw [hw.addr_self h.wf h.mem (isPos_blockPos (hlt k (.inr hnew))), hlast]
        rcases lt_or_ge st.free _ with hlack | hroom
        · exact absurd hlast ((hout.short hlack).2 k hnew.1 hnew.2)
        · exact (hout.full hroom).2.2
      · exact haddr k (.inr hnew) (h.present hsize hoff hnew.1 (by omega) hlast)

theorem Solid.ends_writeAt (h : Solid st I s) (hpos : 0 < size) (hsize : size ≤ 512)
    (hlen : size ≤ buf.length) (hoff : (off : Int) ≤ st.fileLength s) (hmax : off + size ≤ maxLength) :
    Ends (writeAt s buf size off) (fun n st' ↦ n ≤ size ∧ Solid st' I s ∧
      ∃ st₁ d, Written st s buf off n st₁ d st' ∧
        Outcome st (st.disk s) off size ((off + size - 1) / 512) (d, n) st₁) st := by
  have hlast := ends_writeAt_last h.wf h.mem h.writable hmax hpos hlen rfl
    fun k hk hk' hne ↦ h.present hsize hoff hk hk' hne
  have hle : Ends (writeAt s buf size off) _ st := Filesys.ends_writeAt h.wf h.mem h.writable hmax
  refine wp_mono (Program.Prog.wp_and hle hlast) ?_
  rintro n st' ⟨⟨hn, -⟩, st₁, d, hw, hout⟩
  exact ⟨hn, h.written hsize hn hoff hmax hw hout, st₁, d, hw, hout⟩

theorem map_overwrite {f : Nat → UInt8} (hn : n = buf.length) :
    (List.range n).map (fun k ↦ overwrite f buf off n (off + k)) = buf := by
  refine ext_getElem (by simp [hn]) fun k hk hk' ↦ ?_
  rw [getElem_map, getElem_range, overwrite, if_pos (by omega), Nat.add_sub_cancel_left,
    getD_eq_getElem?_getD, getElem?_eq_getElem hk', Option.getD_some]

/-- What storing the entry `e` at place `i` of a directory comes to. -/
structure Stored (st st' : State) (I : Set Nat) (s i : Nat) (e : DirEntry) (n : Nat) : Prop where
  solid : Solid st' I s
  kept : Kept st st' I s
  others : ∀ j < st.slots s, j ≠ i → st'.record s j = st.record s j
  full : i < st.slots s ∨ st.need (st.disk s) ((20 * i + 19) / 512) ≤ st.free →
    n = 20 ∧ st'.record s i = e ∧ st'.slots s = max (st.slots s) (i + 1)
  short : ¬ (i < st.slots s ∨ st.need (st.disk s) ((20 * i + 19) / 512) ≤ st.free) →
    n < 20 ∧ st'.slots s = st.slots s
  space : st.free ≤ st'.free + 3

theorem Written.record_other (h : Written st s buf off n st₁ d st') (hwf : WellFormed st I) (hs : s ∈ I)
    (hj : ∀ k < 20, ¬ (off ≤ 20 * j + k ∧ 20 * j + k < off + n)) : st'.record s j = st.record s j := by
  refine congrArg DirEntry.ofBytes (map_congr_left fun k hk ↦ ?_)
  rw [h.fileByte_self hwf hs, overwrite, if_neg (hj k (mem_range.mp hk))]

theorem Written.record_self (h : Written st s e.toBytes (20 * i) 20 st₁ d st') (hwf : WellFormed st I)
    (hs : s ∈ I) (hn : e.name.length = 15) (hx : e.inodeSector < 4294967296) : st'.record s i = e := by
  have hbytes : (range 20).map (fun k ↦ fileByte st'.disk (st'.disk s) (20 * i + k)) = e.toBytes := by
    simp only [h.fileByte_self hwf hs]
    exact map_overwrite (DirEntry.length_toBytes hn).symm
  rw [record, hbytes, DirEntry.ofBytes_toBytes hn hx]

theorem need_le (st : State) (d : InodeDisk) (b : Nat) : st.need d b ≤ 3 := by
  unfold need
  split_ifs <;> omega

theorem Solid.ends_writeEntry (h : Solid st I s) (hi : i ≤ st.slots s) (hn : e.name.length = 15)
    (hx : e.inodeSector < 4294967296) (hmax : 20 * i + 20 ≤ maxLength) :
    Ends (Dir.writeEntry s i e) (fun n st' ↦ Stored st st' I s i e n) st := by
  have hslots : (20 * st.slots s) ≤ st.fileLength s ∧ st.fileLength s < 20 * st.slots s + 20 := by
    have := h.nonneg
    simp only [slots, entryCount, entrySize, h.length]
    omega
  have hslots' : ∀ st' : State, Solid st' I s → ∀ m : Nat, st'.fileLength s = max (st.fileLength s) m →
      st'.slots s = max (st.slots s) (m / 20) := by
    intro st' h' m hm
    simp only [slots, entryCount, entrySize, h.length, h'.length]
    omega
  have hlen := DirEntry.length_toBytes hn
  unfold Dir.writeEntry
  rw [show i * entrySize = 20 * i from mul_comm _ _, entrySize]
  refine wp_mono (h.ends_writeAt (by omega) (by omega) hlen.ge (by omega) hmax) ?_
  rintro n st' ⟨hle, hsolid, st₁, d, hw, hout⟩
  rw [show 20 * i + 20 - 1 = 20 * i + 19 by omega] at hout
  unfold maxLength at hmax
  have hlength := hw.length_self (by omega)
  have hfree : st'.free = st₁.free := by rw [free, free, hw.freeMap]
  -- The block of an entry that exists is there, so nothing is needed for it.
  have hroom : i < st.slots s → st.need (st.disk s) ((20 * i + 19) / 512) = 0 := fun hlt ↦
    if_pos (h.blocks (20 * i + 19) (by omega))
  have hiff : i < st.slots s ∨ st.need (st.disk s) ((20 * i + 19) / 512) ≤ st.free ↔
      st.need (st.disk s) ((20 * i + 19) / 512) ≤ st.free := by
    refine ⟨fun hor ↦ hor.elim (fun hlt ↦ ?_) id, .inr⟩
    omega
  refine ⟨hsolid, hw.kept h.wf h.mem, fun j hj hne ↦ ?_, fun hor ↦ ?_, fun hor ↦ ?_, ?_⟩
  · exact hw.record_other h.wf h.mem fun k hk ↦ by omega
  · obtain ⟨hfull, -, -⟩ := hout.full (hiff.mp hor)
    subst hfull
    refine ⟨rfl, hw.record_self h.wf h.mem hn hx, ?_⟩
    rw [hslots' st' hsolid _ hlength]
    omega
  · have hlack := Nat.lt_of_not_le (hiff.not.mp hor)
    have hshort := (hout.short hlack).1
    refine ⟨hshort, ?_⟩
    rw [hslots' st' hsolid _ hlength]
    omega
  · have hneed := need_le st (st.disk s) ((20 * i + 19) / 512)
    rcases lt_or_ge st.free (st.need (st.disk s) ((20 * i + 19) / 512)) with hlack | hroom'
    · omega
    · have := (hout.full hroom').2.1
      omega

def State.readIsDir (st : State) (s : Nat) : Bool :=
  match st.openInodes s with
  | some i => i.isDir
  | none => InodeDisk.isDir (st.disk s)

theorem run_inodeIsDir : run (inodeIsDir s) st = (st.readIsDir s, st) := by
  have hends : Ends (inodeIsDir s) (fun r st' ↦ r = st.readIsDir s ∧ st' = st) st := by
    unfold inodeIsDir readIsDir
    refine ends_getInode ?_
    cases st.openInodes s with
    | some x => exact ⟨rfl, rfl⟩
    | none => exact wp_bind.mpr (wp_bread trivial ⟨rfl, rfl⟩)
  obtain ⟨h1, h2⟩ := run_of_ends hends
  exact Prod.ext h1 h2

def NonEmptyDir (st : State) (s : Nat) : Prop :=
  st.readIsDir s = true ∧ ∃ i < st.slots s, (st.record s i).isChild = true

theorem run_isEmpty (st : State) (s : Nat) : (∀ i < st.slots s, (st.record s i).isChild = false) ∧
      run (Dir.isEmpty s) st = (true, st) ∨
    (∃ i < st.slots s, (st.record s i).isChild = true) ∧ run (Dir.isEmpty s) st = (false, st) := by
  rw [Dir.isEmpty, run_bind, run_inodeLength]
  simp only [run_bind]
  rcases run_scan_range st s DirEntry.isChild (fun _ e ↦
      (pure (if e.isChild then some () else none))) (by
        intro i e he
        rw [he]
        rfl) with ⟨hno, hrun⟩ | ⟨i, hi, hp, -, hrun⟩
  · exact .inl ⟨hno, by rw [show entryCount (st.readLength s) = st.slots s from rfl, hrun]; rfl⟩
  · refine .inr ⟨⟨i, hi, hp⟩, ?_⟩
    rw [show entryCount (st.readLength s) = st.slots s from rfl, hrun () st (by rw [hp]; rfl)]
    rfl

theorem run_removeEntry (st : State) (s i : Nat) (e : DirEntry) : NonEmptyDir st e.inodeSector ∧ run (Dir.removeEntry s i e) st = (false, st) ∨
    ¬ NonEmptyDir st e.inodeSector ∧ run (Dir.removeEntry s i e) st =
      (true, (run (Dir.writeEntry s i { e with inUse := 0 }) (run (inodeRemove e.inodeSector) st).2).2) := by
  rw [Dir.removeEntry, run_bind, run_bind, run_inodeIsDir]
  cases hd : st.readIsDir e.inodeSector with
  | false =>
    refine .inr ⟨fun h ↦ ?_, by simp⟩
    rw [NonEmptyDir, hd] at h
    cases h.1
  | true =>
    rcases run_isEmpty st e.inodeSector with ⟨hno, hrun⟩ | ⟨hex, hrun⟩
    · refine .inr ⟨fun h ↦ ?_, by simp [hrun]⟩
      obtain ⟨-, j, hj, hchild⟩ := h
      rw [hno j hj] at hchild
      cases hchild
    · exact .inl ⟨⟨hd, hex⟩, by simp [hrun]⟩

theorem run_remove (st : State) (s : Nat) (name : List UInt8) :
    ((∀ i < st.slots s, (st.record s i).nameMatches name = false) ∨
        ∃ i < st.slots s, (st.record s i).nameMatches name = true ∧
          NonEmptyDir st (st.record s i).inodeSector) ∧ run (Dir.remove s name) st = (false, st) ∨
      ∃ i < st.slots s, (st.record s i).nameMatches name = true ∧
        ¬ NonEmptyDir st (st.record s i).inodeSector ∧
        run (Dir.remove s name) st = (true, (run (Dir.writeEntry s i { st.record s i with inUse := 0 })
          (run (inodeRemove (st.record s i).inodeSector) st).2).2) := by
  rw [Dir.remove, run_bind, run_inodeLength]
  simp only [run_bind]
  rcases run_scan_range st s ((·.nameMatches name)) (fun i e ↦
      if e.nameMatches name then Dir.removeEntry s i e >>= fun ok ↦ pure (some ok) else pure none) (by
        intro i e he
        rw [he]
        rfl) with ⟨hno, hrun⟩ | ⟨i, hi, hp, -, hrun⟩
  · exact .inl ⟨.inl hno, by rw [show entryCount (st.readLength s) = st.slots s from rfl, hrun]; rfl⟩
  · simp only [show entryCount (st.readLength s) = st.slots s from rfl]
    rcases run_removeEntry st s i _ with ⟨hne, hr⟩ | ⟨hne, hr⟩
    · refine .inl ⟨.inr ⟨i, hi, hp, hne⟩, ?_⟩
      rw [hrun false st (by rw [hp, if_pos rfl, run_bind, hr]; rfl)]
      rfl
    · refine .inr ⟨i, hi, hp, hne, ?_⟩
      rw [hrun true _ (by rw [hp, if_pos rfl, run_bind, hr]; rfl)]
      rfl

theorem run_add (st : State) (s : Nat) (name : List UInt8) (x : Nat) :
    (nameMax < name.length ∨ ∃ i < st.slots s, (st.record s i).nameMatches name = true) ∧
        run (Dir.add s name x) st = (false, st) ∨
      name.length ≤ nameMax ∧ (∀ i < st.slots s, (st.record s i).nameMatches name = false) ∧
        ∃ i ≤ st.slots s, (i < st.slots s → (st.record s i).inUse = 0) ∧
          (i = st.slots s → ∀ j < st.slots s, (st.record s j).inUse ≠ 0) ∧
          run (Dir.add s name x) st =
            (i < st.slots s || (run (Dir.writeEntry s i (makeEntry name x)) st).1 == 20,
              (run (Dir.writeEntry s i (makeEntry name x)) st).2) := by
  rw [Dir.add, run_bind]
  rcases run_lookup st s name with ⟨hno, hrun⟩ | ⟨i, hi, hp, hrun⟩
  · rw [hrun]
    simp only [Option.isSome_none, Bool.false_eq_true, if_false]
    by_cases hlen : nameMax < name.length
    · exact .inl ⟨.inl hlen, by rw [if_pos hlen]; rfl⟩
    · refine .inr ⟨by omega, hno, ?_⟩
      rw [if_neg hlen, run_bind, run_inodeLength]
      simp only [run_bind, show entryCount (st.readLength s) = st.slots s from rfl]
      rcases run_scan_range st s (fun e ↦ e.inUse = 0) (fun i e ↦
          if e.inUse = 0 then Dir.writeEntry s i _ >>= fun _ ↦ pure (some ())
          else pure none) (by
            intro i e he
            rw [if_neg (of_decide_eq_false he)]
            rfl) with ⟨hno', hrun'⟩ | ⟨i, hi, hp, -, hrun'⟩
      · refine ⟨st.slots s, le_rfl, fun h ↦ absurd h (lt_irrefl _), fun _ j hj ↦
          of_decide_eq_false (hno' j hj), ?_⟩
        rw [hrun']
        simp [entrySize]
      · have hfree := of_decide_eq_true hp
        refine ⟨i, hi.le, fun _ ↦ hfree, fun h ↦ absurd h hi.ne, ?_⟩
        rw [hrun' () _ (by rw [if_pos hfree, run_bind]; rfl)]
        simp [hi]
  · rw [hrun]
    exact .inl ⟨.inr ⟨i, hi, hp⟩, rfl⟩

end Rxv6.Filesys
