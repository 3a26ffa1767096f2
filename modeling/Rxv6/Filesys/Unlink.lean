import Rxv6.Filesys.Operations

namespace Rxv6.Filesys

open Lib Lib.BlockTree Function Sector InodeDisk

variable {st st' st₀ st₁ st₂ : State} {I : Set Nat} {h x : Multiset Nat} {d₀ : InodeDisk}
variable {cwd d i n off s size t z : Nat} {buf name path : List UInt8} {e : DirEntry}

section InPlace

theorem ends_writeLoop_there (hmax : off + size ≤ 16524 * 512) (hlen : size ≤ buf.length)
    (hpres : ∀ k, off ≤ k → k < off + size → addr word st₀.disk d₀ (blockPos (k / 512)) ≠ 0) (turns : Nat) :
    ∀ st n, Writing st₀ d₀ buf off st d₀ n none → n ≤ size → st.freeMap = st₀.freeMap →
      Ends (writeLoop buf size turns d₀ n (off + n)) (fun _ st' ↦ st'.freeMap = st₀.freeMap) st := by
  induction turns with
  | zero => exact fun st n _ _ hmap ↦ hmap
  | succ turns ih =>
    intro st n hw hn hmap
    unfold writeLoop
    split
    · next hlt =>
      have hb : (off + n) / 512 < 16524 := by omega
      have hthere := hpres (off + n) (by omega) (by omega)
      have haddr := hw.addr_keep (isPos_blockPos hb) hthere
      have hx0 : addr word st.disk d₀ (blockPos ((off + n) / 512)) ≠ 0 := haddr ▸ hthere
      refine wp_seq (ends_dataSectorFor_there hx0) ?_
      rintro r st₁ ⟨rfl, rfl⟩
      refine ends_bwrite ?_
      have hnext := hw.chunk (c := min (512 - (off + n) % 512) (size - n)) hb rfl hx0 (min_le_left _ _)
        (by omega)
      rw [add_assoc]
      exact ih _ _ hnext (by omega) hmap
    · exact hmap

theorem Solid.ends_writeAt_there (hs : Solid st I s) (hlen : size ≤ buf.length)
    (hend : ((off + size : Nat) : Int) ≤ st.fileLength s) (hmax : off + size ≤ 16524 * 512) :
    Ends (writeAt s buf size off) (fun _ st' ↦ st'.freeMap = st.freeMap) st := by
  refine ends_getInode ?_
  rw [if_neg (by simp [hs.writable])]
  refine ends_bread ?_
  have hloop := ends_writeLoop_there hmax hlen (fun k _ hk ↦ hs.blocks k (by omega)) size st 0
    (Writing.start (hs.wf.tree hs.mem)) (Nat.zero_le _) rfl
  refine wp_seq hloop fun r st₁ hmap ↦ ?_
  refine ends_bwrite ?_
  exact wp_bind.mpr (wp_setInode trivial hmap)

theorem Solid.ends_writeEntry_there (hs : Solid st I s) (hi : i < st.slots s) (hn : e.name.length = 15)
    (hx : e.inodeSector < 4294967296) :
    Ends (Dir.writeEntry s i e) (fun n st' ↦ Stored st st' I s i e n ∧ st'.freeMap = st.freeMap) st := by
  have hend : ((20 * i + 20)) ≤ st.fileLength s := by
    rw [← hs.length]
    exact State.lt_slots.mp hi
  have hmax : 20 * i + 20 ≤ maxLength := hs.slot_lt hi
  refine Program.Prog.wp_and (hs.ends_writeEntry hi.le hn hx hmax) ?_
  unfold Dir.writeEntry
  rw [show i * entrySize = 20 * i from mul_comm _ _]
  exact hs.ends_writeAt_there (DirEntry.length_toBytes hn).ge hend hmax

end InPlace

section Found

def State.First (st : State) (s : Nat) (name : List UInt8) (i : Nat) : Prop :=
  i < st.slots s ∧ (st.record s i).nameMatches name = true ∧ ∀ j < i, (st.record s j).nameMatches name = false

theorem State.First.unique {j : Nat} (hi : st.First s name i) (hj : st.First s name j) : i = j := by
  rcases lt_trichotomy i j with hlt | he | hlt
  · exact absurd ((hj.2.2 i hlt).symm.trans hi.2.1) Bool.false_ne_true
  · exact he
  · exact absurd ((hi.2.2 j hlt).symm.trans hj.2.1) Bool.false_ne_true

theorem State.First.run_lookup (hi : st.First s name i) :
    run (Dir.lookup s name) st = (some (st.record s i).inodeSector, st) := by
  rw [Dir.lookup, run_bind, run_inodeLength]
  rcases run_scan_range st s ((·.nameMatches name)) (fun _ e ↦
      (pure (if e.nameMatches name then some e.inodeSector else none))) (by
        intro i e he
        rw [he]
        rfl) with ⟨hno, -⟩ | ⟨j, hj, hp, hmin, hrun⟩
  · exact absurd ((hno i hi.1).symm.trans hi.2.1) Bool.false_ne_true
  · obtain rfl : i = j := hi.unique ⟨hj, hp, hmin⟩
    refine hrun _ _ ?_
    rw [hp]
    rfl

theorem run_remove_first (hrun : (run (Dir.remove s name) st).1 = true) :
    ∃ i, st.First s name i ∧ (run (Dir.remove s name) st).2 =
      (run (Dir.writeEntry s i { st.record s i with inUse := 0 })
        (run (inodeRemove (st.record s i).inodeSector) st).2).2 := by
  rw [Dir.remove, run_bind, run_inodeLength] at hrun ⊢
  simp only [run_bind, run_pure] at hrun ⊢
  rcases run_scan_range st s ((·.nameMatches name)) (fun i e ↦
      if e.nameMatches name then Dir.removeEntry s i e >>= fun ok ↦ pure (some ok) else pure none) (by
        intro i e he
        rw [he]
        rfl) with ⟨-, hscan⟩ | ⟨i, hi, hp, hmin, hscan⟩
  · simp only [show entryCount (st.readLength s) = st.slots s from rfl, hscan] at hrun
    cases hrun
  · simp only [show entryCount (st.readLength s) = st.slots s from rfl] at hrun ⊢
    rcases run_removeEntry st s i _ with ⟨-, hr⟩ | ⟨-, hr⟩
    · rw [hscan false st (by rw [hp, if_pos rfl, run_bind, hr]; rfl)] at hrun
      cases hrun
    · refine ⟨i, ⟨hi, hp, hmin⟩, ?_⟩
      rw [hscan true _ (by rw [hp, if_pos rfl, run_bind, hr]; rfl)]

end Found

def closeTimes (s n : Nat) : Prog Unit := each (List.replicate n s) inodeClose

def State.Sectors (st : State) (s z : Nat) : Prop :=
  z = s ∨ z ≠ 0 ∧ ∃ u, IsPos u ∧ addr word st.disk (st.disk s) u = z

/-- The blocks of a file are below its length, and its length is within the reach of the index. -/
structure Trim (st : State) (s : Nat) : Prop where
  reach : st.fileLength s ≤ maxLength
  below : ∀ b < 16524, addr word st.disk (st.disk s) (blockPos b) ≠ 0 → b < bytesToSectors (st.fileLength s)

theorem Trim.owns_iff (ht : Trim st s) :
    Owns st (st.disk s) (st.fileLength s) z ↔ z ≠ 0 ∧ ∃ u, IsPos u ∧ addr word st.disk (st.disk s) u = z := by
  refine ⟨fun ho ↦ ⟨ho.1, ho.pos⟩, ?_⟩
  rintro ⟨hz, u, hu, rfl⟩
  refine ⟨hz, ?_⟩
  have hdata : ∀ b < 16524, u = blockPos b → ∃ b < bytesToSectors (st.fileLength s),
      addr word st.disk (st.disk s) (blockPos b) = addr word st.disk (st.disk s) u := by
    rintro b hb rfl
    exact ⟨b, ht.below b hb hz, rfl⟩
  match u with
  | [i] =>
    simp only [IsPos] at hu
    rcases (show i < 12 ∨ i = 12 ∨ i = 13 by omega) with hi | rfl | rfl
    · exact .inl (hdata i (by omega) (if_pos hi).symm)
    · exact .inr (.inl rfl)
    · exact .inr (.inr ⟨hz, .inl rfl⟩)
  | [i, j] =>
    obtain ⟨hi, rfl | rfl⟩ := hu
    · refine .inl (hdata (12 + i) (by omega) ?_)
      rw [blockPos, if_neg (by omega), if_pos (by omega), Nat.add_sub_cancel_left]
    · have h13 : word (st.disk s) 13 ≠ 0 := fun h0 ↦ hz (if_pos h0)
      exact .inr (.inr ⟨h13, .inr ⟨i, hi, (if_neg h13).symm⟩⟩)
  | [i, j, k] =>
    obtain ⟨hi, hj, rfl⟩ := hu
    refine .inl (hdata (140 + (128 * j + i)) (by omega) ?_)
    rw [blockPos, if_neg (by omega), if_neg (by omega), Nat.add_sub_cancel_left]
    congr 2 <;> omega

theorem ends_closeTimes (n : Nat) : ∀ (st : State) (k : Inode), st.openInodes t = some k → k.openCnt = n + 1 → k.removed = true →
    Ends (closeTimes t (n + 1)) (fun _ st' ↦
      ∀ z, st'.Used z ↔ st.Used z ∧ ¬ (z = t ∨ Owns st (st.disk t) k.length z)) st := by
  induction n with
  | zero =>
    intro st k hk hcnt hr
    refine wp_seq (ends_close_free hk (by omega) hr) fun _ st₁ hf ↦ ?_
    exact hf.used
  | succ n ih =>
    intro st k hk hcnt hr
    refine wp_seq (ends_close_keep hk (by omega)) ?_
    rintro _ _ rfl
    refine wp_mono (ih _ { k with openCnt := k.openCnt - 1 } (update_self _ _ _) ?_ hr) fun _ st₁ hf ↦ hf
    simp only
    omega

theorem ends_inodeClose_entry (hr : ∀ k, st.openInodes s = some k → k.removed = false) :
    Ends (inodeClose s) (fun _ st' ↦ st'.disk = st.disk ∧ st'.freeMap = st.freeMap ∧
      ∀ t, t ≠ s → st'.openInodes t = st.openInodes t) st := by
  cases hk : st.openInodes s with
  | none =>
    refine wp_mono (ends_inodeClose_closed hk) ?_
    rintro _ _ rfl
    exact ⟨rfl, rfl, fun _ _ ↦ rfl⟩
  | some k =>
    by_cases hc : k.openCnt - 1 ≤ 0
    · refine wp_mono (ends_close_drop hk hc (hr k hk)) ?_
      rintro _ _ rfl
      exact ⟨rfl, rfl, fun t ht ↦ update_of_ne ht _ _⟩
    · refine wp_mono (ends_close_keep hk hc) ?_
      rintro _ _ rfl
      exact ⟨rfl, rfl, fun t ht ↦ update_of_ne ht _ _⟩

/-- What `remove` leaves of the inode `t` that it finds, for the free map and for the handles of `t`. -/
structure Marked (st st' : State) (t : Nat) (k : Inode) : Prop where
  freeMap : st'.freeMap = st.freeMap
  entry : st'.openInodes t = some { k with removed := true }
  length : st'.fileLength t = st.fileLength t
  addr : ∀ u, IsPos u → addr word st'.disk (st'.disk t) u = addr word st.disk (st.disk t) u

theorem Volume.ends_remove_marks (hv : Volume st I h x) (hcwd : st.Folder I cwd)
    (hpath : (run (resolvePath cwd path) st).1 = some (d, name))
    (hname : (run (Dir.lookup d name) st).1 = some t) (hne : t ≠ d) {k : Inode} (hk : st.openInodes t = some k) :
    Ends (remove cwd path) (fun ok st' ↦ ok = true → Marked st st' t k) st := by
  refine hv.ends_inParent hcwd nofun fun d' name' hd' _ hfolder ↦ ?_
  obtain ⟨rfl, rfl⟩ : d = d' ∧ name = name' := by
    rw [hpath] at hd'
    exact Prod.mk.inj (Option.some.inj hd')
  have hvo := hv.opened hfolder.1
  refine wp_bind.mpr (ends_of_run ?_)
  cases hok : (run _ (st.opened d)).1 with
  | false => exact wp_seq Program.Prog.wp_true nofun
  | true =>
    obtain ⟨i, hfirst, hst⟩ := run_remove_first hok
    have hslots : (st.opened d).slots d = st.slots d := (hvo.slots d).trans (hv.slots d).symm
    have hfirst' : st.First d name i := ⟨hslots ▸ hfirst.1, hfirst.2⟩
    rw [hfirst'.run_lookup] at hname
    have ht : ((st.opened d).record d i).inodeSector = t := Option.some.inj hname
    rw [ht] at hst
    have hko : (st.opened d).openInodes t = some k := (update_of_ne hne _ _).trans hk
    have htI : t ∈ I := (hv.handles.inode t k hk).1
    have hsolid := hvo.solid_marked hfolder t
    rw [hko] at hsolid
    have hflag : (run (inodeRemove t) (st.opened d)).2 =
        (st.opened d).withInode t ((some k).map fun k ↦ { k with removed := true }) := by
      rw [← hko]
      rfl
    rw [hflag] at hst
    set st₁ := (st.opened d).withInode t _ with hst₁
    have hslots₁ : st₁.slots d = (st.opened d).slots d := by
      rw [State.slots, hsolid.length, hvo.slots]
      rfl
    obtain ⟨hstored, hmap⟩ := run_of_ends (hsolid.ends_writeEntry_there
      (e := { (st.opened d).record d i with inUse := 0 }) (hslots₁ ▸ hfirst.1)
      ((st.opened d).length_record d i) ((st.opened d).record_sector_lt d i))
    rw [hst]
    set st₂ := (run _ st₁).2 with hst₂
    have hdir : ∀ k, st₂.openInodes d = some k → k.removed = false := by
      intro k' hk'
      rw [hstored.kept.inode, update_self] at hk'
      obtain ⟨k₁, hk₁, rfl⟩ := Option.map_eq_some_iff.mp hk'
      by_contra hr
      have hk₁' : (st.opened d).openInodes d = some k₁ := (update_of_ne hne.symm _ _).symm.trans hk₁
      have hfile := (hvo.handles.removed d k₁ hk₁' (by simpa using hr)).1
      exact absurd (hfolder.2.symm.trans hfile) (by decide)
    refine wp_seq (ends_inodeClose_entry hdir) ?_
    rintro _ st₃ ⟨hdisk, hmap₃, hother⟩ -
    refine ⟨hmap₃.trans hmap, ?_, ?_, fun u hu ↦ ?_⟩
    · rw [hother t hne, hstored.kept.inode, update_of_ne hne, State.withInode_openInodes, update_self]
      rfl
    · rw [State.fileLength, hdisk, hstored.kept.disk t htI hne]
      rfl
    · rw [hdisk]
      exact hstored.kept.addr t htI hne u hu

/-- Removing a file or an empty directory that is open, by a name in another directory, gives its sectors
back when its handles are closed: the open count is that of the handles. No other bit of the free map
changes. -/
theorem remove_gives_space_back (hv : Volume st I h x) (hcwd : st.Folder I cwd)
    (hpath : (run (resolvePath cwd path) st).1 = some (d, name))
    (hname : (run (Dir.lookup d name) st).1 = some t) (hne : t ≠ d) (htrim : Trim st t)
    (hopen : 0 < h.count t) (hcount : st.openCount t = h.count t)
    (hremove : run (remove cwd path) st = (true, st₁))
    (hclose : run (closeTimes t (h.count t)) st₁ = ((), st₂)) (z : Nat) :
    st₂.Used z ↔ st.Used z ∧ ¬ st.Sectors t z := by
  obtain ⟨k, hk, -⟩ := hv.entry (Multiset.count_pos.mp hopen)
  have hcnt : k.openCnt = h.count t := by
    rw [State.openCount, hk] at hcount
    exact hcount
  have hmarked := run_of_ends (hv.ends_remove_marks hcwd hpath hname hne hk)
  rw [hremove] at hmarked
  have hm : Marked st st₁ t k := hmarked rfl
  obtain ⟨n, hn⟩ : ∃ n, h.count t = n + 1 := ⟨h.count t - 1, by omega⟩
  have hfreed := run_of_ends (ends_closeTimes n st₁ _ hm.entry
    (show k.openCnt = n + 1 by omega) rfl)
  rw [← hn, hclose] at hfreed
  have htrim₁ : Trim st₁ t := by
    refine ⟨hm.length ▸ htrim.reach, fun b hb h0 ↦ ?_⟩
    rw [hm.addr _ (isPos_blockPos hb)] at h0
    rw [hm.length]
    exact htrim.below b hb h0
  have hlen : k.length = st₁.fileLength t := (hv.handles.inode t k hk).2.2.1.trans hm.length.symm
  have hsame : (z = t ∨ Owns st₁ (st₁.disk t) k.length z) ↔ st.Sectors t z := by
    rw [hlen, htrim₁.owns_iff]
    refine or_congr_right (and_congr_right fun _ ↦ exists_congr fun u ↦ and_congr_right fun hu ↦ ?_)
    rw [hm.addr u hu]
  rw [hfreed z, hsame, State.Used, State.Used, hm.freeMap]

def bare : State where
  disk := update (fun _ ↦ zero) 1 (setIsDir zero true)
  freeMap := ⟨[true, true, false, false, false, false, false, false], by decide⟩
  openInodes _ := none

theorem volume_bare : Volume bare {0, 1} 0 0 := by
  have hword : ∀ s, ∀ i < 14, word (bare.disk s) i = 0 := by
    intro s i hi
    change word (update (fun _ ↦ zero) 1 (setIsDir zero true) s) i = 0
    by_cases hs : s = 1
    · rw [hs, update_self, setIsDir, word_setByte (by omega), word_zero]
    · rw [update_of_ne hs, word_zero]
  have haddr : ∀ s u, IsPos u → addr word bare.disk (bare.disk s) u = 0 := fun s u hu ↦
    addr_of_empty (hword s) u hu
  have hbyte : ∀ s k, fileByte bare.disk (bare.disk s) k = 0 := by
    intro s k
    by_cases hk : k / 512 < 16524
    · rw [fileByte, if_pos (haddr s _ (isPos_blockPos hk))]
    · exact fileByte_of_ge (by omega)
  have hin : ∀ a : Use, a.In bare {0, 1} → ∃ i ∈ ({0, 1} : Set Nat), a = .inode i := by
    intro a ha
    cases a with
    | inode i => exact ⟨i, ha, rfl⟩
    | block i u => exact absurd (haddr i u ha.2.1) ha.2.2
  have hfolder : ∀ d, bare.Folder {0, 1} d → d = 1 := by
    rintro d ⟨rfl | rfl, hd⟩
    · exact absurd hd (by decide)
    · rfl
  have hlen : bare.fileLength 1 = 0 := by decide
  refine ⟨⟨⟨fun a b ha hb he ↦ ?_, fun a ha ↦ ?_, fun i _ k _ ↦ hbyte i k⟩, ⟨by simp, by decide⟩,
    ⟨by simp [rootDirSector], by decide⟩, fun d hd ↦ ?_, fun d i s hn ↦ ?_⟩, ?_⟩
  · obtain ⟨i, -, rfl⟩ := hin a ha
    obtain ⟨j, -, rfl⟩ := hin b hb
    exact congrArg Use.inode he
  · obtain ⟨i, rfl | rfl, rfl⟩ := hin a ha
    · exact show bare.freeMap.test 0 = true by decide
    · exact show bare.freeMap.test 1 = true by decide
  · rw [hfolder d hd]
    refine ⟨hlen.ge, fun k hk ↦ ?_, fun i hi ↦ ?_⟩
    · omega
    · cases hi
  · have := hn.2.1
    rw [hfolder d hn.1] at this
    cases this
  · have hnone : ∀ s i, bare.openInodes s ≠ some i := by rintro _ _ ⟨⟩
    exact ⟨fun s i hi ↦ absurd hi (hnone s i), fun s ↦ Int.natCast_nonpos_iff.mpr (Multiset.count_zero s),
      fun s i hi ↦ absurd hi (hnone s i), fun s i hi ↦ absurd hi (hnone s i),
      fun s hs ↦ absurd hs (Multiset.notMem_zero s)⟩

/-- An empty file `a` in the root directory. Its inode is sector 2. -/
def oneFile : State := (run (create 1 [97] 0) bare).2

theorem volume_oneFile : ∃ I, Volume oneFile I 0 0 ∧ oneFile.Folder I 1 ∧ 2 ∈ I := by
  have hcwd : bare.Folder {0, 1} 1 := volume_bare.layout.root
  have hfits : PathFits bare 1 [97] := by
    intro d name hd
    have hrun : (run (resolvePath 1 [97]) bare).1 = some (1, [97]) := by decide +kernel
    obtain ⟨rfl, rfl⟩ := Prod.mk.inj (Option.some.inj (hrun.symm.trans hd))
    refine .inr ?_
    rw [show bare.slots 1 = 0 by decide]
    norm_num [maxLength]
  obtain ⟨I, hvol, hf⟩ := run_of_ends (volume_bare.ends_create hcwd hfits)
  have hv : Volume oneFile I 0 0 := hvol
  have hfolder : oneFile.Folder I 1 := hf.folder 1 hcwd
  have hopen : (run (openFile 1 [97]) oneFile).1 = some 2 := by decide +kernel
  rcases run_of_ends (hv.ends_openFile hfolder [97]) with ⟨hnone, -⟩ | ⟨t, ht, ⟨d, j, hn⟩, -⟩
  · cases hnone
  · obtain rfl : 2 = t := Option.some.inj (hopen.symm.trans ht)
    exact ⟨I, hv, hfolder, (hv.layout.names d j 2 hn).1⟩

/-- A write to a file keeps the volume. -/
theorem Volume.written (hv : Volume st I h x) (hs : s ∈ I) (hfile : isDir (st.disk s) = false)
    (hn : off + n < 2147483648) (hw : Written st s buf off n st₁ d₀ st') :
    Volume st' I h x ∧ ∀ d, st.Folder I d → st'.Folder I d := by
  have hkept := hw.kept hv.layout.wf hs
  have hrewrote := hkept.rewrote
  have hnot : ¬ st.Folder I s := fun hf ↦ Bool.false_ne_true (hfile.symm.trans hf.2)
  refine ⟨hv.rewritten (hw.wellFormed hv.layout.wf hs hn) (fun hf ↦ absurd hf hnot) hrewrote hkept.retabled
    (fun d' j t hnames ↦ .inl ?_) (fun _ hfalse ↦ hfalse.elim), fun d hd ↦ hrewrote.folder.mpr hd⟩
  exact (hrewrote.names_other fun he ↦ hnot (he ▸ hrewrote.folder.mp hnames.1)).mp hnames

/-- The file `a` with a byte in sector 4. -/
def oneByteFile : State := (run (writeAt 2 [7] 1 0) oneFile).2

theorem volume_oneByteFile : ∃ I, Volume oneByteFile I 0 0 ∧ oneByteFile.Folder I 1 ∧ 2 ∈ I := by
  obtain ⟨I, hv, hfolder, h2⟩ := volume_oneFile
  have hwrite : Ends (writeAt 2 [7] 1 0) _ oneFile :=
    ends_writeAt hv.layout.wf h2 (by decide +kernel) (show 0 + 1 ≤ _ by norm_num)
  obtain ⟨hle, hwritten⟩ := run_of_ends hwrite
  obtain ⟨st₁, d, hw⟩ := hwritten hle
  obtain ⟨hv', hfolders⟩ := hv.written h2 (by decide +kernel) (by omega) hw
  exact ⟨I, hv', hfolders 1 hfolder, h2⟩

theorem trim_oneByteFile : Trim (oneByteFile.opened 2) 2 := by
  have hword : ∀ i < 14, i ≠ 0 → word (oneByteFile.disk 2) i = 0 := by decide +kernel
  refine ⟨by decide +kernel, fun b hb h0 ↦ ?_⟩
  have hb : b = 0 := by
    by_contra hne
    refine h0 ?_
    change addr word oneByteFile.disk (oneByteFile.disk 2) (blockPos b) = 0
    unfold blockPos
    split_ifs
    · exact hword b (by omega) hne
    · exact if_pos (hword 12 (by decide) (by decide))
    · exact if_pos (if_pos (hword 13 (by decide) (by decide)))
  rw [hb]
  decide +kernel

/-- The file is open when it is removed: the sectors of its inode and of its byte are free again. -/
theorem remove_gives_space_back_open :
    (run (remove 1 [97]) (oneByteFile.opened 2)).1 = true ∧ (oneByteFile.opened 2).Used 4 ∧
      ¬ (run (closeTimes 2 1) (run (remove 1 [97]) (oneByteFile.opened 2)).2).2.Used 2 ∧
      ¬ (run (closeTimes 2 1) (run (remove 1 [97]) (oneByteFile.opened 2)).2).2.Used 4 := by
  obtain ⟨I, hv, hfolder, h2⟩ := volume_oneByteFile
  have hok : (run (remove 1 [97]) (oneByteFile.opened 2)).1 = true := by decide +kernel
  have hcount : Multiset.count 2 (2 ::ₘ 0) = 1 := by simp
  have hpath : (run (resolvePath 1 [97]) (oneByteFile.opened 2)).1 = some (1, [97]) := by decide +kernel
  have hclose : run (closeTimes 2 (Multiset.count 2 (2 ::ₘ 0))) (run (remove 1 [97]) (oneByteFile.opened 2)).2 =
      ((), (run (closeTimes 2 1) (run (remove 1 [97]) (oneByteFile.opened 2)).2).2) := by rw [hcount]
  have hspace := remove_gives_space_back (hv.opened h2) hfolder hpath (by decide +kernel) (by decide) trim_oneByteFile
    (by decide) (by decide +kernel) (Prod.ext hok rfl) hclose
  have hblock : (oneByteFile.opened 2).Sectors 2 4 := .inr ⟨by decide, [0], show 0 < 14 by decide, by decide +kernel⟩
  exact ⟨hok, show FreeMap.test _ 4 = true by decide +kernel, fun h ↦ ((hspace 2).mp h).2 (.inl rfl),
    fun h ↦ ((hspace 4).mp h).2 hblock⟩

/-- A file that is not open is removed: its name is gone and its inode sector stays marked. -/
theorem remove_leaks_closed_file :
    (run (remove 1 [97]) oneFile).1 = true ∧ (run (openFile 1 [97]) oneFile).1 = some 2 ∧
      oneFile.openCount 2 = 0 ∧ (run (openFile 1 [97]) (run (remove 1 [97]) oneFile).2).1 = none ∧
      (run (remove 1 [97]) oneFile).2.Used 2 := by
  refine ⟨by decide +kernel, by decide +kernel, by decide +kernel, by decide +kernel, ?_⟩
  exact show (run (remove 1 [97]) oneFile).2.freeMap.test 2 = true by decide +kernel

end Rxv6.Filesys
