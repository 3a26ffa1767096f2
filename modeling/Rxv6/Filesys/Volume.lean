import Rxv6.Filesys.Path
import Rxv6.Filesys.Release
import Rxv6.Filesys.DirectoryRuns

namespace Rxv6.Filesys

open Lib.BlockTree Function Sector InodeDisk

namespace State

def Folder (st : State) (I : Set Nat) (d : Nat) : Prop := d ∈ I ∧ InodeDisk.isDir (st.disk d) = true

/-- Entry `i` of the directory `d` is a name of the inode `s`. -/
def Names (st : State) (I : Set Nat) (d i s : Nat) : Prop :=
  st.Folder I d ∧ i < entryCount (st.fileLength d) ∧ (st.record d i).inUse ≠ 0 ∧
    (st.record d i).inodeSector = s

def openCount (st : State) (s : Nat) : Int := (st.openInodes s).elim 0 Inode.openCnt

end State

/-- The file of a directory: its blocks are all there, and every name is shorter than its field. -/
structure Listing (st : State) (d : Nat) : Prop where
  nonneg : 0 ≤ st.fileLength d
  blocks : ∀ k : Nat, k < st.fileLength d → addr word st.disk (st.disk d) (blockPos (k / 512)) ≠ 0
  ended : ∀ i < entryCount (st.fileLength d), (st.record d i).name.getD 14 0 = 0

/-- The disk of a mounted file system with the inodes `I`: every name leads to an inode. -/
structure Layout (st : State) (I : Set Nat) : Prop where
  wf : WellFormed st I
  freeMap : 0 ∈ I ∧ InodeDisk.isDir (st.disk 0) = false
  root : st.Folder I rootDirSector
  listing : ∀ d, st.Folder I d → Listing st d
  names : ∀ d i s, st.Names I d i s → s ∈ I ∧ s ≠ 0

/-- The table of open inodes when `h` are the handles that are open and `x` those of running
executables among them. A link raises the open count of its inode without a handle. -/
structure Handles (st : State) (I : Set Nat) (h x : Multiset Nat) : Prop where
  inode : ∀ s i, st.openInodes s = some i → s ∈ I ∧ 1 ≤ i.openCnt ∧ i.length = st.fileLength s ∧
    i.isDir = InodeDisk.isDir (st.disk s)
  held : ∀ s, (h.count s : Int) ≤ st.openCount s
  removed : ∀ s i, st.openInodes s = some i → i.removed = true → InodeDisk.isDir (st.disk s) = false ∧
    s ≠ 0 ∧ (i.openCnt = h.count s → ∀ d j, ¬ st.Names I d j s)
  deny : ∀ s i, st.openInodes s = some i → i.denyWriteCnt = x.count s
  running : ∀ s ∈ x, s ∈ h ∧ InodeDisk.isDir (st.disk s) = false

structure Volume (st : State) (I : Set Nat) (h x : Multiset Nat) : Prop where
  layout : Layout st I
  handles : Handles st I h x

/-- The inodes `K` are what they were, and directories are still directories. -/
structure Frame (st st' : State) (I I' K : Set Nat) : Prop where
  mem : ∀ s ∈ I, s ∈ K → s ∈ I'
  disk : ∀ s ∈ I, s ∈ K → st'.disk s = st.disk s
  addr : ∀ s ∈ I, s ∈ K → ∀ u, IsPos u → addr word st'.disk (st'.disk s) u = addr word st.disk (st.disk s) u
  bytes : ∀ s ∈ I, s ∈ K → ∀ k, fileByte st'.disk (st'.disk s) k = fileByte st.disk (st.disk s) k
  folder : ∀ d, st.Folder I d → st'.Folder I' d

variable {st st' st₁ st₂ : State} {I I' I₁ I₂ K : Set Nat} {h x : Multiset Nat} {s d i t : Nat}
  {J : Set Nat}

open State

namespace Frame

theorem refl (st : State) (I K : Set Nat) : Frame st st I I K :=
  ⟨fun _ h _ ↦ h, fun _ _ _ ↦ rfl, fun _ _ _ _ _ ↦ rfl, fun _ _ _ _ ↦ rfl, fun _ h ↦ h⟩

theorem trans (h₁ : Frame st st₁ I I₁ K) (h₂ : Frame st₁ st₂ I₁ I₂ K) : Frame st st₂ I I₂ K where
  mem s hs hK := h₂.mem s (h₁.mem s hs hK) hK
  disk s hs hK := (h₂.disk s (h₁.mem s hs hK) hK).trans (h₁.disk s hs hK)
  addr s hs hK u hu := (h₂.addr s (h₁.mem s hs hK) hK u hu).trans (h₁.addr s hs hK u hu)
  bytes s hs hK k := (h₂.bytes s (h₁.mem s hs hK) hK k).trans (h₁.bytes s hs hK k)
  folder d hd := h₂.folder d (h₁.folder d hd)

theorem mono {K' : Set Nat} (hf : Frame st st' I I' K) (hK : ∀ t ∈ I, t ∈ K' → t ∈ K) : Frame st st' I I' K' :=
  ⟨fun s hs h ↦ hf.mem s hs (hK s hs h), fun s hs h ↦ hf.disk s hs (hK s hs h),
    fun s hs h ↦ hf.addr s hs (hK s hs h), fun s hs h ↦ hf.bytes s hs (hK s hs h), hf.folder⟩

theorem onto (hf : Frame st st' I I' K) (hJ : I ⊆ J) : Frame st st' I J K :=
  ⟨fun _ hs _ ↦ hJ hs, hf.disk, hf.addr, hf.bytes, fun d hd ↦ ⟨hJ hd.1, (hf.folder d hd).2⟩⟩

theorem of_disk (hd : st'.disk = st.disk) : Frame st st' I I K := by
  refine ⟨fun _ h _ ↦ h, fun _ _ _ ↦ ?_, fun _ _ _ _ _ ↦ ?_, fun _ _ _ _ ↦ ?_, fun d h ↦ ?_⟩
  · rw [hd]
  · rw [hd]
  · rw [hd]
  · rw [Folder, hd]
    exact h

end Frame

theorem names_of_disk (hd : st'.disk = st.disk) {j : Nat} : st'.Names I d j s ↔ st.Names I d j s := by
  simp only [Names, Folder, fileLength, record, hd]

theorem Layout.congr (hl : Layout st I) (hd : st'.disk = st.disk)
    (hu : ∀ a : Use, a.In st I → st'.Used (a.sector st)) : Layout st' I := by
  have hun : Untouched st st' I := fun a _ ↦ by rw [hd]
  have hfolder : ∀ d, st'.Folder I d ↔ st.Folder I d := fun d ↦ by simp only [Folder, hd]
  refine ⟨hun.wellFormed hl.wf hu, ?_, (hfolder _).mpr hl.root, fun d hf ↦ ?_,
    fun d i s hn ↦ hl.names d i s ((names_of_disk hd).mp hn)⟩
  · rw [hd]
    exact hl.freeMap
  · have hlist := hl.listing d ((hfolder d).mp hf)
    refine ⟨?_, ?_, ?_⟩
    · rw [fileLength, hd]
      exact hlist.nonneg
    · rw [fileLength, hd]
      exact hlist.blocks
    · simp only [fileLength, record, hd]
      exact hlist.ended

open Multiset

namespace Volume

section

variable (hv : Volume st I h x)

include hv

theorem readLength (s : Nat) : st.readLength s = st.fileLength s := by
  unfold State.readLength
  cases hi : st.openInodes s with
  | none => rfl
  | some i => exact (hv.handles.inode s i hi).2.2.1

theorem readIsDir (s : Nat) : st.readIsDir s = InodeDisk.isDir (st.disk s) := by
  unfold State.readIsDir
  cases hi : st.openInodes s with
  | none => rfl
  | some i => exact (hv.handles.inode s i hi).2.2.2

theorem slots (d : Nat) : st.slots d = entryCount (st.fileLength d) := by
  rw [State.slots, hv.readLength]

theorem not_denied (hs : s ∉ x) : writeDenied (st.openInodes s) = false := by
  cases hi : st.openInodes s with
  | none => rfl
  | some i => simp [writeDenied, hv.handles.deny s i hi, count_eq_zero.mpr hs]

theorem folder_not_running (hd : st.Folder I d) : d ∉ x := fun hx ↦ by
  have := (hv.handles.running d hx).2
  rw [hd.2] at this
  cases this

theorem solid (hd : st.Folder I d) : Solid st I d where
  wf := hv.layout.wf
  mem := hd.1
  writable := hv.not_denied (hv.folder_not_running hd)
  length := hv.readLength d
  nonneg := (hv.layout.listing d hd).nonneg
  blocks := (hv.layout.listing d hd).blocks

theorem entry (hs : s ∈ h) : ∃ i, st.openInodes s = some i ∧ (h.count s : Int) ≤ i.openCnt := by
  have hpos := count_pos.mpr hs
  have hheld := hv.handles.held s
  rw [openCount] at hheld
  cases hi : st.openInodes s with
  | none =>
    rw [hi] at hheld
    simp only [Option.elim] at hheld
    omega
  | some i =>
    rw [hi] at hheld
    exact ⟨i, rfl, hheld⟩

theorem mem_of_held (hs : s ∈ h) : s ∈ I := by
  obtain ⟨i, hi, -⟩ := hv.entry hs
  exact (hv.handles.inode s i hi).1

end

end Volume

theorem Volume.retable {o : Option Inode} {h' x' : Multiset Nat} (hv : Volume st I h x)
    (hother : ∀ t, t ≠ s → h'.count t = h.count t ∧ x'.count t = x.count t)
    (hentry : ∀ i, o = some i → s ∈ I ∧ 1 ≤ i.openCnt ∧ i.length = st.fileLength s ∧
      i.isDir = InodeDisk.isDir (st.disk s))
    (hheld : (h'.count s : Int) ≤ o.elim 0 Inode.openCnt)
    (hremoved : ∀ i, o = some i → i.removed = true → InodeDisk.isDir (st.disk s) = false ∧ s ≠ 0 ∧
      (i.openCnt = h'.count s → ∀ d j, ¬ st.Names I d j s))
    (hdeny : ∀ i, o = some i → i.denyWriteCnt = x'.count s)
    (hrunning : s ∈ x' → s ∈ h' ∧ InodeDisk.isDir (st.disk s) = false) :
    Volume (st.withInode s o) I h' x' := by
  have hself : (st.withInode s o).openInodes s = o := update_self _ _ _
  have hne : ∀ t, t ≠ s → (st.withInode s o).openInodes t = st.openInodes t := fun t ht ↦ update_of_ne ht _ _
  refine ⟨hv.layout.congr rfl hv.layout.wf.used, fun t i hi ↦ ?_, fun t ↦ ?_, fun t i hi hr ↦ ?_,
    fun t i hi ↦ ?_, fun t ht ↦ ?_⟩ <;> by_cases hts : t = s
  · subst hts
    exact hentry i (hself.symm.trans hi)
  · exact hv.handles.inode t i ((hne t hts).symm.trans hi)
  · subst hts
    rw [openCount, hself]
    exact hheld
  · rw [openCount, hne t hts, (hother t hts).1]
    exact hv.handles.held t
  · subst hts
    exact hremoved i (hself.symm.trans hi) hr
  · rw [(hother t hts).1]
    exact hv.handles.removed t i ((hne t hts).symm.trans hi) hr
  · subst hts
    exact hdeny i (hself.symm.trans hi)
  · rw [(hother t hts).2]
    exact hv.handles.deny t i ((hne t hts).symm.trans hi)
  · subst hts
    exact hrunning ht
  · obtain ⟨hth, hdir⟩ := hv.handles.running t (count_pos.mp ((hother t hts).2 ▸ count_pos.mpr ht))
    exact ⟨count_pos.mp ((hother t hts).1 ▸ count_pos.mpr hth), hdir⟩

def State.opened (st : State) (s : Nat) : State :=
  st.withInode s (some ((st.openInodes s).elim
    { openCnt := 1, removed := false, denyWriteCnt := 0, length := st.fileLength s,
      isDir := InodeDisk.isDir (st.disk s), isSymlink := InodeDisk.isSymlink (st.disk s) }
    fun i ↦ { i with openCnt := i.openCnt + 1 }))

theorem ends_inodeOpen (st : State) (s : Nat) : Ends (inodeOpen s) (fun _ st' ↦ st' = st.opened s) st := by
  unfold inodeOpen opened
  refine ends_getInode ?_
  cases hi : st.openInodes s with
  | none => exact wp_bind.mpr (wp_bread trivial (wp_setInode trivial rfl))
  | some i =>
    refine wp_setInode trivial ?_
    rw [hi]
    rfl

theorem Volume.not_running (hv : Volume st I h x) (hi : st.openInodes s = none) : s ∉ x := fun hs ↦ by
  obtain ⟨i, hi', -⟩ := hv.entry (hv.handles.running s hs).1
  rw [hi] at hi'
  cases hi'

theorem Volume.opened (hv : Volume st I h x) (hs : s ∈ I) : Volume (st.opened s) I (s ::ₘ h) x := by
  have hheld := hv.handles.held s
  rw [openCount] at hheld
  refine hv.retable (fun t ht ↦ ⟨count_cons_of_ne ht h, rfl⟩) ?_ ?_ ?_ ?_ fun hx ↦ ?_
  · rintro i hi
    cases hs' : st.openInodes s with
    | none =>
      rw [hs'] at hi
      cases hi
      exact ⟨hs, le_rfl, rfl, rfl⟩
    | some j =>
      rw [hs'] at hi
      cases hi
      obtain ⟨-, hcnt, hlen, hdir⟩ := hv.handles.inode s j hs'
      exact ⟨hs, by change 1 ≤ j.openCnt + 1; omega, hlen, hdir⟩
  · rw [count_cons_self]
    cases hs' : st.openInodes s with
    | none =>
      rw [hs'] at hheld
      simp only [Option.elim] at hheld ⊢
      omega
    | some j =>
      rw [hs'] at hheld
      simp only [Option.elim] at hheld ⊢
      omega
  · rintro i hi hr
    cases hs' : st.openInodes s with
    | none =>
      rw [hs'] at hi
      cases hi
      cases hr
    | some j =>
      rw [hs'] at hi
      cases hi
      obtain ⟨hdir, hne, hname⟩ := hv.handles.removed s j hs' hr
      refine ⟨hdir, hne, fun hcnt ↦ hname ?_⟩
      rw [count_cons_self] at hcnt
      change j.openCnt + 1 = _ at hcnt
      omega
  · rintro i hi
    cases hs' : st.openInodes s with
    | none =>
      rw [hs'] at hi
      cases hi
      rw [count_eq_zero.mpr (hv.not_running hs')]
      rfl
    | some j =>
      rw [hs'] at hi
      cases hi
      exact hv.handles.deny s j hs'
  · exact ⟨mem_cons_self s h, (hv.handles.running s hx).2⟩

section Close

variable {i : Inode}

section

variable (hi : st.openInodes s = some i)
include hi

theorem ends_close_keep (hc : ¬ i.openCnt - 1 ≤ 0) :
    Ends (inodeClose s) (fun _ st' ↦ st' = st.withInode s (some { i with openCnt := i.openCnt - 1 })) st := by
  refine ends_getInode ?_
  rw [hi]
  simp only [hc]
  refine wp_setInode trivial ?_
  rw [hi]
  rfl

theorem ends_close_drop (hc : i.openCnt - 1 ≤ 0) (hr : i.removed = false) :
    Ends (inodeClose s) (fun _ st' ↦ st' = st.withInode s none) st := by
  refine ends_getInode ?_
  rw [hi]
  simp only [hc, hr]
  exact wp_bind.mpr (wp_setInode trivial rfl)

theorem ends_close_free (hc : i.openCnt - 1 ≤ 0) (hr : i.removed = true) :
    Ends (inodeClose s) (fun _ st' ↦ Freed (st.withInode s none) st' fun z ↦
      z = s ∨ Owns st (st.disk s) i.length z) st := by
  refine ends_getInode ?_
  rw [hi]
  simp only [hc, hr]
  refine ends_setInode ?_
  refine wp_seq (ends_release _ s) fun _ st₁ h₁ ↦ ?_
  refine ends_bread ?_
  have hdisk : st₁.disk = st.disk := h₁.disk
  rw [hdisk]
  refine wp_mono (ends_releaseBlocks st₁ (st.disk s) i.length) fun _ st₂ h₂ ↦ (h₁.trans h₂).congr fun z ↦ ?_
  simp only [Owns, hdisk]

end

end Close

theorem ends_close_opened (hpos : ∀ i, st.openInodes s = some i → 1 ≤ i.openCnt) :
    Ends (inodeClose s) (fun _ st' ↦ st' = st) (st.opened s) := by
  have hback : (st.opened s).withInode s (st.openInodes s) = st := by
    rw [opened, withInode, withInode, update_idem, update_eq_self]
  have hself : (st.opened s).openInodes s = some _ := update_self _ _ _
  cases hi : st.openInodes s with
  | none =>
    rw [hi] at hself hback
    refine wp_mono (ends_close_drop hself le_rfl rfl) fun _ st' he ↦ ?_
    rw [he, hback]
  | some i =>
    rw [hi] at hself hback
    have hcnt := hpos i hi
    refine wp_mono (ends_close_keep hself ?_) fun _ st' he ↦ ?_
    · change ¬ i.openCnt + 1 - 1 ≤ 0
      omega
    · simp only [Option.elim, Int.add_sub_cancel] at he
      rw [he, hback]

theorem Volume.ends_close_opened (hv : Volume st I h x) (s : Nat) :
    Ends (inodeClose s) (fun _ st' ↦ st' = st) (st.opened s) :=
  Filesys.ends_close_opened fun i hi ↦ (hv.handles.inode s i hi).2.1

theorem WellFormed.mono (h : WellFormed st I) (hJ : J ⊆ I) : WellFormed st J := by
  have hin : ∀ a : Use, a.In st J → a.In st I := by
    intro a ha
    cases a with
    | inode i => exact hJ ha
    | block i u => exact ⟨hJ ha.1, ha.2⟩
  exact ⟨fun a b ha hb ↦ h.distinct a b (hin a ha) (hin b hb), fun a ha ↦ h.used a (hin a ha),
    fun i hi ↦ h.tail i (hJ hi)⟩

theorem Volume.restrict (hv : Volume st I h x) (hJ : J ⊆ I) (h0 : 0 ∈ J)
    (hroot : rootDirSector ∈ J) (hopen : ∀ s i, st.openInodes s = some i → s ∈ J)
    (hnames : ∀ d j s, st.Names J d j s → s ∈ J) : Volume st J h x := by
  have hl := hv.layout
  have hsub : ∀ d j t, st.Names J d j t → st.Names I d j t := fun d j t hn ↦ ⟨⟨hJ hn.1.1, hn.1.2⟩, hn.2⟩
  refine ⟨⟨hl.wf.mono hJ, ⟨h0, hl.freeMap.2⟩, ⟨hroot, hl.root.2⟩, fun d hd ↦ hl.listing d ⟨hJ hd.1, hd.2⟩,
    fun d j t hn ↦ ⟨hnames d j t hn, (hl.names d j t (hsub d j t hn)).2⟩⟩, fun s i hi ↦ ?_, hv.handles.held,
    fun s i hi hr ↦ ?_, hv.handles.deny, hv.handles.running⟩
  · exact ⟨hopen s i hi, (hv.handles.inode s i hi).2⟩
  · obtain ⟨hdir, hs0, hno⟩ := hv.handles.removed s i hi hr
    exact ⟨hdir, hs0, fun he d j hn ↦ hno he d j (hsub d j s hn)⟩

/-- What closing a handle of `s` does, when `h` are the handles that are left. -/
structure Closed (st st' : State) (I I' : Set Nat) (h : Multiset Nat) (s : Nat) : Prop where
  disk : st'.disk = st.disk
  others : ∀ t, t ≠ s → st'.openInodes t = st.openInodes t
  inodes : I' = I ∨ I' = I \ {s} ∧ s ∉ h ∧ InodeDisk.isDir (st.disk s) = false ∧
    (∀ d j, ¬ st.Names I d j s) ∧ ¬ st'.Used s ∧ ∀ z, Owns st (st.disk s) (st.fileLength s) z → ¬ st'.Used z

theorem Volume.released (hv : Volume st I (s ::ₘ h) x) {i : Inode} (hi : st.openInodes s = some i)
    (hcnt : i.openCnt ≤ 1) (hr : i.removed = true) (hx : s ∈ x → s ∈ h)
    (hf : Freed (st.withInode s none) st' fun z ↦ z = s ∨ Owns st (st.disk s) i.length z) :
    Volume st' (I \ {s}) h x ∧ Closed st st' I (I \ {s}) h s := by
  obtain ⟨hs, -, hlen, -⟩ := hv.handles.inode s i hi
  obtain ⟨hdir, hs0, hname⟩ := hv.handles.removed s i hi hr
  have hheld := hv.handles.held s
  rw [openCount, hi, count_cons_self] at hheld
  simp only [Option.elim] at hheld
  have hcount : h.count s = 0 := by omega
  have hsh : s ∉ h := count_eq_zero.mp hcount
  have hno : ∀ d j, ¬ st.Names I d j s := hname (by rw [count_cons_self]; omega)
  have hdisk : st'.disk = st.disk := hf.disk
  have hself : st'.openInodes s = none := by
    rw [hf.openInodes]
    exact update_self _ _ _
  have hother : ∀ t, t ≠ s → st'.openInodes t = st.openInodes t := fun t ht ↦ by
    rw [hf.openInodes]
    exact update_of_ne ht _ _
  have hapart : ∀ a : Use, a.In st (I \ {s}) → st'.Used (a.sector st) := by
    intro a ha
    have hin : a.In st I := by
      cases a with
      | inode i => exact ha.1
      | block i u => exact ⟨ha.1.1, ha.2⟩
    refine (hf.used _).mpr ⟨hv.layout.wf.used a hin, ?_⟩
    rintro (he | he)
    · obtain rfl := hv.layout.wf.distinct a (.inode s) hin hs he
      exact ha.2 rfl
    · obtain ⟨u, rfl⟩ := he.apart hv.layout.wf hs hin rfl
      exact ha.1.2 rfl
  have hsub : ∀ d j t, st.Names (I \ {s}) d j t → st.Names I d j t := fun d j t hn ↦ ⟨⟨hn.1.1.1, hn.1.2⟩, hn.2⟩
  have hlay : Layout st (I \ {s}) := by
    have hl := hv.layout
    refine ⟨hl.wf.mono Set.sdiff_subset, ⟨⟨hl.freeMap.1, hs0.symm⟩, hl.freeMap.2⟩, ⟨⟨hl.root.1, ?_⟩, hl.root.2⟩,
      fun d hd ↦ hl.listing d ⟨hd.1.1, hd.2⟩, fun d j t hn ↦ ?_⟩
    · intro he
      have := hl.root.2
      rw [he, hdir] at this
      cases this
    · obtain ⟨ht, ht0⟩ := hl.names d j t (hsub d j t hn)
      refine ⟨⟨ht, ?_⟩, ht0⟩
      rintro rfl
      exact hno d j (hsub d j t hn)
  refine ⟨⟨hlay.congr hdisk hapart, fun t j hj ↦ ?_, fun t ↦ ?_, fun t j hj hrm ↦ ?_, fun t j hj ↦ ?_,
    fun t ht ↦ ?_⟩, hdisk, hother, .inr ⟨rfl, hsh, hdir, hno, fun hu ↦ ?_, fun z hz hu ↦ ?_⟩⟩
  · have hts : t ≠ s := by
      rintro rfl
      rw [hself] at hj
      cases hj
    rw [hother t hts] at hj
    rw [fileLength, hdisk]
    obtain ⟨ht, hrest⟩ := hv.handles.inode t j hj
    exact ⟨⟨ht, hts⟩, hrest⟩
  · by_cases hts : t = s
    · rw [hts, hcount, openCount, hself]
      exact le_rfl
    · rw [openCount, hother t hts, ← count_cons_of_ne hts h]
      exact hv.handles.held t
  · have hts : t ≠ s := by
      rintro rfl
      rw [hself] at hj
      cases hj
    rw [hother t hts] at hj
    obtain ⟨h1, h2, h3⟩ := hv.handles.removed t j hj hrm
    rw [count_cons_of_ne hts] at h3
    rw [hdisk]
    exact ⟨h1, h2, fun he d k hn ↦ h3 he d k (hsub d k t ((names_of_disk hdisk).mp hn))⟩
  · have hts : t ≠ s := by
      rintro rfl
      rw [hself] at hj
      cases hj
    rw [hother t hts] at hj
    exact hv.handles.deny t j hj
  · obtain ⟨hth, htd⟩ := hv.handles.running t ht
    rw [hdisk]
    refine ⟨?_, htd⟩
    rcases mem_cons.mp hth with rfl | hth
    · exact hx ht
    · exact hth
  · exact ((hf.used s).mp hu).2 (.inl rfl)
  · rw [← hlen] at hz
    exact ((hf.used z).mp hu).2 (.inr hz)

theorem Volume.ends_inodeClose (hv : Volume st I (s ::ₘ h) x) (hx : s ∈ x → s ∈ h) :
    Ends (inodeClose s) (fun _ st' ↦ ∃ I', Volume st' I' h x ∧ Closed st st' I I' h s) st := by
  obtain ⟨i, hi, hheld⟩ := hv.entry (mem_cons_self s h)
  rw [count_cons_self] at hheld
  obtain ⟨hs, hcnt, hlen, hdir⟩ := hv.handles.inode s i hi
  have hcount : ∀ t, t ≠ s → h.count t = (s ::ₘ h).count t ∧ x.count t = x.count t := fun t ht ↦
    ⟨(count_cons_of_ne ht h).symm, rfl⟩
  have hrun : s ∈ x → s ∈ h ∧ InodeDisk.isDir (st.disk s) = false := fun hs ↦
    ⟨hx hs, (hv.handles.running s hs).2⟩
  by_cases hlast : i.openCnt - 1 ≤ 0
  · cases hr : i.removed with
    | false =>
      refine wp_mono (ends_close_drop hi hlast hr) ?_
      rintro _ st' rfl
      refine ⟨I, hv.retable hcount (fun _ h ↦ by cases h) ?_ (nofun) (nofun) hrun,
        rfl, fun t ht ↦ update_of_ne ht _ _, .inl rfl⟩
      change (h.count s : Int) ≤ 0
      omega
    | true =>
      refine wp_mono (ends_close_free hi hlast hr) fun _ st' hf ↦ ?_
      exact ⟨_, hv.released hi (by omega) hr hx hf⟩
  · refine wp_mono (ends_close_keep hi hlast) ?_
    rintro _ st' rfl
    refine ⟨I, hv.retable hcount ?_ ?_ ?_ ?_ hrun, rfl, fun t ht ↦ update_of_ne ht _ _, .inl rfl⟩
    · rintro j hj
      cases hj
      exact ⟨hs, by change 1 ≤ i.openCnt - 1; omega, hlen, hdir⟩
    · change (h.count s) ≤ i.openCnt - 1
      omega
    · rintro j hj hr
      cases hj
      obtain ⟨h1, h2, h3⟩ := hv.handles.removed s i hi hr
      rw [count_cons_self] at h3
      refine ⟨h1, h2, fun he ↦ h3 ?_⟩
      change i.openCnt - 1 = _ at he
      omega
    · rintro j hj
      cases hj
      exact hv.handles.deny s i hi

end Rxv6.Filesys
