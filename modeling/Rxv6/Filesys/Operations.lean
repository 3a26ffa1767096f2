import Rxv6.Filesys.Naming

namespace Rxv6.Filesys

open Lib.BlockTree Function Sector InodeDisk

variable {st st' : State} {I K : Set Nat} {h x : Multiset Nat} {s t d cwd : Nat}

section Untouched

section

variable (hun : Untouched st st' I)
include hun

theorem Untouched.rewrote (hd : d ∈ I) : Rewrote st st' I d :=
  ⟨fun _ ht _ ↦ hun.inode ht, fun _ ht _ _ hu ↦ hun.addr ht hu, fun _ ht _ k ↦ hun.fileByte ht k,
    by rw [hun.inode hd]⟩

theorem Untouched.folder : st'.Folder I d ↔ st.Folder I d :=
  and_congr_right fun hd ↦ by rw [hun.inode hd]

theorem Untouched.frame : Frame st st' I I K :=
  ⟨fun _ hs _ ↦ hs, fun _ hs _ ↦ hun.inode hs, fun _ hs _ _ hu ↦ hun.addr hs hu,
    fun _ hs _ k ↦ hun.fileByte hs k, fun _ hd ↦ hun.folder.mpr hd⟩

theorem Untouched.names {j : Nat} : st'.Names I d j t ↔ st.Names I d j t := by
  unfold State.Names
  rw [hun.folder]
  refine and_congr_right fun hd ↦ ?_
  simp only [State.fileLength, State.record, hun.fileByte hd.1]
  rw [hun.inode hd.1]

end

theorem Volume.untouched (hv : Volume st I h x) (hun : Untouched st st' I)
    (ho : st'.openInodes = st.openInodes) (hu : ∀ a : Use, a.In st I → st'.Used (a.sector st)) :
    Volume st' I h x := by
  have hroot := hv.layout.root
  have hlist : Listing st' rootDirSector := (hv.layout.listing _ hroot).congr (hun.inode hroot.1)
    (fun _ hu ↦ hun.addr hroot.1 hu) (hun.fileByte hroot.1)
  have htab : Retabled st st' rootDirSector fun _ ↦ False := by
    refine ⟨fun t k hi ↦ ?_, fun t ↦ by rw [State.openCount, State.openCount, ho]⟩
    rw [ho] at hi
    refine ⟨k, hi, rfl, rfl, rfl, .inl, ?_⟩
    by_cases ht : t = rootDirSector
    · refine .inl ⟨ht, ?_⟩
      rw [(hv.handles.inode t k hi).2.2.1, ht, State.fileLength, State.fileLength, hun.inode hroot.1]
    · exact .inr ⟨ht, rfl⟩
  exact hv.rewritten (hun.wellFormed hv.layout.wf hu) (fun _ ↦ hlist) (hun.rewrote hroot.1) htab
    (fun _ _ _ hn ↦ .inl (hun.names.mp hn)) fun _ h ↦ h.elim

theorem Volume.freed {P : Nat → Prop} (hv : Volume st I h x) (hf : Freed st st' P)
    (hP : ∀ a : Use, a.In st I → ¬ P (a.sector st)) : Volume st' I h x :=
  hv.untouched (fun a _ ↦ by rw [hf.disk]) hf.openInodes fun a ha ↦
    (hf.used _).mpr ⟨hv.layout.wf.used a ha, hP a ha⟩

theorem Volume.taken (hv : Volume st I h x) (ht : Taken st st' s) : Volume st' I h x ∧ Fresh st' I s := by
  have hun : Untouched st st' I := fun a _ ↦ by rw [ht.disk]
  refine ⟨hv.untouched hun ht.openInodes fun a ha ↦ (ht.used _).mpr (.inr (hv.layout.wf.used a ha)),
    (ht.used s).mpr (.inl rfl), ?_⟩
  rintro a ha rfl
  obtain ⟨hin, hsector⟩ := hun.sector ha
  rw [hsector] at ht
  exact ht.free (hv.layout.wf.used a hin)

theorem Volume.sector_lt (hv : Volume st I h x) (hs : s ∈ I) : s < 4294967296 :=
  (FreeMap.lt_of_test (hv.layout.wf.used (.inode s) hs)).trans st.freeMap.fits

end Untouched

section Create

variable {i : Nat}

theorem Fresh.notMem (hf : Fresh st I s) : s ∉ I := fun hs ↦ hf.apart (.inode s) hs rfl

theorem Fresh.apart_untouched (hf : Fresh st I s) (hun : Untouched st st' I) (a : Use) (ha : a.In st' I) :
    a.sector st' ≠ s := by
  obtain ⟨hin, hsector⟩ := hun.sector ha
  rw [hsector]
  exact hf.apart a hin

theorem Volume.extended {len : Int} {isDir : Bool} (hv : Volume st I h x) (hc : Created st st' I s len isDir)
    (hs : s ∉ I) (hlo : 0 ≤ len) (hhi : len ≤ 6144) : Volume st' (insert s I) h x := by
  have hv' : Volume st' I h x := hv.untouched hc.untouched hc.openInodes fun a ha ↦
    hc.mono _ (hv.layout.wf.used a ha)
  have hl := hv'.layout
  have hname : ∀ d j t, st'.Names (insert s I) d j t → st'.Names I d j t := by
    rintro d j t ⟨⟨rfl | hd, hdir⟩, hj, hu, ht⟩
    · exact absurd (hc.unused j) hu
    · exact ⟨⟨hd, hdir⟩, hj, hu, ht⟩
  refine ⟨⟨hc.wf, ⟨.inr hl.freeMap.1, hl.freeMap.2⟩, ⟨.inr hl.root.1, hl.root.2⟩, ?_, fun d j t hn ↦ ?_⟩,
    fun t i hi ↦ ?_, hv'.handles.held, fun t i hi hr ↦ ?_, hv'.handles.deny, hv'.handles.running⟩
  · rintro d ⟨rfl | hd, hdir⟩
    · refine ⟨hc.length ▸ hlo, fun k hk ↦ ?_, fun i _ ↦ ?_⟩
      · rw [hc.length] at hk
        refine hc.present (k / 512) (by omega) ?_
        rw [bytesToSectors, if_neg (by omega)]
        omega
      · simp only [State.record, hc.zero]
        rfl
    · exact hl.listing d ⟨hd, hdir⟩
  · obtain ⟨ht, ht0⟩ := hl.names d j t (hname d j t hn)
    exact ⟨.inr ht, ht0⟩
  · obtain ⟨ht, hrest⟩ := hv'.handles.inode t i hi
    exact ⟨.inr ht, hrest⟩
  · obtain ⟨hdir, ht0, hno⟩ := hv'.handles.removed t i hi hr
    exact ⟨hdir, ht0, fun he d j hn ↦ hno he d j (hname d j t hn)⟩

theorem Volume.closed (hv : Volume st I h x) (hs : s ∉ I) : st.openInodes s = none := by
  cases hi : st.openInodes s with
  | none => rfl
  | some k => exact absurd (hv.handles.inode s k hi).1 hs

theorem Volume.ends_close_folder (hv : Volume st I (d ::ₘ h) x) (hd : st.Folder I d) :
    Ends (inodeClose d) (fun _ st' ↦ Volume st' I h x ∧ st'.disk = st.disk ∧
      ∀ t, t ≠ d → st'.openInodes t = st.openInodes t) st := by
  refine wp_mono (hv.ends_inodeClose fun hx ↦ absurd hx (hv.folder_not_running hd)) ?_
  rintro _ st' ⟨I', hv', hc⟩
  rcases hc.inodes with rfl | ⟨-, -, hdir, -⟩
  · exact ⟨hv', hc.disk, hc.others⟩
  · rw [hd.2] at hdir
    cases hdir

theorem Fits.of_frame {I' : Set Nat} {h' x' : Multiset Nat} (hfit : Fits st d) (hv : Volume st I h x)
    (hv' : Volume st' I' h' x') (hf : Frame st st' I I' K) (hd : d ∈ I) (hK : d ∈ K) : Fits st' d := by
  have hslots : st'.slots d = st.slots d := by
    rw [hv.slots, hv'.slots, State.fileLength, State.fileLength, hf.disk d hd hK]
  have hrec : ∀ j, st'.record d j = st.record d j := fun j ↦
    congrArg DirEntry.ofBytes (List.map_congr_left fun k _ ↦ hf.bytes d hd hK _)
  unfold Fits
  simp only [hslots, hrec]
  exact hfit

theorem Volume.ends_add_new (hvI : Volume st I h x) (hv : Volume st (insert s I) h x) (hs : s ∉ I)
    (hd : st.Folder I d) (hfits : Fits st d) (hclosed : st.openInodes s = none) (name : List UInt8) :
    Ends (Dir.add d name s) (fun ok st' ↦ Volume st' (insert s I) h x ∧ Rewrote st st' (insert s I) d ∧
      st'.openInodes s = none ∧ (ok = false → Volume st' I h x)) st := by
  have hs0 : s ≠ 0 := by
    rintro rfl
    exact hs hvI.layout.freeMap.1
  refine wp_mono (hv.ends_add ⟨.inr hd.1, hd.2⟩ hfits (.inl rfl) hs0 (hv.sector_lt (.inl rfl)) ?_ name) ?_
  · intro k hk
    rw [hclosed] at hk
    cases hk
  rintro ok st' ⟨hv', ha⟩
  refine ⟨hv', ha.rewrote, ha.closed s hclosed, ?_⟩
  rintro rfl
  obtain ⟨i, hnames⟩ := ha.names
  refine hv'.restrict (Set.subset_insert s I) hvI.layout.freeMap.1 hvI.layout.root.1 (fun t k hk ↦ ?_)
    fun d' j t hn ↦ ?_
  · rcases (hv'.handles.inode t k hk).1 with rfl | ht
    · rw [ha.closed t hclosed] at hk
      cases hk
    · exact ht
  · have hn' : st'.Names (insert s I) d' j t := ⟨⟨.inr hn.1.1, hn.1.2⟩, hn.2⟩
    rcases (hnames d' j t).mp hn' with hold | ⟨h, -⟩
    · exact (hvI.layout.names d' j t ⟨⟨hn.1.1, hold.1.2⟩, hold.2⟩).1
    · cases h

def State.files (st : State) : Set Nat := {t | InodeDisk.isDir (st.disk t) = false}

/-- The file system stays in order, and so does what is in `K`. -/
def Keeps (st : State) (I : Set Nat) (h x : Multiset Nat) (K : Set Nat) (st' : State) : Prop :=
  ∃ I', Volume st' I' h x ∧ Frame st st' I I' K

theorem State.Folder.notMem_files (hd : st.Folder I d) : d ∉ st.files := fun hf ↦ by
  change InodeDisk.isDir (st.disk d) = false at hf
  rw [hd.2] at hf
  cases hf

theorem Volume.ends_release_new (hv : Volume st I h x) (hapart : ∀ a : Use, a.In st I → a.sector st ≠ s) :
    Ends (release s) (fun _ st' ↦ Volume st' I h x ∧ st'.disk = st.disk ∧ st'.openInodes = st.openInodes) st :=
  wp_mono (ends_release st s) fun _ _ hf ↦ ⟨hv.freed hf hapart, hf.disk, hf.openInodes⟩

theorem Volume.apart_new (hv : Volume st (insert s I) h x) (hs : s ∉ I) (a : Use) (ha : a.In st I) :
    a.sector st ≠ s := by
  intro he
  have hin : a.In st (insert s I) := by
    cases a with
    | inode i => exact .inr ha
    | block i u => exact ⟨.inr ha.1, ha.2⟩
  cases hv.layout.wf.distinct a (.inode s) hin (.inl rfl) he
  exact hs ha

theorem apart_of_disk (hd : st'.disk = st.disk) (hapart : ∀ a : Use, a.In st I → a.sector st ≠ s) (a : Use)
    (ha : a.In st' I) : a.sector st' ≠ s := by
  have hun : Untouched st st' I := fun a _ ↦ by rw [hd]
  obtain ⟨hin, hsector⟩ := hun.sector ha
  rw [hsector]
  exact hapart a hin

theorem ends_inodeRemove_closed (hs : st.openInodes s = none) : Ends (inodeRemove s) (fun _ st' ↦ st' = st) st := by
  refine wp_setInode trivial ?_
  rw [hs]
  change st.withInode s none = st
  rw [State.withInode, ← hs, update_eq_self]

theorem ends_inodeClose_closed (hs : st.openInodes s = none) : Ends (inodeClose s) (fun _ st' ↦ st' = st) st := by
  refine ends_getInode ?_
  rw [hs]
  rfl

def PathFits (st : State) (cwd : Nat) (path : List UInt8) : Prop :=
  ∀ d name, (run (resolvePath cwd path) st).1 = some (d, name) → Fits st d

theorem Volume.ends_create (hv : Volume st I h x) (hcwd : st.Folder I cwd) {path : List UInt8}
    (hfits : PathFits st cwd path) :
    Ends (create cwd path 0) (fun _ st' ↦ Keeps st I h x st.files st') st := by
  refine hv.ends_inParent hcwd ⟨I, hv, .refl _ _ _⟩ fun d name hrun _ hd ↦ ?_
  have hfit := hfits d name hrun
  refine wp_bind.mpr (wp_allocate ⟨trivial, ?_⟩ fun s st₂ htaken _ ↦ ⟨trivial, ?_⟩)
  · refine wp_seq (hv.ends_close_opened d) ?_
    rintro _ _ rfl
    exact ⟨I, hv, .refl _ _ _⟩
  obtain ⟨hv₂, hfresh⟩ := (hv.opened hd.1).taken htaken
  have hs := hfresh.notMem
  have hframe₂ : Frame st st₂ I I Set.univ := .of_disk htaken.disk
  refine wp_seq (ends_inodeCreate 0 false hv₂.layout.wf hfresh (by omega) (by omega)) ?_
  rintro ok st₃ ⟨htrue, hfalse⟩
  cases ok with
  | false =>
    obtain ⟨hsame, ho, -⟩ := hfalse rfl
    have hun : Untouched st₂ st₃ I := fun a ha ↦ (hsame _ (hv₂.layout.wf.used a ha)).2
    have hv₃ := hv₂.untouched hun ho fun a ha ↦ (hsame _ (hv₂.layout.wf.used a ha)).1
    refine wp_seq (hv₃.ends_release_new (hfresh.apart_untouched hun)) ?_
    rintro _ st₄ ⟨hv₄, hdisk₄, -⟩
    have hframe₄ : Frame st st₄ I I Set.univ := (hframe₂.trans hun.frame).trans (.of_disk hdisk₄)
    refine wp_seq (hv₄.ends_close_folder (hframe₄.folder d hd)) ?_
    rintro _ st₅ ⟨hv₅, hdisk₅, -⟩
    exact ⟨I, hv₅, (hframe₄.trans (.of_disk hdisk₅)).mono fun _ _ _ ↦ trivial⟩
  | true =>
    have hc := htrue rfl
    have hv₃ := hv₂.extended hc hs le_rfl (by omega)
    have hvI₃ := hv₂.untouched hc.untouched hc.openInodes fun a ha ↦ hc.mono _ (hv₂.layout.wf.used a ha)
    have hframe₃ : Frame st st₃ I I Set.univ := hframe₂.trans hc.untouched.frame
    have hfit₃ := hfit.of_frame hv hvI₃ hframe₃ hd.1 trivial
    have hd₃ := hframe₃.folder d hd
    have hnone : st₃.openInodes s = none := hc.openInodes ▸ hv₂.closed hs
    have hne : s ≠ d := fun he ↦ hs (he ▸ hd.1)
    refine wp_seq (hvI₃.ends_add_new hv₃ hs hd₃ hfit₃ hnone name) ?_
    rintro ok st₄ ⟨hv₄, hw₄, hnone₄, hvI₄⟩
    have hframe₄ : Frame st st₄ I (insert s I) st.files := by
      have hframe : Frame st st₃ I (insert s I) st.files :=
        (hframe₃.onto (Set.subset_insert s I)).mono fun _ _ _ ↦ trivial
      exact hframe.trans (hw₄.frame hd.notMem_files)
    cases ok with
    | true =>
      refine wp_seq (hv₄.ends_close_folder (hframe₄.folder d hd)) ?_
      rintro _ st₅ ⟨hv₅, hdisk₅, -⟩
      exact ⟨_, hv₅, hframe₄.trans (.of_disk hdisk₅)⟩
    | false =>
      refine wp_seq ((hvI₄ rfl).ends_close_folder ((hframe₄.onto subset_rfl).folder d hd)) ?_
      rintro _ st₅ ⟨hv₅, hdisk₅, hother₅⟩
      have hnone₅ : st₅.openInodes s = none := (hother₅ s hne).trans hnone₄
      refine wp_seq (ends_inodeRemove_closed hnone₅) ?_
      rintro _ _ rfl
      refine wp_seq (ends_inodeClose_closed hnone₅) ?_
      rintro _ _ rfl
      refine wp_seq (hv₅.ends_release_new (apart_of_disk hdisk₅ (hv₄.apart_new hs))) ?_
      rintro _ st₆ ⟨hv₆, hdisk₆, -⟩
      exact ⟨I, hv₆, (hframe₄.onto subset_rfl).trans (.of_disk (hdisk₆.trans hdisk₅))⟩

end Create

end Rxv6.Filesys
