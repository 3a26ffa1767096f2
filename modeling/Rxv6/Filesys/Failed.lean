import Rxv6.Filesys.ShortWrite
import Rxv6.Filesys.Unlink

namespace Rxv6.Filesys

open Lib Function Sector InodeDisk

variable {st st' st₁ : State} {I : Set Nat} {h x : Multiset Nat} {cwd d i s : Nat} {name path : List UInt8}

/-- Nothing is left of what was done since `st`: the free map and the table are the same, and so is
every sector in use. -/
structure Untraced (st st' : State) : Prop where
  used : ∀ z, st'.Used z ↔ st.Used z
  openInodes : st'.openInodes = st.openInodes
  disk : ∀ z, st.Used z → st'.disk z = st.disk z

theorem Untraced.refl (st : State) : Untraced st st := ⟨fun _ ↦ Iff.rfl, rfl, fun _ _ ↦ rfl⟩

theorem Untraced.untouched (hu : Untraced st st') (hv : Volume st I h x) : Untouched st st' I :=
  fun a ha ↦ hu.disk _ (hv.layout.wf.used a ha)

/-- A new inode is underway: the sector `s` has been taken for it, and the directory `d` is open once
more for its name. -/
structure Underway (st st₁ : State) (d s : Nat) : Prop where
  free : ¬ st.Used s
  used : ∀ z, st₁.Used z ↔ z = s ∨ st.Used z
  openInodes : st₁.openInodes = (st.opened d).openInodes
  disk : ∀ z, z ≠ s → st₁.disk z = st.disk z

theorem Taken.underway (ht : Taken (st.opened d) st₁ s) : Underway st st₁ d s :=
  ⟨ht.free, ht.used, ht.openInodes, fun z _ ↦ congrFun ht.disk z⟩

open State

theorem Volume.ends_close_again (hv : Volume st I h x) (ho : st₁.openInodes = (st.opened d).openInodes)
    (hdisk : st₁.disk d = st.disk d) :
    Ends (inodeClose d) (fun _ st' ↦ st' = { st₁ with openInodes := st.openInodes }) st₁ := by
  have hst : st₁ = State.opened { st₁ with openInodes := st.openInodes } d := by
    simp only [State.opened, fileLength, hdisk]
    exact congrArg (fun o ↦ { st₁ with openInodes := o }) ho
  have hpos : ∀ i, openInodes { st₁ with openInodes := st.openInodes } d = some i → 1 ≤ i.openCnt :=
    fun i hi ↦ (hv.handles.inode d i hi).2.1
  have hclose := Filesys.ends_close_opened hpos
  rwa [← hst] at hclose

namespace Underway

section

variable (hu : Underway st st₁ d s)

include hu

theorem ne_of_used {z : Nat} (hz : st.Used z) : z ≠ s := fun he ↦
  hu.free (he ▸ hz)

theorem write (b : InodeDisk) : Underway st (st₁.write s b) d s :=
  ⟨hu.free, hu.used, hu.openInodes, fun z hz ↦ (update_of_ne hz _ _).trans (hu.disk z hz)⟩

theorem zeroed (hz : Zeroed st₁ st' []) : Underway st st' d s where
  free := hu.free
  used z := by simp [hz.took.used, hu.used]
  openInodes := hz.openInodes.trans hu.openInodes
  disk z hne := (hz.disk z (by simp)).trans (hu.disk z hne)

theorem untouched (hv : Volume st I h x) : Untouched st st₁ I :=
  fun a ha ↦ hu.disk _ (hu.ne_of_used (hv.layout.wf.used a ha))

section

variable (hv : Volume st I h x) (hd : d ∈ I)
include hv hd

theorem volume : Volume st₁ I (d ::ₘ h) x :=
  (hv.opened hd).untouched (hu.untouched hv) hu.openInodes fun a ha ↦
    (hu.used _).mpr (.inr (hv.layout.wf.used a ha))

theorem slots : st₁.slots d = st.slots d := by
  rw [(hu.volume hv hd).slots, hv.slots, fileLength, fileLength, (hu.untouched hv).inode hd]

theorem record (i : Nat) : st₁.record d i = st.record d i := by
  simp only [State.record, (hu.untouched hv).fileByte hd]

end

theorem untraced (hused : ∀ z, st'.Used z ↔ st₁.Used z ∧ z ≠ s)
    (ho : st'.openInodes = st.openInodes) (hdisk : st'.disk = st₁.disk) : Untraced st st' := by
  refine ⟨fun z ↦ ?_, ho, fun z hz ↦ (congrFun hdisk z).trans (hu.disk z (hu.ne_of_used hz))⟩
  rw [hused, hu.used]
  exact ⟨fun hz ↦ hz.1.resolve_left hz.2, fun hz ↦ ⟨.inr hz, hu.ne_of_used hz⟩⟩

theorem ends_release_close (hv : Volume st I h x) (hd : d ∈ I) :
    Ends (do release s; inodeClose d; pure false) (fun _ st' ↦ Untraced st st') st₁ := by
  have hne := hu.ne_of_used (hv.layout.wf.used (.inode d) hd)
  refine wp_seq (ends_release st₁ s) fun _ st₂ hf ↦ ?_
  have hdisk : st₂.disk d = st.disk d := (congrFun hf.disk d).trans (hu.disk d hne)
  refine wp_seq (hv.ends_close_again (hf.openInodes.trans hu.openInodes) hdisk) ?_
  rintro _ _ rfl
  exact hu.untraced hf.used rfl hf.disk

theorem ends_close_release (hv : Volume st I h x) (hd : d ∈ I) :
    Ends (do inodeClose d; inodeRemove s; inodeClose s; release s; pure false)
      (fun _ st' ↦ Untraced st st') st₁ := by
  have hclosed : st.openInodes s = none := hv.closed fun hs ↦ hu.free (hv.layout.wf.used (.inode s) hs)
  have hne := hu.ne_of_used (hv.layout.wf.used (.inode d) hd)
  refine wp_seq (hv.ends_close_again hu.openInodes (hu.disk d hne)) ?_
  rintro _ st₂ rfl
  refine wp_seq (ends_inodeRemove_closed hclosed) ?_
  rintro _ _ rfl
  refine wp_seq (ends_inodeClose_closed hclosed) ?_
  rintro _ _ rfl
  refine wp_seq (ends_release _ s) fun _ st₃ hf ↦ ?_
  exact hu.untraced hf.used hf.openInodes hf.disk

end

end Underway

section Append

variable {off size : Nat} {buf : List UInt8}

theorem extend_of_le {b : InodeDisk} (hoff : (off : Int) ≤ b.length) : extend b off = b :=
  if_neg (by omega)

theorem Solid.rewrite_self (hs : Solid st I s) : (st.write s (st.disk s)).withInode s
    ((st.openInodes s).map fun k ↦ { k with length := InodeDisk.length (st.disk s) }) = st := by
  have hlength := hs.length
  have hmap : ((st.openInodes s).map fun k ↦ { k with length := InodeDisk.length (st.disk s) }) = st.openInodes s := by
    unfold readLength fileLength at hlength
    cases hk : st.openInodes s with
    | none => rfl
    | some k =>
      rw [hk] at hlength
      rw [Option.map_some, ← hlength]
  rw [hmap, withInode, write, update_eq_self, update_eq_self]

theorem Solid.run_writeAt_full (hs : Solid st I s) (hfree : st.free = 0) (hoff : (off : Int) ≤ st.fileLength s)
    (hline : off % 512 + size ≤ 512) (hne : (run (writeAt s buf size off) st).1 ≠ size) :
    (run (writeAt s buf size off) st).2 = st := by
  obtain ⟨t, rfl⟩ : ∃ t, size = t + 1 := by
    cases size with
    | zero =>
      rw [run_writeAt hs.writable (rfl)] at hne
      exact absurd rfl hne
    | succ t => exact ⟨t, rfl⟩
  rcases hr : run (dataSectorFor (st.disk s) (off / 512)) st with ⟨⟨r, b⟩, st₁⟩
  have hends : Ends (dataSectorFor (st.disk s) (off / 512)) _ st := ends_dataSectorFor_full hfree
  have hfull := run_of_ends hends
  rw [hr] at hfull
  cases r with
  | some y =>
    have hmin : min (512 - off % 512) (t + 1 - 0) = t + 1 := by omega
    have hloop : run (writeLoop buf (t + 1) (t + 1) (st.disk s) 0 off) st = _ :=
      run_writeLoop_some (by omega) hr hmin
    rw [writeLoop_done (show ¬ 0 + (t + 1) < t + 1 by omega)] at hloop
    rw [run_writeAt hs.writable hloop] at hne
    exact absurd (zero_add _) hne
  | none =>
    obtain ⟨hb, hst⟩ := hfull.2 rfl
    simp only at hb hst
    rw [hb, hst] at hr
    rw [run_writeAt hs.writable (run_writeLoop_none (by omega) hr), add_zero, extend_of_le hoff]
    exact hs.rewrite_self

end Append

/-- On a full disk a name that does not get its entry leaves the directory alone, unless the entry would
lie across two sectors. -/
theorem Solid.run_add_full (hs : Solid st I d) (hfree : st.free = 0)
    (hline : 20 * st.slots d % 512 + 20 ≤ 512) (hfalse : (run (Dir.add d name s) st).1 = false) :
    (run (Dir.add d name s) st).2 = st := by
  rcases run_add st d name s with ⟨-, hrun⟩ | ⟨-, -, i, hi, -, -, hrun⟩
  · rw [hrun]
  · rw [hrun] at hfalse ⊢
    simp only [Bool.or_eq_false_iff, decide_eq_false_iff_not, beq_eq_false_iff_ne] at hfalse
    obtain rfl : i = st.slots d := by omega
    have hoff : ((st.slots d * 20)) ≤ st.fileLength d := by
      have hnonneg := hs.nonneg
      unfold slots entryCount entrySize
      rw [hs.length]
      omega
    exact hs.run_writeAt_full hfree hoff (by rwa [mul_comm]) hfalse.2

def State.Refuses (st : State) (d : Nat) (name : List UInt8) : Prop :=
  nameMax < name.length ∨ ∃ i < st.slots d, (st.record d i).nameMatches name = true

theorem run_add_refused (hr : st.Refuses d name) : run (Dir.add d name s) st = (false, st) := by
  rcases run_add st d name s with ⟨-, hrun⟩ | ⟨hlen, hno, -⟩
  · exact hrun
  · rcases hr with hlong | ⟨i, hi, hmatch⟩
    · omega
    · rw [hno i hi] at hmatch
      cases hmatch

/-- A `create` that fails under this condition has done nothing that stays. There is no free sector; or
there is one, and it is missed for the first data block, or for the entry, which would lie in one sector;
or the name is refused and the file has no blocks. -/
def CleanCreate (st : State) (cwd : Nat) (path : List UInt8) (size : Int) : Prop :=
  ∀ d name, (run (resolvePath cwd path) st).1 = some (d, name) → name ≠ [] →
    st.free = 0 ∨ st.free = 1 ∧ (bytesToSectors size ≠ 0 ∨ 20 * st.slots d % 512 + 20 ≤ 512) ∨
      bytesToSectors size = 0 ∧ st.Refuses d name

theorem Underway.refuses (hu : Underway st st₁ d s) (hv : Volume st I h x) (hd : d ∈ I)
    (hr : st.Refuses d name) : st₁.Refuses d name := by
  simpa only [Refuses, hu.slots hv hd, hu.record hv hd] using hr

theorem Volume.ends_create_clean {size : Int} (hv : Volume st I h x) (hcwd : st.Folder I cwd)
    (hclean : CleanCreate st cwd path size) :
    Ends (create cwd path size) (fun ok st' ↦ ok = false → Untraced st st') st := by
  refine hv.ends_inParent hcwd (fun _ ↦ .refl st) fun d name hrun hname hd ↦ ?_
  refine wp_bind.mpr (wp_allocate_free (fun _ ↦ ⟨trivial, ?_⟩) fun s st₂ htaken hfree ↦ ⟨trivial, ?_⟩)
  · refine wp_seq (hv.ends_close_opened d) ?_
    rintro _ _ rfl _
    exact .refl _
  have hu₂ := htaken.underway
  have hcond := hclean d name hrun hname
  change st.free = st₂.free + 1 at hfree
  refine wp_seq (ends_inodeCreate_zeroed st₂ s size false) ?_
  rintro ok st₃ ⟨st₁, T, hz, hfalse, htrue⟩
  have hspace := hz.took.space
  cases ok with
  | false =>
    obtain ⟨hlen, hfull, rfl⟩ := hfalse rfl
    obtain rfl : T = [] := List.length_eq_zero_iff.mp (by omega)
    exact wp_mono ((hu₂.zeroed hz).ends_release_close hv hd.1) fun _ _ hun _ ↦ hun
  | true =>
    obtain ⟨hlen, b, rfl, -⟩ := htrue rfl
    obtain rfl : T = [] := List.length_eq_zero_iff.mp (by omega)
    have hu₃ := (hu₂.zeroed hz).write b
    rcases hr : run (Dir.add d name s) _ with ⟨ok, st₄⟩
    have hadd : ok = false → st₄ = st₁.write s b := fun hok ↦ by
      have hrefused : st.Refuses d name → st₄ = st₁.write s b := fun hname ↦ by
        rw [run_add_refused (hu₃.refuses hv hd.1 hname)] at hr
        exact (Prod.ext_iff.mp hr).2.symm
      rcases hcond with h0 | ⟨h1, hblock | hline⟩ | ⟨-, hname⟩
      · omega
      · exact absurd hlen.symm hblock
      · have hfree₃ : (st₁.write s b).free = 0 := show st₁.free = 0 by omega
        have hsolid := (hu₃.volume hv hd.1).solid ((hu₃.untouched hv).folder.mpr hd)
        have hback := hsolid.run_add_full hfree₃ (hu₃.slots hv hd.1 ▸ hline) (by rw [hr, hok])
        rwa [hr] at hback
      · exact hrefused hname
    refine wp_bind.mpr (ends_of_run ?_)
    rw [hr]
    cases ok with
    | true => exact wp_seq Program.Prog.wp_true nofun
    | false =>
      rw [hadd rfl]
      exact wp_mono (hu₃.ends_close_release hv hd.1) fun _ _ hun _ ↦ hun

/-- A `mkdir` that fails under this condition has done nothing that stays. -/
def CleanMkdir (st : State) (cwd : Nat) (path : List UInt8) : Prop :=
  ∀ d name, (run (resolvePath cwd path) st).1 = some (d, name) → name ≠ [] → st.free ≤ 1

theorem Volume.ends_mkdir_clean (hv : Volume st I h x) (hcwd : st.Folder I cwd)
    (hclean : CleanMkdir st cwd path) :
    Ends (mkdir cwd path) (fun ok st' ↦ ok = false → Untraced st st') st := by
  refine hv.ends_inParent hcwd (fun _ ↦ .refl st) fun d name hrun hname hd ↦ ?_
  refine wp_bind.mpr (wp_allocate_free (fun _ ↦ ⟨trivial, ?_⟩) fun s st₂ htaken hfree ↦ ⟨trivial, ?_⟩)
  · refine wp_seq (hv.ends_close_opened d) ?_
    rintro _ _ rfl _
    exact .refl _
  have hfull := hclean d name hrun hname
  change st.free = st₂.free + 1 at hfree
  refine wp_bind.mpr (wp_seq (ends_inodeCreate_zeroed st₂ s _ true) ?_)
  rintro ok st₃ ⟨st₁, T, hz, hfalse, htrue⟩
  have hspace := hz.took.space
  cases ok with
  | true =>
    -- The two entries need a block, and there is none.
    obtain ⟨hlen, -⟩ := htrue rfl
    have hone : bytesToSectors (entrySize * 2) = 1 := by decide
    omega
  | false =>
    obtain ⟨-, -, rfl⟩ := hfalse rfl
    obtain rfl : T = [] := List.length_eq_zero_iff.mp (by omega)
    change Ends (do release s; inodeClose d; pure false) _ st₃
    exact wp_mono ((htaken.underway.zeroed hz).ends_release_close hv hd.1) fun _ _ hun _ ↦ hun

def NoTrace (st st' : State) (I : Set Nat) : Prop :=
  Untraced st st' ∧ ∀ d, st.Folder I d → st'.fileLength d = st.fileLength d ∧
    ∀ k, fileByte st'.disk (st'.disk d) k = fileByte st.disk (st.disk d) k

theorem Untraced.noTrace (hu : Untraced st st') (hv : Volume st I h x) : NoTrace st st' I := by
  have hun := hu.untouched hv
  refine ⟨hu, fun d hd ↦ ⟨?_, hun.fileByte hd.1⟩⟩
  rw [fileLength, fileLength, hun.inode hd.1]

/-- A failed `create` or `mkdir` leaves no trace if it fails before it has taken a block. -/
theorem failed_creation_leaves_no_trace (hv : Volume st I h x) (hcwd : st.Folder I cwd) (path : List UInt8) :
    (∀ size, CleanCreate st cwd path size → run (create cwd path size) st = (false, st') → NoTrace st st' I) ∧
    (CleanMkdir st cwd path → run (mkdir cwd path) st = (false, st') → NoTrace st st' I) := by
  refine ⟨fun size hclean hrun ↦ ?_, fun hclean hrun ↦ ?_⟩
  · have hends := run_of_ends (hv.ends_create_clean hcwd hclean)
    rw [hrun] at hends
    exact (hends rfl).noTrace hv
  · have hends := run_of_ends (hv.ends_mkdir_clean hcwd hclean)
    rw [hrun] at hends
    exact (hends rfl).noTrace hv

/-- The name of a file is created again, and the root directory has no name. -/
theorem failed_creation_leaves_no_trace_bound : ∃ I st₁ st₂,
    run (create 1 [97] 0) oneFile = (false, st₁) ∧ NoTrace oneFile st₁ I ∧
      run (mkdir 1 [47]) oneFile = (false, st₂) ∧ NoTrace oneFile st₂ I := by
  obtain ⟨I, hv, hcwd, -⟩ := volume_oneFile
  have hcreate : (run (create 1 [97] 0) oneFile).1 = false := by decide +kernel
  have hmkdir : (run (mkdir 1 [47]) oneFile).1 = false := by decide +kernel
  have hbound : 0 < oneFile.slots 1 ∧ (oneFile.record 1 0).nameMatches [97] = true := by decide +kernel
  have hclean : CleanCreate oneFile 1 [97] 0 := fun d name hrun _ ↦ by
    cases hrun
    exact .inr (.inr ⟨by decide, .inr ⟨0, hbound⟩⟩)
  have hclean' : CleanMkdir oneFile 1 [47] := fun d name hrun hname ↦ by
    cases hrun
    exact absurd rfl hname
  exact ⟨I, _, _, Prod.ext hcreate rfl,
    (failed_creation_leaves_no_trace hv hcwd [97]).1 0 hclean (Prod.ext hcreate rfl), Prod.ext hmkdir rfl,
    (failed_creation_leaves_no_trace hv hcwd [47]).2 hclean' (Prod.ext hmkdir rfl)⟩

/-- A directory is created under the name of a file: the sector of its two entries stays marked. -/
theorem mkdir_leaks_block : (∃ I, Volume oneFile I 0 0 ∧ oneFile.Folder I 1) ∧
    (run (mkdir 1 [97]) oneFile).1 = false ∧ ¬ oneFile.Used 5 ∧
      (run (mkdir 1 [97]) oneFile).2.Used 5 := by
  obtain ⟨I, hv, hcwd, -⟩ := volume_oneFile
  refine ⟨⟨I, hv, hcwd⟩, by decide +kernel, ?_, ?_⟩
  · show ¬ oneFile.freeMap.test 5 = true
    decide +kernel
  · show (run _ oneFile).2.freeMap.test 5 = true
    decide +kernel

end Rxv6.Filesys
