import Rxv6.Filesys.Volume

namespace Rxv6.Filesys

open Lib.BlockTree Function Sector InodeDisk List

variable {st st' : State} {I K : Set Nat} {h x : Multiset Nat} {s d t cwd : Nat} {name path : List UInt8}
  {α : Type} {Q : α → State → Prop}

section Resolve

section

variable (hv : Volume st I h x)
include hv

theorem Volume.ends_lookup (hd : st.Folder I d) (name : List UInt8) :
    Ends (Dir.lookup d name) (fun r st' ↦ st' = st ∧ ∀ t, r = some t → ∃ j, st.Names I d j t) st := by
  refine ends_of_run ?_
  rcases run_lookup st d name with ⟨-, hrun⟩ | ⟨i, hi, hp, hrun⟩
  · rw [hrun]
    exact ⟨rfl, nofun⟩
  · rw [hrun]
    refine ⟨rfl, fun t ht ↦ ⟨i, hd, hv.slots d ▸ hi, (nameMatches_iff.mp hp).1, Option.some.inj ht⟩⟩

theorem Volume.ends_inodeIsDir (s : Nat) :
    Ends (inodeIsDir s) (fun r st' ↦ st' = st ∧ r = InodeDisk.isDir (st.disk s)) st := by
  refine ends_of_run ?_
  rw [run_inodeIsDir]
  exact ⟨rfl, hv.readIsDir s⟩

theorem Volume.ends_walk (l : List (List UInt8)) : ∀ d, st.Folder I d →
    Ends (walk d l) (fun r st' ↦ r = none ∧ st' = st ∨
      ∃ e, r = some e ∧ st.Folder I e ∧ st' = st.opened e) (st.opened d) := by
  induction l with
  | nil => exact fun d hd ↦ .inr ⟨d, rfl, hd, rfl⟩
  | cons name l ih =>
    intro d hd
    have hv' := hv.opened hd.1
    have hclose := hv.ends_close_opened d
    refine wp_seq (hv'.ends_lookup hd name) ?_
    rintro r _ ⟨rfl, hr⟩
    cases r with
    | none =>
      refine wp_seq hclose ?_
      rintro _ _ rfl
      exact .inl ⟨rfl, rfl⟩
    | some t =>
      obtain ⟨j, hj⟩ := hr t rfl
      refine wp_seq (hv'.ends_inodeIsDir t) ?_
      rintro b _ ⟨rfl, rfl⟩
      cases hdir : isDir (st.disk t) with
      | true =>
        have hdir' : isDir ((st.opened d).disk t) = true := hdir
        simp only [hdir']
        refine wp_seq hclose ?_
        rintro _ _ rfl
        refine wp_seq (ends_inodeOpen _ t) ?_
        rintro _ _ rfl
        exact ih t ⟨(hv'.layout.names d j t hj).1, hdir⟩
      | false =>
        have hdir' : isDir ((st.opened d).disk t) = false := hdir
        simp only [hdir']
        refine wp_seq hclose ?_
        rintro _ _ rfl
        exact .inl ⟨rfl, rfl⟩

theorem Volume.ends_resolvePath (hcwd : st.Folder I cwd) (path : List UInt8) :
    Ends (resolvePath cwd path) (fun r st' ↦ r = none ∧ st' = st ∨
      ∃ d name, r = some (d, name) ∧ st.Folder I d ∧ st' = st.opened d) st := by
  unfold resolvePath
  split
  · exact .inl ⟨rfl, rfl⟩
  · have hstart : st.Folder I (if path.head? = some 47 then rootDirSector else cwd) := by
      split
      · exact hv.layout.root
      · exact hcwd
    generalize (if path.head? = some 47 then rootDirSector else cwd) = start at *
    refine wp_seq (ends_inodeOpen _ _) ?_
    rintro _ _ rfl
    cases (components path).getLast? with
    | none => exact .inr ⟨start, [], rfl, hstart, rfl⟩
    | some leaf =>
      refine wp_seq (hv.ends_walk _ start hstart) ?_
      rintro r st' (⟨rfl, rfl⟩ | ⟨e, rfl, he, rfl⟩)
      · exact .inl ⟨rfl, rfl⟩
      · exact .inr ⟨e, leaf, rfl, he, rfl⟩

end

theorem ends_and_run {p : Prog α} (hp : Ends p Q st) :
    Ends p (fun a st' ↦ run p st = (a, st') ∧ Q a st') st :=
  ends_of_run ⟨rfl, run_of_ends hp⟩

theorem Volume.ends_inParent {fail : α} {body : Nat → List UInt8 → Prog α}
    {path : List UInt8} (hv : Volume st I h x) (hcwd : st.Folder I cwd) (hfail : Q fail st)
    (hbody : ∀ d name, (run (resolvePath cwd path) st).1 = some (d, name) → name ≠ [] → st.Folder I d →
      Ends (body d name) Q (st.opened d)) : Ends (inParent cwd path fail body) Q st := by
  refine wp_seq (ends_and_run (hv.ends_resolvePath hcwd path)) ?_
  rintro r st' ⟨hrun, ⟨rfl, rfl⟩ | ⟨d, name, rfl, hd, rfl⟩⟩
  · exact hfail
  · simp only
    split
    · refine wp_seq (hv.ends_close_opened d) ?_
      rintro _ _ rfl
      exact hfail
    · next hname => exact hbody d name (by rw [hrun]) hname hd

theorem Volume.ends_openFile (hv : Volume st I h x) (hcwd : st.Folder I cwd) (path : List UInt8) :
    Ends (openFile cwd path) (fun r st' ↦ r = none ∧ st' = st ∨
      ∃ t, r = some t ∧ (∃ d j, st.Names I d j t) ∧ st' = st.opened t) st := by
  refine hv.ends_inParent hcwd (.inl ⟨rfl, rfl⟩) fun d name _ _ hd ↦ ?_
  refine wp_seq ((hv.opened hd.1).ends_lookup hd name) ?_
  rintro r _ ⟨rfl, hr⟩
  refine wp_seq (hv.ends_close_opened d) ?_
  rintro _ _ rfl
  cases r with
  | none => exact .inl ⟨rfl, rfl⟩
  | some t =>
    obtain ⟨j, hj⟩ := hr t rfl
    refine wp_seq (ends_inodeOpen _ t) ?_
    rintro _ _ rfl
    exact .inr ⟨t, rfl, ⟨d, j, hj⟩, rfl⟩

end Resolve

open State

section Entries

variable {i j n : Nat} {e : DirEntry} {d' : Nat} {R : Nat → Prop}

structure Rewrote (st st' : State) (I : Set Nat) (d : Nat) : Prop where
  disk : ∀ t ∈ I, t ≠ d → st'.disk t = st.disk t
  addr : ∀ t ∈ I, t ≠ d → ∀ u, IsPos u → addr word st'.disk (st'.disk t) u = addr word st.disk (st.disk t) u
  bytes : ∀ t ∈ I, t ≠ d → ∀ k, fileByte st'.disk (st'.disk t) k = fileByte st.disk (st.disk t) k
  isDir : InodeDisk.isDir (st'.disk d) = InodeDisk.isDir (st.disk d)

/-- The table after a write to `d`, in which the inodes `R` may be newly marked as removed. -/
structure Retabled (st st' : State) (d : Nat) (R : Nat → Prop) : Prop where
  entry : ∀ t k, st'.openInodes t = some k → ∃ k₀, st.openInodes t = some k₀ ∧ k.openCnt = k₀.openCnt ∧
    k.denyWriteCnt = k₀.denyWriteCnt ∧ k.isDir = k₀.isDir ∧ (k.removed = true → k₀.removed = true ∨ R t) ∧
    (t = d ∧ k.length = st'.fileLength d ∨ t ≠ d ∧ k.length = k₀.length)
  count : ∀ t, st'.openCount t = st.openCount t

theorem Retabled.closed (ht : Retabled st st' d R) (hs : st.openInodes t = none) :
    st'.openInodes t = none := by
  cases hi : st'.openInodes t with
  | none => rfl
  | some k =>
    obtain ⟨k₀, hi₀, -⟩ := ht.entry t k hi
    rw [hs] at hi₀
    cases hi₀

theorem Kept.rewrote (hk : Kept st st' I d) : Rewrote st st' I d where
  disk := hk.disk
  addr := hk.addr
  bytes := hk.bytes
  isDir := by rw [isDir, isDir, hk.fields 68 (by omega)]

theorem Kept.retabled (hk : Kept st st' I d) : Retabled st st' d fun _ ↦ False := by
  refine ⟨fun t k hi ↦ ?_, fun t ↦ ?_⟩
  · rw [hk.inode] at hi
    by_cases htd : t = d
    · subst htd
      rw [update_self] at hi
      obtain ⟨k₀, hk₀, rfl⟩ := Option.map_eq_some_iff.mp hi
      exact ⟨k₀, hk₀, rfl, rfl, rfl, .inl, .inl ⟨rfl, rfl⟩⟩
    · rw [update_of_ne htd] at hi
      exact ⟨k, hi, rfl, rfl, rfl, .inl, .inr ⟨htd, rfl⟩⟩
  · rw [openCount, openCount, hk.inode]
    by_cases htd : t = d
    · subst htd
      rw [update_self]
      cases st.openInodes t <;> rfl
    · rw [update_of_ne htd]

namespace Rewrote

theorem refl (st : State) (I : Set Nat) (d : Nat) : Rewrote st st I d :=
  ⟨fun _ _ _ ↦ rfl, fun _ _ _ _ _ ↦ rfl, fun _ _ _ _ ↦ rfl, rfl⟩

section

variable (hk : Rewrote st st' I d)
include hk

theorem isDir_eq (ht : t ∈ I) :
    InodeDisk.isDir (st'.disk t) = InodeDisk.isDir (st.disk t) := by
  by_cases htd : t = d
  · rw [htd]
    exact hk.isDir
  · rw [hk.disk t ht htd]

theorem folder : st'.Folder I t ↔ st.Folder I t := by
  constructor
  · exact fun ht ↦ ⟨ht.1, hk.isDir_eq ht.1 ▸ ht.2⟩
  · exact fun ht ↦ ⟨ht.1, (hk.isDir_eq ht.1).symm ▸ ht.2⟩

theorem frame (hd : d ∉ K) : Frame st st' I I K := by
  have hne : ∀ s ∈ K, s ≠ d := by
    rintro s hs rfl
    exact hd hs
  exact ⟨fun _ hs _ ↦ hs, fun s hs hK ↦ hk.disk s hs (hne s hK), fun s hs hK ↦ hk.addr s hs (hne s hK),
    fun s hs hK ↦ hk.bytes s hs (hne s hK), fun t ht ↦ hk.folder.mpr ht⟩

theorem names_other (hne : d' ≠ d) : st'.Names I d' j t ↔ st.Names I d' j t := by
  by_cases hd' : d' ∈ I
  · have hrec : st'.record d' j = st.record d' j :=
      congrArg DirEntry.ofBytes (map_congr_left fun k _ ↦ hk.bytes d' hd' hne _)
    rw [Names, Names, hk.folder, hrec, fileLength, fileLength, hk.disk d' hd' hne]
  · exact ⟨fun hn ↦ absurd hn.1.1 hd', fun hn ↦ absurd hn.1.1 hd'⟩

end

end Rewrote

section

variable (hv : Volume st I h x) (hd : st.Folder I d) (hst : Stored st st' I d i e n)
include hv hd hst

theorem Volume.stored_full
    (hi : i ≤ st.slots d)
    (hfull : i < st.slots d ∨ st.need (st.disk d) ((20 * i + 19) / 512) ≤ st.free) :
    st'.Names I d' j t ↔ d' = d ∧ j = i ∧ e.inUse ≠ 0 ∧ e.inodeSector = t ∨
      ¬ (d' = d ∧ j = i) ∧ st.Names I d' j t := by
  by_cases hne : d' = d
  · subst hne
    obtain ⟨hrec, hlt, hother⟩ := hst.replaced hfull hi
    have hslots : st'.slots d' = entryCount (st'.fileLength d') := by rw [State.slots, hst.solid.length]
    have hf : st'.Folder I d' := hst.kept.rewrote.folder.mpr hd
    rw [Names, Names, ← hslots, ← hv.slots]
    by_cases hji : j = i
    · subst hji
      simp only [hrec, true_and, not_true, false_and, or_false, hf, (hlt j).mpr (.inr rfl)]
    · simp only [hji, false_and, false_or, not_false_eq_true, true_and, hd, hf]
      constructor
      · rintro ⟨hj, hu⟩
        obtain ⟨hj', hr⟩ := hother j hji hj
        exact ⟨hj', hr ▸ hu⟩
      · rintro ⟨hj, hu⟩
        have hj' := (hlt j).mpr (.inl hj)
        exact ⟨hj', (hother j hji hj').2.symm ▸ hu⟩
  · simp only [hne, false_and, false_or, not_false_eq_true, true_and]
    exact hst.kept.rewrote.names_other hne

theorem Volume.stored_short
    (hi : i = st.slots d)
    (hshort : ¬ (i < st.slots d ∨ st.need (st.disk d) ((20 * i + 19) / 512) ≤ st.free)) :
    st'.Names I d' j t ↔ st.Names I d' j t := by
  by_cases hne : d' = d
  · subst hne
    obtain ⟨-, hslots⟩ := hst.short hshort
    have hslots' : st'.slots d' = entryCount (st'.fileLength d') := by rw [State.slots, hst.solid.length]
    have hf : st'.Folder I d' := hst.kept.rewrote.folder.mpr hd
    rw [Names, Names, ← hslots', ← hv.slots, hslots]
    simp only [hd, hf, true_and]
    refine and_congr_right fun hj ↦ ?_
    rw [hst.others j hj (by omega)]
  · exact hst.kept.rewrote.names_other hne

end

theorem Listing.congr (hl : Listing st d) (hdisk : st'.disk d = st.disk d)
    (haddr : ∀ u, IsPos u → addr word st'.disk (st'.disk d) u = addr word st.disk (st.disk d) u)
    (hbytes : ∀ k, fileByte st'.disk (st'.disk d) k = fileByte st.disk (st.disk d) k) : Listing st' d := by
  have hlen : st'.fileLength d = st.fileLength d := by rw [fileLength, fileLength, hdisk]
  refine ⟨hlen ▸ hl.nonneg, fun k hk ↦ ?_, fun i hi ↦ ?_⟩
  · have hne := hl.blocks k (hlen ▸ hk)
    by_cases hpos : k / 512 < 16524
    · rwa [haddr _ (isPos_blockPos hpos)]
    · exact absurd (addr_of_ge (by omega)) hne
  · simp only [record, hbytes]
    exact hl.ended i (hlen ▸ hi)

theorem Stored.listing (hst : Stored st st' I d i e n) (hl : Listing st d) (hlen : st.readLength d = st.fileLength d)
    (hi : i ≤ st.slots d) (he : e.name.getD 14 0 = 0) : Listing st' d := by
  refine ⟨hst.solid.nonneg, hst.solid.blocks, fun j hj ↦ ?_⟩
  have hj' : j < st'.slots d := by rwa [slots, hst.solid.length]
  have hold : ∀ j < st.slots d, (st.record d j).name.getD 14 0 = 0 := fun j hj ↦
    hl.ended j (by rwa [slots, hlen] at hj)
  by_cases hfull : i < st.slots d ∨ st.need (st.disk d) ((20 * i + 19) / 512) ≤ st.free
  · obtain ⟨hrec, hlt, hother⟩ := hst.replaced hfull hi
    by_cases hji : j = i
    · rw [hji, hrec]
      exact he
    · obtain ⟨hjs, hr⟩ := hother j hji hj'
      rw [hr]
      exact hold j hjs
  · rw [(hst.short hfull).2] at hj'
    rw [hst.others j hj' (by omega)]
    exact hold j hj'

theorem DirEntry.makeEntry_ended (name : List UInt8) (t : Nat) : (makeEntry name t).name.getD 14 0 = 0 := by
  have hlen : (name.take nameMax).length ≤ 14 := by simp [nameMax]
  rw [makeEntry, getD_eq_getElem?_getD, getElem?_append_right hlen, getElem?_replicate]
  split <;> rfl

theorem Volume.rewritten (hv : Volume st I h x) (hwf : WellFormed st' I)
    (hlist : st.Folder I d → Listing st' d) (hk : Rewrote st st' I d) (htab : Retabled st st' d R)
    (hnames : ∀ d' j t, st'.Names I d' j t → st.Names I d' j t ∨ t ∈ I ∧ t ≠ 0 ∧
      ∀ k, st.openInodes t = some k → k.removed = true → k.openCnt ≠ h.count t)
    (hR : ∀ t, R t → ∀ k, st.openInodes t = some k → InodeDisk.isDir (st.disk t) = false ∧ t ≠ 0 ∧
      (k.openCnt = h.count t → ∀ d' j, ¬ st'.Names I d' j t)) : Volume st' I h x := by
  have hl := hv.layout
  refine ⟨⟨hwf, ⟨hl.freeMap.1, (hk.isDir_eq hl.freeMap.1).trans hl.freeMap.2⟩, hk.folder.mpr hl.root,
    fun d' hd' ↦ ?_, fun d' j t hn ↦ ?_⟩, fun t k hi ↦ ?_, fun t ↦ ?_, fun t k hi hr ↦ ?_, fun t k hi ↦ ?_,
    fun t ht ↦ ?_⟩
  · have hd := hk.folder.mp hd'
    by_cases hne : d' = d
    · exact hne ▸ hlist (hne ▸ hd)
    · exact (hl.listing d' hd).congr (hk.disk d' hd.1 hne) (hk.addr d' hd.1 hne) (hk.bytes d' hd.1 hne)
  · rcases hnames d' j t hn with hn | ⟨ht, ht0, -⟩
    · exact hl.names d' j t hn
    · exact ⟨ht, ht0⟩
  · obtain ⟨k₀, hi₀, hcnt, -, hdir, -, hlen⟩ := htab.entry t k hi
    obtain ⟨ht, hcnt₀, hlen₀, hdir₀⟩ := hv.handles.inode t k₀ hi₀
    refine ⟨ht, hcnt ▸ hcnt₀, ?_, hdir.trans (hdir₀.trans (hk.isDir_eq ht).symm)⟩
    rcases hlen with ⟨rfl, hlen⟩ | ⟨hne, hlen⟩
    · exact hlen
    · rw [hlen, hlen₀, fileLength, fileLength, hk.disk t ht hne]
  · rw [htab.count]
    exact hv.handles.held t
  · obtain ⟨k₀, hi₀, hcnt, -, -, hrm, -⟩ := htab.entry t k hi
    have hisDir := hk.isDir_eq (hv.handles.inode t k₀ hi₀).1
    rcases hrm hr with hr₀ | hRt
    · obtain ⟨hdir, ht0, hno⟩ := hv.handles.removed t k₀ hi₀ hr₀
      refine ⟨hisDir.trans hdir, ht0, fun he d' j hn ↦ ?_⟩
      rcases hnames d' j t hn with hn | ⟨-, -, hpin⟩
      · exact hno (hcnt ▸ he) d' j hn
      · exact hpin k₀ hi₀ hr₀ (hcnt ▸ he)
    · obtain ⟨hdir, ht0, hno⟩ := hR t hRt k₀ hi₀
      exact ⟨hisDir.trans hdir, ht0, fun he ↦ hno (hcnt ▸ he)⟩
  · obtain ⟨k₀, hi₀, -, hdeny, -⟩ := htab.entry t k hi
    rw [hdeny]
    exact hv.handles.deny t k₀ hi₀
  · obtain ⟨hth, hdir⟩ := hv.handles.running t ht
    exact ⟨hth, (hk.isDir_eq (hv.mem_of_held hth)).trans hdir⟩

def Fits (st : State) (d : Nat) : Prop :=
  (∃ i < st.slots d, (st.record d i).inUse = 0) ∨ 20 * st.slots d + 20 ≤ maxLength

structure Added (st st' : State) (I : Set Nat) (d t : Nat) (ok : Bool) : Prop where
  rewrote : Rewrote st st' I d
  closed : ∀ s, st.openInodes s = none → st'.openInodes s = none
  names : ∃ i, ∀ d' j t', st'.Names I d' j t' ↔ st.Names I d' j t' ∨ ok = true ∧ d' = d ∧ j = i ∧ t' = t

theorem Volume.ends_add (hv : Volume st I h x) (hd : st.Folder I d) (hfits : Fits st d) (ht : t ∈ I)
    (ht0 : t ≠ 0) (hlt : t < 4294967296)
    (hpin : ∀ k, st.openInodes t = some k → k.removed = true → k.openCnt ≠ h.count t) (name : List UInt8) :
    Ends (Dir.add d name t) (fun ok st' ↦ Volume st' I h x ∧ Added st st' I d t ok) st := by
  refine ends_of_run ?_
  have hsolid := hv.solid hd
  rcases run_add st d name t with ⟨-, hrun⟩ | ⟨hlen, -, i, hi, hfree, hlast, hrun⟩
  · rw [hrun]
    exact ⟨hv, .refl _ _ _, fun _ h ↦ h, 0, fun d' j t' ↦ by simp⟩
  · have hmax : 20 * i + 20 ≤ maxLength := by
      rcases lt_or_eq_of_le hi with hlt' | rfl
      · exact hsolid.slot_lt hlt'
      · rcases hfits with ⟨j, hj, hj0⟩ | hroom
        · exact absurd hj0 (hlast rfl j hj)
        · exact hroom
    have hst := run_of_ends (hsolid.ends_writeEntry hi (DirEntry.length_makeEntry name t) hlt hmax)
    rw [hrun]
    generalize run (Dir.writeEntry d i _) st = r at *
    obtain ⟨n, st'⟩ := r
    simp only at hst
    have hlist := hst.listing (hv.layout.listing d hd) (hv.readLength d) hi (DirEntry.makeEntry_ended name t)
    by_cases hfull : i < st.slots d ∨ st.need (st.disk d) ((20 * i + 19) / 512) ≤ st.free
    · have hn := (hst.full hfull).1
      have hok : (decide (i < st.slots d) || n == 20) = true := by simp [hn]
      rw [hok]
      have hiff : ∀ d' j t', st'.Names I d' j t' ↔
          st.Names I d' j t' ∨ true = true ∧ d' = d ∧ j = i ∧ t' = t := by
        intro d' j t'
        rw [hv.stored_full hd hst hi hfull]
        constructor
        · rintro (⟨h1, h2, -, h4⟩ | ⟨-, hn⟩)
          · exact .inr ⟨rfl, h1, h2, h4.symm⟩
          · exact .inl hn
        · rintro (hn | ⟨-, h1, h2, h4⟩)
          · refine .inr ⟨?_, hn⟩
            rintro ⟨rfl, rfl⟩
            exact hn.2.2.1 (hfree (hv.slots d' ▸ hn.2.1))
          · exact .inl ⟨h1, h2, by simp [makeEntry], h4.symm⟩
      refine ⟨hv.rewritten hst.solid.wf (fun _ ↦ hlist) hst.kept.rewrote hst.kept.retabled (fun d' j t' hn ↦ ?_)
        fun _ h ↦ h.elim, hst.kept.rewrote, fun _ h ↦ hst.kept.retabled.closed h, i, hiff⟩
      rcases (hiff d' j t').mp hn with hn | ⟨-, -, -, rfl⟩
      · exact .inl hn
      · exact .inr ⟨ht, ht0, hpin⟩
    · have hieq : i = st.slots d := by
        have := mt Or.inl hfull
        omega
      obtain ⟨hn, -⟩ := hst.short hfull
      have hok : (decide (i < st.slots d) || n == 20) = false := by
        simp only [Bool.or_eq_false_iff, decide_eq_false_iff_not, beq_eq_false_iff_ne]
        omega
      rw [hok]
      have hiff : ∀ d' j t', st'.Names I d' j t' ↔ st.Names I d' j t' := fun d' j t' ↦
        hv.stored_short hd hst hieq hfull
      refine ⟨hv.rewritten hst.solid.wf (fun _ ↦ hlist) hst.kept.rewrote hst.kept.retabled
        (fun d' j t' hn ↦ .inl ((hiff d' j t').mp hn)) fun _ h ↦ h.elim, hst.kept.rewrote,
        fun _ h ↦ hst.kept.retabled.closed h, 0, fun d' j t' ↦ ?_⟩
      rw [hiff]
      simp

theorem Volume.solid_marked (hv : Volume st I h x) (hd : st.Folder I d) (t : Nat) :
    Solid (st.withInode t ((st.openInodes t).map fun k ↦ { k with removed := true })) I d := by
  have hsolid := hv.solid hd
  set st₁ := st.withInode t _ with hst₁
  have hsame : writeDenied (st₁.openInodes d) = writeDenied (st.openInodes d) ∧
      st₁.readLength d = st.readLength d := by
    rw [State.readLength, State.readLength, withInode_openInodes]
    by_cases htd : d = t
    · rw [htd, update_self]
      cases st.openInodes t <;> exact ⟨rfl, rfl⟩
    · rw [update_of_ne htd]
      exact ⟨rfl, rfl⟩
  have hl₁ : Layout st₁ I := hv.layout.congr rfl hv.layout.wf.used
  exact ⟨hl₁.wf, hd.1, hsame.1.trans hsolid.writable,
    hsame.2.trans hsolid.length, hsolid.nonneg, hsolid.blocks⟩

end Entries

end Rxv6.Filesys
