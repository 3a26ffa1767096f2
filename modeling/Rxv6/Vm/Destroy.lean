import Rxv6.Vm.FrameIndex
import Rxv6.Vm.PageTables

namespace Rxv6.Vm.PageTables

open Rxv6.Thread Rxv6.Lib.Runs State List Option

namespace State

variable {kernel : Nat → Word} {s : State} {pd va k : Nat} {a : Act}

def mapped (s : State) (pd va : Nat) : Option Nat := (decode (s.pte pd va)).map (·.kpage)

def Holds (s : State) (pd p : Nat) : Prop :=
  p = pd ∨ (pd, p) ∈ s.created ∨ ∃ va < physBase, s.mapped pd va = some p

theorem Sound.step_mapped (hs : Sound kernel s) (ha : s.Allowed a) (hpd : pd ∈ (s.step a).2.dirs)
    (hva : va < physBase) (hk : (s.step a).2.mapped pd va = some k) :
    pd ∈ s.dirs ∧ s.mapped pd va = some k ∨
      ∃ upage writable page, a = .setPage pd upage k writable page ∧ va / pgsize = upage / pgsize := by
  obtain ⟨hnamed, hother⟩ := (hs.step ha).2 pd hpd va hva
  by_cases hn : a.Names pd (va / pgsize)
  · rw [mapped, hnamed hn] at hk
    cases a with
    | create page => cases hk
    | setPage pd' upage kpage writable page =>
      obtain ⟨rfl, hpage⟩ := hn
      simp only [Act.mapping] at hk
      split at hk
      · cases hk
        exact .inr ⟨upage, writable, page, rfl, hpage⟩
      · cases hk
    | clearPage pd' upage => cases hk
    | setAccessed pd' upage val =>
      obtain ⟨rfl, -⟩ := hn
      exact .inl ⟨ha.1, hk⟩
  · obtain ⟨hold, hsame⟩ := hother hn
    rw [mapped, hsame] at hk
    exact .inl ⟨hold, hk⟩

/-- Every table was made by a `lookup` for its directory. -/
def Logged (s : State) : Prop := ∀ pd pt, (pd, pt) ∈ s.created ↔ ∃ i, s.HasTable pd i pt

/-- What a call does to the pages in use: new directories and tables were not in use before. -/
structure Grown (s s' : State) : Prop where
  init : s'.initPageDir = s.initPageDir
  used : s.used ⊆ s'.used
  dirs : ∀ q ∈ s'.dirs, q ∈ s.dirs ∨ q ∉ s.used
  tables : ∀ q i pt, s'.HasTable q i pt → s.HasTable q i pt ∨ pt ∉ s.used
  logged : s.Logged → s'.Logged

theorem Grown.refl (s : State) : Grown s s := ⟨rfl, Finset.Subset.refl _, fun _ ↦ .inl, fun _ _ _ ↦ .inl, id⟩

theorem Sound.grown_store (hs : Sound kernel s) (hpd : pd ∈ s.dirs) (hva : va < physBase)
    (ht : s.mem (pd + 4 * pdeIdx va) ≠ 0#32) (w : Word) : Grown s (s.store pd va w) := by
  have hiff : ∀ q i pt, (s.store pd va w).HasTable q i pt ↔ s.HasTable q i pt := fun q i pt ↦
    hasTable_congr (hs.store_dirs hpd hva ht w)
  refine ⟨rfl, Finset.Subset.refl _, fun _ ↦ .inl, fun q i pt h ↦ .inl ((hiff q i pt).mp h), fun h q pt ↦ ?_⟩
  simp only [hiff]
  exact h q pt

theorem Sound.grown_addTable {pt : Nat} (hs : Sound kernel s) (hpd : pd ∈ s.dirs) (hva : va < physBase)
    (hz : s.mem (pd + 4 * pdeIdx va) = 0#32) (hpt : IsPage pt) (hfresh : pt ∉ s.used) :
    Grown s (s.addTable pd va pt) := by
  have hiff : ∀ q i pt', (s.addTable pd va pt).HasTable q i pt' ↔
      q = pd ∧ i = pdeIdx va ∧ pt' = pt ∨ s.HasTable q i pt' := fun q i pt' ↦
    hs.hasTable_addTable hpd hva hz hpt hfresh
  refine ⟨rfl, Finset.subset_insert _ _, fun _ ↦ .inl, fun q i pt' h ↦ ?_, fun h q pt' ↦ ?_⟩
  · rcases (hiff q i pt').mp h with ⟨-, -, rfl⟩ | h
    · exact .inr hfresh
    · exact .inl h
  · simp only [hiff]
    change (q, pt') ∈ (pd, pt) :: s.created ↔ _
    rw [mem_cons, Prod.mk.injEq, h q pt']
    constructor
    · rintro (⟨rfl, rfl⟩ | ⟨i, hi⟩)
      · exact ⟨_, .inl ⟨rfl, rfl, rfl⟩⟩
      · exact ⟨i, .inr hi⟩
    · rintro ⟨i, ⟨rfl, -, rfl⟩ | hi⟩
      · exact .inl ⟨rfl, rfl⟩
      · exact .inr ⟨i, hi⟩

theorem Sound.grown_create (hs : Sound kernel s) (hpd : IsPage pd) (hfresh : pd ∉ s.used) :
    Grown s (s.create (some pd)).2 := by
  have hiff : ∀ q i pt, (s.create (some pd)).2.HasTable q i pt ↔ s.HasTable q i pt := fun q i pt ↦
    hs.hasTable_create hpd hfresh
  refine ⟨rfl, Finset.subset_insert _ _, fun q hq ↦ ?_, fun q i pt h ↦ .inl ((hiff q i pt).mp h), fun h q pt ↦ ?_⟩
  · rcases Finset.mem_insert.mp hq with rfl | hq
    · exact .inr hfresh
    · exact .inl hq
  · simp only [hiff]
    exact h q pt

theorem Grown.trans {s' s'' : State} (h : Grown s s') (h' : Grown s' s'') : Grown s s'' where
  init := h'.init.trans h.init
  used := h.used.trans h'.used
  dirs q hq := by
    rcases h'.dirs q hq with hq | hq
    · exact h.dirs q hq
    · exact .inr fun hu ↦ hq (h.used hu)
  tables q i pt ht := by
    rcases h'.tables q i pt ht with ht | ht
    · exact h.tables q i pt ht
    · exact .inr fun hu ↦ ht (h.used hu)
  logged hl := h'.logged (h.logged hl)

theorem Sound.grown (hs : Sound kernel s) (ha : s.Allowed a) : Grown s (s.step a).2 := by
  cases a with
  | create page =>
    cases page with
    | none => exact .refl s
    | some p => exact hs.grown_create (ha p rfl).1 (ha p rfl).2
  | setPage pd upage kpage writable page =>
    obtain ⟨hpd, ⟨hva, -⟩, -, hfresh⟩ := ha
    rcases s.setPage_cases pd upage kpage writable page with ⟨-, -, h⟩ | ⟨hnz, h⟩ | ⟨pt, hpt, hz, h⟩ <;>
      rw [State.step, h]
    · exact .refl s
    · exact hs.grown_store hpd hva hnz _
    · obtain ⟨hpage, hnew⟩ := hfresh pt hpt
      have htable : (s.addTable pd upage pt).HasTable pd (pdeIdx upage) pt :=
        (hs.hasTable_addTable hpd hva hz hpage hnew).mpr (.inl ⟨rfl, rfl, rfl⟩)
      exact (hs.grown_addTable hpd hva hz hpage hnew).trans
        ((hs.addTable hpd hva hz hpage hnew).grown_store hpd hva htable.ne_zero _)
  | clearPage pd upage =>
    rcases s.clearPage_cases pd upage with ⟨-, h⟩ | ⟨hnz, h⟩ <;> rw [State.step, h]
    · exact .refl s
    · exact hs.grown_store ha.1 ha.2.1 hnz _
  | setAccessed pd upage val =>
    rcases s.setAccessed_cases pd upage val with ⟨-, h⟩ | ⟨hnz, h⟩ <;> rw [State.step, h]
    · exact .refl s
    · exact hs.grown_store ha.1 ha.2.1 hnz _

end State

/-- The page tables with the frame table. `freed` are the pages given back, the latest first. -/
structure System where
  tables : State
  frames : Indexed
  freed : List Nat

namespace System

def IsFrame (x : Indexed) (kpage : Nat) : Prop := ∃ e ∈ x.memory.frameTable, e.kpage = kpage

/-- `palloc::free_page`. -/
def freePage (sys : System) (page : Nat) : System :=
  { sys with
    tables := { sys.tables with used := sys.tables.used.erase page }
    freed := page :: sys.freed }

/-- `frame::free_frame`; `none` stands for a panic. -/
def freeFrame (sys : System) (kpage : Nat) : Option System :=
  (sys.frames.freeFrame kpage).map fun x ↦ freePage { sys with frames := x } kpage

inductive Op
  | call (a : Act)
  | allocFrame (kpage upage : Nat) (tid : Tid)
  | rewrite (x : Indexed)
  | freeFrame (kpage : Nat)

def step (sys : System) : Op → Option System
  | .call a => some { sys with tables := (sys.tables.step a).2 }
  | .allocFrame kpage upage tid => some { sys with
      tables := { sys.tables with used := insert kpage sys.tables.used }
      frames := sys.frames.registerFrame kpage upage tid }
  | .rewrite x => some { sys with frames := x }
  | .freeFrame kpage => sys.freeFrame kpage

/-- The frames that `set_page` maps come from `alloc_frame` and are mapped once at a time. -/
def MapsFrame (sys : System) : Act → Prop
  | .setPage pd upage kpage _ _ => IsFrame sys.frames kpage ∧
      ∀ pd' ∈ sys.tables.dirs, ∀ va < physBase, sys.tables.mapped pd' va = some kpage →
        pd' = pd ∧ va / pgsize = upage / pgsize
  | _ => True

/-- An eviction with the new entry for its frame, pinning and a change of owner rewrite the frame table
with the same frames. A frame that is given back is not mapped. -/
def Allowed (sys : System) : Op → Prop
  | .call a => sys.tables.Allowed a ∧ sys.MapsFrame a
  | .allocFrame kpage _ _ => IsPage kpage ∧ kpage ∉ sys.tables.used
  | .rewrite x => x.Synced ∧ ∀ k, IsFrame x k ↔ IsFrame sys.frames k
  | .freeFrame kpage => IsFrame sys.frames kpage ∧
      ∀ pd ∈ sys.tables.dirs, ∀ va < physBase, sys.tables.mapped pd va ≠ some kpage

structure Owned (start : State) (sys : System) : Prop where
  sound : Sound (fun i ↦ start.mem (start.initPageDir + 4 * i)) sys.tables
  synced : sys.frames.Synced
  logged : sys.tables.Logged
  frame : ∀ k, IsFrame sys.frames k →
    k ∈ sys.tables.used ∧ k ∉ sys.tables.dirs ∧ k ≠ sys.tables.initPageDir ∧ ∀ pd i, ¬ sys.tables.HasTable pd i k
  mapped : ∀ pd ∈ sys.tables.dirs, ∀ va < physBase, ∀ k, sys.tables.mapped pd va = some k → IsFrame sys.frames k
  once : ∀ pd ∈ sys.tables.dirs, ∀ va < physBase, ∀ pd' ∈ sys.tables.dirs, ∀ va' < physBase, ∀ k,
    sys.tables.mapped pd va = some k → sys.tables.mapped pd' va' = some k →
      pd = pd' ∧ va / pgsize = va' / pgsize
  kept : ∀ p ∈ start.used, p ∈ sys.tables.used ∧ p ∉ sys.tables.dirs ∧
    (∀ pd i, ¬ sys.tables.HasTable pd i p) ∧ ¬ IsFrame sys.frames p

variable {start : State} {sys sys' : System} {op : Op}

theorem Owned.call {a : Act} (h : Owned start sys) (ha : sys.tables.Allowed a) (hf : sys.MapsFrame a) :
    Owned start { sys with tables := (sys.tables.step a).2 } := by
  have hg := h.sound.grown ha
  have hdirs : ∀ p ∈ sys.tables.used, p ∉ sys.tables.dirs → p ∉ (sys.tables.step a).2.dirs := by
    intro p hu hd hd'
    rcases hg.dirs p hd' with hd' | hnew
    · exact hd hd'
    · exact hnew hu
  have htables : ∀ p ∈ sys.tables.used, (∀ pd i, ¬ sys.tables.HasTable pd i p) →
      ∀ pd i, ¬ (sys.tables.step a).2.HasTable pd i p := by
    intro p hu ht pd i ht'
    rcases hg.tables pd i p ht' with ht' | hnew
    · exact ht pd i ht'
    · exact hnew hu
  refine {
    sound := (h.sound.step ha).1
    synced := h.synced
    logged := hg.logged h.logged
    frame := ?_
    mapped := ?_
    once := ?_
    kept := ?_ }
  · intro k hk
    obtain ⟨hu, hd, hi, ht⟩ := h.frame k hk
    exact ⟨hg.used hu, hdirs k hu hd, hg.init ▸ hi, htables k hu ht⟩
  · intro pd hpd va hva k hk
    rcases h.sound.step_mapped ha hpd hva hk with ⟨hpd, hk⟩ | ⟨upage, writable, page, rfl, -⟩
    · exact h.mapped pd hpd va hva k hk
    · exact hf.1
  · intro pd hpd va hva pd' hpd' va' hva' k hk hk'
    rcases h.sound.step_mapped ha hpd hva hk with ⟨hd, hm⟩ | ⟨upage, writable, page, rfl, hpage⟩ <;>
      rcases h.sound.step_mapped ha hpd' hva' hk' with ⟨hd', hm'⟩ | ⟨upage', writable', page', he, hpage'⟩
    · exact h.once pd hd va hva pd' hd' va' hva' k hm hm'
    · subst he
      obtain ⟨rfl, hp⟩ := hf.2 pd hd va hva hm
      exact ⟨rfl, hp.trans hpage'.symm⟩
    · obtain ⟨rfl, hp⟩ := hf.2 pd' hd' va' hva' hm'
      exact ⟨rfl, hpage.trans hp.symm⟩
    · cases he
      exact ⟨rfl, hpage.trans hpage'.symm⟩
  · intro p hp
    obtain ⟨hu, hd, ht, hf⟩ := h.kept p hp
    exact ⟨hg.used hu, hdirs p hu hd, htables p hu ht, hf⟩

end System

namespace State

variable {kernel : Nat → Word} {s : State} {pd i pt : Nat} {u : Finset Nat}

theorem hasTable_used : HasTable { s with used := u } pd i pt ↔ s.HasTable pd i pt :=
  ⟨fun h ↦ ⟨h.dir, h.user, h.page, h.word⟩, fun h ↦ ⟨h.dir, h.user, h.page, h.word⟩⟩

theorem Sound.withUsed (hs : Sound kernel s) (hinit : s.initPageDir ∈ u) (hdirs : ∀ pd ∈ s.dirs, pd ∈ u)
    (htables : ∀ pd i pt, s.HasTable pd i pt → pt ∈ u) : Sound kernel { s with used := u } where
  blank := hs.blank
  initPage := hs.initPage
  initUsed := hinit
  initKept := hs.initKept
  dirPage pd hpd := ⟨(hs.dirPage pd hpd).1, hdirs pd hpd, (hs.dirPage pd hpd).2.2⟩
  half := hs.half
  table pd hpd i hi hne := by
    obtain ⟨pt, hpt⟩ := hs.table pd hpd i hi hne
    exact ⟨pt, hasTable_used.mpr hpt⟩
  tablePage pd i pt h := by
    have h := hasTable_used.mp h
    exact ⟨htables pd i pt h, (hs.tablePage pd i pt h).2⟩
  distinct pd i pd' i' pt h h' := hs.distinct pd i pd' i' pt (hasTable_used.mp h) (hasTable_used.mp h')

theorem logged_used (h : s.Logged) : Logged { s with used := u } := by
  intro pd pt
  simp only [hasTable_used]
  exact h pd pt

end State

namespace System

variable {start : State} {sys sys' : System} {op : Op}

variable {kpage : Nat} {tid : Tid}

theorem isFrame_registerFrame {x : Indexed} {upage k : Nat} :
    IsFrame (x.registerFrame kpage upage tid) k ↔ k = kpage ∨ IsFrame x k := by
  constructor
  · rintro ⟨e, he, rfl⟩
    rcases mem_append.mp he with he | he
    · exact .inr ⟨e, he, rfl⟩
    · rw [mem_singleton] at he
      exact .inl (he ▸ rfl)
  · rintro (rfl | ⟨e, he, rfl⟩)
    · exact ⟨_, mem_append_right _ (mem_singleton_self _), rfl⟩
    · exact ⟨e, mem_append_left _ he, rfl⟩

theorem Owned.allocFrame {upage : Nat} (h : Owned start sys) (hfresh : kpage ∉ sys.tables.used) :
    Owned start { sys with
      tables := { sys.tables with used := insert kpage sys.tables.used }
      frames := sys.frames.registerFrame kpage upage tid } := by
  have hs := h.sound
  have hnew : ∀ e ∈ sys.frames.memory.frameTable, e.kpage ≠ kpage := fun e he hk ↦
    hfresh (hk ▸ (h.frame e.kpage ⟨e, he, rfl⟩).1)
  refine {
    sound := hs.withUsed (Finset.mem_insert_of_mem hs.initUsed)
      (fun pd hpd ↦ Finset.mem_insert_of_mem (hs.dirPage pd hpd).2.1)
      (fun pd i pt ht ↦ Finset.mem_insert_of_mem (hs.tablePage pd i pt ht).1)
    synced := Indexed.step_synced (a := .register kpage upage tid) h.synced hnew rfl
    logged := logged_used h.logged
    frame := ?_
    mapped := fun pd hpd va hva k hk ↦ isFrame_registerFrame.mpr (.inr (h.mapped pd hpd va hva k hk))
    once := h.once
    kept := ?_ }
  · intro k hk
    simp only [hasTable_used]
    rcases isFrame_registerFrame.mp hk with rfl | hk
    · exact ⟨Finset.mem_insert_self _ _, fun hd ↦ hfresh (hs.dirPage k hd).2.1,
        fun hi ↦ hfresh (hi ▸ hs.initUsed), fun pd i ht ↦ hfresh (hs.tablePage pd i k ht).1⟩
    · obtain ⟨hu, hrest⟩ := h.frame k hk
      exact ⟨Finset.mem_insert_of_mem hu, hrest⟩
  · intro p hp
    obtain ⟨hu, hd, ht, hf⟩ := h.kept p hp
    simp only [hasTable_used]
    refine ⟨Finset.mem_insert_of_mem hu, hd, ht, fun hf' ↦ ?_⟩
    rcases isFrame_registerFrame.mp hf' with rfl | hf'
    · exact hfresh hu
    · exact hf hf'

theorem Owned.freeFrame (h : Owned start sys) (hframe : IsFrame sys.frames kpage)
    (hun : ∀ pd ∈ sys.tables.dirs, ∀ va < physBase, sys.tables.mapped pd va ≠ some kpage)
    (hfree : sys.freeFrame kpage = some sys') : Owned start sys' := by
  have hs := h.sound
  obtain ⟨hu, hd, hi, ht⟩ := h.frame kpage hframe
  obtain ⟨x, hx, rfl⟩ := map_eq_some_iff.mp hfree
  have hiff : ∀ k, IsFrame x k ↔ IsFrame sys.frames k ∧ k ≠ kpage := by
    intro k
    constructor
    · rintro ⟨e, he, rfl⟩
      obtain ⟨he, hne⟩ := (h.synced.freed hx e).mp he
      exact ⟨⟨e, he, rfl⟩, hne⟩
    · rintro ⟨⟨e, he, rfl⟩, hne⟩
      exact ⟨e, (h.synced.freed hx e).mpr ⟨he, hne⟩, rfl⟩
  have hsync : x.Synced := Indexed.step_synced (a := .free kpage) h.synced trivial hx
  refine {
    sound := hs.withUsed (Finset.mem_erase.mpr ⟨symm hi, hs.initUsed⟩)
      (fun pd hpd ↦ Finset.mem_erase.mpr ⟨fun he ↦ hd (he ▸ hpd), (hs.dirPage pd hpd).2.1⟩)
      (fun pd i pt hpt ↦ Finset.mem_erase.mpr ⟨fun he ↦ ht pd i (he ▸ hpt), (hs.tablePage pd i pt hpt).1⟩)
    synced := hsync
    logged := logged_used h.logged
    frame := ?_
    mapped := fun pd hpd va hva k hk ↦
      (hiff k).mpr ⟨h.mapped pd hpd va hva k hk, fun he ↦ hun pd hpd va hva (he ▸ hk)⟩
    once := h.once
    kept := ?_ }
  · intro k hk
    obtain ⟨hk, hne⟩ := (hiff k).mp hk
    obtain ⟨hu', hd', hi', ht'⟩ := h.frame k hk
    refine ⟨Finset.mem_erase.mpr ⟨hne, hu'⟩, hd', hi', fun pd i hpt ↦ ht' pd i (hasTable_used.mp hpt)⟩
  · intro p hp
    obtain ⟨hu', hd', ht', hf'⟩ := h.kept p hp
    exact ⟨Finset.mem_erase.mpr ⟨fun he ↦ hf' (he ▸ hframe), hu'⟩, hd',
      fun pd i hpt ↦ ht' pd i (hasTable_used.mp hpt), fun hf ↦ hf' ((hiff p).mp hf).1⟩

theorem Owned.step (h : Owned start sys) (ha : sys.Allowed op) (hstep : sys.step op = some sys') :
    Owned start sys' := by
  cases op with
  | call a =>
    cases hstep
    exact h.call ha.1 ha.2
  | allocFrame kpage upage tid =>
    cases hstep
    exact h.allocFrame ha.2
  | rewrite x =>
    cases hstep
    obtain ⟨hsync, hsame⟩ := ha
    exact {
      sound := h.sound
      synced := hsync
      logged := h.logged
      frame := fun k hk ↦ h.frame k ((hsame k).mp hk)
      mapped := fun pd hpd va hva k hk ↦ (hsame k).mpr (h.mapped pd hpd va hva k hk)
      once := h.once
      kept := fun p hp ↦ ⟨(h.kept p hp).1, (h.kept p hp).2.1, (h.kept p hp).2.2.1,
        fun hf ↦ (h.kept p hp).2.2.2 ((hsame p).mp hf)⟩ }
  | freeFrame kpage => exact h.freeFrame ha.1 ha.2 hstep

def freeEntry (pt : Nat) (sys : System) (j : Nat) : Option System :=
  let pte := sys.tables.mem (pt + 4 * j)
  if pte &&& pteP ≠ 0#32 then sys.freeFrame (ptov (pte &&& pteAddr)) else some sys

def freeTable (pd : Nat) (sys : System) (i : Nat) : Option System :=
  let pde := sys.tables.mem (pd + 4 * i)
  if pde &&& pteP ≠ 0#32 then
    let pt := ptov (pde &&& pteAddr)
    ((List.range 1024).foldlM (freeEntry pt) sys).map (·.freePage pt)
  else some sys

def destroy (sys : System) (pd : Nat) : Option System :=
  ((List.range userPdes).foldlM (freeTable pd) sys).map (·.freePage pd)

/-- What `destroy` gives back: with `free_frame`, or with `free_page`. -/
inductive Release
  | frame (kpage : Nat)
  | page (addr : Nat)
  deriving DecidableEq

def Release.addr : Release → Nat
  | .frame kpage => kpage
  | .page p => p

def release (sys : System) : Release → Option System
  | .frame kpage => sys.freeFrame kpage
  | .page p => some (sys.freePage p)

def entryReleases (mem : Nat → Word) (pt j : Nat) : List Release :=
  match decode (mem (pt + 4 * j)) with
  | none => []
  | some e => [.frame e.kpage]

def tableReleases (mem : Nat → Word) (pd i : Nat) : List Release :=
  if mem (pd + 4 * i) &&& pteP ≠ 0#32 then
    (List.range 1024).flatMap (entryReleases mem (ptov (mem (pd + 4 * i) &&& pteAddr))) ++
      [.page (ptov (mem (pd + 4 * i) &&& pteAddr))]
  else []

def releases (mem : Nat → Word) (pd : Nat) : List Release :=
  (List.range userPdes).flatMap (tableReleases mem pd) ++ [.page pd]

section Loops

variable {pd pt : Nat} {l : List Release}

theorem release_mem {r : Release} (h : sys.release r = some sys') : sys'.tables.mem = sys.tables.mem := by
  cases r with
  | frame kpage =>
    obtain ⟨x, -, rfl⟩ := map_eq_some_iff.mp h
    rfl
  | page p =>
    cases h
    rfl

theorem foldlM_release_mem (h : l.foldlM release sys = some sys') : sys'.tables.mem = sys.tables.mem := by
  induction l generalizing sys with
  | nil =>
    cases h
    rfl
  | cons r l ih =>
    obtain ⟨mid, hmid, hrest⟩ := bind_eq_some_iff.mp h
    exact (ih hrest).trans (release_mem hmid)

theorem foldlM_flatMap {α : Type*} {turn : System → α → Option System} {f : (Nat → Word) → α → List Release}
    (hturn : ∀ sys x, turn sys x = (f sys.tables.mem x).foldlM release sys) (xs : List α) :
    xs.foldlM turn sys = (xs.flatMap (f sys.tables.mem)).foldlM release sys := by
  induction xs generalizing sys with
  | nil => rfl
  | cons x xs ih =>
    rw [foldlM_cons, flatMap_cons, foldlM_append, hturn]
    cases hmid : (f sys.tables.mem x).foldlM release sys with
    | none => rfl
    | some mid =>
      change xs.foldlM turn mid = (xs.flatMap (f sys.tables.mem)).foldlM release mid
      rw [ih, foldlM_release_mem hmid]

theorem freeEntry_eq (sys : System) (j : Nat) :
    freeEntry pt sys j = (entryReleases sys.tables.mem pt j).foldlM release sys := by
  simp only [freeEntry, entryReleases, decode]
  by_cases hp : sys.tables.mem (pt + 4 * j) &&& pteP = 0#32
  · simp only [hp]
    rfl
  · simp only [hp, ne_eq, if_false, foldlM_cons, foldlM_nil, bind_pure]
    rfl

theorem freeTable_eq (sys : System) (i : Nat) :
    freeTable pd sys i = (tableReleases sys.tables.mem pd i).foldlM release sys := by
  have hloop : ∀ pt, (range 1024).foldlM (freeEntry pt) sys =
      ((range 1024).flatMap (entryReleases sys.tables.mem pt)).foldlM release sys := fun pt ↦
    foldlM_flatMap (f := fun mem ↦ entryReleases mem pt) freeEntry_eq _
  simp only [freeTable, tableReleases]
  by_cases hp : sys.tables.mem (pd + 4 * i) &&& pteP ≠ 0#32
  · rw [if_pos hp, if_pos hp, foldlM_append, ← hloop]
    cases (range 1024).foldlM (freeEntry (ptov _)) sys <;> rfl
  · rw [if_neg hp, if_neg hp]
    rfl

theorem destroy_eq : sys.destroy pd = (releases sys.tables.mem pd).foldlM release sys := by
  have hloop : (range userPdes).foldlM (freeTable pd) sys =
      ((range userPdes).flatMap (tableReleases sys.tables.mem pd)).foldlM release sys :=
    foldlM_flatMap (f := fun mem ↦ tableReleases mem pd) freeTable_eq _
  rw [destroy, releases, foldlM_append, ← hloop]
  cases (range userPdes).foldlM (freeTable pd) sys <;> rfl

structure Done (l : List Release) (sys sys' : System) : Prop where
  tables : sys'.tables = { sys.tables with used := sys.tables.used \ (l.map Release.addr).toFinset }
  freed : sys'.freed = (l.map Release.addr).reverse ++ sys.freed
  frames : ∀ e, e ∈ sys'.frames.memory.frameTable ↔
    e ∈ sys.frames.memory.frameTable ∧ Release.frame e.kpage ∉ l
  synced : sys'.frames.Synced

theorem Done.nil (h : sys.frames.Synced) : Done [] sys sys := by
  refine ⟨?_, rfl, fun e ↦ ?_, h⟩
  · simp
  · simp

theorem Done.one {r : Release} (h : sys.frames.Synced) :
    ∃ sys', sys.release r = some sys' ∧ Done [r] sys sys' := by
  have hused : ∀ p, sys.tables.used.erase p = sys.tables.used \ {p} := fun p ↦ Finset.erase_eq _ _
  cases r with
  | frame kpage =>
    obtain ⟨x, hx, hsync, -⟩ := h.freeFrame kpage
    refine ⟨_, by rw [release, freeFrame, hx]; rfl, ?_, rfl, fun e ↦ ?_, hsync⟩
    · simp only [freePage, hused, map_cons, map_nil, toFinset_cons, toFinset_nil,
        insert_empty_eq, Release.addr]
    · refine (h.freed hx e).trans (and_congr_right fun _ ↦ not_congr ?_)
      simp
  | page p =>
    refine ⟨_, rfl, ?_, rfl, fun e ↦ ?_, h⟩
    · simp only [freePage, hused, map_cons, map_nil, toFinset_cons, toFinset_nil,
        insert_empty_eq, Release.addr]
    · simp [freePage]

theorem Done.trans {l' : List Release} {sys'' : System} (h : Done l sys sys') (h' : Done l' sys' sys'') :
    Done (l ++ l') sys sys'' := by
  refine ⟨?_, ?_, fun e ↦ ?_, h'.synced⟩
  · rw [h'.tables, h.tables]
    simp [sdiff_sdiff_left]
  · rw [h'.freed, h.freed, map_append, reverse_append, append_assoc]
  · rw [h'.frames, h.frames, mem_append, not_or, and_assoc]

theorem foldlM_release (l : List Release) (h : sys.frames.Synced) :
    ∃ sys', l.foldlM release sys = some sys' ∧ Done l sys sys' := by
  induction l generalizing sys with
  | nil => exact ⟨sys, rfl, .nil h⟩
  | cons r l ih =>
    obtain ⟨mid, hmid, hd⟩ := Done.one h
    obtain ⟨sys', hrest, hd'⟩ := ih hd.synced
    exact ⟨sys', by rw [foldlM_cons, hmid]; exact hrest, hd.trans hd'⟩

end Loops

section Exact

variable {kernel : Nat → Word} {pd i pt : Nat}

/-- The first address of page `j` of directory entry `i`. -/
def pageAddr (i j : Nat) : Nat := i * 2 ^ 22 + j * 2 ^ 12

variable {j p : Nat} {r : Release}

theorem pdeIdx_pageAddr (hj : j < 1024) : pdeIdx (pageAddr i j) = i := by
  simp only [pdeIdx, pageAddr]
  omega

theorem pteIdx_pageAddr (hj : j < 1024) : pteIdx (pageAddr i j) = j := by
  simp only [pteIdx, pageAddr]
  omega

theorem pageAddr_lt (hi : i < userPdes) (hj : j < 1024) : pageAddr i j < physBase := by
  simp only [userPdes, pageAddr] at *
  omega

theorem pageAddr_page {i' j' : Nat} (hj : j < 1024) (hj' : j' < 1024)
    (h : pageAddr i j / pgsize = pageAddr i' j' / pgsize) : i = i' ∧ j = j' := by
  obtain ⟨hd, hp⟩ := Pagedir.idx_eq_iff.mpr h
  rw [pdeIdx_pageAddr hj, pdeIdx_pageAddr hj'] at hd
  rw [pteIdx_pageAddr hj, pteIdx_pageAddr hj'] at hp
  exact ⟨hd, hp⟩

theorem mapped_pageAddr (ht : sys.tables.HasTable pd i pt) (hj : j < 1024) :
    sys.tables.mapped pd (pageAddr i j) = (decode (sys.tables.mem (pt + 4 * j))).map (·.kpage) := by
  have ht' : sys.tables.HasTable pd (pdeIdx (pageAddr i j)) pt := by
    rw [pdeIdx_pageAddr hj]
    exact ht
  rw [mapped, ht'.pte_eq, pteIdx_pageAddr hj]

theorem mem_entryReleases {mem : Nat → Word} :
    r ∈ entryReleases mem pt j ↔ ∃ k, (decode (mem (pt + 4 * j))).map (·.kpage) = some k ∧ r = .frame k := by
  unfold entryReleases
  cases decode _ with
  | none => simp
  | some e => simp

theorem mem_tableReleases (hs : Sound kernel sys.tables) (hpd : pd ∈ sys.tables.dirs)
    (hi : i < userPdes) : r ∈ tableReleases sys.tables.mem pd i ↔ ∃ pt, sys.tables.HasTable pd i pt ∧
        (r = .page pt ∨ ∃ j < 1024, ∃ k, sys.tables.mapped pd (pageAddr i j) = some k ∧ r = .frame k) := by
  unfold tableReleases
  constructor
  · intro h
    split at h
    · next hp =>
      obtain ⟨pt, ht⟩ := hs.table pd hpd i hi fun hz ↦ hp (by rw [hz]; decide)
      rw [ht.word, tableWord_addr ht.page, mem_append, mem_singleton, mem_flatMap] at h
      refine ⟨pt, ht, ?_⟩
      rcases h with ⟨j, hj, h⟩ | h
      · obtain ⟨k, hk, rfl⟩ := mem_entryReleases.mp h
        rw [mem_range] at hj
        exact .inr ⟨j, hj, k, (mapped_pageAddr ht hj).trans hk, rfl⟩
      · exact .inl h
    · cases h
  · rintro ⟨pt, ht, h⟩
    rw [ht.word, if_pos (tableWord_present ht.page), tableWord_addr ht.page, mem_append,
      mem_singleton, mem_flatMap]
    rcases h with rfl | ⟨j, hj, k, hk, rfl⟩
    · exact .inr rfl
    · rw [mapped_pageAddr ht hj] at hk
      exact .inl ⟨j, mem_range.mpr hj, mem_entryReleases.mpr ⟨k, hk, rfl⟩⟩

variable (h : Owned start sys) (hpd : pd ∈ sys.tables.dirs)

include h hpd

theorem Owned.mem_releases : r ∈ releases sys.tables.mem pd ↔
    r = .page pd ∨ (∃ pt, (pd, pt) ∈ sys.tables.created ∧ r = .page pt) ∨
      ∃ va < physBase, ∃ k, sys.tables.mapped pd va = some k ∧ r = .frame k := by
  rw [releases, mem_append, mem_singleton, mem_flatMap]
  constructor
  · rintro (⟨i, hi, hr⟩ | rfl)
    · rw [mem_range] at hi
      obtain ⟨pt, ht, rfl | ⟨j, hj, k, hk, rfl⟩⟩ := (mem_tableReleases h.sound hpd hi).mp hr
      · exact .inr (.inl ⟨pt, (h.logged pd pt).mpr ⟨i, ht⟩, rfl⟩)
      · exact .inr (.inr ⟨_, pageAddr_lt hi hj, k, hk, rfl⟩)
    · exact .inl rfl
  · rintro (rfl | ⟨pt, hpt, rfl⟩ | ⟨va, hva, k, hk, rfl⟩)
    · exact .inr rfl
    · obtain ⟨i, ht⟩ := (h.logged pd pt).mp hpt
      exact .inl ⟨i, mem_range.mpr ht.user, (mem_tableReleases h.sound hpd ht.user).mpr ⟨pt, ht, .inl rfl⟩⟩
    · have hi := pdeIdx_lt hva
      have hnz : sys.tables.mem (pd + 4 * pdeIdx va) ≠ 0#32 := by
        intro hz
        rw [State.mapped, pte_none hz] at hk
        cases hk
      obtain ⟨pt, ht⟩ := h.sound.table pd hpd _ hi hnz
      have hpage : sys.tables.mapped pd (pageAddr (pdeIdx va) (pteIdx va)) = some k := by
        rw [mapped_pageAddr ht pteIdx_lt, ← ht.pte_eq]
        exact hk
      exact .inl ⟨_, mem_range.mpr hi, (mem_tableReleases h.sound hpd hi).mpr
        ⟨pt, ht, .inr ⟨_, pteIdx_lt, k, hpage, rfl⟩⟩⟩

theorem Owned.pageAddr_inj {i' j' k : Nat} (hi : i < userPdes) (hj : j < 1024) (hi' : i' < userPdes)
    (hj' : j' < 1024) (hk : sys.tables.mapped pd (pageAddr i j) = some k)
    (hk' : sys.tables.mapped pd (pageAddr i' j') = some k) : i = i' ∧ j = j' :=
  pageAddr_page hj hj' (h.once pd hpd _ (pageAddr_lt hi hj) pd hpd _ (pageAddr_lt hi' hj') k hk hk').2

theorem Owned.nodup_tableReleases (hi : i < userPdes) : (tableReleases sys.tables.mem pd i).Nodup := by
  unfold tableReleases
  split
  · next hp =>
    obtain ⟨pt, ht⟩ := h.sound.table pd hpd i hi fun hz ↦ hp (by rw [hz]; decide)
    rw [ht.word, tableWord_addr ht.page, nodup_append]
    refine ⟨nodup_flatMap.mpr ⟨fun j _ ↦ ?_, ?_⟩, nodup_singleton _, ?_⟩
    · unfold entryReleases
      split
      · exact nodup_nil
      · exact nodup_singleton _
    · refine nodup_range.pairwise_of_forall_ne fun j hj j' hj' hne r hr hr' ↦ hne ?_
      obtain ⟨k, hk, rfl⟩ := mem_entryReleases.mp hr
      obtain ⟨k', hk', he⟩ := mem_entryReleases.mp hr'
      cases he
      rw [mem_range] at hj hj'
      rw [← mapped_pageAddr ht hj] at hk
      rw [← mapped_pageAddr ht hj'] at hk'
      exact (h.pageAddr_inj hpd hi hj hi hj' hk hk').2
    · intro r hr r' hr' he
      obtain ⟨j, -, hr⟩ := mem_flatMap.mp hr
      obtain ⟨k, -, rfl⟩ := mem_entryReleases.mp hr
      rw [mem_singleton] at hr'
      rw [hr'] at he
      cases he
  · exact nodup_nil

theorem Owned.nodup_releases : (releases sys.tables.mem pd).Nodup := by
  rw [releases, nodup_append]
  refine ⟨nodup_flatMap.mpr ⟨fun i hi ↦ h.nodup_tableReleases hpd (mem_range.mp hi), ?_⟩,
    nodup_singleton _, ?_⟩
  · refine nodup_range.pairwise_of_forall_ne fun i hi i' hi' hne r hr hr' ↦ hne ?_
    rw [mem_range] at hi hi'
    obtain ⟨pt, ht, rfl | ⟨j, hj, k, hk, rfl⟩⟩ := (mem_tableReleases h.sound hpd hi).mp hr <;>
      obtain ⟨pt', ht', he | ⟨j', hj', k', hk', he⟩⟩ := (mem_tableReleases h.sound hpd hi').mp hr'
    · cases he
      exact (h.sound.distinct _ _ _ _ _ ht ht').2
    · cases he
    · cases he
    · cases he
      exact (h.pageAddr_inj hpd hi hj hi' hj' hk hk').1
  · intro r hr r' hr' he
    obtain ⟨i, hi, hr⟩ := mem_flatMap.mp hr
    rw [mem_singleton] at hr'
    obtain ⟨pt, ht, rfl | ⟨j, hj, k, hk, rfl⟩⟩ := (mem_tableReleases h.sound hpd (mem_range.mp hi)).mp hr
    · rw [hr'] at he
      cases he
      exact (h.sound.tablePage _ _ _ ht).2.1 hpd
    · rw [hr'] at he
      cases he

theorem Owned.nodup_addrs : ((releases sys.tables.mem pd).map Release.addr).Nodup := by
  -- A frame is neither the directory nor one of its tables.
  have hframe : ∀ va < physBase, ∀ k p, sys.tables.mapped pd va = some k →
      Release.page p ∈ releases sys.tables.mem pd → k ≠ p := by
    rintro va hva k p hk hp rfl
    obtain ⟨-, hd, -, ht⟩ := h.frame k (h.mapped pd hpd va hva k hk)
    rcases (h.mem_releases hpd).mp hp with he | ⟨pt, hpt, he⟩ | ⟨_, _, _, _, he⟩
    · cases he
      exact hd hpd
    · cases he
      obtain ⟨i, hi⟩ := (h.logged pd k).mp hpt
      exact ht pd i hi
    · cases he
  refine Nodup.map_on (fun r hr r' hr' he ↦ ?_) (h.nodup_releases hpd)
  cases r with
  | frame k =>
    cases r' with
    | frame k' => exact congrArg _ he
    | page p =>
      rcases (h.mem_releases hpd).mp hr with hr | ⟨_, _, hr⟩ | ⟨va, hva, _, hk, hr⟩ <;> cases hr
      exact absurd he (hframe va hva k p hk hr')
  | page p =>
    cases r' with
    | frame k' =>
      rcases (h.mem_releases hpd).mp hr' with hr' | ⟨_, _, hr'⟩ | ⟨va, hva, _, hk, hr'⟩ <;> cases hr'
      exact absurd he.symm (hframe va hva k' p hk hr)
    | page p' => exact congrArg _ he

theorem Owned.mem_addrs : p ∈ (releases sys.tables.mem pd).map Release.addr ↔ sys.tables.Holds pd p := by
  rw [List.mem_map]
  constructor
  · rintro ⟨r, hr, rfl⟩
    rcases (h.mem_releases hpd).mp hr with rfl | ⟨pt, hpt, rfl⟩ | ⟨va, hva, k, hk, rfl⟩
    · exact .inl rfl
    · exact .inr (.inl hpt)
    · exact .inr (.inr ⟨va, hva, hk⟩)
  · rintro (rfl | hpt | ⟨va, hva, hk⟩)
    · exact ⟨.page p, (h.mem_releases hpd).mpr (.inl rfl), rfl⟩
    · exact ⟨.page p, (h.mem_releases hpd).mpr (.inr (.inl ⟨p, hpt, rfl⟩)), rfl⟩
    · exact ⟨.frame p, (h.mem_releases hpd).mpr (.inr (.inr ⟨va, hva, p, hk, rfl⟩)), rfl⟩

theorem Owned.used_of_holds (hp : sys.tables.Holds pd p) : p ∈ sys.tables.used := by
  rcases hp with rfl | hpt | ⟨va, hva, hk⟩
  · exact (h.sound.dirPage p hpd).2.1
  · obtain ⟨i, ht⟩ := (h.logged pd p).mp hpt
    exact (h.sound.tablePage pd i p ht).1
  · exact (h.frame p (h.mapped pd hpd va hva p hk)).1

theorem Owned.holds_inj {pd' : Nat} (hpd' : pd' ∈ sys.tables.dirs) (hp : sys.tables.Holds pd p)
    (hp' : sys.tables.Holds pd' p) : pd = pd' := by
  have hdir : ∀ q ∈ sys.tables.dirs, ∀ q', (q', q) ∉ sys.tables.created := by
    intro q hq q' hc
    obtain ⟨i, ht⟩ := (h.logged q' q).mp hc
    exact (h.sound.tablePage q' i q ht).2.1 hq
  have hframe : ∀ q ∈ sys.tables.dirs, ∀ va < physBase, ∀ k, sys.tables.mapped q va = some k →
      k ∉ sys.tables.dirs ∧ ∀ q', (q', k) ∉ sys.tables.created := by
    intro q hq va hva k hk
    obtain ⟨-, hd, -, ht⟩ := h.frame k (h.mapped q hq va hva k hk)
    refine ⟨hd, fun q' hc ↦ ?_⟩
    obtain ⟨i, hi⟩ := (h.logged q' k).mp hc
    exact ht q' i hi
  rcases hp with rfl | hpt | ⟨va, hva, hk⟩ <;> rcases hp' with he | hpt' | ⟨va', hva', hk'⟩
  · exact he
  · exact absurd hpt' (hdir p hpd pd')
  · exact absurd hpd (hframe pd' hpd' va' hva' p hk').1
  · exact absurd hpt (he ▸ hdir pd' hpd' pd)
  · obtain ⟨i, ht⟩ := (h.logged pd p).mp hpt
    obtain ⟨i', ht'⟩ := (h.logged pd' p).mp hpt'
    exact (h.sound.distinct _ _ _ _ _ ht ht').1
  · exact absurd hpt ((hframe pd' hpd' va' hva' p hk').2 pd)
  · exact absurd (he ▸ hpd') (hframe pd hpd va hva p hk).1
  · exact absurd hpt' ((hframe pd hpd va hva p hk).2 pd')
  · exact (h.once pd hpd va hva pd' hpd' va' hva' p hk hk').1

theorem Owned.kept_of_holds (hp : p ∈ start.used) : ¬ sys.tables.Holds pd p := by
  obtain ⟨-, hd, ht, hf⟩ := h.kept p hp
  rintro (rfl | hpt | ⟨va, hva, hk⟩)
  · exact hd hpd
  · obtain ⟨i, hi⟩ := (h.logged pd p).mp hpt
    exact ht pd i hi
  · exact hf (h.mapped pd hpd va hva p hk)

end Exact

/-- What `destroy` has to do. `start` is the state after booting, in which the initial directory and
the page tables of the kernel are in use. -/
structure Released (start : State) (sys sys' : System) (pd : Nat) : Prop where
  freed : ∃ l, sys'.freed = l ++ sys.freed ∧ l.Nodup ∧ ∀ p, p ∈ l ↔ sys.tables.Holds pd p
  used : ∀ p, p ∈ sys'.tables.used ↔ p ∈ sys.tables.used ∧ ¬ sys.tables.Holds pd p
  wereUsed : ∀ p, sys.tables.Holds pd p → p ∈ sys.tables.used
  frames : ∀ e, e ∈ sys'.frames.memory.frameTable ↔ e ∈ sys.frames.memory.frameTable ∧
    ∀ va < physBase, sys.tables.mapped pd va ≠ some e.kpage
  index : ∀ k, (sys'.frames.kpageIndex k).isSome ↔ IsFrame sys'.frames k
  others : ∀ pd' ∈ sys.tables.dirs, pd' ≠ pd → ∀ p, sys.tables.Holds pd' p → p ∈ sys'.tables.used
  shared : ∀ p ∈ start.used, p ∈ sys'.tables.used

/-- `destroy` gives back exactly the directory, its page tables and the frames mapped in its user half. -/
theorem destroy_exact {start : System} {m : Memory} {pd : Nat} (hstart : Booted start.tables)
    (hlog : start.tables.created = []) (hframes : start.frames = Indexed.init m)
    (hrun : Run step Allowed start sys) (hpd : pd ∈ sys.tables.dirs) :
    ∃ sys', sys.destroy pd = some sys' ∧ Released start.tables sys sys' pd := by
  have hno : ∀ q, q ∉ start.tables.dirs := fun q ↦ hstart.noDirs ▸ Finset.notMem_empty q
  have hnoFrame : ∀ k, ¬ IsFrame start.frames k := by
    rintro k ⟨e, he, -⟩
    rw [hframes] at he
    cases he
  have hown : Owned start.tables start := {
    sound := hstart.sound
    synced := by
      rw [hframes]
      exact Rxv6.Lib.KeyIndex.Indexes.nil _
    logged := by
      intro q pt
      rw [hlog]
      refine ⟨fun hc ↦ absurd hc not_mem_nil, ?_⟩
      rintro ⟨i, ht⟩
      exact absurd ht.dir (hno q)
    frame := fun k hk ↦ absurd hk (hnoFrame k)
    mapped := fun q hq ↦ absurd hq (hno q)
    once := fun q hq ↦ absurd hq (hno q)
    kept := fun p hp ↦ ⟨hp, hno p, fun q _ ht ↦ absurd ht.dir (hno q), hnoFrame p⟩ }
  have h : Owned start.tables sys := hrun.invariant _ (fun _ _ _ h ha hstep ↦ h.step ha hstep) hown
  obtain ⟨sys', hdone, hd⟩ := foldlM_release _ h.synced
  have hused : ∀ p, p ∈ sys'.tables.used ↔ p ∈ sys.tables.used ∧ ¬ sys.tables.Holds pd p := by
    intro p
    rw [hd.tables, Finset.mem_sdiff, List.mem_toFinset, h.mem_addrs hpd]
  refine ⟨sys', destroy_eq.trans hdone, ?_, hused, fun p ↦ h.used_of_holds hpd, ?_, ?_, ?_, ?_⟩
  · refine ⟨_, hd.freed, nodup_reverse.mpr (h.nodup_addrs hpd), fun p ↦ ?_⟩
    rw [mem_reverse, h.mem_addrs hpd]
  · intro e
    rw [hd.frames e, h.mem_releases hpd]
    refine and_congr_right fun _ ↦ ⟨fun hn va hva hk ↦ hn (.inr (.inr ⟨va, hva, _, hk, rfl⟩)), ?_⟩
    rintro hn (he | ⟨_, _, he⟩ | ⟨va, hva, k, hk, he⟩)
    · cases he
    · cases he
    · cases he
      exact hn va hva hk
  · exact fun k ↦ hd.synced.isSome_iff
  · intro pd' hpd' hne p hp
    exact (hused p).mpr ⟨h.used_of_holds hpd' hp, fun hp' ↦ hne (h.holds_inj hpd hpd' hp' hp).symm⟩
  · intro p hp
    exact (hused p).mpr ⟨(h.kept p hp).1, h.kept_of_holds hpd hp⟩

def bare : System := ⟨machine, .init Indexed.blankMemory, []⟩

/-- A directory is made, a frame is allocated and mapped, and the directory is destroyed. -/
theorem destroy_exact_oneFrame : ∃ sys sys', Run step Allowed bare sys ∧
    sys.destroy (physBase + 1 * pgsize) = some sys' ∧ Released machine sys sys' (physBase + 1 * pgsize) := by
  have hpage : ∀ n < 2 ^ 18, IsPage (physBase + n * pgsize) := fun n hn ↦ isPage_physBase_add hn
  have hdir : physBase + 1 * pgsize ∈ (machine.step makeDir).2.dirs := Finset.mem_insert_self _ _
  have h₁ : bare.Allowed (.call makeDir) := by
    refine ⟨?_, trivial⟩
    rintro p ⟨⟩
    exact ⟨hpage 1 (by decide), by decide⟩
  have r₁ : Run step Allowed bare _ := .snoc (.refl bare) h₁ rfl
  have h₂ : System.Allowed { bare with tables := (machine.step makeDir).2 }
      (.allocFrame (physBase + 3 * pgsize) 0x8048000 1) := ⟨hpage 3 (by decide), by decide⟩
  have r₂ : Run step Allowed bare _ := .snoc r₁ h₂ rfl
  have hempty : ∀ pd ∈ (machine.step makeDir).2.dirs, ∀ va < physBase,
      (machine.step makeDir).2.mapped pd va = none := by
    intro pd hpd va hva
    obtain rfl : pd = physBase + 1 * pgsize := (Finset.mem_insert.mp hpd).resolve_right (Finset.notMem_empty pd)
    have hz := (machine_booted.sound.pte_create (hpage 1 (by decide)) (by decide) hva).1
    change (decode ((machine.create (some (physBase + 1 * pgsize))).2.pte _ va)).map _ = none
    rw [hz, decode_zero, map_none]
  have h₃ : System.Allowed { bare with
      tables := { (machine.step makeDir).2 with
        used := insert (physBase + 3 * pgsize) (machine.step makeDir).2.used }
      frames := bare.frames.registerFrame (physBase + 3 * pgsize) 0x8048000 1 } (.call mapPage) := by
    refine ⟨⟨hdir, ⟨by decide, by decide⟩, hpage 3 (by decide), ?_⟩, isFrame_registerFrame.mpr (.inl rfl), ?_⟩
    · rintro p ⟨⟩
      exact ⟨hpage 2 (by decide), by decide⟩
    · intro pd hpd va hva hk
      have hk : (machine.step makeDir).2.mapped pd va = some _ := hk
      rw [hempty pd hpd va hva] at hk
      cases hk
  have r₃ : Run step Allowed bare _ := .snoc r₂ h₃ rfl
  obtain ⟨sys', hdestroy, hrel⟩ := destroy_exact machine_booted rfl rfl r₃ (step_dirs hdir)
  exact ⟨_, sys', r₃, hdestroy, hrel⟩

end System

end Rxv6.Vm.PageTables
