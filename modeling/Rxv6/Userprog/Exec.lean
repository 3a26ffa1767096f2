import Rxv6.Ipc.Descriptors
import Rxv6.Userprog.Execute
import Rxv6.Userprog.Process

namespace Rxv6.Userprog.Exec

open Function Rxv6.Thread Rxv6.Vm Rxv6.Lib.Bitmap Rxv6.Ipc Option
open Rxv6.Userprog.Exception Rxv6.Userprog.Recovery Rxv6.Userprog.Fork Rxv6.Userprog.Process
open Rxv6.Userprog.Execute (Inodes)

/-- The paging state, the process table and the open inodes, and the fields of the calling thread
that `exec` could touch. -/
structure Caller where
  memory : Memory
  states : States
  inodes : Inodes
  brk : Nat
  fdTable : FdTable
  sigIgnore : Nat
  cwdSector : Nat

/-- The file that `filesys::open` finds: its inode, whether it can be read to its end, the
supplementary page table that its headers ask for, if they are good, and the end of its segments. -/
structure Executable where
  sector : Nat
  complete : Bool
  image : Option Image
  segmentsEnd : Option Nat

def pgRoundUp (addr : Nat) : Nat := pgRoundDown (addr + pgsize - 1)

/-- `load` for a thread whose page directory is null. `stack` is what `setup_stack` writes. -/
def load (s : Caller) (tid : Tid) (file : Option Executable) (stack : PageData) : Bool × Caller :=
  match file with
  | none => (false, s)
  | some f =>
    let s := { s with inodes := s.inodes.open f.sector }
    if ¬ f.complete then (false, { s with inodes := s.inodes.close f.sector })
    else
      match Process.load s.memory tid f.image stack with
      | (none, m) => (false, { s with memory := m, inodes := s.inodes.close f.sector })
      | (some pd, m) =>
        (true, { s with
          memory := setPagedir m tid (some pd)
          brk := (f.segmentsEnd.map pgRoundUp).getD s.brk
          inodes := s.inodes.denyWrite f.sector
          states := s.states.modify tid fun ps ↦ { ps with executableSector := some f.sector } })

def releaseExecutable (s : Caller) (tid : Tid) : Caller :=
  match (s.states.get tid).bind (·.executableSector) with
  | none => s
  | some sector =>
    { s with
      states := s.states.modify tid fun ps ↦ { ps with executableSector := none }
      inodes := (s.inodes.allowWrite sector).close sector }

/-- `sys_exec`, and whether it succeeds. -/
def sysExec (s : Caller) (tid : Tid) (file : Option Executable) (stack : PageData) : Bool × Caller :=
  let oldPd := s.memory.pagedir tid
  let s := releaseExecutable s tid
  let s := { s with
    memory := setPagedir (s.memory.withCore (destroySpt s.memory.toCore tid)) tid none }
  match load s tid file stack with
  | (true, s) =>
    (true, { s with
      memory := (oldPd.map fun pd ↦ s.memory.withCore (destroy pd s.memory.toCore)).getD s.memory
      sigIgnore := 0 })
  | (false, s) => (false, { s with memory := setPagedir s.memory tid oldPd })

/-- What the caller can observe of itself. A page in swap stands for its slot: whether the slot is
in use, and its data. -/
@[ext]
structure Observed where
  pagedir : Option Pagedir
  pages : Nat → Option PageData
  spt : Option Spt
  swapMap : Nat → Option Nat
  slots : Nat → Option (Bool × PageData)
  executableSector : Option Nat
  inodes : Inodes
  brk : Nat
  fdTable : FdTable
  sigIgnore : Nat
  cwdSector : Nat

def observe (s : Caller) (tid : Tid) : Observed where
  pagedir := s.memory.pagedir tid
  pages n := (s.memory.view.mapping tid n).map fun x ↦ s.memory.mem x.kpage
  spt := s.memory.spt tid
  swapMap := s.memory.swapMap tid
  slots n := (heldSlot s.memory.toCore tid n).map fun slot ↦
    (test s.memory.swapBitmap slot, s.memory.swapDisk slot)
  executableSector := (s.states.get tid).bind (·.executableSector)
  inodes := s.inodes
  brk := s.brk
  fdTable := s.fdTable
  sigIgnore := s.sigIgnore
  cwdSector := s.cwdSector

/-- What every state of the running system satisfies: each frame serves one page, swapped pages own
their slots, and open inodes have a count. -/
structure Valid (s : Caller) (tid : Tid) : Prop where
  wf : Wf s.memory.view
  slots : ∀ n slot, heldSlot s.memory.toCore tid n = some slot → test s.memory.swapBitmap slot = true
  inodes : ∀ sector c, s.inodes sector = some c → 0 < c.openCnt

/-- The rows of `SWAP_MAP`, the slots in use and the frames of a thread are left alone. -/
structure Spares (tid : Tid) (c c' : Core) : Prop where
  swapMap : c'.swapMap tid = c.swapMap tid
  slot : ∀ slot, test c.swapBitmap slot = true →
    c'.swapDisk slot = c.swapDisk slot ∧ test c'.swapBitmap slot = true
  mem : ∀ e ∈ c.frameTable, e.ownerTid = tid → c'.mem e.kpage = c.mem e.kpage

variable {m m' : Memory} {tid : Tid} {image : Option Image} {stack : PageData} {c : Core}

theorem Spares.refl (tid : Tid) (c : Core) : Spares tid c c :=
  ⟨rfl, fun _ h ↦ ⟨rfl, h⟩, fun _ _ _ ↦ rfl⟩

theorem foldl_unchanged {α β : Type*} {f : α → β → α} (hf : ∀ a b, f a b = a) (l : List β) (a : α) :
    l.foldl f a = a := by
  induction l with
  | nil => rfl
  | cons b l ih => rw [List.foldl_cons, hf, ih]

theorem destroy_empty (c : Core) : destroy .empty c = { c with kernelPool := c.kernelPool + 1 } := by
  rw [destroy, foldl_unchanged]
  exact fun _ _ ↦ rfl

theorem destroySpt_image {i : Image} (h : c.spt tid = some i.spt) :
    destroySpt c tid = { c with spt := update c.spt tid none } := by
  have hfold : ∀ l : List SptEntry, (∀ e ∈ l, e ∈ i.spt.entries) → l.foldl freeEntry c = c := by
    intro l
    induction l with
    | nil => exact fun _ ↦ rfl
    | cons e l ih =>
      intro hl
      have hfree : freeEntry c e = c := by
        by_cases hr : 0 < e.readBytes <;> simp [freeEntry, (i.binary e (hl e (by simp))).2, hr]
      rw [List.foldl_cons, hfree]
      exact ih fun x hx ↦ hl x (by simp [hx])
  simp only [destroySpt, h, hfold _ fun _ he ↦ he]

theorem allocs_spares {v v' : View} {upage k : Nat} {t : Tid} {o : Option FrameEntry}
    (h : v.Allocs upage t o k v') (hw : Wf v) (hatt : v.attached tid = false) :
    Spares tid v.toCore v'.toCore ∧ v'.spt tid = v.spt tid := by
  have hmem : ∀ e ∈ v.frameTable, e.ownerTid = tid → e.kpage ≠ k := by
    intro e he ho hk
    have hvictim := allocs_victim h hw he hk
    subst hvictim
    have := (allocs_attached h).2
    rw [ho, hatt] at this
    cases this
  have hdata : ∀ e ∈ v.frameTable, e.ownerTid = tid → v'.mem e.kpage = v.mem e.kpage := by
    intro e he ho
    rw [(h.allocated hw).mem, update_of_ne (hmem e he ho)]
  cases h with
  | fresh hget =>
    simp only [Core.getUserPage, map_eq_some_iff] at hget
    obtain ⟨k, -, rfl, rfl⟩ := hget
    exact ⟨⟨rfl, fun _ hslot ↦ ⟨rfl, hslot⟩, hdata⟩, rfl⟩
  | @evicted e v₁ hget hev =>
    obtain ⟨hand, c, -, hc, rfl⟩ := hev.taken
    have hne : tid ≠ e.ownerTid := by
      rintro rfl
      rw [hev.attached] at hatt
      cases hatt
    have hs := Core.saveVictim_saves hc
    exact ⟨⟨hs.swapMap tid hne, hs.slot, hdata⟩, hs.spt tid hne⟩

theorem load_spares (hw : Wf m.view) (hatt : m.pagedir tid = none) (hspt : m.spt tid = none)
    (h : Process.load m tid image stack = (none, m')) :
    Spares tid m.toCore m'.toCore ∧ m'.spt tid = none := by
  unfold Process.load at h
  split at h
  · cases h
    exact ⟨Spares.refl _ _, hspt⟩
  next i =>
    split at h
    · cases h
      exact ⟨Spares.refl _ _, hspt⟩
    · simp only [destroy_empty] at h
      set m₁ : Memory := { m with
        kernelPool := m.kernelPool - 1
        spt := update m.spt tid (some i.spt) } with hm₁
      -- the ways to fail end alike: the new table is taken out again
      have hfail : ∀ c : Core, Spares tid m.toCore c → c.spt tid = some i.spt →
          Spares tid m.toCore { destroySpt c tid with kernelPool := (destroySpt c tid).kernelPool + 1 } ∧
          (destroySpt c tid).spt tid = none := by
        intro c hc hs
        rw [destroySpt_image hs]
        exact ⟨⟨hc.swapMap, hc.slot, hc.mem⟩, update_self ..⟩
      have hw₁ : Wf m₁.view := ⟨hw.nodup, hw.used, hw.frame⟩
      have hatt₁ : m₁.view.attached tid = false := by simp [hm₁, Memory.view, hatt]
      split at h
      next m₂ hal =>
        have hcore : m₂.toCore = m₁.toCore := congrArg View.toCore (Memory.allocFrame_none hal)
        cases h
        refine hfail m₂.toCore (hcore ▸ ⟨rfl, fun _ h ↦ ⟨rfl, h⟩, fun _ _ _ ↦ rfl⟩) ?_
        rw [hcore]
        exact update_self ..
      next k m₂ hal =>
        obtain ⟨hsp, hs⟩ := allocs_spares (Memory.allocFrame_some hal) hw₁ hatt₁
        split at h
        · cases h
          exact hfail _ ⟨hsp.swapMap, hsp.slot, hsp.mem⟩ (hs.trans (update_self ..))
        · cases h

variable {s s' : Caller} {file : Option Executable}

theorem releaseExecutable_memory (s : Caller) (tid : Tid) : (releaseExecutable s tid).memory = s.memory := by
  unfold releaseExecutable
  split <;> rfl

theorem load_false (h : load s tid file stack = (false, s'))
    (hin : ∀ sector c, s.inodes sector = some c → 0 < c.openCnt) :
    ∃ m', s' = { s with memory := m' } ∧
      (m' = s.memory ∨ ∃ image, Process.load s.memory tid image stack = (none, m')) := by
  unfold load at h
  split at h
  · cases h
    exact ⟨_, rfl, .inl rfl⟩
  next f =>
    have hinodes : (s.inodes.open f.sector).close f.sector = s.inodes :=
      Inodes.close_open (hin f.sector)
    simp only [] at h
    split at h
    · cases h
      exact ⟨_, by rw [hinodes], .inl rfl⟩
    · split at h
      next m' hl =>
        cases h
        exact ⟨m', by rw [hinodes], .inr ⟨_, hl⟩⟩
      · cases h

theorem releaseExecutable_sector (s : Caller) (tid : Tid) :
    ((releaseExecutable s tid).states.get tid).bind (·.executableSector) = none := by
  unfold releaseExecutable
  split
  next h => exact h
  next sector h =>
    have hget := States.get_modify_self (l := s.states) (t := tid)
      (f := fun ps ↦ { ps with executableSector := none }) fun _ ↦ rfl
    simp only [hget]
    cases s.states.get tid <;> rfl

theorem releaseExecutable_inodes (hin : ∀ sector c, s.inodes sector = some c → 0 < c.openCnt)
    (sector : Nat) (c : Execute.Counts) (hc : (releaseExecutable s tid).inodes sector = some c) :
    0 < c.openCnt := by
  unfold releaseExecutable at hc
  split at hc
  · exact hin sector c hc
  next x _ =>
    by_cases hx : sector = x
    · subst hx
      simp only [Inodes.close, update_self, bind_eq_some_iff] at hc
      obtain ⟨d, -, hd⟩ := hc
      split at hd
      · cases hd
      · cases hd
        simp only
        omega
    · simp only [Inodes.close, Inodes.allowWrite, update_of_ne hx] at hc
      exact hin sector c hc

theorem destroySpt_spt (c : Core) (tid : Tid) : (destroySpt c tid).spt tid = none := by
  unfold destroySpt
  split
  next h => exact h
  · exact update_self ..

theorem destroySpt_none (h : c.spt tid = none) : destroySpt c tid = c := by
  simp [destroySpt, h]

theorem wf_detached (hw : Wf m.view) :
    Wf (setPagedir (m.withCore (destroySpt m.toCore tid)) tid none).view := by
  obtain ⟨bits, o, hcore⟩ : ∃ bits o, destroySpt m.toCore tid =
      { m.toCore with swapBitmap := bits, spt := o } := by
    unfold destroySpt
    split
    · exact ⟨_, _, rfl⟩
    next t _ =>
      obtain ⟨bits, hfold⟩ := foldl_freeSlot t.entries m.toCore
      simp only [hfold]
      exact ⟨_, _, rfl⟩
  rw [hcore]
  refine ⟨hw.nodup, hw.used, fun t n x hx ↦ hw.frame t n x ?_⟩
  by_cases ht : t = tid
  · subst ht
    simp [Memory.view, setPagedir] at hx
  · simpa [Memory.view, setPagedir, Memory.withCore, ht] using hx

theorem sysExec_false (hv : Valid s tid) (h : sysExec s tid file stack = (false, s')) :
    ∃ m', s' = { releaseExecutable s tid with memory := setPagedir m' tid (s.memory.pagedir tid) } ∧
      Spares tid (destroySpt s.memory.toCore tid) m'.toCore ∧ m'.spt tid = none := by
  unfold sysExec at h
  simp only [releaseExecutable_memory] at h
  split at h
  · cases h
  next s₃ hl =>
    cases h
    obtain ⟨m', rfl, hm⟩ := load_false hl (releaseExecutable_inodes hv.inodes)
    refine ⟨m', rfl, ?_⟩
    rcases hm with rfl | ⟨image, hload⟩
    · exact ⟨Spares.refl _ _, destroySpt_spt _ _⟩
    · exact load_spares (wf_detached hv.wf) (update_self ..) (destroySpt_spt _ _) hload

/-- A failed `exec` changes nothing the caller can observe exactly when the caller has no
supplementary page table and no executable on record. -/
theorem exec_failure_transparent (hv : Valid s tid) (h : sysExec s tid file stack = (false, s')) :
    observe s' tid = observe s tid ↔
      s.memory.spt tid = none ∧ (s.states.get tid).bind (·.executableSector) = none := by
  obtain ⟨m', rfl, hsp, hspt⟩ := sysExec_false hv h
  constructor
  · intro hobs
    have h₁ : m'.spt tid = s.memory.spt tid := congrArg Observed.spt hobs
    have h₂ : ((releaseExecutable s tid).states.get tid).bind (·.executableSector) =
        (s.states.get tid).bind (·.executableSector) := congrArg Observed.executableSector hobs
    exact ⟨h₁ ▸ hspt, h₂ ▸ releaseExecutable_sector s tid⟩
  · rintro ⟨hnone, hsector⟩
    have hrel : releaseExecutable s tid = s := by simp [releaseExecutable, hsector]
    rw [destroySpt_none hnone] at hsp
    rw [hrel]
    have hpd : (setPagedir m' tid (s.memory.pagedir tid)).pagedir tid = s.memory.pagedir tid :=
      update_self ..
    have hheld : ∀ n, heldSlot m'.toCore tid n = heldSlot s.memory.toCore tid n := fun n ↦ by
      simp [heldSlot, Core.findSpt, hspt, hnone, hsp.swapMap]
    ext1 <;> try rfl
    · exact hpd
    · funext n
      have hmap : (setPagedir m' tid (s.memory.pagedir tid)).view.mapping tid n =
          s.memory.view.mapping tid n := by simp [Memory.view, hpd]
      simp only [observe, hmap]
      cases hx : s.memory.view.mapping tid n with
      | none => rfl
      | some x =>
        obtain ⟨e, he, hk, ho, -⟩ := hv.wf.frame tid n x hx
        rw [map_some, map_some, ← hk]
        exact congrArg some (hsp.mem e he ho)
    · exact hspt.trans hnone.symm
    · exact hsp.swapMap
    · funext n
      simp only [observe]
      rw [show heldSlot (setPagedir m' tid (s.memory.pagedir tid)).toCore tid n =
        heldSlot s.memory.toCore tid n from hheld n]
      cases hslot : heldSlot s.memory.toCore tid n with
      | none => rfl
      | some slot =>
        have hused := hv.slots n slot hslot
        obtain ⟨hdisk, hbit⟩ := hsp.slot slot hused
        simp only [map_some, Option.some.injEq, Prod.mk.injEq]
        exact ⟨hbit.trans hused.symm, hdisk⟩

def swappedCaller : Caller where
  memory := swappedParent
  states := []
  inodes := fun _ ↦ none
  brk := 0
  fdTable := FdTable.new
  sigIgnore := 0
  cwdSector := 1

def bareCaller : Caller := { swappedCaller with memory := residentParent }

theorem bareCaller_valid : Valid bareCaller 3 where
  wf := residentParent_wf
  slots := by intro n slot h; cases h
  inodes := by intro sector c h; cases h

theorem exec_failure_transparent_bareCaller :
    ∃ s', sysExec bareCaller 3 none zeroPage = (false, s') ∧
      observe s' 3 = observe bareCaller 3 := by
  obtain ⟨s', hs⟩ : ∃ s', sysExec bareCaller 3 none zeroPage = (false, s') := ⟨_, rfl⟩
  exact ⟨s', hs, (exec_failure_transparent bareCaller_valid hs).mpr ⟨rfl, rfl⟩⟩

/-- After an `exec` of a missing file the caller's swapped page is gone. -/
theorem exec_failure_loses_page :
    ∃ s', sysExec swappedCaller 3 none zeroPage = (false, s') ∧ observe s' 3 ≠ observe swappedCaller 3 ∧
      readByte (withRoom swappedCaller.memory) 3 pgsize physBase = .byte 7 ∧
      readByte (withRoom s'.memory) 3 pgsize physBase = .fault := by
  refine ⟨_, rfl, fun h ↦ ?_, ?_, ?_⟩
  · have := congrArg Observed.spt h
    cases this
  · rfl
  · rfl

end Rxv6.Userprog.Exec
