import Rxv6.Userprog.Execute
import Rxv6.Userprog.Process

namespace Rxv6.Userprog.ForkStart

open Function Rxv6.Thread Rxv6.Sync Rxv6.Vm Rxv6.Lib.Runs Rxv6.Userprog.Fork List Option
open Rxv6.Userprog.Wait (upStart upEnd downTurn)
open Rxv6.Userprog.Execute (Inodes)
open Rxv6.Userprog.Recovery (userPages)
open Rxv6.Userprog.Process (destroySpt setPagedir)

/-- The statements of `fork` after `thread::create`, and of the parent's later `wait(child)`. -/
inductive ParentPc
  | fixFrameOwner
  | setSpt
  | setThreadParentInfo
  | insert
  | ensureSema
  | openInode
  | denyWrite
  | forked
  | waitContains
  | waitCheck
  | waitMark
  | waitDown
  | waitRemove
  | returned (r : Int)
  deriving DecidableEq, Repr

/-- The statements of `fork_child_entry`, of `exit_with_status` and of `thread::exit`. In `user`
the child is about to execute its first user instruction, and exits next. -/
inductive ChildPc
  | install
  | activate
  | user
  | exitTake
  | allowWrite (sector : Nat)
  | closeInode (sector : Nat)
  | lookupParent
  | signalParent (ptid : Option Tid)
  | signalParentMid (ptid : Tid)
  | recordStatus
  | setExited
  | signalWait
  | signalWaitMid
  | reparent
  | destroySpt
  | destroyPagedir
  | exitThread
  | gone
  deriving DecidableEq, Repr

structure System where
  parentTid : Tid
  childTid : Tid
  priority : Tid → Int
  /-- What the child passes to `exit_with_status`. -/
  status : Int
  memory : Memory
  /-- `child_pd`, `child_spt` and `exec_sector`, as `fork` has made them before `thread::create`. -/
  childPd : Pagedir
  childSpt : Option Spt
  execSector : Option Nat
  /-- The threads of `ALL_LIST` and their fields `parent_tid`, `pgid` and `sig_ignore`. -/
  allList : List Tid
  threadParent : Tid → Tid
  pgid : Tid → Tid
  sigIgnore : Tid → Nat
  states : States
  semas : Tid → Option Semaphore
  inodes : Inodes
  parent : ParentPc
  child : ChildPc

inductive Act
  | parent | child
  deriving DecidableEq, Repr

namespace System

@[simp] def gotoParent (s : System) (pc : ParentPc) : System := { s with parent := pc }

@[simp] def gotoChild (s : System) (pc : ChildPc) : System := { s with child := pc }

def get (s : System) : Option ProcessState := s.states.get s.childTid

def modify (s : System) (f : ProcessState → ProcessState) : System :=
  { s with states := s.states.modify s.childTid f }

def newState (s : System) : ProcessState where
  tid := s.childTid
  parentTid := s.parentTid
  exitStatus := -1
  exited := false
  waited := false
  waitSema := ⟨0, []⟩
  loadSema := ⟨1, []⟩
  loadSuccess := true
  executableSector := s.execSector

def setThreadParentInfo (s : System) (tid parentTid pgid : Tid) (sigIgnore : Nat) : System :=
  if tid ∈ s.allList then
    { s with
      threadParent := update s.threadParent tid parentTid
      pgid := update s.pgid tid pgid
      sigIgnore := update s.sigIgnore tid sigIgnore }
  else s

/-- One statement of the parent; `none` while it is blocked, or for a failed `expect`. -/
def parentStep (s : System) : Option System :=
  match s.parent with
  | .fixFrameOwner =>
    some ({ s with
      memory := s.memory.withCore (s.memory.fixOwnerTid (-1) s.childTid) }.gotoParent .setSpt)
  | .setSpt =>
    match s.childSpt with
    | none => some (s.gotoParent .setThreadParentInfo)
    | some t =>
      some ({ s with
        memory := { s.memory with spt := update s.memory.spt s.childTid (some t) } }.gotoParent
          .setThreadParentInfo)
  | .setThreadParentInfo =>
    some ((s.setThreadParentInfo s.childTid s.parentTid (s.pgid s.parentTid)
      (s.sigIgnore s.parentTid)).gotoParent .insert)
  | .insert => some ({ s with states := s.states.insert s.newState }.gotoParent .ensureSema)
  | .ensureSema =>
    match s.semas s.parentTid with
    | none =>
      some ({ s with semas := update s.semas s.parentTid (some ⟨0, []⟩) }.gotoParent .openInode)
    | some _ => some (s.gotoParent .openInode)
  | .openInode =>
    match s.execSector with
    | none => some (s.gotoParent .forked)
    | some x => some ({ s with inodes := s.inodes.open x }.gotoParent .denyWrite)
  | .denyWrite =>
    match s.execSector with
    | none => some (s.gotoParent .forked)
    | some x => some ({ s with inodes := s.inodes.denyWrite x }.gotoParent .forked)
  | .forked => some (s.gotoParent .waitContains)
  | .waitContains =>
    match s.get with
    | none => some (s.gotoParent (.returned (-1)))
    | some _ => some (s.gotoParent .waitCheck)
  | .waitCheck =>
    match s.get with
    | none => none
    | some ps =>
      some (s.gotoParent (if ps.waited then .returned (-1) else .waitMark))
  | .waitMark =>
    match s.get with
    | none => none
    | some _ => some ((s.modify fun ps ↦ { ps with waited := true }).gotoParent .waitDown)
  | .waitDown =>
    match s.get with
    | none => none
    | some ps =>
      (downTurn s.parentTid ps.waitSema).map fun r ↦
        (s.modify fun ps ↦ { ps with waitSema := r.1 }).gotoParent
          (if r.2 then .waitRemove else .waitDown)
  | .waitRemove =>
    match s.get with
    | none => none
    | some ps =>
      some ({ s with states := s.states.remove s.childTid }.gotoParent (.returned ps.exitStatus))
  | .returned _ => none

def childStep (s : System) : Option System :=
  match s.child with
  | .install =>
    some ({ s with memory := forkChildEntry s.memory s.childTid s.childPd }.gotoChild .activate)
  | .activate => some (s.gotoChild .user)
  | .user => some (s.gotoChild .exitTake)
  | .exitTake =>
    match s.get.bind (·.executableSector) with
    | none => some (s.gotoChild .lookupParent)
    | some x =>
      some ((s.modify fun ps ↦ { ps with executableSector := none }).gotoChild (.allowWrite x))
  | .allowWrite x => some ({ s with inodes := s.inodes.allowWrite x }.gotoChild (.closeInode x))
  | .closeInode x => some ({ s with inodes := s.inodes.close x }.gotoChild .lookupParent)
  | .lookupParent => some (s.gotoChild (.signalParent (s.get.map (·.parentTid))))
  | .signalParent none => some (s.gotoChild .recordStatus)
  | .signalParent (some q) =>
    match s.semas q with
    | none => some (s.gotoChild .recordStatus)
    | some m =>
      let r := upStart s.priority s.childTid m
      some ({ s with semas := update s.semas q (some r.1) }.gotoChild
        (if r.2 then .signalParentMid q else .recordStatus))
  | .signalParentMid q =>
    some ({ s with semas := update s.semas q ((s.semas q).map upEnd) }.gotoChild .recordStatus)
  | .recordStatus =>
    match s.get with
    | none => some (s.gotoChild .reparent)
    | some _ => some ((s.modify fun ps ↦ { ps with exitStatus := s.status }).gotoChild .setExited)
  | .setExited => some ((s.modify fun ps ↦ { ps with exited := true }).gotoChild .signalWait)
  | .signalWait =>
    match s.get with
    | none => some (s.gotoChild .reparent)
    | some ps =>
      let r := upStart s.priority s.childTid ps.waitSema
      some ((s.modify fun ps ↦ { ps with waitSema := r.1 }).gotoChild
        (if r.2 then .signalWaitMid else .reparent))
  | .signalWaitMid =>
    some ((s.modify fun ps ↦ { ps with waitSema := upEnd ps.waitSema }).gotoChild .reparent)
  | .reparent =>
    some ({ s with
      states := s.states.reparent s.childTid
      semas := update s.semas s.childTid none }.gotoChild .destroySpt)
  | .destroySpt =>
    some ({ s with memory := s.memory.withCore (destroySpt s.memory.toCore s.childTid) }.gotoChild
      .destroyPagedir)
  | .destroyPagedir =>
    let m := setPagedir s.memory s.childTid none
    some ({ s with
      memory := ((s.memory.pagedir s.childTid).map fun pd ↦ m.withCore (destroy pd m.toCore)).getD m
      }.gotoChild .exitThread)
  | .exitThread => some ({ s with allList := s.allList.erase s.childTid }.gotoChild .gone)
  | .gone => none

def step (s : System) : Act → Option System
  | .parent => s.parentStep
  | .child => s.childStep

end System

@[simp] def ParentPc.rank : ParentPc → Nat
  | .fixFrameOwner => 0
  | .setSpt => 1
  | .setThreadParentInfo => 2
  | .insert => 3
  | .ensureSema => 4
  | .openInode => 5
  | .denyWrite => 6
  | .forked => 7
  | .waitContains => 8
  | .waitCheck => 9
  | .waitMark => 10
  | .waitDown => 11
  | .waitRemove => 12
  | .returned _ => 13

@[simp] def ChildPc.rank : ChildPc → Nat
  | .install => 0
  | .activate => 1
  | .user => 2
  | .exitTake => 3
  | .allowWrite _ => 4
  | .closeInode _ => 5
  | .lookupParent => 6
  | .signalParent _ => 7
  | .signalParentMid _ => 8
  | .recordStatus => 9
  | .setExited => 10
  | .signalWait => 11
  | .signalWaitMid => 12
  | .reparent => 13
  | .destroySpt => 14
  | .destroyPagedir => 15
  | .exitThread => 16
  | .gone => 17

/-- The parent has made its last registration, the insertion into `PROCESS_STATES`. -/
def ParentPc.registered (p : ParentPc) : Bool := 4 ≤ p.rank

/-- The state when `thread::create` has made the child ready, for a `fork` that began in `m`. -/
structure Start (m : Memory) (s : System) : Prop where
  wf : Wf m.view
  placeholder : m.pagedir (-1) = none
  fresh : Fresh m s.childTid
  copied : ∃ c : Copy, copyUserPages s.parentTid ⟨{ m with kernelPool := m.kernelPool - 1 }, .empty⟩ = .ok c ∧
    s.childPd = c.childPd ∧ s.memory = { c.memory with kernelPool := c.memory.kernelPool - 1 }
  childSpt : s.childSpt = (s.memory.spt s.parentTid).map cloneSpt
  thread : s.childTid ∈ s.allList
  priority : s.priority s.childTid = s.priority s.parentTid
  states : s.get = none
  ne : s.parentTid ≠ s.childTid
  parent : s.parent = .fixFrameOwner
  child : s.child = .install

structure Early (s : System) : Prop where
  frames : ∀ i x, childMap s.childPd i = some x → ∃ e ∈ s.memory.frameTable,
    e.kpage = x.kpage ∧ e.ownerTid = if s.parent.rank = 0 then -1 else s.childTid
  nodup : (s.memory.frameTable.map (·.kpage)).Nodup
  spt : s.memory.spt s.childTid = if 2 ≤ s.parent.rank then s.childSpt else none
  alive : s.childTid ∈ s.allList
  ne : s.parentTid ≠ s.childTid
  info : 3 ≤ s.parent.rank → s.threadParent s.childTid = s.parentTid ∧
    s.pgid s.childTid = s.pgid s.parentTid ∧ s.sigIgnore s.childTid = s.sigIgnore s.parentTid
  absent : s.parent.rank < 4 → s.get = none
  record : 4 ≤ s.parent.rank → ∃ ps, s.get = some ps ∧ ps.parentTid = s.parentTid ∧
    ps.waitSema.value = 0 ∧ (ps.waited = true → 11 ≤ s.parent.rank)
  waiting : s.parent.rank ≤ 11

variable {m : Memory} {s₀ s s' : System}

theorem Start.early (h : Start m s) : Early s := by
  obtain ⟨c, hcopy, hpd, hm⟩ := h.copied
  have hatt : m.view.attached (-1) = false := by simp [Memory.view, h.placeholder]
  have hempty : ∀ i, childMap Pagedir.empty i = none := fun i ↦ by
    simp [childMap, Pagedir.entry, Pagedir.empty]
  rw [copyUserPages_eq, range_eq_range'] at hcopy
  have hc₀ : Copying m.view { m with kernelPool := m.kernelPool - 1 }.view s.parentTid
      (childMap Pagedir.empty) 0 :=
    ⟨⟨h.wf.nodup, h.wf.used, h.wf.frame⟩, rfl, fun i y hy ↦ (by rw [hempty] at hy; cases hy),
      fun i x hx ↦ ⟨hx, rfl, by omega⟩⟩
  have hc := copyPages_copying hatt userPages 0 _ hcopy hc₀
  have hspt : c.memory.spt s.childTid = none := by
    rw [(copyPages_detached userPages 0 _ hcopy (by simp [Memory.view, h.fresh.pagedir])).1]
    exact h.fresh.spt
  refine ⟨fun i x hx ↦ ?_, ?_, ?_, h.thread, h.ne, ?_, fun _ ↦ h.states, ?_, ?_⟩
  · obtain ⟨-, e, he, hk, ho⟩ := hc.child i x (hpd ▸ hx)
    rw [hm, h.parent]
    exact ⟨e, he, hk, ho⟩
  · rw [hm]
    exact hc.wf.nodup
  · rw [hm, h.parent]
    exact hspt
  all_goals simp [h.parent]

variable {f : ProcessState → ProcessState} {p : ParentPc} {ps : ProcessState}

theorem get_modify (hf : ∀ ps, (f ps).tid = ps.tid) : (s.modify f).get = s.get.map f :=
  States.get_modify_self hf

variable {semas : Tid → Option Semaphore} {inodes : Inodes} {c : ChildPc}

open ForkStart.System

section

variable (h : Early s) (hlow : 4 ≤ s.parent.rank) (hle : s.parent.rank ≤ p.rank)
include h hlow hle

theorem Early.gotoParent (htop : p.rank ≤ 11) :
    Early ({ s with semas := semas, inodes := inodes }.gotoParent p) where
  frames i x hx := by
    obtain ⟨e, he, hk, ho⟩ := h.frames i x hx
    rw [if_neg (by omega)] at ho
    exact ⟨e, he, hk, ho.trans (if_neg (by simp only [System.gotoParent]; omega)).symm⟩
  nodup := h.nodup
  spt := by
    refine h.spt.trans ?_
    rw [if_pos (by omega)]
    exact (if_pos (by simp only [System.gotoParent]; omega)).symm
  alive := h.alive
  ne := h.ne
  info _ := h.info (by omega)
  absent hlt := absurd hlt (by simp only [System.gotoParent]; omega)
  record _ := by
    obtain ⟨ps, hps, hp, hv, hw⟩ := h.record hlow
    exact ⟨ps, hps, hp, hv, fun h ↦ (hw h).trans hle⟩
  waiting := htop

theorem Early.modifyParent (htop : p.rank = 11)
    (hps : s.get = some ps) (htid : ∀ ps, (f ps).tid = ps.tid) (hp : (f ps).parentTid = s.parentTid)
    (hv : (f ps).waitSema.value = 0) : Early ((s.modify f).gotoParent p) := by
  have h' : Early (s.gotoParent p) := h.gotoParent hlow hle htop.le
  exact ⟨h'.frames, h'.nodup, h'.spt, h'.alive, h'.ne, h'.info,
    fun hlt ↦ absurd hlt (by simp only [System.gotoParent]; omega),
    fun _ ↦ ⟨f ps, (get_modify htid).trans (by rw [hps]; rfl), hp, hv, fun _ ↦ htop.ge⟩, htop.le⟩

end

theorem Early.fixFrameOwner (h : Early s) (hpc : s.parent = .fixFrameOwner) :
    Early ({ s with
      memory := s.memory.withCore (s.memory.fixOwnerTid (-1) s.childTid) }.gotoParent .setSpt) := by
  have hold := h.frames
  have hspt := h.spt
  simp only [hpc, ParentPc.rank, if_true] at hold hspt
  refine ⟨fun i x hx ↦ ?_, ?_, hspt, h.alive, h.ne, by simp,
    fun _ ↦ h.absent (by simp [hpc]), by simp, by simp⟩
  · obtain ⟨e, he, hk, ho⟩ := hold i x hx
    exact ⟨{ e with ownerTid := s.childTid }, mem_map.mpr ⟨e, he, if_pos ho⟩, hk, rfl⟩
  · have : ((s.memory.fixOwnerTid (-1) s.childTid).frameTable.map (·.kpage)) =
        s.memory.frameTable.map (·.kpage) := by
      simp only [Core.fixOwnerTid, List.map_map]
      exact map_congr_left fun e _ ↦ by simp only [comp_apply]; split <;> rfl
    exact this ▸ h.nodup

theorem Early.setThreadParentInfo (h : Early s) (hpc : s.parent = .setThreadParentInfo) :
    Early ((s.setThreadParentInfo s.childTid s.parentTid (s.pgid s.parentTid)
      (s.sigIgnore s.parentTid)).gotoParent .insert) := by
  have hold := h.frames
  have hspt := h.spt
  simp only [hpc, ParentPc.rank, OfNat.ofNat_ne_zero, if_false] at hold hspt
  rw [System.setThreadParentInfo, if_pos h.alive]
  refine ⟨hold, h.nodup, hspt, h.alive, h.ne, fun _ ↦ ⟨?_, ?_, ?_⟩,
    fun _ ↦ h.absent (by simp [hpc]), by simp, by simp⟩
  · exact update_self ..
  · exact (update_self ..).trans (update_of_ne h.ne ..).symm
  · exact (update_self ..).trans (update_of_ne h.ne ..).symm

theorem Early.insert (h : Early s) (hpc : s.parent = .insert) :
    Early ({ s with states := s.states.insert s.newState }.gotoParent .ensureSema) := by
  have hold := h.frames
  have hspt := h.spt
  simp only [hpc, ParentPc.rank, OfNat.ofNat_ne_zero, if_false] at hold hspt
  refine ⟨hold, h.nodup, hspt, h.alive, h.ne, fun _ ↦ h.info (by simp [hpc]),
    by simp, fun _ ↦ ⟨s.newState, ?_, rfl, rfl, nofun⟩,
    by simp⟩
  exact States.get_insert.trans (if_pos rfl)

theorem Early.parentStep (h : Early s) (hs : s.parentStep = some s') : Early s' := by
  cases hpc : s.parent <;> simp only [System.parentStep, hpc, reduceCtorEq] at hs
  case fixFrameOwner =>
    cases hs
    exact h.fixFrameOwner hpc
  case setSpt =>
    have hold := h.frames
    have hspt := h.spt
    simp only [hpc, ParentPc.rank, one_ne_zero, if_false] at hold hspt
    split at hs
    next hnone =>
      cases hs
      exact ⟨hold, h.nodup, hspt.trans hnone.symm, h.alive, h.ne, by simp,
        fun _ ↦ h.absent (by simp [hpc]), by simp, by simp⟩
    next t ht =>
      cases hs
      exact ⟨hold, h.nodup, (update_self ..).trans ht.symm, h.alive, h.ne, by simp,
        fun _ ↦ h.absent (by simp [hpc]), by simp, by simp⟩
  case setThreadParentInfo =>
    cases hs
    exact h.setThreadParentInfo hpc
  case insert =>
    cases hs
    exact h.insert hpc
  case ensureSema | openInode | denyWrite =>
    split at hs <;> cases hs <;> exact h.gotoParent (by simp [hpc]) (by simp [hpc]) (by simp)
  case forked =>
    cases hs
    exact h.gotoParent (by simp [hpc]) (by simp [hpc]) (by simp)
  case waitContains =>
    obtain ⟨ps, hps, -⟩ := h.record (by simp [hpc])
    rw [hps] at hs
    cases hs
    exact h.gotoParent (by simp [hpc]) (by simp [hpc]) (by simp)
  case waitCheck =>
    obtain ⟨ps, hps, -, -, hw⟩ := h.record (by simp [hpc])
    have hnot : ps.waited = false := Bool.eq_false_iff.mpr fun h ↦ by simpa [hpc] using hw h
    rw [hps] at hs
    simp only [hnot, Bool.false_eq_true, if_false] at hs
    cases hs
    exact h.gotoParent (by simp [hpc]) (by simp [hpc]) (by simp)
  case waitMark =>
    obtain ⟨ps, hps, hp, hv, -⟩ := h.record (by simp [hpc])
    rw [hps] at hs
    cases hs
    exact h.modifyParent (by simp [hpc]) (by simp [hpc]) (by simp) hps (fun _ ↦ rfl) hp hv
  case waitDown =>
    obtain ⟨ps, hps, hp, hv, -⟩ := h.record (by simp [hpc])
    rw [hps] at hs
    simp only [downTurn, hv, if_true] at hs
    split at hs
    · cases hs
    · cases hs
      exact h.modifyParent (by simp [hpc]) (by simp [hpc]) (by simp) hps (fun _ ↦ rfl) hp rfl
  case waitRemove => simpa [hpc] using h.waiting

structure Same (s s' : System) : Prop where
  parentTid : s'.parentTid = s.parentTid
  childTid : s'.childTid = s.childTid
  priority : s'.priority = s.priority
  status : s'.status = s.status

theorem parentStep_same (hs : s.parentStep = some s') : Same s s' ∧ s'.child = s.child := by
  unfold parentStep setThreadParentInfo at hs
  repeat' split at hs
  all_goals first
    | cases hs; done
    | cases hs; exact ⟨⟨rfl, rfl, rfl, rfl⟩, rfl⟩
    | obtain ⟨r, -, rfl⟩ := map_eq_some_iff.mp hs; exact ⟨⟨rfl, rfl, rfl, rfl⟩, rfl⟩

theorem childStep_same (hs : s.childStep = some s') :
    Same s s' ∧ s'.parent = s.parent ∧ s.child.rank < s'.child.rank := by
  unfold childStep at hs
  repeat' split at hs
  all_goals cases hs
  all_goals refine ⟨⟨rfl, rfl, rfl, rfl⟩, rfl, ?_⟩
  all_goals simp only [gotoChild, *]
  all_goals first
    | simp; done
    | split <;> simp

theorem Early.childStep (h : Early s) (hs : s.childStep = some s') (hc : s'.child.rank ≤ 2) :
    Early s' := by
  have hlt : s.child.rank < 2 := (childStep_same hs).2.2.trans_le hc
  unfold System.childStep at hs
  split at hs
  next =>
    cases hs
    exact ⟨h.frames, h.nodup, h.spt, h.alive, h.ne, h.info, h.absent, h.record, h.waiting⟩
  next =>
    cases hs
    exact ⟨h.frames, h.nodup, h.spt, h.alive, h.ne, h.info, h.absent, h.record, h.waiting⟩
  all_goals
    next hpc => simp [hpc] at hlt

def registersFirst (s : System) : Act → Bool
  | .parent => true
  | .child => s.child ≠ .activate || s.parent.registered

def RegistersFirst (s : System) (a : Act) : Prop := registersFirst s a = true

instance (s : System) (a : Act) : Decidable (RegistersFirst s a) :=
  inferInstanceAs (Decidable (_ = _))

structure Fields (p : Tid) (st : Int) (pc : ParentPc) (c : ChildPc) (ps : ProcessState) : Prop where
  parent : ps.parentTid = p
  waited : ps.waited = true → 11 ≤ pc.rank
  status : 10 ≤ c.rank → ps.exitStatus = st
  pending : c.rank < 13 → pc.rank ≤ 11 ∧ ps.waitSema.value = 0 ∧
    (ps.waitSema.waiters = [] ∨ ps.waitSema.waiters = [p])
  signalled : 13 ≤ c.rank → pc.rank ≤ 11 → ps.waitSema = ⟨1, []⟩

structure Reaping (s : System) : Prop where
  ne : s.parentTid ≠ s.childTid
  priority : s.priority s.childTid = s.priority s.parentTid
  early : s.parent.rank < 4 → s.child.rank < 2
  noMid : s.child ≠ .signalWaitMid
  record : 4 ≤ s.parent.rank → s.parent.rank ≤ 12 →
    ∃ ps, s.get = some ps ∧ Fields s.parentTid s.status s.parent s.child ps
  result : ∀ r, s.parent = .returned r → r = s.status
  returned : s.parent.rank = 13 → 13 ≤ s.child.rank

theorem Fields.move {p : Tid} {st : Int} {pc : ParentPc} {c' : ChildPc}
    (h : Fields p st pc c ps) (hle : c.rank ≤ c'.rank) (hstatus : 10 ≤ c'.rank → 10 ≤ c.rank)
    (hsignal : 13 ≤ c'.rank → 13 ≤ c.rank) : Fields p st pc c' ps :=
  ⟨h.parent, h.waited, fun hc ↦ h.status (hstatus hc), fun hc ↦ h.pending (hle.trans_lt hc),
    fun hc ↦ h.signalled (hsignal hc)⟩

section

variable (h : Reaping s)
include h

theorem Reaping.gotoParent
    (hlow : 4 ≤ s.parent.rank) (hle : s.parent.rank ≤ p.rank) (htop : p.rank ≤ 11) :
    Reaping ({ s with semas := semas, inodes := inodes }.gotoParent p) where
  ne := h.ne
  priority := h.priority
  early hlt := absurd hlt (by simp only [System.gotoParent]; omega)
  noMid := h.noMid
  record _ _ := by
    obtain ⟨ps, hps, hf⟩ := h.record hlow (by omega)
    exact ⟨ps, hps, hf.parent, fun hw ↦ (hf.waited hw).trans hle, hf.status,
      fun hc ↦ ⟨htop, (hf.pending hc).2⟩, fun hc _ ↦ hf.signalled hc (hle.trans htop)⟩
  result r hr := by
    rw [show p = .returned r from hr] at htop
    simp at htop
  returned hr := absurd (htop.trans_lt (by omega) : p.rank < 13) (by
    rw [show p.rank = 13 from hr]
    omega)

theorem Reaping.modifyParent
    (hlow : 4 ≤ p.rank) (htop : p.rank ≤ 12) (hps : s.get = some ps)
    (htid : ∀ ps, (f ps).tid = ps.tid) (hf : Fields s.parentTid s.status p s.child (f ps)) :
    Reaping ((s.modify f).gotoParent p) where
  ne := h.ne
  priority := h.priority
  early hlt := absurd hlt (by simp only [System.gotoParent]; omega)
  noMid := h.noMid
  record _ _ := ⟨f ps, (get_modify htid).trans (by rw [hps]; rfl), hf⟩
  result r hr := by
    rw [show p = .returned r from hr] at htop
    simp at htop
  returned hr := absurd (htop.trans_lt (by omega) : p.rank < 13) (by
    rw [show p.rank = 13 from hr]
    omega)

theorem Reaping.register (hlt : s.parent.rank < 4) {t : System} (hsame : Same s t)
    (hchild : t.child = s.child) (hrank : t.parent.rank < 4) : Reaping t where
  ne := by rw [hsame.parentTid, hsame.childTid]; exact h.ne
  priority := by rw [hsame.priority, hsame.parentTid, hsame.childTid]; exact h.priority
  early _ := by rw [hchild]; exact h.early hlt
  noMid := hchild ▸ h.noMid
  record hge := absurd hge (by omega)
  result r hr := by simp [hr] at hrank
  returned hr := by omega

theorem Reaping.down (hpc : s.parent = .waitDown)
    (hps : s.get = some ps) {r : Semaphore × Bool} (hr : downTurn s.parentTid ps.waitSema = some r) :
    Reaping ((s.modify fun ps ↦ { ps with waitSema := r.1 }).gotoParent
      (if r.2 then .waitRemove else .waitDown)) := by
  obtain ⟨ps', hps', hf⟩ := h.record (by simp [hpc]) (by simp [hpc])
  cases hps.symm.trans hps'
  rw [hpc] at hf
  by_cases hc : s.child.rank < 13
  · obtain ⟨-, hv, hw⟩ := hf.pending hc
    rcases hw with hw | hw
    · obtain rfl : (⟨0, [s.parentTid]⟩, false) = r := by simpa [downTurn, hw, hv] using hr
      refine h.modifyParent (by simp) (by simp) hps (fun _ ↦ rfl)
        ⟨hf.parent, fun _ ↦ by simp, hf.status, fun _ ↦ ⟨by simp, rfl, .inr rfl⟩, fun hc' ↦ ?_⟩
      omega
    · simp [downTurn, hw] at hr
  · have hw := hf.signalled (by omega) (by simp)
    obtain rfl : (⟨0, []⟩, true) = r := by simpa [downTurn, hw] using hr
    exact h.modifyParent (by simp) (by simp) hps (fun _ ↦ rfl)
      ⟨hf.parent, fun _ ↦ by simp, hf.status, fun hc' ↦ absurd hc' hc, by simp⟩

theorem Reaping.parentStep (hs : s.parentStep = some s') : Reaping s' := by
  have hframe := parentStep_same hs
  cases hpc : s.parent <;> simp only [System.parentStep, hpc, reduceCtorEq] at hs
  case fixFrameOwner | setThreadParentInfo =>
    cases hs
    exact h.register (by simp [hpc]) hframe.1 hframe.2 (by simp)
  case setSpt =>
    split at hs <;> cases hs <;> exact h.register (by simp [hpc]) hframe.1 hframe.2 (by simp)
  case insert =>
    cases hs
    have hearly := h.early (by simp [hpc])
    refine ⟨h.ne, h.priority, by simp, h.noMid, fun _ _ ↦ ?_, by simp, by simp⟩
    refine ⟨s.newState, States.get_insert.trans (if_pos rfl), rfl, nofun,
      fun hc ↦ ?_, fun _ ↦ ⟨by simp, rfl, .inl rfl⟩, fun hc ↦ ?_⟩
    all_goals
      simp only [System.gotoParent] at hc
      omega
  case ensureSema | openInode | denyWrite =>
    split at hs <;> cases hs <;> exact h.gotoParent (by simp [hpc]) (by simp [hpc]) (by simp)
  case forked =>
    cases hs
    exact h.gotoParent (by simp [hpc]) (by simp [hpc]) (by simp)
  case waitContains =>
    obtain ⟨ps, hps, -⟩ := h.record (by simp [hpc]) (by simp [hpc])
    rw [hps] at hs
    cases hs
    exact h.gotoParent (by simp [hpc]) (by simp [hpc]) (by simp)
  case waitCheck =>
    obtain ⟨ps, hps, hf⟩ := h.record (by simp [hpc]) (by simp [hpc])
    have hnot : ps.waited = false := Bool.eq_false_iff.mpr fun hw ↦ by simpa [hpc] using hf.waited hw
    rw [hps] at hs
    simp only [hnot, Bool.false_eq_true, if_false] at hs
    cases hs
    exact h.gotoParent (by simp [hpc]) (by simp [hpc]) (by simp)
  case waitMark =>
    obtain ⟨ps, hps, hf⟩ := h.record (by simp [hpc]) (by simp [hpc])
    rw [hps] at hs
    cases hs
    exact h.modifyParent (by simp) (by simp) hps (fun _ ↦ rfl)
      ⟨hf.parent, fun _ ↦ by simp, hf.status, fun hc ↦ ⟨by simp, (hf.pending hc).2⟩,
        fun hc _ ↦ hf.signalled hc (by simp [hpc])⟩
  case waitDown =>
    split at hs
    · cases hs
    next ps hps =>
      obtain ⟨r, hr, rfl⟩ := map_eq_some_iff.mp hs
      exact h.down hpc hps hr
  case waitRemove =>
    obtain ⟨ps, hps, hf⟩ := h.record (by simp [hpc]) (by simp [hpc])
    have hdone : 13 ≤ s.child.rank := by
      by_contra hlt
      simpa [hpc] using (hf.pending (by omega)).1
    rw [hps] at hs
    cases hs
    refine ⟨h.ne, h.priority, by simp, h.noMid, by simp, fun r hr ↦ ?_, fun _ ↦ hdone⟩
    cases hr
    exact hf.status (by omega)

theorem Reaping.moveChild (hok : RegistersFirst s .child)
    (hs : s.childStep = some s') (hmid : s'.child ≠ .signalWaitMid)
    (hrec : ∀ ps, s.get = some ps → Fields s.parentTid s.status s.parent s.child ps →
      ∃ ps', s'.get = some ps' ∧ Fields s.parentTid s.status s.parent s'.child ps') : Reaping s' := by
  obtain ⟨hsame, hp, hlt⟩ := childStep_same hs
  refine ⟨?_, ?_, fun hrank ↦ ?_, hmid, fun hlow htop ↦ ?_, fun r hr ↦ ?_, fun hr ↦ ?_⟩
  · rw [hsame.parentTid, hsame.childTid]
    exact h.ne
  · rw [hsame.priority, hsame.parentTid, hsame.childTid]
    exact h.priority
  · rw [hp] at hrank
    have hearly := h.early hrank
    cases hc : s.child with
    | install =>
      simp only [childStep, hc, some.injEq] at hs
      rw [← hs]
      simp
    | activate =>
      have hreg : s.parent.registered = true := by simpa [RegistersFirst, registersFirst, hc] using hok
      simp only [ParentPc.registered, decide_eq_true_eq] at hreg
      omega
    | _ => simp [hc] at hearly
  · rw [hp] at hlow htop
    obtain ⟨ps, hps, hf⟩ := h.record hlow htop
    obtain ⟨ps', hps', hf'⟩ := hrec ps hps hf
    rw [hsame.parentTid, hsame.status, hp]
    exact ⟨ps', hps', hf'⟩
  · rw [hsame.status]
    exact h.result r (hp ▸ hr)
  · exact (h.returned (hp ▸ hr)).trans hlt.le

theorem Reaping.exists_record (hlow : 2 ≤ s.child.rank) (htop : s.child.rank < 13) :
    ∃ ps, s.get = some ps ∧ Fields s.parentTid s.status s.parent s.child ps := by
  have h₁ : ¬ s.parent.rank < 4 := fun hlt ↦ by have := h.early hlt; omega
  have h₂ : s.parent.rank ≠ 13 := fun hr ↦ by have := h.returned hr; omega
  have h₃ : s.parent.rank ≤ 13 := by cases s.parent <;> simp
  exact h.record (by omega) (by omega)

end

theorem upStart_of_le {pri : Tid → Int} {t p : Tid} {m : Semaphore}
    (hm : m.waiters = [] ∨ m.waiters = [p]) (hpri : pri t = pri p) : (upStart pri t m).2 = false := by
  rcases hm with hm | hm
  · simp [upStart, hm]
  · have hb : bestIdx pri [p] = 0 := by
      have := bestIdx_lt pri (l := [p]) (by simp)
      simpa using this
    simp [upStart, hm, hb, hpri]

section

variable (h : Reaping s) (hok : RegistersFirst s .child)
include h hok

theorem Reaping.stay
    (hs : s.childStep = some s') (hmid : s'.child ≠ .signalWaitMid) (hstates : s'.states = s.states)
    (hstatus : 10 ≤ s'.child.rank → 10 ≤ s.child.rank)
    (hsignal : 13 ≤ s'.child.rank → 13 ≤ s.child.rank) : Reaping s' := by
  obtain ⟨hsame, -, hlt⟩ := childStep_same hs
  refine h.moveChild hok hs hmid fun ps hps hf ↦ ⟨ps, ?_, hf.move hlt.le hstatus hsignal⟩
  rw [System.get, hstates, hsame.childTid]
  exact hps

theorem Reaping.stayLow (hs : s.childStep = some s')
    (hstates : s'.states = s.states) (hrank : s'.child.rank < 10) : Reaping s' :=
  h.stay hok hs (fun hc ↦ by simp [hc] at hrank) hstates (fun h ↦ by omega) fun h ↦ by omega

theorem Reaping.modifyChild
    (hs : s.childStep = some ((s.modify f).gotoChild c))
    (htid : ∀ ps, (f ps).tid = ps.tid) (hmid : c ≠ .signalWaitMid)
    (hf : ∀ ps, s.get = some ps → Fields s.parentTid s.status s.parent s.child ps →
      Fields s.parentTid s.status s.parent c (f ps)) :
    Reaping ((s.modify f).gotoChild c) :=
  h.moveChild hok hs hmid fun ps hps hps' ↦
    ⟨f ps, (get_modify htid).trans (by rw [hps]; rfl), hf ps hps hps'⟩

theorem Reaping.signal (hpc : s.child = .signalWait)
    (hs : s.childStep = some s') : Reaping s' := by
  obtain ⟨ps, hps, hf⟩ := h.exists_record (by simp [hpc]) (by simp [hpc])
  obtain ⟨-, hv, hw⟩ := hf.pending (by simp [hpc])
  have hup := upStart_of_le hw h.priority
  have hval := Wait.upStart_eq hw hup
  have hs' := hs
  simp only [childStep, hpc, hps, hup, Bool.false_eq_true, if_false, some.injEq] at hs'
  subst hs'
  refine h.modifyChild hok hs (fun _ ↦ rfl) (by simp) fun ps' hps' hf' ↦ ?_
  rw [hpc] at hf'
  refine ⟨hf'.parent, hf'.waited, fun _ ↦ hf'.status (by simp), by simp, fun _ _ ↦ ?_⟩
  rw [hval, hv]

theorem Reaping.childStep
    (hs : s.childStep = some s') : Reaping s' := by
  have hs' := hs
  cases hpc : s.child <;> simp only [System.childStep, hpc, reduceCtorEq] at hs'
  case install | activate | user | allowWrite | closeInode | lookupParent | signalParentMid =>
    cases hs'
    exact h.stayLow hok hs rfl (by simp)
  case exitTake =>
    split at hs'
    · cases hs'
      exact h.stayLow hok hs rfl (by simp)
    · cases hs'
      refine h.modifyChild hok hs (fun _ ↦ rfl) (by simp) fun ps _ hf ↦ ?_
      rw [hpc] at hf
      exact ⟨hf.parent, hf.waited, by simp, fun _ ↦ hf.pending (by simp), by simp⟩
  case signalParent q =>
    cases q with
    | none =>
      cases hs'
      exact h.stayLow hok hs rfl (by simp)
    | some q =>
      simp only at hs'
      split at hs' <;> cases hs'
      · exact h.stayLow hok hs rfl (by simp)
      next m _ =>
        by_cases hmid : (upStart s.priority s.childTid m).2 = true
        all_goals
          simp only [hmid] at hs ⊢
          exact h.stayLow hok hs rfl (by simp)
  case recordStatus =>
    obtain ⟨ps, hps, -⟩ := h.exists_record (by simp [hpc]) (by simp [hpc])
    rw [hps] at hs'
    cases hs'
    refine h.modifyChild hok hs (fun _ ↦ rfl) (by simp) fun ps _ hf ↦ ?_
    rw [hpc] at hf
    exact ⟨hf.parent, hf.waited, fun _ ↦ rfl, fun _ ↦ hf.pending (by simp), by simp⟩
  case setExited =>
    cases hs'
    refine h.modifyChild hok hs (fun _ ↦ rfl) (by simp) fun ps _ hf ↦ ?_
    rw [hpc] at hf
    exact ⟨hf.parent, hf.waited, fun _ ↦ hf.status (by simp), fun _ ↦ hf.pending (by simp), by simp⟩
  case signalWait => exact h.signal hok hpc hs
  case signalWaitMid => exact absurd hpc h.noMid
  case reparent =>
    cases hs'
    refine h.moveChild hok hs (by simp) fun ps hps hf ↦ ⟨ps, ?_, ?_⟩
    · exact States.get_reparent hps (hf.parent ▸ h.ne)
    · exact hf.move (by simp [hpc]) (by simp [hpc]) (by simp [hpc])
  case destroySpt | destroyPagedir | exitThread =>
    cases hs'
    exact h.stay hok hs (by simp) rfl (by simp [hpc]) (by simp [hpc])

end

theorem Reaping.step (h : Reaping s) {a : Act} (hok : RegistersFirst s a)
    (hs : s.step a = some s') : Reaping s' := by
  cases a with
  | parent => exact h.parentStep hs
  | child => exact h.childStep hok hs

theorem childStep_some (h : s.child ≠ .gone) : ∃ t, s.childStep = some t := by
  unfold childStep
  split
  case h_19 hpc => exact absurd hpc h
  all_goals (repeat' split) <;> exact ⟨_, rfl⟩

theorem Reaping.parentStep_some (h : Reaping s) (hdown : s.parent = .waitDown → 13 ≤ s.child.rank)
    (hret : s.parent.rank ≠ 13) : ∃ t, s.parentStep = some t ∧ s.parent.rank < t.parent.rank := by
  unfold System.parentStep
  cases hpc : s.parent with
  | returned r => simp [hpc] at hret
  | waitDown =>
    obtain ⟨ps, hps, hf⟩ := h.record (by simp [hpc]) (by simp [hpc])
    have hw := hf.signalled (hdown hpc) (by simp [hpc])
    simp only [hps, hw, downTurn, not_mem_nil, if_false, one_ne_zero, map_some, if_true]
    exact ⟨_, rfl, by simp⟩
  | waitContains | waitCheck | waitMark | waitRemove =>
    obtain ⟨ps, hps, -⟩ := h.record (by simp [hpc]) (by simp [hpc])
    simp only [hps]
    refine ⟨_, rfl, ?_⟩
    simp only [System.gotoParent]
    first
      | simp; done
      | split <;> simp
  | _ =>
    simp only []
    first
      | exact ⟨_, rfl, by simp⟩
      | split <;> exact ⟨_, rfl, by simp⟩

theorem Reaping.reaps (h : Reaping s) :
    ∃ t, Run System.step RegistersFirst s t ∧ Reaping t ∧ t.parent.rank = 13 := by
  refine Run.exists_of_rank Reaping (·.parent.rank = 13)
    (fun s ↦ (13 - s.parent.rank) + (17 - s.child.rank)) (fun s hi hgoal ↦ ?_) h
  have htop : s.parent.rank ≤ 13 := by cases s.parent <;> simp
  by_cases hwait : s.parent = .waitDown ∧ s.child.rank < 13
  · have hgone : s.child ≠ .gone := fun hc ↦ by simp [hc] at hwait
    obtain ⟨t, ht⟩ := childStep_some hgone
    have hok : RegistersFirst s .child := by
      simp [RegistersFirst, registersFirst, hwait.1, ParentPc.registered]
    obtain ⟨-, hp, hlt⟩ := childStep_same ht
    refine ⟨.child, t, hok, ht, hi.childStep hok ht, ?_⟩
    rw [hp]
    have := hwait.2
    omega
  · have hdown : s.parent = .waitDown → 13 ≤ s.child.rank := fun hp ↦ by
      by_contra hlt
      exact hwait ⟨hp, by omega⟩
    obtain ⟨t, ht, hlt⟩ := hi.parentStep_some hdown hgoal
    refine ⟨.parent, t, rfl, ht, hi.parentStep ht, ?_⟩
    rw [(parentStep_same ht).2]
    omega

def parentFirst : List Act := [.parent, .parent, .parent, .parent, .child, .child]

end Rxv6.Userprog.ForkStart
