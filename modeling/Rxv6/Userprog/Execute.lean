import Rxv6.Userprog.ProcessTable

namespace Rxv6.Userprog.Execute

open Function Rxv6.Thread Rxv6.Sync Rxv6.Lib.Runs Option
open Rxv6.Userprog.Wait (upStart upEnd downTurn)

structure Counts where
  openCnt : Int
  denyWriteCnt : Nat
  deriving DecidableEq, Repr

/-- `OPEN_INODES`, by sector. -/
abbrev Inodes := Nat → Option Counts

namespace Inodes

def «open» (t : Inodes) (sector : Nat) : Inodes :=
  update t sector (some
    (match t sector with
    | none => ⟨1, 0⟩
    | some c => { c with openCnt := c.openCnt + 1 }))

def close (t : Inodes) (sector : Nat) : Inodes :=
  update t sector ((t sector).bind fun c ↦
    if c.openCnt - 1 ≤ 0 then none else some { c with openCnt := c.openCnt - 1 })

def denyWrite (t : Inodes) (sector : Nat) : Inodes :=
  update t sector ((t sector).map fun c ↦ { c with denyWriteCnt := c.denyWriteCnt + 1 })

def allowWrite (t : Inodes) (sector : Nat) : Inodes :=
  update t sector ((t sector).map fun c ↦ { c with denyWriteCnt := c.denyWriteCnt - 1 })

variable {t : Inodes} {sector : Nat}

theorem close_open (h : ∀ c, t sector = some c → 0 < c.openCnt) : (t.open sector).close sector = t := by
  funext x
  by_cases hx : x = sector
  · subst hx
    cases hc : t x with
    | none => simp [«open», close, hc]
    | some c => simpa [«open», close, hc] using h c hc
  · simp [«open», close, hx]

theorem allowWrite_denyWrite : (t.denyWrite sector).allowWrite sector = t := by
  funext x
  by_cases hx : x = sector
  · subst hx
    cases hc : t x <;> simp [denyWrite, allowWrite, hc]
  · simp [denyWrite, allowWrite, hx]

end Inodes

inductive ParentPc
  | insert
  | ensureSema
  | down
  | readSuccess
  | remove
  | returned (r : Tid)
  deriving DecidableEq, Repr

/-- The statements of `start_process`, with `load` in it, and the beginning of the child's exit.
The flag is the outcome of `load`; in `upMid` the child has been switched away from inside `up`. -/
inductive ChildPc
  | load
  | loadDemandPaged (sector : Nat) (ok : Bool)
  | closeFile (sector : Nat)
  | denyWrite (sector : Nat)
  | recordSector (sector : Nat)
  | lookup (ok : Bool)
  | setSuccess (ok : Bool)
  | up (ok : Bool)
  | upMid (ok : Bool)
  | running
  | exitTake
  | allowWrite (sector : Nat)
  | closeInode (sector : Nat)
  | gone
  deriving DecidableEq, Repr

structure System where
  parentTid : Tid
  childTid : Tid
  priority : Tid → Int
  /-- The file that the command names, and whether `load_demand_paged` can load it. -/
  exe : Option (Nat × Bool)
  states : States
  semas : Tid → Option Semaphore
  inodes : Inodes
  parent : ParentPc
  child : ChildPc

inductive Act
  | parent | child
  deriving DecidableEq, Repr

namespace System

def gotoParent (s : System) (pc : ParentPc) : System := { s with parent := pc }

def gotoChild (s : System) (pc : ChildPc) : System := { s with child := pc }

def get (s : System) : Option ProcessState := s.states.get s.childTid

def modify (s : System) (f : ProcessState → ProcessState) : System :=
  { s with states := s.states.modify s.childTid f }

def newState (s : System) : ProcessState where
  tid := s.childTid
  parentTid := s.parentTid
  exitStatus := -1
  exited := false
  waited := false
  waitSema := ⟨0, []⟩
  loadSema := ⟨0, []⟩
  loadSuccess := false
  executableSector := none

/-- One statement of the parent; `none` while it is blocked, or for a failed `expect`. -/
def parentStep (s : System) : Option System :=
  match s.parent with
  | .insert => some ({ s with states := s.states.insert s.newState }.gotoParent .ensureSema)
  | .ensureSema =>
    match s.semas s.parentTid with
    | none =>
      some ({ s with semas := update s.semas s.parentTid (some ⟨0, []⟩) }.gotoParent .down)
    | some _ => some (s.gotoParent .down)
  | .down =>
    match s.get with
    | none => none
    | some ps =>
      (downTurn s.parentTid ps.loadSema).map fun r ↦
        (s.modify fun ps ↦ { ps with loadSema := r.1 }).gotoParent
          (if r.2 then .readSuccess else .down)
  | .readSuccess =>
    if (s.get.map (·.loadSuccess)).getD false then some (s.gotoParent (.returned s.childTid))
    else some (s.gotoParent .remove)
  | .remove => some ({ s with states := s.states.remove s.childTid }.gotoParent (.returned (-1)))
  | .returned _ => none

def childStep (s : System) : Option System :=
  match s.child with
  | .load =>
    match s.exe with
    | none => some (s.gotoChild (.lookup false))
    | some (sector, ok) =>
      some ({ s with inodes := s.inodes.open sector }.gotoChild (.loadDemandPaged sector ok))
  | .loadDemandPaged sector ok =>
    some (s.gotoChild (if ok then .denyWrite sector else .closeFile sector))
  | .closeFile sector => some ({ s with inodes := s.inodes.close sector }.gotoChild (.lookup false))
  | .denyWrite sector =>
    some ({ s with inodes := s.inodes.denyWrite sector }.gotoChild (.recordSector sector))
  | .recordSector sector =>
    some ((s.modify fun ps ↦ { ps with executableSector := some sector }).gotoChild (.lookup true))
  | .lookup ok =>
    match s.get with
    | none => some (s.gotoChild (if ok then .running else .gone))
    | some _ => some (s.gotoChild (.setSuccess ok))
  | .setSuccess ok => some ((s.modify fun ps ↦ { ps with loadSuccess := ok }).gotoChild (.up ok))
  | .up ok =>
    match s.get with
    | none => none
    | some ps =>
      let r := upStart s.priority s.childTid ps.loadSema
      some ((s.modify fun ps ↦ { ps with loadSema := r.1 }).gotoChild
        (if r.2 then .upMid ok else if ok then .running else .gone))
  | .upMid ok =>
    some ((s.modify fun ps ↦ { ps with loadSema := upEnd ps.loadSema }).gotoChild
      (if ok then .running else .gone))
  | .running => some (s.gotoChild .exitTake)
  | .exitTake =>
    match s.get.bind (·.executableSector) with
    | none => some (s.gotoChild .gone)
    | some sector =>
      some ((s.modify fun ps ↦ { ps with executableSector := none }).gotoChild (.allowWrite sector))
  | .allowWrite sector =>
    some ({ s with inodes := s.inodes.allowWrite sector }.gotoChild (.closeInode sector))
  | .closeInode sector => some ({ s with inodes := s.inodes.close sector }.gotoChild .gone)
  | .gone => none

def step (s : System) : Act → Option System
  | .parent => s.parentStep
  | .child => s.childStep

end System

/-- The new thread is ready and nothing has been done since `thread::create`. -/
structure Init (s : System) : Prop where
  fresh : s.states.get s.childTid = none
  tid : s.childTid ≠ -1
  inodes : ∀ sector c, s.inodes sector = some c → 0 < c.openCnt
  parent : s.parent = .insert
  child : s.child = .load

/-- What `load` returns, as far as `execute` can tell: the sector of the loaded file. -/
def System.loaded (s : System) : Option Nat := s.exe.bind fun x ↦ if x.2 then some x.1 else none

/-- The child is past the code that signals the result of `load`. -/
@[simp] def ChildPc.passed : ChildPc → Bool
  | .running | .exitTake | .allowWrite _ | .closeInode _ | .gone => true
  | _ => false

/-- The parent is blocked on `load_sema`, or will block on it, with value 0, and the child will
not signal it any more. -/
def Stranded (s : System) : Prop :=
  s.child.passed = true ∧
    match s.parent with
    | .insert => True
    | .ensureSema | .down => ∃ ps, s.get = some ps ∧ ps.loadSema.value = 0
    | _ => False

/-- The child of the executable holds its counts in `executable_sector` until its exit, which
gives them back. -/
def Recorded (s₀ s : System) (sector : Nat) : Prop :=
  match s.child with
  | .running | .exitTake =>
    (∃ ps, s.get = some ps ∧ ps.executableSector = some sector) ∧
      s.inodes = (s₀.inodes.open sector).denyWrite sector
  | .allowWrite x => x = sector ∧ s.inodes = (s₀.inodes.open sector).denyWrite sector
  | .closeInode x => x = sector ∧ s.inodes = s₀.inodes.open sector
  | .gone => s.inodes = s₀.inodes
  | _ => False

/-- The child does not come to a statement that looks for its record before the parent has
inserted it: the one that stores the sector, or the signal after a failed `load`. -/
def insertedFirst (s : System) : Act → Bool
  | .parent => true
  | .child =>
    match s.child with
    | .recordSector _ | .lookup false => s.parent ≠ .insert
    | _ => true

def InsertedFirst (s : System) (a : Act) : Prop := insertedFirst s a = true

instance (s : System) (a : Act) : Decidable (InsertedFirst s a) := inferInstanceAs (Decidable (_ = _))

def Flow (s₀ : System) (inodes : Inodes) : ChildPc → Prop
  | .load => inodes = s₀.inodes
  | .loadDemandPaged x ok => s₀.exe = some (x, ok) ∧ inodes = s₀.inodes.open x
  | .closeFile x => s₀.exe = some (x, false) ∧ inodes = s₀.inodes.open x
  | .denyWrite x => s₀.exe = some (x, true) ∧ inodes = s₀.inodes.open x
  | .recordSector x => s₀.exe = some (x, true) ∧ inodes = (s₀.inodes.open x).denyWrite x
  | .lookup ok | .setSuccess ok | .up ok | .upMid ok =>
    (ok = false ∧ s₀.loaded = none ∧ inodes = s₀.inodes) ∨
      (ok = true ∧ ∃ x, s₀.loaded = some x ∧ inodes = (s₀.inodes.open x).denyWrite x)
  | .running | .exitTake =>
    ∃ x, s₀.loaded = some x ∧ inodes = (s₀.inodes.open x).denyWrite x
  | .allowWrite x => s₀.loaded = some x ∧ inodes = (s₀.inodes.open x).denyWrite x
  | .closeInode x => s₀.loaded = some x ∧ inodes = s₀.inodes.open x
  | .gone => inodes = s₀.inodes

@[simp] def ChildPc.looked : ChildPc → Bool
  | .lookup ok => ok
  | .setSuccess _ | .up _ | .upMid _ => true
  | c => c.passed

@[simp] def ChildPc.holds : ChildPc → Bool
  | .lookup ok | .setSuccess ok | .up ok | .upMid ok => ok
  | .running | .exitTake => true
  | _ => false

@[simp] def ChildPc.reported : ChildPc → Bool
  | .up _ | .upMid _ => true
  | c => c.passed

@[simp] def ParentPc.before : ParentPc → Bool
  | .insert | .ensureSema | .down => true
  | _ => false

structure Fields (s₀ : System) (c : ChildPc) (p : ParentPc) (ps : ProcessState) : Prop where
  unsignalled : c.passed = false → ps.loadSema.value = 0
  signalled : c.passed = true → p.before = true → 0 < ps.loadSema.value
  success : c.reported = true → ps.loadSuccess = s₀.loaded.isSome
  sector : c.holds = true → ps.executableSector = s₀.loaded

structure Inv (s₀ s : System) : Prop where
  tid : s.childTid = s₀.childTid
  exe : s.exe = s₀.exe
  flow : Flow s₀ s.inodes s.child
  looked : s.child.looked = true → s.parent ≠ .insert
  absent : s.parent = .insert → s.get = none
  entry : s.parent ≠ .insert → s.parent ≠ .returned (-1) →
    ∃ ps, s.get = some ps ∧ Fields s₀ s.child s.parent ps
  through : s.parent.before = false → s.child.passed = true
  remove : s.parent = .remove → s₀.loaded = none
  result : ∀ r, s.parent = .returned r → (r = -1 ∧ s₀.loaded = none) ∨ (r = s₀.childTid ∧ s₀.loaded.isSome)

variable {s₀ s s' : System}

theorem Init.inv (h : Init s) : Inv s s where
  tid := rfl
  exe := rfl
  flow := by rw [h.child]; rfl
  looked := by simp [h.child]
  absent _ := h.fresh
  entry hp := absurd h.parent hp
  through hp := by simp [h.parent] at hp
  remove hp := by simp [h.parent] at hp
  result r hp := by simp [h.parent] at hp

variable {f : ProcessState → ProcessState} {c : ChildPc}

@[simp] theorem get_modify (hf : ∀ ps, (f ps).tid = ps.tid) : (s.modify f).get = s.get.map f :=
  States.get_modify_self hf

variable {x : Nat} {ok : Bool} {p : ParentPc} {ps : ProcessState}

theorem loaded_of_exe (h : s₀.exe = some (x, ok)) : s₀.loaded = if ok then some x else none := by
  simp [System.loaded, h]

theorem Fields.move {c' : ChildPc} (h : Fields s₀ c p ps)
    (hpassed : c'.passed = c.passed) (hreported : c'.reported = true → c.reported = true)
    (hholds : c'.holds = true → c.holds = true) : Fields s₀ c' p ps :=
  ⟨fun hc ↦ h.unsignalled (hpassed ▸ hc), fun hc ↦ h.signalled (hpassed ▸ hc),
    fun hc ↦ h.success (hreported hc), fun hc ↦ h.sector (hholds hc)⟩

theorem Inv.modifyChild (hi : Inv s₀ s) (htid : ∀ ps, (f ps).tid = ps.tid) (hflow : Flow s₀ s.inodes c)
    (hlooked : c.looked = true → s.parent ≠ .insert)
    (hfields : ∀ ps, s.get = some ps → Fields s₀ s.child s.parent ps → Fields s₀ c s.parent (f ps))
    (hpassed : s.child.passed = true → c.passed = true) :
    Inv s₀ ((s.modify f).gotoChild c) where
  tid := hi.tid
  exe := hi.exe
  flow := hflow
  looked := hlooked
  absent h := (get_modify htid).trans (by rw [hi.absent h]; rfl)
  entry h₁ h₂ := by
    obtain ⟨ps, hps, hf⟩ := hi.entry h₁ h₂
    exact ⟨f ps, (get_modify htid).trans (by rw [hps]; rfl), hfields ps hps hf⟩
  through h := hpassed (hi.through h)
  remove := hi.remove
  result := hi.result

theorem Inv.gotoChild (hi : Inv s₀ s) {inodes : Inodes} (hflow : Flow s₀ inodes c)
    (hpassed : c.passed = s.child.passed) (hlooked : c.looked = true → s.parent ≠ .insert)
    (hreported : c.reported = true → s.child.reported = true)
    (hholds : c.holds = true → s.child.holds = true) :
    Inv s₀ ({ s with inodes := inodes }.gotoChild c) where
  tid := hi.tid
  exe := hi.exe
  flow := hflow
  looked := hlooked
  absent := hi.absent
  entry h₁ h₂ := by
    obtain ⟨ps, hps, hf⟩ := hi.entry h₁ h₂
    exact ⟨ps, hps, hf.move hpassed hreported hholds⟩
  through h := hpassed.trans (hi.through h)
  remove := hi.remove
  result := hi.result

theorem Inv.entry_of_loaded (hinit : Init s₀) (hi : Inv s₀ s) (hx : s₀.loaded = some x)
    (hp : s.parent ≠ .insert) : ∃ ps, s.get = some ps ∧ Fields s₀ s.child s.parent ps := by
  refine hi.entry hp fun hr ↦ ?_
  rcases hi.result (-1) hr with ⟨-, h⟩ | ⟨hc, -⟩
  · rw [hx] at h
    cases h
  · exact hinit.tid hc.symm

theorem upStart_value (pri : Tid → Int) (t : Tid) (m : Semaphore) :
    (upStart pri t m).1.value = if (upStart pri t m).2 then m.value else m.value + 1 := by
  unfold upStart
  split
  · rfl
  · split <;> rfl

theorem Inv.signal (hi : Inv s₀ s)
    (hpc : s.child = .up ok ∨ s.child = .upMid ok) (htid : ∀ ps, (f ps).tid = ps.tid)
    (hf : ∀ ps, s.get = some ps → (f ps).loadSema.value = ps.loadSema.value + 1 ∧
      (f ps).loadSuccess = ps.loadSuccess ∧ (f ps).executableSector = ps.executableSector) :
    Inv s₀ ((s.modify f).gotoChild (if ok then .running else .gone)) := by
  have hflow : Flow s₀ s.inodes (.up ok) := by
    have := hi.flow
    rcases hpc with hpc | hpc <;> rwa [hpc] at this
  have hp : s.parent ≠ .insert := hi.looked (by rcases hpc with hpc | hpc <;> simp [hpc])
  have hfields : ∀ ps, Fields s₀ s.child s.parent ps → Fields s₀ (.up ok) s.parent ps := by
    intro ps h
    rcases hpc with hpc | hpc <;> exact h.move (by simp [hpc]) (by simp [hpc]) (by simp [hpc])
  cases ok with
  | false =>
    obtain ⟨-, hl, hinodes⟩ | ⟨h, -⟩ := hflow
    · refine hi.modifyChild htid hinodes (fun _ ↦ hp) (fun ps hps h ↦ ?_) (by simp)
      have h := hfields ps h
      obtain ⟨hv, hsuc, hsec⟩ := hf ps hps
      exact ⟨by simp, fun _ _ ↦ by omega, fun _ ↦ hsuc.trans (h.success rfl), by simp⟩
    · cases h
  | true =>
    obtain ⟨h, -⟩ | ⟨-, hx⟩ := hflow
    · cases h
    · refine hi.modifyChild htid hx (fun _ ↦ hp) (fun ps hps h ↦ ?_) (by simp)
      have h := hfields ps h
      obtain ⟨hv, hsuc, hsec⟩ := hf ps hps
      exact ⟨by simp, fun _ _ ↦ by omega, fun _ ↦ hsuc.trans (h.success rfl),
        fun _ ↦ hsec.trans (h.sector rfl)⟩

theorem childStep_inv (hinit : Init s₀) (hi : Inv s₀ s) (hok : InsertedFirst s .child)
    (hs : s.childStep = some s') : Inv s₀ s' := by
  have hflow := hi.flow
  unfold System.childStep at hs
  simp only [InsertedFirst, insertedFirst] at hok
  split at hs
  next hpc =>
    rw [hpc] at hflow
    split at hs
    next hexe =>
      cases hs
      exact hi.gotoChild (.inl ⟨rfl, by simp [System.loaded, ← hi.exe, hexe], hflow⟩)
        (by simp [hpc]) (by simp) (by simp) (by simp)
    next sector ok hexe =>
      cases hs
      rw [hflow]
      exact hi.gotoChild ⟨hi.exe ▸ hexe, rfl⟩ (by simp [hpc]) (by simp) (by simp) (by simp)
  next sector ok hpc =>
    rw [hpc] at hflow
    cases hs
    cases ok with
    | false | true => exact hi.gotoChild hflow (by simp [hpc]) (by simp) (by simp) (by simp)
  next sector hpc =>
    rw [hpc] at hflow
    cases hs
    rw [hflow.2, Inodes.close_open (hinit.inodes sector)]
    exact hi.gotoChild (.inl ⟨rfl, loaded_of_exe hflow.1, rfl⟩) (by simp [hpc]) (by simp) (by simp) (by simp)
  next sector hpc =>
    rw [hpc] at hflow
    cases hs
    exact hi.gotoChild ⟨hflow.1, by rw [hflow.2]⟩ (by simp [hpc]) (by simp) (by simp) (by simp)
  next sector hpc =>
    rw [hpc] at hflow
    cases hs
    have hp : s.parent ≠ .insert := by simpa [hpc] using hok
    refine hi.modifyChild (fun _ ↦ rfl) (.inr ⟨rfl, sector, loaded_of_exe hflow.1, hflow.2⟩)
      (fun _ ↦ hp) (fun ps _ hf ↦ ?_) (by simp [hpc])
    rw [hpc] at hf
    exact ⟨fun _ ↦ hf.unsignalled rfl, by simp, by simp, fun _ ↦ (loaded_of_exe hflow.1).symm⟩
  next ok hpc =>
    rw [hpc] at hflow
    have hp : s.parent ≠ .insert := by
      cases ok with
      | false => simpa [hpc] using hok
      | true => exact hi.looked (by simp [hpc])
    have hret : s.parent ≠ .returned (-1) := fun h ↦ by
      have := hi.through (by rw [h]; rfl)
      simp [hpc] at this
    obtain ⟨ps, hps, hf⟩ := hi.entry hp hret
    rw [hps] at hs
    cases hs
    exact hi.gotoChild hflow (by simp [hpc]) (fun _ ↦ hp) (by simp) (by simp [hpc])
  next ok hpc =>
    rw [hpc] at hflow
    cases hs
    refine hi.modifyChild (fun _ ↦ rfl) hflow (fun _ ↦ hi.looked (by simp [hpc])) (fun ps _ hf ↦ ?_)
      (by simp [hpc])
    rw [hpc] at hf
    refine ⟨fun _ ↦ hf.unsignalled rfl, by simp, fun _ ↦ ?_, hf.sector⟩
    rcases hflow with ⟨rfl, hl, -⟩ | ⟨rfl, x, hl, -⟩ <;> simp [hl]
  next ok hpc =>
    rw [hpc] at hflow
    have hp := hi.looked (by simp [hpc])
    split at hs
    · cases hs
    next ps hps =>
      cases hs
      have hvalue := upStart_value s.priority s.childTid ps.loadSema
      by_cases hmid : (upStart s.priority s.childTid ps.loadSema).2 = true
      · rw [if_pos hmid]
        rw [if_pos hmid] at hvalue
        refine hi.modifyChild (fun _ ↦ rfl) hflow (fun _ ↦ hp) (fun ps' hps' hf ↦ ?_) (by simp [hpc])
        rw [hpc] at hf
        cases hps.symm.trans hps'
        exact ⟨fun _ ↦ hvalue.trans (hf.unsignalled rfl), by simp, hf.success, hf.sector⟩
      · rw [if_neg hmid]
        rw [if_neg hmid] at hvalue
        refine hi.signal (.inl hpc) (fun _ ↦ rfl) fun ps' hps' ↦ ?_
        cases hps.symm.trans hps'
        exact ⟨hvalue, rfl, rfl⟩
  next ok hpc =>
    cases hs
    exact hi.signal (.inr hpc) (fun _ ↦ rfl) fun ps _ ↦ ⟨rfl, rfl, rfl⟩
  next hpc =>
    rw [hpc] at hflow
    cases hs
    exact hi.gotoChild hflow (by simp [hpc]) (fun _ ↦ hi.looked (by simp [hpc])) (by simp [hpc])
      (by simp [hpc])
  next hpc =>
    rw [hpc] at hflow
    obtain ⟨x, hx, hinodes⟩ := hflow
    have hp := hi.looked (by simp [hpc])
    obtain ⟨ps, hps, hf⟩ := hi.entry_of_loaded hinit hx hp
    rw [hpc] at hf
    rw [hps, bind_some, (hf.sector rfl).trans hx] at hs
    cases hs
    refine hi.modifyChild (fun _ ↦ rfl) ⟨hx, hinodes⟩ (fun _ ↦ hp) (fun ps' _ h ↦ ?_) (by simp)
    rw [hpc] at h
    exact ⟨by simp, fun _ ↦ h.signalled rfl, fun _ ↦ h.success rfl, by simp⟩
  next sector hpc =>
    rw [hpc] at hflow
    cases hs
    rw [hflow.2, Inodes.allowWrite_denyWrite]
    exact hi.gotoChild ⟨hflow.1, rfl⟩ (by simp [hpc]) (fun _ ↦ hi.looked (by simp [hpc]))
      (by simp [hpc]) (by simp)
  next sector hpc =>
    rw [hpc] at hflow
    cases hs
    rw [hflow.2, Inodes.close_open (hinit.inodes sector)]
    exact hi.gotoChild rfl (by simp [hpc]) (fun _ ↦ hi.looked (by simp [hpc])) (by simp [hpc]) (by simp)
  next => cases hs

theorem Inv.gotoParent (hi : Inv s₀ s) {semas : Tid → Option Semaphore}
    (hp : s.parent ≠ .insert) (hr : s.parent ≠ .returned (-1)) (hbefore : p.before = s.parent.before)
    (hinsert : p ≠ .insert) (hremove : p = .remove → s₀.loaded = none)
    (hresult : ∀ r, p = .returned r → r = s₀.childTid ∧ s₀.loaded.isSome) :
    Inv s₀ ({ s with semas := semas }.gotoParent p) where
  tid := hi.tid
  exe := hi.exe
  flow := hi.flow
  looked _ := hinsert
  absent h := absurd h hinsert
  entry _ _ := by
    obtain ⟨ps, hps, hf⟩ := hi.entry hp hr
    exact ⟨ps, hps, hf.unsignalled, fun hc hb ↦ hf.signalled hc (hbefore ▸ hb), hf.success, hf.sector⟩
  through h := hi.through (hbefore ▸ h)
  remove := hremove
  result r h := .inr (hresult r h)

/-- The parent moves on, with the table changed, to a statement before the end of the call. -/
theorem Inv.advance (hi : Inv s₀ s) {states : States}
    (hp : p = .ensureSema ∨ p = .down ∨ p = .readSuccess) (hps : states.get s.childTid = some ps)
    (hf : Fields s₀ s.child p ps) (hthrough : p.before = false → s.child.passed = true) :
    Inv s₀ ({ s with states := states }.gotoParent p) where
  tid := hi.tid
  exe := hi.exe
  flow := hi.flow
  looked _ h := by simp [show p = _ from h] at hp
  absent h := by simp [show p = _ from h] at hp
  entry _ _ := ⟨ps, hps, hf⟩
  through := hthrough
  remove h := by simp [show p = _ from h] at hp
  result r h := by simp [show p = _ from h] at hp

theorem Inv.down (hi : Inv s₀ s) (hpc : s.parent = .down) (hps : s.get = some ps)
    {r : Semaphore × Bool} (hr : downTurn s.parentTid ps.loadSema = some r) :
    Inv s₀ ((s.modify fun ps ↦ { ps with loadSema := r.1 }).gotoParent
      (if r.2 then .readSuccess else .down)) := by
  obtain ⟨ps', hps', hf⟩ := hi.entry (by simp [hpc]) (by simp [hpc])
  cases hps.symm.trans hps'
  have hget : ∀ m : Semaphore, (s.modify fun ps ↦ { ps with loadSema := m }).get =
      some { ps with loadSema := m } := fun m ↦
    (get_modify (f := fun ps ↦ { ps with loadSema := m }) fun _ ↦ rfl).trans (by rw [hps]; rfl)
  unfold downTurn at hr
  split at hr
  · cases hr
  · split at hr
    next hzero =>
      cases hr
      exact hi.advance (by simp) (hget _) ⟨hf.unsignalled,
        fun hc _ ↦ hf.signalled hc (by simp [hpc]), hf.success, hf.sector⟩
        (by simp)
    next hpos =>
      cases hr
      have hpassed : s.child.passed = true := by
        by_contra h
        exact hpos (hf.unsignalled (Bool.eq_false_iff.mpr h))
      exact hi.advance (by simp) (hget _) ⟨fun hc ↦ absurd hpassed (Bool.eq_false_iff.mp hc),
        fun _ hb ↦ absurd hb (by simp), hf.success, hf.sector⟩ fun _ ↦ hpassed

theorem not_looked (h : c.looked = false) : c.passed = false ∧ c.reported = false ∧ c.holds = false := by
  cases c <;> simp_all

theorem parentStep_inv (hi : Inv s₀ s) (hs : s.parentStep = some s') : Inv s₀ s' := by
  unfold System.parentStep at hs
  split at hs
  next hpc =>
    cases hs
    have hnew : (s.states.insert s.newState).get s.childTid = some s.newState := by
      rw [States.get_insert]
      exact if_pos rfl
    have hnot : s.child.looked = false := Bool.eq_false_iff.mpr fun h ↦ hi.looked h hpc
    obtain ⟨h₁, h₂, h₃⟩ := not_looked hnot
    exact hi.advance (by simp) hnew ⟨fun _ ↦ rfl, fun h ↦ absurd h (Bool.eq_false_iff.mp h₁),
      fun h ↦ absurd h (Bool.eq_false_iff.mp h₂), fun h ↦ absurd h (Bool.eq_false_iff.mp h₃)⟩
      (by simp)
  next hpc =>
    split at hs <;> cases hs <;> exact hi.gotoParent (by simp [hpc]) (by simp [hpc]) (by simp [hpc]) (by simp)
        (by simp) (by simp)
  next hpc =>
    split at hs
    · cases hs
    next ps hps =>
      obtain ⟨r, hr, rfl⟩ := map_eq_some_iff.mp hs
      exact hi.down hpc hps hr
  next hpc =>
    obtain ⟨ps, hps, hf⟩ := hi.entry (by simp [hpc]) (by simp [hpc])
    have hpassed := hi.through (by simp [hpc])
    have hsuccess := hf.success (by cases hc : s.child <;> simp_all)
    rw [hps] at hs
    simp only [map_some, hsuccess] at hs
    split at hs
    next hl =>
      cases hs
      refine hi.gotoParent (by simp [hpc]) (by simp [hpc]) (by simp [hpc]) (by simp)
        (by simp) fun r h ↦ ?_
      cases h
      exact ⟨hi.tid, hl⟩
    next hl =>
      cases hs
      exact hi.gotoParent (by simp [hpc]) (by simp [hpc]) (by simp [hpc]) (by simp)
        (fun _ ↦ by simpa using hl) (by simp)
  next hpc =>
    cases hs
    exact {
      tid := hi.tid
      exe := hi.exe
      flow := hi.flow
      looked := by simp [System.gotoParent]
      absent := by simp [System.gotoParent]
      entry := by simp [System.gotoParent]
      through := fun _ ↦ hi.through (by simp [hpc])
      remove := by simp [System.gotoParent]
      result := fun r h ↦ by cases h; exact .inl ⟨rfl, hi.remove hpc⟩ }
  next => cases hs

/-- Under the condition the parent never waits in vain, the result of `execute` is the result of
`load`, and the counts of a loaded executable are in the record of its process. -/
theorem execute_reports_load (hinit : Init s₀) (h : Run System.step InsertedFirst s₀ s) :
    ¬ Stranded s ∧
    (∀ r, s.parent = .returned r → (r = -1 ↔ s₀.loaded = none) ∧ (r ≠ -1 → r = s₀.childTid)) ∧
    ∀ r sector, s.parent = .returned r → s₀.loaded = some sector → Recorded s₀ s sector := by
  have hi := h.invariant (Inv s₀) (fun s a s' hi hok hs ↦ ?_) hinit.inv
  · refine ⟨?_, fun r hr ↦ ?_, fun r sector hr hl ↦ ?_⟩
    · rintro ⟨hpassed, hblocked⟩
      have hp := hi.looked (by cases hc : s.child <;> simp_all)
      split at hblocked
      next hpc => exact hp hpc
      all_goals
        first
          | exact hblocked
          | obtain ⟨ps, hps, hvalue⟩ := hblocked
            obtain ⟨ps', hps', hf⟩ := hi.entry hp (by simp [*])
            cases hps.symm.trans hps'
            have := hf.signalled hpassed (by simp [*])
            omega
    · rcases hi.result r hr with ⟨rfl, hl⟩ | ⟨rfl, hl⟩
      · exact ⟨by simp [hl], by simp⟩
      · have hne := hinit.tid
        refine ⟨⟨fun h ↦ absurd h hne, fun h ↦ ?_⟩, fun _ ↦ rfl⟩
        rw [h] at hl
        cases hl
    · have hflow := hi.flow
      have hpassed := hi.through (by rw [hr]; rfl)
      have hp := hi.looked (by cases hc : s.child <;> simp_all)
      obtain ⟨ps, hps, hf⟩ := hi.entry_of_loaded hinit hl hp
      unfold Recorded
      cases hc : s.child with
      | running | exitTake =>
        rw [hc] at hflow hf
        obtain ⟨x, hx, hinodes⟩ := hflow
        cases hl.symm.trans hx
        exact ⟨⟨ps, hps, (hf.sector rfl).trans hl⟩, hinodes⟩
      | allowWrite x | closeInode x =>
        rw [hc] at hflow
        cases hl.symm.trans hflow.1
        exact ⟨rfl, hflow.2⟩
      | gone =>
        rw [hc] at hflow
        exact hflow
      | _ => simp [hc] at hpassed
  · cases a with
    | parent => exact parentStep_inv hi hs
    | child => exact childStep_inv hinit hi hok hs

/-- The parent has just created the thread of a program in sector 9 that can be loaded. -/
def spawned : System where
  parentTid := 1
  childTid := 3
  priority := fun _ ↦ 31
  exe := some (9, true)
  states := []
  semas := fun _ ↦ none
  inodes := fun _ ↦ none
  parent := .insert
  child := .load

theorem spawned_init : Init spawned where
  fresh := rfl
  tid := by decide
  inodes := by simp [spawned]
  parent := rfl
  child := rfl

def parentFirst : List Act :=
  [.parent, .parent, .parent, .child, .child, .child, .child, .child, .child, .child, .parent, .parent]

theorem execute_reports_load_parentFirst : ∃ s, Run System.step InsertedFirst spawned s ∧
    s.parent = .returned 3 ∧ ¬ Stranded s ∧ Recorded spawned s 9 := by
  have hsome : (execWhile System.step InsertedFirst spawned parentFirst).isSome := by decide +kernel
  obtain ⟨s, hs⟩ := isSome_iff_exists.mp hsome
  have hret : (execWhile System.step InsertedFirst spawned parentFirst).map (·.parent) =
      some (.returned 3) := by decide +kernel
  rw [hs] at hret
  have hrun := Run.of_execWhile hs
  have hret : s.parent = .returned 3 := Option.some.inj hret
  obtain ⟨h₁, -, h₃⟩ := execute_reports_load spawned_init hrun
  exact ⟨s, hrun, hret, h₁, h₃ 3 9 hret rfl⟩

def childFirst : List Act :=
  [.child, .child, .child, .child, .child, .parent, .parent, .parent]

theorem execute_strands_parent : ∃ s, Run System.step always spawned s ∧ Stranded s ∧
    s.parent = .down ∧ (∃ ps, s.get = some ps ∧ 1 ∈ ps.loadSema.waiters ∧ ps.executableSector = none) ∧
    s.inodes 9 = some ⟨1, 1⟩ ∧ s.step .parent = none := by
  have hsome : (exec System.step spawned childFirst).isSome := by decide +kernel
  obtain ⟨s, hs⟩ := isSome_iff_exists.mp hsome
  have hpcs : (exec System.step spawned childFirst).map (fun s ↦ (s.child, s.parent)) =
      some (.running, .down) := by decide +kernel
  have hinodes : (exec System.step spawned childFirst).map (·.inodes 9) = some (some ⟨1, 1⟩) := by
    decide +kernel
  have hget : (exec System.step spawned childFirst).map (fun s ↦ s.get.map (·.loadSema)) =
      some (some ⟨0, [1]⟩) := by decide +kernel
  have hsector : (exec System.step spawned childFirst).map (fun s ↦ s.get.map (·.executableSector)) =
      some (some none) := by decide +kernel
  have hblocked : (exec System.step spawned childFirst).map (fun s ↦ (s.step .parent).isNone) =
      some true := by decide +kernel
  rw [hs] at hpcs hinodes hget hsector hblocked
  obtain ⟨hc, hp⟩ := Prod.mk.inj (Option.some.inj hpcs)
  obtain ⟨ps, hps, hsema⟩ := map_eq_some_iff.mp (Option.some.inj hget)
  simp only [hps, map_some, Option.some.injEq] at hsector
  refine ⟨s, Run.of_exec hs, ⟨by rw [hc]; rfl, ?_⟩, hp, ⟨ps, hps, by simp [hsema], hsector⟩,
    Option.some.inj hinodes, isNone_iff_eq_none.mp (Option.some.inj hblocked)⟩
  rw [hp]
  exact ⟨ps, hps, by rw [hsema]⟩

end Rxv6.Userprog.Execute
