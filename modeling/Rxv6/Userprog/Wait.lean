import Rxv6.Sync.Semaphore

namespace Rxv6.Userprog.Wait

open Function Rxv6.Thread Rxv6.Sync Rxv6.Lib.Runs List Option

/-- The fields of `ProcessState` that exit and wait work on. -/
structure ProcessState where
  tid : Tid
  parentTid : Tid
  exitStatus : Int
  exited : Bool
  waited : Bool
  waitSema : Semaphore
  deriving DecidableEq, Repr

/-- The statements of `wait_any_child`, and of the call of `wait` in it. -/
inductive ParentPc
  | idle
  | ensureSema
  | scan
  | hasChildren
  | down
  | waitContains (tid : Tid)
  | waitCheck (tid : Tid)
  | waitMark (tid : Tid)
  | waitDown (tid : Tid)
  | waitRemove (tid : Tid)
  deriving DecidableEq, Repr

/-- The statements of `exit_with_status` that touch the process table or a semaphore. The two
`Mid` places are inside `up`, where `unblock` has switched away before the increment. -/
inductive ChildPc
  | running
  | lookupParent
  | signalParent (ptid : Option Tid)
  | signalParentMid (ptid : Tid)
  | recordStatus
  | setExited
  | signalWait
  | signalWaitMid
  | reparent
  | done
  deriving DecidableEq, Repr

structure System where
  parentTid : Tid
  children : List Tid
  priority : Tid → Int
  /-- What each child passes to `exit_with_status`. -/
  status : Tid → Int
  /-- `PROCESS_STATES`, in the order of its keys. -/
  states : List ProcessState
  /-- `PARENT_WAIT_SEMAS`. -/
  semas : Tid → Option Semaphore
  parent : ParentPc
  child : Tid → ChildPc
  /-- What the finished calls of `wait_any_child` returned, the last one first. -/
  results : List (Tid × Int)

inductive Act
  | parent
  | child (t : Tid)

def initTid : Tid := 1

/-- `up` to its switch or to its return. The flag says that the increment is still to come. -/
def upStart (pri : Tid → Int) (cur : Tid) (m : Semaphore) : Semaphore × Bool :=
  match m.waiters[bestIdx pri m.waiters]? with
  | none => ({ m with value := m.value + 1 }, false)
  | some waiter =>
    let rest := m.waiters.eraseIdx (bestIdx pri m.waiters)
    if pri waiter > pri cur then ({ m with waiters := rest }, true)
    else ({ value := m.value + 1, waiters := rest }, false)

def upEnd (m : Semaphore) : Semaphore := { m with value := m.value + 1 }

/-- One turn of a thread in `down`: `none` while it is blocked; the flag says that it got through. -/
def downTurn (cur : Tid) (m : Semaphore) : Option (Semaphore × Bool) :=
  if cur ∈ m.waiters then none
  else if m.value = 0 then some ({ m with waiters := m.waiters ++ [cur] }, false)
  else some ({ m with value := m.value - 1 }, true)

namespace System

def find (s : System) (t : Tid) : Option ProcessState := s.states.find? fun ps ↦ ps.tid = t

/-- `get_mut` followed by an assignment. -/
def modify (s : System) (t : Tid) (f : ProcessState → ProcessState) : System :=
  { s with states := s.states.map fun ps ↦ if ps.tid = t then f ps else ps }

def setSema (s : System) (t : Tid) (m : Semaphore) : System :=
  { s with semas := update s.semas t (some m) }

def gotoParent (s : System) (pc : ParentPc) : System := { s with parent := pc }

def gotoChild (s : System) (t : Tid) (pc : ChildPc) : System :=
  { s with child := update s.child t pc }

def return_ (s : System) (r : Tid × Int) : System :=
  { s with parent := .idle, results := r :: s.results }

/-- One statement of the parent. `none` while it is blocked, or for a failed `unwrap`. -/
def parentStep (s : System) : Option System :=
  match s.parent with
  | .idle => some (s.gotoParent .ensureSema)
  | .ensureSema =>
    match s.semas s.parentTid with
    | none => some ((s.setSema s.parentTid ⟨0, []⟩).gotoParent .scan)
    | some _ => some (s.gotoParent .scan)
  | .scan =>
    match s.states.find? fun ps ↦ ps.parentTid = s.parentTid ∧ ps.exited ∧ ¬ ps.waited with
    | some ps => some (s.gotoParent (.waitContains ps.tid))
    | none => some (s.gotoParent .hasChildren)
  | .hasChildren =>
    if s.states.any fun ps ↦ ps.parentTid = s.parentTid ∧ ¬ ps.waited then
      some (s.gotoParent .down)
    else some (s.return_ (-1, -1))
  | .down =>
    match s.semas s.parentTid with
    | none => none
    | some m =>
      (downTurn s.parentTid m).map fun r ↦
        (s.setSema s.parentTid r.1).gotoParent (if r.2 then .scan else .down)
  | .waitContains t =>
    match s.find t with
    | none => some (s.return_ (t, -1))
    | some _ => some (s.gotoParent (.waitCheck t))
  | .waitCheck t =>
    match s.find t with
    | none => none
    | some ps => if ps.waited then some (s.return_ (t, -1)) else some (s.gotoParent (.waitMark t))
  | .waitMark t =>
    match s.find t with
    | none => none
    | some _ => some ((s.modify t fun ps ↦ { ps with waited := true }).gotoParent (.waitDown t))
  | .waitDown t =>
    match s.find t with
    | none => none
    | some ps =>
      (downTurn s.parentTid ps.waitSema).map fun r ↦
        (s.modify t fun ps ↦ { ps with waitSema := r.1 }).gotoParent
          (if r.2 then .waitRemove t else .waitDown t)
  | .waitRemove t =>
    match s.find t with
    | none => none
    | some ps =>
      some ({ s with states := s.states.filter fun ps ↦ ps.tid ≠ t }.return_ (t, ps.exitStatus))

def childStep (s : System) (t : Tid) : Option System :=
  match s.child t with
  | .running => some (s.gotoChild t .lookupParent)
  | .lookupParent => some (s.gotoChild t (.signalParent ((s.find t).map (·.parentTid))))
  | .signalParent none => some (s.gotoChild t .recordStatus)
  | .signalParent (some q) =>
    match s.semas q with
    | none => some (s.gotoChild t .recordStatus)
    | some m =>
      let r := upStart s.priority t m
      some ((s.setSema q r.1).gotoChild t (if r.2 then .signalParentMid q else .recordStatus))
  | .signalParentMid q =>
    match s.semas q with
    | none => none
    | some m => some ((s.setSema q (upEnd m)).gotoChild t .recordStatus)
  | .recordStatus =>
    some ((s.modify t fun ps ↦ { ps with exitStatus := s.status t }).gotoChild t .setExited)
  | .setExited => some ((s.modify t fun ps ↦ { ps with exited := true }).gotoChild t .signalWait)
  | .signalWait =>
    match s.find t with
    | none => some (s.gotoChild t .reparent)
    | some ps =>
      let r := upStart s.priority t ps.waitSema
      some ((s.modify t fun ps ↦ { ps with waitSema := r.1 }).gotoChild t
        (if r.2 then .signalWaitMid else .reparent))
  | .signalWaitMid =>
    some ((s.modify t fun ps ↦ { ps with waitSema := upEnd ps.waitSema }).gotoChild t .reparent)
  | .reparent =>
    let kept := s.states.filter fun ps ↦ ¬ (ps.parentTid = t ∧ ps.exited)
    some ({ s with
      states := kept.map fun ps : ProcessState ↦
        if ps.parentTid = t then { ps with parentTid := initTid } else ps
      semas := update s.semas t none }.gotoChild t .done)
  | .done => none

def step (s : System) : Act → Option System
  | .parent => s.parentStep
  | .child t => if t ∈ s.children then s.childStep t else none

end System

/-- A parent about to call `wait_any_child` and children that have not begun to exit. -/
structure Init (s : System) : Prop where
  keys : s.states.map (·.tid) = s.children
  nodup : s.children.Nodup
  tids : ∀ t ∈ s.children, 0 < t ∧ t ≠ s.parentTid
  fresh : ∀ ps ∈ s.states, ps.parentTid = s.parentTid ∧ ps.exited = false ∧ ps.waited = false ∧
    ps.waitSema = ⟨0, []⟩
  sema : s.semas s.parentTid = none ∨ s.semas s.parentTid = some ⟨0, []⟩
  parent : s.parent = .idle
  child : ∀ t, s.child t = .running
  results : s.results = []

/-- The child's `up` on its parent's semaphore lies ahead. -/
@[simp] def ChildPc.upAhead : ChildPc → Bool
  | .running | .lookupParent | .signalParent _ => true
  | _ => false

/-- The child has signalled its parent and has not set `exited` yet. -/
def ChildPc.inWindow : ChildPc → Bool
  | .signalParentMid _ | .recordStatus | .setExited => true
  | _ => false

def LostWakeup (s : System) : Prop :=
  s.parent = .down ∧
  (∃ m, s.semas s.parentTid = some m ∧ s.parentTid ∈ m.waiters ∧ m.value = 0) ∧
  (∃ ps ∈ s.states, ps.parentTid = s.parentTid ∧ ps.exited ∧ ¬ ps.waited) ∧
  ∀ ps ∈ s.states, ps.parentTid = s.parentTid → (s.child ps.tid).upAhead = false

/-- The `up` that the child is about to do would switch to the parent before its increment. -/
def System.switches (s : System) (t : Tid) : Bool :=
  match s.child t with
  | .signalParent (some q) => (s.semas q).any fun m ↦ (upStart s.priority t m).2
  | .signalWait => (s.find t).any fun ps ↦ (upStart s.priority t ps.waitSema).2
  | _ => false

/-- The parent does not scan the table while a child is between its signal and `exited = true`,
and no `up` of a child switches to the parent before its increment. -/
def Uninterrupted (s : System) : Act → Prop
  | .parent => s.parent = .scan → ∀ ps ∈ s.states, (s.child ps.tid).inWindow = false
  | .child t => s.switches t = false

instance (s : System) : (x : Act) → Decidable (Uninterrupted s x)
  | .parent => inferInstanceAs (Decidable (_ → _))
  | .child _ => inferInstanceAs (Decidable (_ = _))

@[simp] def ChildPc.hasExited : ChildPc → Bool
  | .signalWait | .signalWaitMid | .reparent | .done => true
  | _ => false

@[simp] def ChildPc.recorded : ChildPc → Bool
  | .setExited => true
  | c => c.hasExited

@[simp] def ChildPc.signalled : ChildPc → Bool
  | .reparent | .done => true
  | _ => false

def ChildPc.isMid : ChildPc → Bool
  | .signalParentMid _ | .signalWaitMid => true
  | _ => false

@[simp] def ParentPc.chosen : ParentPc → Option Tid
  | .waitContains t | .waitCheck t | .waitMark t | .waitDown t | .waitRemove t => some t
  | _ => none

@[simp] def ParentPc.marked : ParentPc → Option Tid
  | .waitDown t | .waitRemove t => some t
  | _ => none

structure PsOk (p : Tid) (st : Tid → Int) (pc : ParentPc) (c : ChildPc) (ps : ProcessState) :
    Prop where
  parent : ps.parentTid = p
  exited : ps.exited = c.hasExited
  status : c.recorded → ps.exitStatus = st ps.tid
  waited : ps.waited ↔ pc.marked = some ps.tid
  chosen : pc.chosen = some ps.tid → c.hasExited
  sema : pc ≠ .waitRemove ps.tid → ps.waitSema = ⟨if c.signalled then 1 else 0, []⟩ ∨
      (pc = .waitDown ps.tid ∧ ps.waitSema = ⟨0, [p]⟩ ∧ c.signalled = false)
  taken : pc = .waitRemove ps.tid → ps.waitSema = ⟨0, []⟩ ∧ c.signalled

/-- The parent's own semaphore: nobody but the parent waits on it, and only at value zero. -/
structure SemaOk (p : Tid) (pc : ParentPc) (m : Option Semaphore) : Prop where
  present : pc = .idle ∨ pc = .ensureSema ∨ m.isSome
  waiters : ∀ x, m = some x → x.waiters = [] ∨ x = ⟨0, [p]⟩ ∧ pc = .down

structure Inv (s : System) : Prop where
  keys : (s.states.map (·.tid)).Nodup
  tids : ∀ t ∈ s.children, 0 < t ∧ t ≠ s.parentTid
  kid : ∀ ps ∈ s.states, ps.tid ∈ s.children
  entry : ∀ ps ∈ s.states, PsOk s.parentTid s.status s.parent (s.child ps.tid) ps
  present : ∀ t ∈ s.children, (s.child t).signalled = false → ∃ ps ∈ s.states, ps.tid = t
  noMid : ∀ t, (s.child t).isMid = false
  target : ∀ t ∈ s.children, ∀ q, s.child t = .signalParent q → q = some s.parentTid
  chosen : ∀ t, s.parent.chosen = some t → ∃ ps ∈ s.states, ps.tid = t
  sema : SemaOk s.parentTid s.parent (s.semas s.parentTid)
  token : s.parent = .hasChildren ∨ s.parent = .down → ∀ ps ∈ s.states, (s.child ps.tid).upAhead = false →
      ∃ m, s.semas s.parentTid = some m ∧ 0 < m.value
  returned : ∀ t ∈ s.children, (∃ ps ∈ s.states, ps.tid = t) ∨ (t, s.status t) ∈ s.results
  result : ∀ r ∈ s.results, r = (-1, -1) ∨
    r.1 ∈ s.children ∧ r.2 = s.status r.1 ∧ (s.child r.1).signalled ∧ ∀ ps ∈ s.states, ps.tid ≠ r.1
  once : ((s.results.map (·.1)).filter (· ≠ -1)).Nodup
  exhausted : (-1, -1) ∈ s.results → s.states = []

variable {s s' : System} {t p : Tid} {f : ProcessState → ProcessState} {ps : ProcessState} {c : ChildPc}
  {w : Tid → Option Semaphore} {pc : ParentPc}

theorem Init.inv (h : Init s) : Inv s where
  keys := h.keys ▸ h.nodup
  tids := h.tids
  kid ps hps := h.keys ▸ mem_map_of_mem hps
  entry ps hps := by
    obtain ⟨hp, he, hw, hm⟩ := h.fresh ps hps
    refine ⟨hp, ?_, ?_, ?_, ?_, ?_, ?_⟩ <;> simp [h.child, h.parent, he, hw, hm]
  present t ht _ := by
    rw [← h.keys] at ht
    simpa using ht
  noMid t := by simp [h.child, ChildPc.isMid]
  target t _ q hq := by simp [h.child] at hq
  chosen t ht := by simp [h.parent] at ht
  sema := by
    refine ⟨.inl h.parent, ?_⟩
    rcases h.sema with h | h <;> simp [h]
  token hp := by simp [h.parent] at hp
  returned t ht := by
    left
    rw [← h.keys] at ht
    simpa using ht
  result r hr := by simp [h.results] at hr
  once := by simp [h.results]
  exhausted hr := by simp [h.results] at hr

variable {l : List ProcessState} {st : Tid → Int} {m : Semaphore} {pc' : ParentPc}

theorem mem_modify (h : ps ∈ l.map fun ps ↦ if ps.tid = t then f ps else ps) :
    (∃ old ∈ l, old.tid = t ∧ ps = f old) ∨ (ps ∈ l ∧ ps.tid ≠ t) := by
  obtain ⟨old, hold, he⟩ := mem_map.mp h
  split at he
  · next ht => exact .inl ⟨old, hold, ht, he.symm⟩
  · next ht => exact .inr ⟨he ▸ hold, he ▸ ht⟩

theorem modify_tids (l : List ProcessState) (t : Tid) (hf : ∀ ps, (f ps).tid = ps.tid) :
    (l.map fun ps ↦ if ps.tid = t then f ps else ps).map (·.tid) = l.map (·.tid) := by
  rw [List.map_map]
  apply map_congr_left
  intro ps _
  simp only [comp_apply]
  split
  · exact hf ps
  · rfl

theorem exists_tid_modify {u : Tid} (hf : ∀ ps, (f ps).tid = ps.tid) :
    (∃ ps ∈ l.map fun ps ↦ if ps.tid = t then f ps else ps, ps.tid = u) ↔ ∃ ps ∈ l, ps.tid = u := by
  have h := congrArg (u ∈ ·) (modify_tids l t hf)
  simpa only [List.mem_map, eq_iff_iff] using h

open Wait.System

theorem child_inv (hi : Inv s) (ht : t ∈ s.children) (hf : ∀ ps, (f ps).tid = ps.tid)
    (hmid : c.isMid = false) (htarget : ∀ q, c = .signalParent q → q = some s.parentTid)
    (hsig : (s.child t).signalled → c.signalled)
    (hentry : ∀ ps ∈ s.states, ps.tid = t → PsOk s.parentTid s.status s.parent c (f ps))
    (hsema : SemaOk s.parentTid s.parent (w s.parentTid))
    (hval : ∀ m, s.semas s.parentTid = some m → 0 < m.value → ∃ m', w s.parentTid = some m' ∧ 0 < m'.value)
    (htok : s.parent = .hasChildren ∨ s.parent = .down → c.upAhead = false →
      (s.child t).upAhead = true → ∃ m, w s.parentTid = some m ∧ 0 < m.value) :
    Inv ({ s.modify t f with semas := w }.gotoChild t c) where
  keys := by
    simp only [gotoChild, System.modify, modify_tids _ _ hf]
    exact hi.keys
  tids := hi.tids
  kid ps hps := by
    obtain ⟨old, hold, rfl, rfl⟩ | ⟨hps, -⟩ := mem_modify hps
    · exact hf old ▸ ht
    · exact hi.kid ps hps
  entry ps hps := by
    simp only [gotoChild]
    obtain ⟨old, hold, rfl, rfl⟩ | ⟨hps, hne⟩ := mem_modify hps
    · rw [hf, update_self]
      exact hentry old hold rfl
    · rw [update_of_ne hne]
      exact hi.entry ps hps
  present u hu hsu := by
    refine (exists_tid_modify hf).mpr (hi.present u hu ?_)
    simp only [gotoChild] at hsu
    by_cases h : u = t
    · subst h
      rw [update_self] at hsu
      cases hc : (s.child u).signalled
      · rfl
      · rw [hsig hc] at hsu
        cases hsu
    · rwa [update_of_ne h] at hsu
  noMid u := by
    simp only [gotoChild]
    by_cases h : u = t
    · rwa [h, update_self]
    · rw [update_of_ne h]
      exact hi.noMid u
  target u hu q hq := by
    simp only [gotoChild] at hq
    by_cases h : u = t
    · rw [h, update_self] at hq
      exact htarget q hq
    · rw [update_of_ne h] at hq
      exact hi.target u hu q hq
  chosen u hu := (exists_tid_modify hf).mpr (hi.chosen u hu)
  sema := hsema
  token hp ps hps hup := by
    simp only [gotoChild] at hup
    obtain ⟨old, hold, rfl, rfl⟩ | ⟨hps, hne⟩ := mem_modify hps
    · rw [hf, update_self] at hup
      cases hc : (s.child old.tid).upAhead
      · obtain ⟨m, hm, hv⟩ := hi.token hp old hold hc
        exact hval m hm hv
      · exact htok hp hup hc
    · rw [update_of_ne hne] at hup
      obtain ⟨m, hm, hv⟩ := hi.token hp ps hps hup
      exact hval m hm hv
  returned u hu := (hi.returned u hu).imp_left (exists_tid_modify hf).mpr
  result r hr := by
    refine (hi.result r hr).imp_right fun ⟨hk, hst, hsg, hne⟩ ↦ ⟨hk, hst, ?_, ?_⟩
    · simp only [gotoChild]
      by_cases h : r.1 = t
      · rw [h, update_self]
        exact hsig (h ▸ hsg)
      · rwa [update_of_ne h]
    · intro ps hps
      obtain ⟨old, hold, -, rfl⟩ | ⟨hps, -⟩ := mem_modify hps
      · exact hf old ▸ hne old hold
      · exact hne ps hps
  once := hi.once
  exhausted hr := by
    simp [gotoChild, System.modify, hi.exhausted hr]

theorem find_some (h : s.find t = some ps) : ps ∈ s.states ∧ ps.tid = t :=
  ⟨mem_of_find?_eq_some h, by simpa using find?_some h⟩

theorem find_of_exists (h : ∃ ps ∈ s.states, ps.tid = t) : ∃ ps, s.find t = some ps := by
  obtain ⟨ps, hps, ht⟩ := h
  exact isSome_iff_exists.mp (find?_isSome.mpr ⟨ps, hps, by simpa using ht⟩)

theorem modify_id (s : System) (t : Tid) : s.modify t id = s := by
  simp [System.modify]

theorem PsOk.of_eq {c' : ChildPc}
    (h : PsOk p st pc c ps) (he : c'.hasExited = c.hasExited) (hr : c'.recorded → c.recorded)
    (hs : c'.signalled = c.signalled) : PsOk p st pc c' ps :=
  ⟨h.parent, he ▸ h.exited, fun hc ↦ h.status (hr hc), h.waited, fun hc ↦ he ▸ h.chosen hc,
    fun hc ↦ hs ▸ h.sema hc, fun hc ↦ hs ▸ h.taken hc⟩

theorem Inv.entry_of (hi : Inv s) (hc : s.child t = c) : ∀ ps ∈ s.states, ps.tid = t →
    PsOk s.parentTid s.status s.parent c ps := by
  rintro ps hps rfl
  exact hc ▸ hi.entry ps hps

theorem Inv.next_entry {d : ChildPc} (hi : Inv s) (hc : s.child t = c) (he : d.hasExited = c.hasExited)
    (hr : d.recorded → c.recorded) (hs : d.signalled = c.signalled) : ∀ ps ∈ s.states, ps.tid = t →
    PsOk s.parentTid s.status s.parent d ps := fun ps hps ht ↦
  (hi.entry_of hc ps hps ht).of_eq he hr hs

theorem upStart_eq {pri : Tid → Int}
    (hm : m.waiters = [] ∨ m.waiters = [p]) (h : (upStart pri t m).2 = false) :
    (upStart pri t m).1 = ⟨m.value + 1, []⟩ := by
  rcases hm with hm | hm
  · simp [upStart, hm]
  · have hb : bestIdx pri [p] = 0 := by
      have := bestIdx_lt pri (l := [p]) (by simp)
      simpa using this
    simp only [upStart, hm, hb, getElem?_cons_zero] at h ⊢
    split at h
    · cases h
    · next hgt => simp [hgt]

theorem child_goto_inv (hi : Inv s) (ht : t ∈ s.children)
    (hmid : c.isMid = false) (htarget : ∀ q, c = .signalParent q → q = some s.parentTid)
    (hentry : ∀ ps ∈ s.states, ps.tid = t → PsOk s.parentTid s.status s.parent c ps)
    (hsig : (s.child t).signalled → c.signalled)
    (htok : s.parent = .hasChildren ∨ s.parent = .down → c.upAhead = false →
      (s.child t).upAhead = true → ∃ m, s.semas s.parentTid = some m ∧ 0 < m.value) :
    Inv (s.gotoChild t c) := by
  have h := child_inv hi ht (f := id) (fun _ ↦ rfl) hmid htarget hsig
    hentry hi.sema (fun m hm hv ↦ ⟨m, hm, hv⟩) htok
  rwa [modify_id] at h

theorem Inv.sema_waiters (hi : Inv s)
    (hm : s.semas s.parentTid = some m) : m.waiters = [] ∨ m.waiters = [s.parentTid] :=
  (hi.sema.waiters m hm).imp_right fun h ↦ by rw [h.1]

theorem signalParent_inv {q : Option Tid} (hi : Inv s) (ht : t ∈ s.children)
    (hc : s.child t = .signalParent q) (hok : Uninterrupted s (.child t))
    (h : s.childStep t = some s') : Inv s' := by
  obtain rfl := hi.target t ht q hc
  have hnext := hi.next_entry (d := .recordStatus) hc rfl (by simp) rfl
  cases hm : s.semas s.parentTid with
  | none =>
    simp only [childStep, hc, hm, some.injEq] at h
    subst h
    refine child_goto_inv hi ht rfl (by simp) hnext (by simp [hc]) ?_
    intro hp
    rcases hi.sema.present with h | h | h
    · simp [h] at hp
    · simp [h] at hp
    · simp [hm] at h
  | some m =>
    have hup : (upStart s.priority t m).2 = false := by
      simpa [Uninterrupted, switches, hc, hm] using hok
    have hval := upStart_eq (hi.sema_waiters hm) hup
    simp only [childStep, hc, hm, hup, hval, some.injEq] at h
    subst h
    have h := child_inv hi ht (f := id)
      (w := update s.semas s.parentTid (some ⟨m.value + 1, []⟩)) (fun _ ↦ rfl) rfl (by simp)
      (by simp [hc]) hnext ⟨by simp, by simp⟩ (by simp) (by simp)
    rwa [modify_id] at h

section

variable (hi : Inv s) (ht : t ∈ s.children)
include hi ht

theorem signalWait_inv
    (hc : s.child t = .signalWait) (hok : Uninterrupted s (.child t))
    (h : s.childStep t = some s') : Inv s' := by
  have hentry := hi.entry_of hc
  obtain ⟨ps, hps⟩ := find_of_exists (hi.present t ht (by simp [hc]))
  obtain ⟨hmem, hpt⟩ := find_some hps
  have hremove : ∀ ps ∈ s.states, ps.tid = t → s.parent ≠ .waitRemove ps.tid := by
    intro ps hps he hp
    simpa using ((hentry ps hps he).taken hp).2
  have hzero : ps.waitSema.value = 0 ∧ (ps.waitSema.waiters = [] ∨ ps.waitSema.waiters = [s.parentTid]) := by
    rcases (hentry ps hmem hpt).sema (hremove ps hmem hpt) with h | h
    · simp [h]
    · simp [h.2.1]
  have hup : (upStart s.priority t ps.waitSema).2 = false := by
    simpa [Uninterrupted, switches, hc, hps] using hok
  have hval := upStart_eq hzero.2 hup
  rw [hzero.1] at hval
  simp only [childStep, hc, hps, hup, hval, some.injEq] at h
  subst h
  refine child_inv hi ht
    (fun _ ↦ rfl) rfl (by simp) (by simp) ?_ hi.sema
    (fun m hm hv ↦ ⟨m, hm, hv⟩) (by simp [hc])
  intro ps hps he
  have ho := hentry ps hps he
  exact ⟨ho.parent, ho.exited, fun _ ↦ ho.status rfl, ho.waited, fun _ ↦ rfl, fun _ ↦ .inl rfl,
    fun hp ↦ absurd hp (hremove ps hps he)⟩

theorem reparent_inv (hc : s.child t = .reparent)
    (h : s.childStep t = some s') : Inv s' := by
  have hother : ∀ ps ∈ s.states, ps.parentTid ≠ t := by
    intro ps hps he
    exact (hi.tids t ht).2 (he ▸ (hi.entry ps hps).parent)
  have hkept : (s.states.filter fun ps ↦ ¬ (ps.parentTid = t ∧ ps.exited)) = s.states := by
    apply filter_eq_self.mpr
    intro ps hps
    simp [hother ps hps]
  have hsame : (s.states.map fun ps : ProcessState ↦
      if ps.parentTid = t then { ps with parentTid := initTid } else ps) = s.states := by
    rw [map_congr_left, List.map_id]
    intro ps hps
    simp [hother ps hps]
  simp only [childStep, hc, hkept, hsame, some.injEq] at h
  subst h
  have hp : update s.semas t none s.parentTid = s.semas s.parentTid :=
    update_of_ne (hi.tids t ht).2.symm _ _
  have h := child_inv hi ht (f := id) (c := .done) (fun _ ↦ rfl) rfl
    (by simp) (by simp) (hi.next_entry hc rfl (by simp) rfl) (hp ▸ hi.sema) (fun m hm hv ↦ ⟨m, hp ▸ hm, hv⟩) (by simp [hc])
  rwa [modify_id] at h

theorem childStep_inv
    (hok : Uninterrupted s (.child t)) (h : s.childStep t = some s') : Inv s' := by
  cases hc : s.child t
  case signalParent => exact signalParent_inv hi ht hc hok h
  case signalWait => exact signalWait_inv hi ht hc hok h
  case reparent => exact reparent_inv hi ht hc h
  case signalParentMid | signalWaitMid => simpa [hc, ChildPc.isMid] using hi.noMid t
  all_goals simp only [childStep, hc, some.injEq, reduceCtorEq] at h
  all_goals subst h
  case running =>
    exact child_goto_inv hi ht rfl (by simp) (hi.next_entry hc rfl (by simp) rfl) (by simp [hc]) (by simp)
  case lookupParent =>
    obtain ⟨ps, hps⟩ := find_of_exists (hi.present t ht (by simp [hc]))
    obtain ⟨hmem, hpt⟩ := find_some hps
    have hparent := (hi.entry_of hc ps hmem hpt).parent
    exact child_goto_inv hi ht rfl (by simp [hps, hparent]) (hi.next_entry hc rfl (by simp) rfl)
      (by simp [hc]) (by simp)
  case recordStatus =>
    refine child_inv hi ht
      (fun _ ↦ rfl) rfl (by simp) (by simp [hc]) (fun ps hps he ↦ ?_) hi.sema
      (fun m hm hv ↦ ⟨m, hm, hv⟩) (by simp [hc])
    have ho := hi.entry_of hc ps hps he
    exact ⟨ho.parent, ho.exited, fun _ ↦ by rw [he], ho.waited, ho.chosen, ho.sema, ho.taken⟩
  case setExited =>
    refine child_inv hi ht
      (fun _ ↦ rfl) rfl (by simp) (by simp [hc]) (fun ps hps he ↦ ?_) hi.sema
      (fun m hm hv ↦ ⟨m, hm, hv⟩) (by simp [hc])
    have ho := hi.entry_of hc ps hps he
    exact ⟨ho.parent, rfl, fun _ ↦ ho.status rfl, ho.waited, fun _ ↦ rfl, ho.sema, ho.taken⟩

end

theorem parent_inv (hi : Inv s) (t : Tid) (hf : ∀ ps, (f ps).tid = ps.tid)
    (hentry : ∀ ps ∈ s.states, ps.tid = t → PsOk s.parentTid s.status pc (s.child ps.tid) (f ps))
    (hothers : ∀ ps ∈ s.states, ps.tid ≠ t → PsOk s.parentTid s.status pc (s.child ps.tid) ps)
    (hchosen : ∀ u, pc.chosen = some u → ∃ ps ∈ s.states, ps.tid = u)
    (hsema : SemaOk s.parentTid pc (w s.parentTid))
    (htok : pc = .hasChildren ∨ pc = .down → ∀ ps ∈ s.states, (s.child ps.tid).upAhead = false →
      ∃ m, w s.parentTid = some m ∧ 0 < m.value) :
    Inv ({ s.modify t f with semas := w }.gotoParent pc) where
  keys := by
    simp only [gotoParent, System.modify, modify_tids _ _ hf]
    exact hi.keys
  tids := hi.tids
  kid ps hps := by
    obtain ⟨old, hold, -, rfl⟩ | ⟨hps, -⟩ := mem_modify hps
    · exact hf old ▸ hi.kid old hold
    · exact hi.kid ps hps
  entry ps hps := by
    obtain ⟨old, hold, ht, rfl⟩ | ⟨hps, hne⟩ := mem_modify hps
    · exact (hf old).symm ▸ hentry old hold ht
    · exact hothers ps hps hne
  present u hu hsu := (exists_tid_modify hf).mpr (hi.present u hu hsu)
  noMid := hi.noMid
  target := hi.target
  chosen u hu := (exists_tid_modify hf).mpr (hchosen u hu)
  sema := hsema
  token hp ps hps hup := by
    obtain ⟨old, hold, -, rfl⟩ | ⟨hps, -⟩ := mem_modify hps
    · exact htok hp old hold (by rwa [← hf old])
    · exact htok hp ps hps hup
  returned u hu := (hi.returned u hu).imp_left (exists_tid_modify hf).mpr
  result r hr := by
    refine (hi.result r hr).imp_right fun ⟨hk, hst, hsg, hne⟩ ↦ ⟨hk, hst, hsg, ?_⟩
    intro ps hps
    obtain ⟨old, hold, -, rfl⟩ | ⟨hps, -⟩ := mem_modify hps
    · exact hf old ▸ hne old hold
    · exact hne ps hps
  once := hi.once
  exhausted hr := by
    simp [gotoParent, System.modify, hi.exhausted hr]

theorem parent_goto_inv (hi : Inv s)
    (hentry : ∀ ps ∈ s.states, PsOk s.parentTid s.status pc (s.child ps.tid) ps)
    (hchosen : ∀ u, pc.chosen = some u → ∃ ps ∈ s.states, ps.tid = u)
    (hsema : SemaOk s.parentTid pc (w s.parentTid))
    (htok : pc = .hasChildren ∨ pc = .down → ∀ ps ∈ s.states, (s.child ps.tid).upAhead = false →
      ∃ m, w s.parentTid = some m ∧ 0 < m.value) :
    Inv ({ s with semas := w }.gotoParent pc) := by
  have h := parent_inv hi 0 (f := id) (fun _ ↦ rfl) (fun ps hps _ ↦ hentry ps hps)
    (fun ps hps _ ↦ hentry ps hps) hchosen hsema htok
  rwa [modify_id] at h

theorem PsOk.of_unmarked
    (h : PsOk p st pc c ps) (hm : pc.marked ≠ some ps.tid)
    (hm' : pc'.marked ≠ some ps.tid) (hch : pc'.chosen = some ps.tid → c.hasExited) :
    PsOk p st pc' c ps := by
  have hne : ∀ pc : ParentPc, pc.marked ≠ some ps.tid →
      pc ≠ .waitRemove ps.tid ∧ pc ≠ .waitDown ps.tid := by
    intro pc hpc
    constructor <;> rintro rfl <;> exact hpc rfl
  refine ⟨h.parent, h.exited, h.status, ?_, hch, fun _ ↦ .inl ?_, fun he ↦ absurd he (hne pc' hm').1⟩
  · rw [h.waited]
    exact iff_of_false hm hm'
  · exact (h.sema (hne pc hm).1).resolve_right fun he ↦ (hne pc hm).2 he.1

theorem SemaOk.move {m : Option Semaphore} (h : SemaOk p pc m)
    (hne : pc ≠ .down) (hp : pc' = .idle ∨ pc' = .ensureSema ∨ m.isSome) : SemaOk p pc' m :=
  ⟨hp, fun x hx ↦ .inl ((h.waiters x hx).resolve_right fun hd ↦ hne hd.2)⟩

section

variable (hi : Inv s)

include hi

theorem Inv.ne_neg_one (ht : t ∈ s.children) : t ≠ -1 := by
  rintro rfl
  exact absurd (hi.tids _ ht).1 (by decide)

theorem Inv.find_eq
    (h : s.find t = some ps) {ps' : ProcessState} (hps' : ps' ∈ s.states) (ht : ps'.tid = t) :
    ps' = ps := by
  obtain ⟨hmem, hpt⟩ := find_some h
  exact inj_on_of_nodup_map hi.keys hps' hmem (ht.trans hpt.symm)

theorem scan_inv (hpc : s.parent = .scan)
    (hok : ∀ ps ∈ s.states, (s.child ps.tid).inWindow = false) (h : s.parentStep = some s') :
    Inv s' := by
  have hsome := (hi.sema.present.resolve_left (by simp [hpc])).resolve_left (by simp [hpc])
  have hsema : ∀ pc, SemaOk s.parentTid pc (s.semas s.parentTid) := fun pc ↦
    hi.sema.move (by simp [hpc]) (.inr (.inr hsome))
  simp only [parentStep, hpc] at h
  split at h
  · next ps hps =>
    have hmem := mem_of_find?_eq_some hps
    have hexit : (s.child ps.tid).hasExited := by
      rw [← (hi.entry ps hmem).exited]
      have := find?_some hps
      simp_all
    simp only [some.injEq] at h
    subst h
    refine parent_goto_inv hi ?_ ?_ (hsema _) (by simp)
    · intro ps' hps'
      refine (hi.entry ps' hps').of_unmarked (by simp [hpc]) (by simp) ?_
      intro he
      have htid : ps.tid = ps'.tid := by simpa using he
      exact htid ▸ hexit
    · intro u hu
      exact ⟨ps, hmem, by simpa using hu⟩
  · next hnone =>
    have hup : ∀ ps ∈ s.states, (s.child ps.tid).upAhead = true := by
      intro ps hps
      have ho := hi.entry ps hps
      have hwaited : ps.waited = false := by simpa [hpc] using ho.waited
      have hexited : ps.exited = false := by
        simpa [ho.parent, hwaited] using find?_eq_none.mp hnone ps hps
      have hwin := hok ps hps
      rw [ho.exited] at hexited
      have hmid := hi.noMid ps.tid
      revert hwin hexited hmid
      cases s.child ps.tid <;> simp [ChildPc.inWindow]
    simp only [some.injEq] at h
    subst h
    refine parent_goto_inv hi ?_ (by simp) (hsema _) ?_
    · intro ps hps
      exact (hi.entry ps hps).of_unmarked (by simp [hpc]) (by simp) (by simp)
    · intro _ ps hps hfalse
      rw [hup ps hps] at hfalse
      cases hfalse

theorem Inv.states_eq_nil (hm : s.parent.marked = none)
    (h : s.states.any (fun ps ↦ ps.parentTid = s.parentTid ∧ ¬ ps.waited) = false) :
    s.states = [] := by
  apply eq_nil_iff_forall_not_mem.mpr
  intro ps hps
  have ho := hi.entry ps hps
  have hwaited : ps.waited = false := by
    simpa only [hm, reduceCtorEq, iff_false, Bool.not_eq_true] using ho.waited
  simpa [ho.parent, hwaited] using any_eq_false.mp h ps hps

theorem return_none_inv (hnil : s.states = []) (hne : s.parent ≠ .down) : Inv (s.return_ (-1, -1)) where
  keys := hi.keys
  tids := hi.tids
  kid := hi.kid
  entry ps hps := by simp [return_, hnil] at hps
  present := hi.present
  noMid := hi.noMid
  target := hi.target
  chosen u hu := by simp [return_] at hu
  sema := hi.sema.move hne (.inl rfl)
  token hp := by simp [return_] at hp
  returned u hu := (hi.returned u hu).imp_right (mem_cons_of_mem _)
  result r hr := by
    rcases mem_cons.mp hr with rfl | hr
    · exact .inl rfl
    · exact hi.result r hr
  once := by simpa [return_] using hi.once
  exhausted _ := hnil

theorem waitRemove_inv (hpc : s.parent = .waitRemove t) (h : s.parentStep = some s') : Inv s' := by
  obtain ⟨ps, hps⟩ := find_of_exists (hi.chosen t (by simp [hpc]))
  obtain ⟨hmem, ht⟩ := find_some hps
  have htid := hi.ne_neg_one (ht ▸ hi.kid ps hmem)
  have ho := hi.entry ps hmem
  have hsig := (ho.taken (by rw [hpc, ht])).2
  have hstatus : ps.exitStatus = s.status t := by
    rw [ho.status (by revert hsig; cases s.child ps.tid <;> simp), ht]
  rw [ht] at hsig
  simp only [parentStep, hpc, hps, hstatus, some.injEq] at h
  subst h
  have hsub : ∀ q ∈ s.states.filter (fun ps ↦ ps.tid ≠ t), q ∈ s.states ∧ q.tid ≠ t := by
    simp
  refine ⟨hi.keys.sublist (filter_sublist.map _), hi.tids, fun q hq ↦ hi.kid q (hsub q hq).1,
    ?_, ?_, hi.noMid, hi.target, by simp [return_], ?_,
    by simp [return_], ?_, ?_, ?_, ?_⟩
  · intro q hq
    obtain ⟨hq, hne⟩ := hsub q hq
    exact (hi.entry q hq).of_unmarked (by simpa [hpc] using hne.symm)
      (by simp [return_]) (by simp [return_])
  · intro u hu hsu
    obtain ⟨q, hq, rfl⟩ := hi.present u hu hsu
    refine ⟨q, ?_, rfl⟩
    have hne : q.tid ≠ t := by
      rintro rfl
      exact Bool.eq_false_iff.mp hsu hsig
    simpa [return_] using ⟨hq, hne⟩
  · exact hi.sema.move (by simp [hpc]) (.inl rfl)
  · intro u hu
    by_cases hut : u = t
    · exact .inr (by simp [return_, hut])
    · refine (hi.returned u hu).imp ?_ (mem_cons_of_mem _)
      rintro ⟨q, hq, rfl⟩
      exact ⟨q, by simpa [return_] using ⟨hq, hut⟩, rfl⟩
  · intro r hr
    rcases mem_cons.mp hr with rfl | hr
    · exact .inr ⟨ht ▸ hi.kid ps hmem, rfl, hsig, fun q hq ↦ (hsub q hq).2⟩
    · exact (hi.result r hr).imp_right fun ⟨hk, hst, hsg, hne⟩ ↦
        ⟨hk, hst, hsg, fun q hq ↦ hne q (hsub q hq).1⟩
  · have hnew : t ∉ (s.results.map (·.1)).filter (· ≠ -1) := by
      intro hmem'
      obtain ⟨r, hr, hrt⟩ := mem_map.mp (mem_of_mem_filter hmem')
      rcases hi.result r hr with rfl | ⟨-, -, -, hne⟩
      · exact htid hrt.symm
      · exact hne ps hmem (ht.trans hrt.symm)
    simp only [return_, map_cons, filter_cons, decide_eq_true htid]
    exact nodup_cons.mpr ⟨hnew, hi.once⟩
  · intro hr
    rcases mem_cons.mp hr with he | hr
    · exact absurd (congrArg Prod.fst he).symm htid
    · simp [return_, hi.exhausted hr]

theorem waitDown_inv (hpc : s.parent = .waitDown t) (h : s.parentStep = some s') : Inv s' := by
  obtain ⟨ps, hps⟩ := find_of_exists (hi.chosen t (by simp [hpc]))
  obtain ⟨hmem, ht⟩ := find_some hps
  have ho := hi.entry ps hmem
  have hsema : ∀ pc, SemaOk s.parentTid pc (s.semas s.parentTid) := fun pc ↦
    hi.sema.move (by simp [hpc]) (hi.sema.present.imp_left (by simp [hpc]) |>.imp_right
      (Or.imp_left (by simp [hpc])))
  have hothers : ∀ pc : ParentPc, pc.chosen = some t → ∀ q ∈ s.states, q.tid ≠ t →
      PsOk s.parentTid s.status pc (s.child q.tid) q := by
    intro pc hch q hq hne
    refine (hi.entry q hq).of_unmarked (by simpa [hpc] using hne.symm) ?_ ?_
    · cases pc <;> simp_all [eq_comm]
    · intro he
      simp_all
  simp only [parentStep, hpc, hps, map_eq_some_iff] at h
  obtain ⟨r, hr, rfl⟩ := h
  rcases ho.sema (by simp [hpc]) with hw | ⟨-, hw, -⟩
  · cases hsig : (s.child ps.tid).signalled <;> rw [hsig] at hw
    case false =>
      obtain rfl : (⟨0, [s.parentTid]⟩, false) = r := by simpa [downTurn, hw] using hr
      refine parent_inv hi t (fun _ ↦ rfl)
        ?_ (hothers _ rfl) (fun u hu ↦ hi.chosen u (by rw [hpc]; exact hu)) (hsema _) (by simp)
      intro q hq he
      obtain rfl := hi.find_eq hps hq he
      exact ⟨ho.parent, ho.exited, ho.status, by simp [ho.waited, hpc], by simpa [hpc] using ho.chosen,
        fun _ ↦ .inr ⟨by simp [he], rfl, hsig⟩, by simp⟩
    case true =>
      obtain rfl : (⟨0, []⟩, true) = r := by simpa [downTurn, hw] using hr
      refine parent_inv hi t (fun _ ↦ rfl)
        ?_ (hothers _ rfl) (fun u hu ↦ hi.chosen u (by rw [hpc]; exact hu)) (hsema _) (by simp)
      intro q hq he
      obtain rfl := hi.find_eq hps hq he
      exact ⟨ho.parent, ho.exited, ho.status, by simp [ho.waited, hpc],
        fun _ ↦ ho.chosen (by simp [hpc, he]), by simp [he], fun _ ↦ ⟨rfl, hsig⟩⟩
  · simp [downTurn, hw] at hr

theorem goto_unmarked_inv (hm : s.parent.marked = none)
    (hm' : pc.marked = none) (hchosen : ∀ u, pc.chosen = some u → s.parent.chosen = some u)
    (hsema : SemaOk s.parentTid pc (s.semas s.parentTid))
    (htok : pc = .hasChildren ∨ pc = .down → s.parent = .hasChildren) : Inv (s.gotoParent pc) := by
  refine parent_goto_inv hi ?_ (fun u hu ↦ hi.chosen u (hchosen u hu)) hsema
    (fun hp ↦ hi.token (.inl (htok hp)))
  intro ps hps
  have ho := hi.entry ps hps
  exact ho.of_unmarked (by rw [hm]; simp) (by rw [hm']; simp) (fun hc ↦ ho.chosen (hchosen _ hc))

theorem down_inv (hpc : s.parent = .down) (h : s.parentStep = some s') : Inv s' := by
  have hentry : ∀ pc : ParentPc, pc.marked = none → pc.chosen = none → ∀ ps ∈ s.states,
      PsOk s.parentTid s.status pc (s.child ps.tid) ps := fun pc hm hc ps hps ↦
    (hi.entry ps hps).of_unmarked (by simp [hpc]) (by rw [hm]; simp) (by rw [hc]; simp)
  simp only [parentStep, hpc] at h
  split at h
  · cases h
  · next m hm =>
    simp only [map_eq_some_iff] at h
    obtain ⟨r, hr, rfl⟩ := h
    have hempty : m.waiters = [] := by
      rcases hi.sema.waiters m hm with hw | ⟨hw, -⟩
      · exact hw
      · simp [downTurn, hw] at hr
    by_cases hv : m.value = 0
    · obtain rfl : (⟨0, [s.parentTid]⟩, false) = r := by simpa [downTurn, hempty, hv] using hr
      refine parent_goto_inv hi (hentry _ rfl rfl) (by simp) ⟨by simp, by simp⟩ ?_
      intro _ ps hps hup
      obtain ⟨m', hm', hpos⟩ := hi.token (.inr hpc) ps hps hup
      obtain rfl := some.inj (hm.symm.trans hm')
      omega
    · obtain rfl : (⟨m.value - 1, []⟩, true) = r := by simpa [downTurn, hempty, hv] using hr
      exact parent_goto_inv hi (hentry _ rfl rfl) (by simp) ⟨by simp, by simp⟩ (by simp)

theorem waitMark_inv (hpc : s.parent = .waitMark t) (h : s.parentStep = some s') : Inv s' := by
  obtain ⟨ps, hps⟩ := find_of_exists (hi.chosen t (by simp [hpc]))
  simp only [parentStep, hpc, hps, some.injEq] at h
  subst h
  refine parent_inv hi t (fun _ ↦ rfl) ?_ ?_
    (fun u hu ↦ hi.chosen u (by rw [hpc]; exact hu))
    (hi.sema.move (by simp [hpc]) (by simpa [hpc] using hi.sema.present)) (by simp)
  · intro q hq he
    have ho := hi.entry q hq
    refine ⟨ho.parent, ho.exited, ho.status, by simp [he],
      fun _ ↦ ho.chosen (by simp [hpc, he]), fun _ ↦ .inl ?_, by simp⟩
    exact (ho.sema (by simp [hpc])).resolve_right (by simp [hpc])
  · intro q hq hne
    exact (hi.entry q hq).of_unmarked (by simp [hpc]) (by simpa using hne.symm) (by simp [hne.symm])

theorem parentStep_inv (hok : Uninterrupted s .parent) (h : s.parentStep = some s') : Inv s' := by
  have hgo {pc : ParentPc} (hm : s.parent.marked = none) (hm' : pc.marked = none)
      (hchosen : ∀ u, pc.chosen = some u → s.parent.chosen = some u) (hne : s.parent ≠ .down)
      (hp : pc = .idle ∨ pc = .ensureSema ∨ (s.semas s.parentTid).isSome)
      (htok : pc = .hasChildren ∨ pc = .down → s.parent = .hasChildren) : Inv (s.gotoParent pc) :=
    goto_unmarked_inv hi hm hm' hchosen (hi.sema.move hne hp) htok
  have hsome := hi.sema.present
  cases hpc : s.parent
  case scan => exact scan_inv hi hpc (hok hpc) h
  case down => exact down_inv hi hpc h
  case waitMark => exact waitMark_inv hi hpc h
  case waitDown => exact waitDown_inv hi hpc h
  case waitRemove => exact waitRemove_inv hi hpc h
  all_goals
    rw [hpc] at hgo hsome
    simp only [parentStep, hpc, some.injEq] at h
  case idle => exact h ▸ hgo rfl rfl (by simp) (by simp) (by simp) (by simp)
  case ensureSema =>
    split at h <;> cases h
    · refine parent_goto_inv hi ?_ (by simp) ⟨by simp, by simp⟩ (by simp)
      exact fun ps hps ↦ (hi.entry ps hps).of_unmarked (by simp [hpc]) (by simp) (by simp)
    · next m hm => exact hgo rfl rfl (by simp) (by simp) (by simp [hm]) (by simp)
  case hasChildren =>
    split at h <;> cases h
    · exact hgo rfl rfl (by simp) (by simp) (by simpa using hsome) (fun _ ↦ rfl)
    · next hany =>
      exact return_none_inv hi (hi.states_eq_nil (by simp [hpc])
        (Bool.eq_false_of_not_eq_true hany)) (by simp [hpc])
  case waitContains t =>
    obtain ⟨ps, hps⟩ := find_of_exists (hi.chosen t (by simp [hpc]))
    simp only [hps, some.injEq] at h
    exact h ▸ hgo rfl rfl (by simp) (by simp) (by simpa using hsome) (by simp)
  case waitCheck t =>
    obtain ⟨ps, hps⟩ := find_of_exists (hi.chosen t (by simp [hpc]))
    have hw : ps.waited = false := by simpa [hpc] using (hi.entry ps (find_some hps).1).waited
    simp only [hps, hw, Bool.false_eq_true, if_false, some.injEq] at h
    exact h ▸ hgo rfl rfl (by simp) (by simp) (by simpa using hsome) (by simp)

theorem step_inv (x : Act) (hok : Uninterrupted s x) (h : s.step x = some s') : Inv s' := by
  cases x with
  | parent => exact parentStep_inv hi hok h
  | child t =>
    simp only [step] at h
    split at h
    · next ht => exact childStep_inv hi ht hok h
    · cases h

theorem Inv.not_lostWakeup : ¬ LostWakeup s := by
  rintro ⟨hpc, ⟨m, hm, -, hv⟩, ⟨ps, hps, hparent, -, -⟩, hup⟩
  obtain ⟨m', hm', hpos⟩ := hi.token (.inr hpc) ps hps (hup ps hps hparent)
  obtain rfl := some.inj (hm.symm.trans hm')
  omega

end

@[simp] def ParentPc.rank : ParentPc → Nat
  | .hasChildren => 10
  | .down => 9
  | .idle => 8
  | .ensureSema => 7
  | .scan => 6
  | .waitContains _ => 5
  | .waitCheck _ => 4
  | .waitMark _ => 3
  | .waitDown _ => 2
  | .waitRemove _ => 1

def System.rank (s : System) : Nat := 16 * s.states.length + s.parent.rank

theorem parentStep_frame (h : s.parentStep = some s') :
    s'.child = s.child ∧ s'.children = s.children ∧ s'.status = s.status := by
  unfold parentStep at h
  split at h
  all_goals try split at h
  all_goals try split at h
  all_goals
    simp only [map_eq_some_iff, some.injEq, reduceCtorEq] at h
  all_goals first
    | (exact ⟨rfl, rfl, rfl⟩)
    | (obtain ⟨r, -, rfl⟩ := h; exact ⟨rfl, rfl, rfl⟩)

theorem parentStep_progress (hi : Inv s) (hdone : ∀ t ∈ s.children, s.child t = .done)
    (hne : s.states ≠ []) : ∃ s', s.parentStep = some s' ∧ s'.rank < s.rank := by
  have hch : ∀ ps ∈ s.states, s.child ps.tid = .done := fun ps hps ↦ hdone _ (hi.kid ps hps)
  obtain ⟨kid, hkid⟩ := exists_mem_of_ne_nil _ hne
  have hkid' := hi.entry kid hkid
  have hfind : ∀ t, s.parent.chosen = some t → ∃ ps, s.find t = some ps := fun t ht ↦
    find_of_exists (hi.chosen t ht)
  unfold parentStep
  cases hpc : s.parent with
  | idle => exact ⟨_, rfl, by simp [rank, gotoParent, hpc]⟩
  | ensureSema =>
    cases s.semas s.parentTid with
    | none => exact ⟨_, rfl, by simp [rank, gotoParent, setSema, hpc]⟩
    | some m => exact ⟨_, rfl, by simp [rank, gotoParent, hpc]⟩
  | scan =>
    have hwaited : kid.waited = false := by simpa [hpc] using hkid'.waited
    have hexited : kid.exited = true := by simp [hkid'.exited, hch kid hkid]
    have hsome : (s.states.find? fun ps ↦ ps.parentTid = s.parentTid ∧ ps.exited ∧ ¬ ps.waited).isSome :=
      find?_isSome.mpr ⟨kid, hkid, by simp [hkid'.parent, hwaited, hexited]⟩
    obtain ⟨ps, hps⟩ := isSome_iff_exists.mp hsome
    simp only [hps]
    exact ⟨_, rfl, by simp [rank, gotoParent, hpc]⟩
  | hasChildren =>
    have hwaited : kid.waited = false := by simpa [hpc] using hkid'.waited
    have hany : (s.states.any fun ps ↦ ps.parentTid = s.parentTid ∧ ¬ ps.waited) = true :=
      any_eq_true.mpr ⟨kid, hkid, by simp [hkid'.parent, hwaited]⟩
    simp only [hany]
    exact ⟨_, rfl, by simp [rank, gotoParent, hpc]⟩
  | down =>
    obtain ⟨m, hm, hpos⟩ := hi.token (.inr hpc) kid hkid (by simp [hch kid hkid])
    have hempty : m.waiters = [] := (hi.sema.waiters m hm).resolve_right fun h ↦ by simp [h.1] at hpos
    simp only [hm, downTurn, hempty, hpos.ne']
    exact ⟨_, rfl, by simp [rank, gotoParent, setSema, hpc]⟩
  | waitContains t =>
    obtain ⟨ps, hps⟩ := hfind t (by simp [hpc])
    simp only [hps]
    exact ⟨_, rfl, by simp [rank, gotoParent, hpc]⟩
  | waitCheck t =>
    obtain ⟨ps, hps⟩ := hfind t (by simp [hpc])
    have hw : ps.waited = false := by
      simpa [hpc] using (hi.entry ps (find_some hps).1).waited
    simp only [hps, hw]
    exact ⟨_, rfl, by simp [rank, gotoParent, hpc]⟩
  | waitMark t =>
    obtain ⟨ps, hps⟩ := hfind t (by simp [hpc])
    simp only [hps]
    exact ⟨_, rfl, by simp [rank, gotoParent, System.modify, hpc]⟩
  | waitDown t =>
    obtain ⟨ps, hps⟩ := hfind t (by simp [hpc])
    obtain ⟨hmem, ht⟩ := find_some hps
    have hw : ps.waitSema = ⟨1, []⟩ := by
      have := (hi.entry ps hmem).sema (by simp [hpc])
      simpa [hch ps hmem] using this
    simp only [hps, hw]
    exact ⟨_, rfl, by simp [rank, gotoParent, System.modify, hpc]⟩
  | waitRemove t =>
    obtain ⟨ps, hps⟩ := hfind t (by simp [hpc])
    obtain ⟨hmem, ht⟩ := find_some hps
    have hlt : (s.states.filter fun ps ↦ ps.tid ≠ t).length < s.states.length :=
      length_filter_lt_length_iff_exists.mpr ⟨ps, hmem, by simp [ht]⟩
    simp only [hps]
    refine ⟨_, rfl, ?_⟩
    simp only [rank, return_, ParentPc.rank]
    omega

theorem childStep_frame (h : s.childStep t = some s') :
    s'.children = s.children ∧ s'.status = s.status := by
  unfold childStep at h
  split at h
  all_goals try split at h
  all_goals
    simp only [some.injEq, reduceCtorEq] at h
  all_goals
    subst h
    exact ⟨rfl, rfl⟩

theorem step_frame (s : System) (x : Act) (s' : System) (h : s.step x = some s') :
    s'.children = s.children ∧ s'.status = s.status := by
  cases x with
  | parent => exact (parentStep_frame h).2
  | child t =>
    simp only [step] at h
    split at h
    · exact childStep_frame h
    · cases h

theorem run_frame {ok : System → Act → Prop} (h : Run System.step ok s s') :
    s'.children = s.children ∧ s'.status = s.status :=
  h.invariant (fun u ↦ u.children = s.children ∧ u.status = s.status)
    (fun u x u' hu _ hstep ↦ ⟨(step_frame u x u' hstep).1.trans hu.1, (step_frame u x u' hstep).2.trans hu.2⟩)
    ⟨rfl, rfl⟩

theorem Inv.reaps (hi : Inv s) (hdone : ∀ t ∈ s.children, s.child t = .done) :
    ∃ s', Run System.step Uninterrupted s s' ∧ ∀ t ∈ s'.children, (t, s'.status t) ∈ s'.results := by
  have hprogress : ∀ u : System, (Inv u ∧ ∀ t ∈ u.children, u.child t = .done) → u.states ≠ [] →
      ∃ x u', Uninterrupted u x ∧ u.step x = some u' ∧
        (Inv u' ∧ ∀ t ∈ u'.children, u'.child t = .done) ∧ u'.rank < u.rank := by
    rintro u ⟨hu, hd⟩ hne
    obtain ⟨u', hstep, hlt⟩ := parentStep_progress hu hd hne
    obtain ⟨hc, hk, -⟩ := parentStep_frame hstep
    have hok : Uninterrupted u .parent := fun _ ps hps ↦ by
      simp [hd _ (hu.kid ps hps), ChildPc.inWindow]
    exact ⟨.parent, u', hok, hstep, ⟨parentStep_inv hu hok hstep, by rwa [hk, hc]⟩, hlt⟩
  obtain ⟨s', hrun, ⟨hi', -⟩, hnil⟩ := Run.exists_of_rank _ _ _ hprogress ⟨hi, hdone⟩
  refine ⟨s', hrun, fun t ht ↦ (hi'.returned t ht).resolve_left ?_⟩
  simp [hnil]

/-- In every run that meets the condition no wake-up of the parent is lost; so every child is
returned by one call and no other, with the status that it passed to `exit_with_status`. -/
theorem waitAnyChild_reaps {s₀ s : System} (h₀ : Init s₀) (h : Run System.step Uninterrupted s₀ s) :
    ¬ LostWakeup s ∧
    (∀ r ∈ s.results, r = (-1, -1) ∨ r.1 ∈ s₀.children ∧ r.2 = s₀.status r.1) ∧
    ((s.results.map (·.1)).filter (· ≠ -1)).Nodup ∧
    ((-1, -1) ∈ s.results → ∀ t ∈ s₀.children, (t, s₀.status t) ∈ s.results) ∧
    ((∀ t ∈ s₀.children, s.child t = .done) → ∃ s', Run System.step Uninterrupted s s' ∧
      ∀ t ∈ s₀.children, (t, s₀.status t) ∈ s'.results) := by
  have hi : Inv s := h.invariant Inv (fun _ x _ hi ↦ step_inv hi x) h₀.inv
  obtain ⟨hk, hst⟩ := run_frame h
  rw [← hk, ← hst]
  refine ⟨hi.not_lostWakeup, fun r hr ↦ (hi.result r hr).imp_right fun h ↦ ⟨h.1, h.2.1⟩, hi.once,
    fun hr t ht ↦ (hi.returned t ht).resolve_left (by simp [hi.exhausted hr]), fun hdone ↦ ?_⟩
  obtain ⟨s', hrun, hall⟩ := hi.reaps hdone
  obtain ⟨hk', hst'⟩ := run_frame hrun
  rw [hk', hst'] at hall
  exact ⟨s', hrun, hall⟩

def oneChild : System where
  parentTid := 2
  children := [3]
  priority := fun _ ↦ 31
  status := fun _ ↦ 7
  states := [⟨3, 2, 0, false, false, ⟨0, []⟩⟩]
  semas := fun _ ↦ none
  parent := .idle
  child := fun _ ↦ .running
  results := []

theorem oneChild_init : Init oneChild := by
  refine ⟨rfl, by decide, by decide, ?_, .inl rfl, rfl, fun _ ↦ rfl, rfl⟩
  simp [oneChild]

/-- The child finishes before the parent looks. -/
theorem waitAnyChild_reaps_oneChild : ∃ s, Run System.step Uninterrupted oneChild s ∧
    s.results = [(3, 7)] ∧ ¬ LostWakeup s := by
  have hrun : Run System.step Uninterrupted oneChild _ := Run.of_execWhile
    (l := List.replicate 7 (.child 3) ++ List.replicate 8 .parent) rfl
  exact ⟨_, hrun, rfl, (waitAnyChild_reaps oneChild_init hrun).1⟩

/-- The child signals, the parent looks and blocks again, and only then is `exited` set. -/
theorem exitWithStatus_loses_wakeup :
    Init oneChild ∧ ∃ s, Run System.step always oneChild s ∧ LostWakeup s := by
  have hrun : Run System.step always oneChild _ := Run.of_exec
    (l := List.replicate 5 .parent ++ List.replicate 3 (.child 3) ++ List.replicate 4 .parent ++
      List.replicate 2 (.child 3)) rfl
  refine ⟨oneChild_init, _, hrun, rfl, ⟨⟨0, [2]⟩, rfl, by decide, rfl⟩, ?_, ?_⟩
  · exact ⟨⟨3, 2, 7, true, false, ⟨0, []⟩⟩, mem_singleton_self _, rfl, rfl, by decide⟩
  · intro ps hps _
    obtain rfl := mem_singleton.mp hps
    rfl

end Rxv6.Userprog.Wait
