import Rxv6.Sync.LockProtocol
import Rxv6.Sync.Semaphore
import Rxv6.Thread.Lifecycle

namespace Rxv6.Sync

open Function Rxv6.Thread Rxv6.Lib.Runs

def timeSlice : Nat := 4

structure SleepEntry where
  wakeupTick : Int
  thread : Tid

/-- The threads of the kernel with their locks, semaphores and sleepers. A step is a stretch of code of the
thread on the CPU that no interrupt can divide, or an interrupt. -/
structure Kernel where
  sched : Sched
  originalPriority : Tid → Int
  waitingOnLock : Tid → Option LockId
  holder : LockId → Option Tid
  sema : SemaId → Semaphore
  pc : Tid → Pc
  owns : Tid → Finset LockId
  nextTid : Tid
  threadTicks : Nat
  ticks : Int
  sleepList : List SleepEntry

end Rxv6.Sync

namespace Rxv6.Thread.Sched

open Function

variable {s : Sched} {t : Tid} {intr : Bool} {r : Sched × Bool}

theorem unblock_cases (h : s.unblock intr t = some r) : s.status t = .blocked ∧
    (r = (yieldCurrent { s with status := update s.status t .ready, readyList := s.readyList ++ [t] }, true) ∧
        intr = false ∧ s.priority s.current < s.priority t ∨
      r = ({ s with status := update s.status t .ready, readyList := s.readyList ++ [t] }, false) ∧
        (intr = true ∨ s.priority t ≤ s.priority s.current)) := by
  unfold unblock at h
  split at h
  · next hb =>
    refine ⟨hb, ?_⟩
    split at h
    · next hy =>
      cases h
      exact .inl ⟨rfl, by simpa using hy.1, hy.2⟩
    · next hy =>
      cases h
      refine .inr ⟨rfl, ?_⟩
      cases intr with
      | true => exact .inl rfl
      | false => exact .inr (by simpa using hy)
  · cases h

theorem unblock_current {s' : Sched} (h : s.unblock intr t = some (s', false)) : s'.current = s.current := by
  obtain ⟨_, ⟨e, _⟩ | ⟨e, _⟩⟩ := unblock_cases h
  · cases e
  · cases e
    rfl

/-- Every thread that the scheduler can reach satisfies `P`. -/
structure Known (P : Tid → Prop) (s : Sched) : Prop where
  current : P s.current
  idle : P s.idleThread
  ready : ∀ t ∈ s.readyList, P t
  blocked : ∀ t, s.status t = .blocked → P t

variable {P : Tid → Prop}

section

variable (h : s.Known P)

include h

theorem Known.mono {Q : Tid → Prop} (hPQ : ∀ t, P t → Q t) : s.Known Q :=
  ⟨hPQ _ h.current, hPQ _ h.idle, fun t ht ↦ hPQ t (h.ready t ht), fun t ht ↦ hPQ t (h.blocked t ht)⟩

theorem Known.schedule : s.schedule.Known P := by
  obtain ⟨_, hc, hr⟩ | hp := schedule_cases s
  · exact ⟨hc ▸ h.idle, h.idle, by simp [hr], h.blocked⟩
  · refine ⟨h.ready _ (hp.subset List.mem_cons_self), h.idle, ?_, h.blocked⟩
    intro t ht
    exact h.ready t (hp.subset (List.mem_cons_of_mem _ ht))

theorem Known.update (ht : P t) (st : ThreadStatus) :
    Known P { s with status := update s.status t st } := by
  refine ⟨h.current, h.idle, h.ready, ?_⟩
  intro u hu
  by_cases hut : u = t
  · rwa [hut]
  · exact h.blocked u (by simpa [hut] using hu)

theorem Known.push (ht : P t) : Known P { s with readyList := s.readyList ++ [t] } := by
  refine ⟨h.current, h.idle, ?_, h.blocked⟩
  intro u hu
  obtain hu | hu := List.mem_append.mp hu
  · exact h.ready u hu
  · rw [List.mem_singleton.mp hu]
    exact ht

theorem Known.block : s.block.Known P := (h.update h.current .blocked).schedule

theorem Known.exit : s.exit.Known P := (h.update h.current .dying).schedule

theorem Known.scheduleTail : s.scheduleTail.Known P := by
  obtain ⟨hc, hi, hr, hb⟩ := h.update h.current .running
  exact ⟨hc, hi, hr, hb⟩

theorem Known.yieldCurrent : s.yieldCurrent.Known P := by
  unfold Sched.yieldCurrent
  split
  · exact ((h.update h.current .ready).push h.current).schedule
  · exact (h.update h.current .ready).schedule

theorem Known.unblock (hs : s.unblock intr t = some r) : r.1.Known P := by
  obtain ⟨hb, ⟨rfl, _⟩ | ⟨rfl, _⟩⟩ := unblock_cases hs
  · exact ((h.update (h.blocked t hb) .ready).push (h.blocked t hb)).yieldCurrent
  · exact (h.update (h.blocked t hb) .ready).push (h.blocked t hb)

theorem Known.setPriority (f : Tid → Int) : Known P { s with priority := f } :=
  ⟨h.current, h.idle, h.ready, h.blocked⟩

end

end Rxv6.Thread.Sched

namespace Rxv6.Sync

open Function Rxv6.Thread Rxv6.Lib.Runs

open Locks Option

namespace Kernel

inductive Act
  | resume
  | next
  | acquire (l : LockId)
  | tryAcquire (l : LockId)
  | release (l : LockId)
  | setPriority (p : Int)
  | down (n : Nat)
  | tryDown (n : Nat)
  | up (n : Nat)
  | create (p : Int)
  | unblock (t : Tid)
  | block
  | yield
  | timerSleep (ticks : Int)
  | exit
  | idle
  | timer
  | intrUp (n : Nat)
  | intrUnblock (t : Tid)

section Statements

variable (k : Kernel)

def setPc (p : Pc) : Kernel := { k with pc := update k.pc k.sched.current p }

def setSema (m : SemaId) (s : Semaphore) : Kernel := { k with sema := update k.sema m s }

def setPriority (t : Tid) (p : Int) : Kernel :=
  { k with sched := { k.sched with priority := update k.sched.priority t p } }

def getPriority : Int := k.sched.priority k.sched.current

def heldByCurrentThread (l : LockId) : Prop := k.holder l = some k.sched.current

instance (l : LockId) : Decidable (k.heldByCurrentThread l) :=
  inferInstanceAs (Decidable (k.holder l = some k.sched.current))

def afterDown : SemaId → Pc
  | .lock l => .acquireClear l
  | .plain _ => .user

/-- The loop of `down`, from a test of the value to the next switch or to the return. -/
def downLoop (m : SemaId) : Kernel :=
  if (k.sema m).value = 0 then
    let s := { k.sema m with waiters := (k.sema m).waiters ++ [k.sched.current] }
    { (k.setSema m s).setPc (.inDown m) with sched := k.sched.block }
  else (k.setSema m { k.sema m with value := (k.sema m).value - 1 }).setPc (afterDown m)

def incr (m : SemaId) : Kernel := k.setSema m { k.sema m with value := (k.sema m).value + 1 }

/-- The first half of `up`: the best waiter leaves the queue and is unblocked. The flag says that the
caller was switched away from. -/
def wakeOne (intr : Bool) (m : SemaId) : Option (Kernel × Bool) :=
  match (k.sema m).waiters[bestIdx k.sched.priority (k.sema m).waiters]? with
  | none => some (k, false)
  | some waiter =>
    let k' := k.setSema m { k.sema m with
      waiters := (k.sema m).waiters.eraseIdx (bestIdx k.sched.priority (k.sema m).waiters) }
    (k.sched.unblock intr waiter).map fun r ↦ ({ k' with sched := r.1 }, r.2)

def up (m : SemaId) : Option Kernel :=
  (k.wakeOne false m).map fun r ↦
    if r.2 then { r.1 with pc := update k.pc k.sched.current (.inUp m) } else (r.1.incr m).setPc .user

/-- The middle of `acquire`, with interrupts off: the thread records what it waits for and donates. -/
def acquireDonate (l : LockId) : Kernel :=
  match k.holder l with
  | none => k.setPc (.acquireDown l)
  | some h =>
    let waitingOn := update k.waitingOnLock k.sched.current (some l)
    { k.setPc (.acquireDown l) with
      waitingOnLock := waitingOn
      sched := { k.sched with
        priority := donatePriority waitingOn k.holder k.getPriority 8 (some h) k.sched.priority } }

def shouldYield : Bool := k.sched.readyList.any fun t ↦ k.sched.priority t > k.getPriority

/-- `unblock` with interrupts on: they are on again before the caller yields. -/
def unblockHere (t : Tid) : Option Kernel :=
  (k.sched.unblock true t).map fun r ↦
    { k with
      sched := r.1
      pc := if k.sched.priority t > k.getPriority then update k.pc k.sched.current .yielding else k.pc }

def created (p : Int) : Kernel :=
  { k with
    sched := { k.sched with
      status := update k.sched.status k.nextTid .blocked
      priority := update k.sched.priority k.nextTid p }
    originalPriority := update k.originalPriority k.nextTid p
    nextTid := k.nextTid + 1 }

def goToSleep (wakeup : Int) : Kernel :=
  { k.setPc .inSleep with
    sleepList := k.sleepList.takeWhile (·.wakeupTick ≤ wakeup) ++ ⟨wakeup, k.sched.current⟩ ::
      k.sleepList.dropWhile (·.wakeupTick ≤ wakeup)
    sched := k.sched.block }

def wakeSleepingThreads (now : Int) : List SleepEntry → Sched → Option (List SleepEntry × Sched)
  | [], s => some ([], s)
  | e :: rest, s =>
    if e.wakeupTick > now then some (e :: rest, s)
    else (s.unblock true e.thread).bind fun r ↦ wakeSleepingThreads now rest r.1

/-- `timer_interrupt` with the yield on return that `tick` asks for at the end of a slice. -/
def timer : Option Kernel :=
  (wakeSleepingThreads (k.ticks + 1) k.sleepList k.sched).map fun r ↦
    { k with
      ticks := k.ticks + 1
      sleepList := r.1
      threadTicks := k.threadTicks + 1
      sched := if k.threadTicks + 1 ≥ timeSlice then r.2.yieldCurrent else r.2 }

def next : Option Kernel :=
  let cur := k.sched.current
  match k.pc cur with
  | .acquireDonate l => some (k.acquireDonate l)
  | .acquireDown l => some (k.downLoop (.lock l))
  | .acquireClear l => some { k.setPc (.acquireHold l) with waitingOnLock := update k.waitingOnLock cur none }
  | .acquireHold l => some { k.setPc .user with
      holder := update k.holder l (some cur)
      owns := update k.owns cur (insert l (k.owns cur)) }
  | .releaseRestore l => some ((k.setPriority cur (k.originalPriority cur)).setPc (.releaseClear l))
  | .releaseClear l => some { k.setPc (.releaseUp l) with holder := update k.holder l none }
  | .releaseUp l => k.up (.lock l)
  | .setBase p => some { k.setPc .checkYield with originalPriority := update k.originalPriority cur p }
  | .checkYield => some (k.setPc (if k.shouldYield then .yielding else .user))
  | .yielding => some { k.setPc .user with sched := k.sched.yieldCurrent }
  | .sleep wakeup => some (k.goToSleep wakeup)
  | .user | .inDown _ | .inUp _ | .inSleep => none

/-- A switched-to thread goes on where it left the CPU, up to a point with interrupts on. -/
def resume : Kernel :=
  let k' := { k with sched := k.sched.scheduleTail }
  match k.pc k.sched.current with
  | .inDown m => k'.downLoop m
  | .inUp m => (k'.incr m).setPc .user
  | .inSleep => k'.setPc .user
  | _ => k'

def AtUser : Prop :=
  k.sched.switched = false ∧ k.pc k.sched.current = .user ∧ k.sched.current ≠ k.sched.idleThread

instance : Decidable k.AtUser := inferInstanceAs (Decidable (_ ∧ _ ∧ _))

/-- The thread is blocked, if at all, by a call of `block` outside the operations of this module. -/
def Elsewhere (t : Tid) : Prop := k.pc t = .user ∧ t ≠ k.sched.idleThread

instance (t : Tid) : Decidable (k.Elsewhere t) := inferInstanceAs (Decidable (_ ∧ _))

/-- One step, without the reset of the slice. A failed assertion ends the run. A thread does not exit while
it holds a lock, and the idle thread only blocks. -/
def act : Act → Option Kernel
  | .resume => if k.sched.switched then some k.resume else none
  | .next => if ¬ k.sched.switched then k.next else none
  | .acquire l =>
    if k.AtUser ∧ ¬ k.heldByCurrentThread l then some (k.setPc (.acquireDonate l)) else none
  | .tryAcquire l =>
    if k.AtUser then
      let s := k.sema (.lock l)
      if s.value > 0 then some ((k.setSema (.lock l) { s with value := s.value - 1 }).setPc (.acquireHold l))
      else some k
    else none
  | .release l =>
    if k.AtUser ∧ k.heldByCurrentThread l then
      some { k.setPc (.releaseRestore l) with
        owns := update k.owns k.sched.current ((k.owns k.sched.current).erase l) }
    else none
  | .setPriority p =>
    if k.AtUser ∧ i32Min ≤ p then some ((k.setPriority k.sched.current p).setPc (.setBase p)) else none
  | .down n => if k.AtUser then some (k.downLoop (.plain n)) else none
  | .tryDown n =>
    if k.AtUser then
      let s := k.sema (.plain n)
      if s.value > 0 then some (k.setSema (.plain n) { s with value := s.value - 1 }) else some k
    else none
  | .up n => if k.AtUser then k.up (.plain n) else none
  | .create p => if k.AtUser ∧ i32Min ≤ p then (k.created p).unblockHere k.nextTid else none
  | .unblock t => if k.AtUser ∧ k.Elsewhere t then k.unblockHere t else none
  | .block => if k.AtUser then some { k with sched := k.sched.block } else none
  | .yield => if k.AtUser then some { k with sched := k.sched.yieldCurrent } else none
  | .timerSleep n =>
    if k.AtUser then if n ≤ 0 then some k else some (k.setPc (.sleep (k.ticks + n))) else none
  | .exit =>
    if k.AtUser ∧ k.owns k.sched.current = ∅ then some { k with sched := k.sched.exit } else none
  | .idle =>
    if k.sched.switched = false ∧ k.sched.current = k.sched.idleThread then
      some { k with sched := k.sched.block }
    else none
  | .timer => if k.sched.switched = false then k.timer else none
  | .intrUp n =>
    if k.sched.switched = false then (k.wakeOne true (.plain n)).map fun r ↦ r.1.incr (.plain n) else none
  | .intrUnblock t =>
    if k.sched.switched = false ∧ k.Elsewhere t then
      (k.sched.unblock true t).map fun r ↦ { k with sched := r.1 }
    else none

def finish : Kernel := if k.sched.switched then { k with threadTicks := 0 } else k

def step (x : Act) : Option Kernel := (k.act x).map finish

def locks : Locks where
  pc := k.pc
  owns := k.owns
  holder := k.holder
  value l := (k.sema (.lock l)).value
  waitingOn := k.waitingOnLock
  base := k.originalPriority
  priority := k.sched.priority
  nextTid := k.nextTid

def stmt : Act → Stmt
  | .next =>
    match k.pc k.sched.current with
    | .acquireDonate l => .donate l
    | .acquireHold l => .hold l
    | .releaseRestore l => .restore l
    | _ => .other
  | .setPriority p => .setPriority p
  | _ => .other

end Statements

section Protocol

variable {k k' : Kernel} {x : Act} {m : SemaId} {l : LockId} {n : Nat}

@[simp] theorem locks_finish : k.finish.locks = k.locks := by
  unfold finish
  split <;> rfl

theorem locks_setPc (p : Pc) : (k.setPc p).locks = k.locks.setPc k.sched.current p := rfl

theorem locks_setSema_lock (s : Semaphore) : (k.setSema (.lock l) s).locks = k.locks.setValue l s.value := by
  simp only [locks, setSema, setValue, Locks.mk.injEq, true_and, and_true]
  funext l'
  by_cases hl : l' = l
  · simp [hl]
  · simp [hl]

theorem locks_setSema_plain (s : Semaphore) : (k.setSema (.plain n) s).locks = k.locks := by
  simp [locks, setSema]

theorem locks_setSema_waiters (w : List Tid) :
    (k.setSema m { k.sema m with waiters := w }).locks = k.locks := by
  cases m with
  | lock l =>
    rw [locks_setSema_lock]
    simp [locks, setValue]
  | plain n => exact locks_setSema_plain _

theorem wakeOne_locks {intr : Bool} {r : Kernel × Bool} (h : k.wakeOne intr m = some r) :
    r.1.locks = k.locks ∧ (r.2 = false → r.1.sched.current = k.sched.current) := by
  unfold wakeOne at h
  split at h
  · cases h
    exact ⟨rfl, fun _ ↦ rfl⟩
  · obtain ⟨⟨s, b⟩, hs, rfl⟩ := map_eq_some_iff.mp h
    refine ⟨?_, ?_⟩
    · have hpri : s.priority = k.sched.priority := (Sched.unblock_priority hs).1
      rw [← locks_setSema_waiters (k := k)]
      simp only [locks, hpri]
      rfl
    · rintro rfl
      exact Sched.unblock_current hs

theorem wakeSleepingThreads_priority {now : Int} {sleepers : List SleepEntry} {s : Sched}
    {r : List SleepEntry × Sched} (h : wakeSleepingThreads now sleepers s = some r) :
    r.2.priority = s.priority := by
  induction sleepers generalizing s with
  | nil =>
    cases h
    rfl
  | cons e rest ih =>
    rw [wakeSleepingThreads] at h
    split at h
    · cases h
      rfl
    · obtain ⟨r', hr', h⟩ := bind_eq_some_iff.mp h
      rw [ih h, (Sched.unblock_priority hr').1]

theorem downLoop_plain (hc : (k.pc k.sched.current).lock = none ∧ ∀ q, k.pc k.sched.current ≠ .setBase q) :
    k.locks.Move k.sched.current .other (k.downLoop (.plain n)).locks := by
  unfold downLoop
  split
  · have h := Move.quiet (v := k.locks) (.inDown (.plain n)) hc ⟨rfl, by simp⟩
    exact h
  · exact .quiet _ hc ⟨rfl, by simp [afterDown]⟩

theorem downLoop_lock (hc : (k.pc k.sched.current).waits = some l) :
    k.locks.Move k.sched.current .other (k.downLoop (.lock l)).locks := by
  unfold downLoop
  split
  · next hv =>
    have h := Move.wait (v := k.locks) l hc hv
    nth_rewrite 2 [← locks_setSema_waiters
      _] at h
    exact h
  · next hv =>
    rw [locks_setPc, locks_setSema_lock]
    exact .take l hc hv

theorem locks_incr_lock : (k.incr (.lock l)).locks = k.locks.setValue l (k.locks.value l + 1) :=
  locks_setSema_lock _

theorem locks_incr_plain : (k.incr (.plain n)).locks = k.locks := locks_setSema_plain _

theorem up_locks (h : k.up m = some k') :
    k'.locks = k.locks.setPc k.sched.current (.inUp m) ∨
      k'.locks = (k.incr m).locks.setPc k.sched.current .user := by
  obtain ⟨r, hr, rfl⟩ := map_eq_some_iff.mp h
  obtain ⟨hl, hcur⟩ := wakeOne_locks hr
  split
  · left
    have hpc : r.1.pc = k.pc := congrArg Locks.pc hl
    rw [← hl]
    simp only [locks, Locks.setPc, hpc]
  · next hb =>
    right
    rw [locks_setPc]
    have hc : (r.1.incr m).sched.current = k.sched.current := hcur (by simpa using hb)
    rw [hc]
    cases m with
    | lock l => rw [locks_incr_lock, locks_incr_lock, hl]
    | plain n => rw [locks_incr_plain, locks_incr_plain, hl]

theorem locks_acquireDonate : (k.acquireDonate l).locks = k.locks.donate k.sched.current l := by
  unfold acquireDonate donate
  cases h : k.holder l with
  | none => simp [locks, h, setPc, Locks.setPc]
  | some t => simp [locks, h, setPc, Locks.setPc, getPriority]

theorem unblockHere_locks {t : Tid} (h : k.unblockHere t = some k') : ∃ p, (p = .user ∨ p = .yielding) ∧
    (k.pc k.sched.current = .user → k'.locks = k.locks.setPc k.sched.current p) := by
  obtain ⟨r, hr, rfl⟩ := map_eq_some_iff.mp h
  have hpri := (Sched.unblock_priority hr).1
  by_cases ht : k.sched.priority t > k.getPriority
  · exact ⟨.yielding, .inr rfl, fun _ ↦ by simp [locks, Locks.setPc, hpri, ht]⟩
  · refine ⟨.user, .inl rfl, fun hu ↦ ?_⟩
    have : update k.pc k.sched.current .user = k.pc := by rw [← hu, update_eq_self]
    simp [locks, Locks.setPc, hpri, ht, this]

theorem timer_locks (h : k.timer = some k') : k'.locks = k.locks := by
  obtain ⟨r, hr, rfl⟩ := map_eq_some_iff.mp h
  have hpri : (if k.threadTicks + 1 ≥ timeSlice then r.2.yieldCurrent else r.2).priority =
      k.sched.priority := by
    split <;> simp [wakeSleepingThreads_priority hr]
  simp only [locks, hpri]

theorem next_move (h : k.next = some k') : k.locks.Move k.sched.current (k.stmt .next) k'.locks := by
  unfold next at h
  unfold stmt
  cases hpc : k.pc k.sched.current <;> simp only [hpc, some.injEq, reduceCtorEq] at h
  case acquireDonate l =>
    rw [← h, locks_acquireDonate]
    exact .donate l hpc
  case acquireDown l =>
    rw [← h]
    exact downLoop_lock (by rw [hpc]; rfl)
  case acquireClear l =>
    rw [← h]
    exact .clear l hpc
  case acquireHold l =>
    rw [← h]
    exact .hold l hpc
  case releaseRestore l =>
    rw [← h]
    exact .restore l hpc
  case releaseClear l =>
    rw [← h]
    exact .drop l hpc
  case releaseUp l =>
    obtain e | e := up_locks h
    · rw [e]
      exact .wake l hpc
    · rw [e, locks_incr_lock]
      exact .free l (.inl hpc)
  case setBase p =>
    rw [← h]
    exact .setBase p hpc
  case checkYield =>
    rw [← h]
    refine .quiet _ (by simp [locks, hpc, Pc.lock]) ?_
    split <;> simp [Pc.lock]
  case yielding =>
    rw [← h]
    have hm := Move.quiet (v := k.locks) (c := k.sched.current) .user
      (by simp [locks, hpc, Pc.lock]) (by simp)
    simpa [locks, setPc, Locks.setPc] using hm
  case sleep w =>
    rw [← h]
    exact .quiet .inSleep (by simp [locks, hpc, Pc.lock]) (by simp [Pc.lock])

theorem resume_move : k.locks.Move k.sched.current .other k.resume.locks := by
  unfold resume
  cases hpc : k.pc k.sched.current with
  | inDown m =>
    cases m with
    | lock l => exact downLoop_lock (k := { k with sched := k.sched.scheduleTail }) (by simp [hpc])
    | plain n =>
      exact downLoop_plain (k := { k with sched := k.sched.scheduleTail }) (by simp [hpc, Pc.lock])
  | inUp m =>
    simp only [locks_setPc]
    cases m with
    | lock l =>
      rw [locks_incr_lock]
      exact .free l (.inr hpc)
    | plain n =>
      exact .quiet .user (by simp [locks, hpc, Pc.lock]) (by simp)
  | inSleep => exact .quiet .user (by simp [locks, hpc, Pc.lock]) (by simp)
  | _ => exact .stay

theorem step_move (hs : k.step x = some k') : k.locks.Move k.sched.current (k.stmt x) k'.locks := by
  obtain ⟨k₁, h, rfl⟩ := map_eq_some_iff.mp hs
  rw [locks_finish]
  have huser : k.AtUser → (k.pc k.sched.current).lock = none ∧ ∀ q, k.pc k.sched.current ≠ .setBase q := by
    rintro ⟨_, hu, _⟩
    simp [hu]
  have hsched : ∀ s : Sched, s.priority = k.sched.priority →
      ({ k with sched := s }).locks = k.locks := by
    intro s hp
    simp [locks, hp]
  cases x <;> obtain ⟨hg, ha⟩ := ite_none_right_eq_some.mp h
  case resume =>
    cases ha
    exact resume_move
  case next =>
    exact next_move ha
  case acquire l =>
    cases ha
    exact .acquire l hg.1.2.1 hg.2
  case tryAcquire l =>
    split at ha
    · next hv =>
      cases ha
      rw [locks_setPc, locks_setSema_lock]
      exact .tryTake l hg.2.1 (pos_iff_ne_zero.mp hv)
    · cases ha
      exact .stay
  case release l =>
    cases ha
    exact .release l hg.1.2.1 hg.2
  case setPriority p =>
    cases ha
    exact .setPriority p hg.2 hg.1.2.1
  case down n =>
    cases ha
    exact downLoop_plain (huser hg)
  case tryDown n =>
    split at ha
    · cases ha
      exact .stay
    · cases ha
      exact .stay
  case up n =>
    obtain e | e := up_locks ha
    · rw [e]
      exact .quiet _ (huser hg) (by simp [Pc.lock])
    · rw [e]
      exact .quiet _ (huser hg) (by simp)
  case create q =>
    obtain ⟨p, hp, he⟩ := unblockHere_locks ha
    rw [he hg.1.2.1]
    exact .create q hg.2 p hg.1.2.1 hp
  case unblock t =>
    obtain ⟨p, hp, he⟩ := unblockHere_locks ha
    rw [he hg.1.2.1]
    exact .quiet p (huser hg.1) (by obtain rfl | rfl := hp <;> simp [Pc.lock])
  case block | exit | idle =>
    cases ha
    exact .stay
  case yield =>
    cases ha
    rw [hsched _ (Sched.yieldCurrent_priority _)]
    exact .stay
  case timerSleep n =>
    split at ha
    · cases ha
      exact .stay
    · cases ha
      exact .quiet _ (huser hg) (by simp [Pc.lock])
  case timer =>
    rw [timer_locks ha]
    exact .stay
  case intrUp n =>
    obtain ⟨r, hr, rfl⟩ := map_eq_some_iff.mp ha
    rw [locks_incr_plain, (wakeOne_locks hr).1]
    exact .stay
  case intrUnblock t =>
    obtain ⟨r, hr, rfl⟩ := map_eq_some_iff.mp ha
    rw [hsched _ (Sched.unblock_priority hr).1]
    exact .stay

end Protocol

section Threads

variable {k k' : Kernel} {x : Act} {m : SemaId} {P : Tid → Prop} {p : Int}

def Born (k : Kernel) : Prop := k.sched.Known (· < k.nextTid)

theorem downLoop_known (h : k.sched.Known P) : (k.downLoop m).sched.Known P := by
  unfold downLoop
  split
  · exact h.block
  · exact h

theorem wakeOne_known {intr : Bool} {r : Kernel × Bool} (h : k.sched.Known P)
    (hs : k.wakeOne intr m = some r) : r.1.sched.Known P := by
  unfold wakeOne at hs
  split at hs
  · cases hs
    exact h
  · obtain ⟨q, hq, rfl⟩ := map_eq_some_iff.mp hs
    exact h.unblock hq

theorem up_known (h : k.sched.Known P) (hs : k.up m = some k') : k'.sched.Known P := by
  obtain ⟨r, hr, rfl⟩ := map_eq_some_iff.mp hs
  split <;> exact wakeOne_known h hr

theorem unblockHere_known {t : Tid} (h : k.sched.Known P) (hs : k.unblockHere t = some k') :
    k'.sched.Known P := by
  obtain ⟨r, hr, rfl⟩ := map_eq_some_iff.mp hs
  exact h.unblock hr

theorem wakeSleepingThreads_known {now : Int} {sleepers : List SleepEntry} {s : Sched}
    {r : List SleepEntry × Sched} (h : s.Known P) (hs : wakeSleepingThreads now sleepers s = some r) :
    r.2.Known P := by
  induction sleepers generalizing s with
  | nil =>
    cases hs
    exact h
  | cons e rest ih =>
    rw [wakeSleepingThreads] at hs
    split at hs
    · cases hs
      exact h
    · obtain ⟨q, hq, hs⟩ := bind_eq_some_iff.mp hs
      exact ih (h.unblock hq) hs

section

variable (h : k.sched.Known P)
include h

theorem timer_known (hs : k.timer = some k') : k'.sched.Known P := by
  obtain ⟨r, hr, rfl⟩ := map_eq_some_iff.mp hs
  have hr' := wakeSleepingThreads_known h hr
  split
  · exact hr'.yieldCurrent
  · exact hr'

theorem next_known (hs : k.next = some k') : k'.sched.Known P := by
  unfold next at hs
  cases hpc : k.pc k.sched.current <;> simp only [hpc, some.injEq, reduceCtorEq] at hs
  case acquireDonate l =>
    subst hs
    unfold acquireDonate
    split
    · exact h
    · exact h.setPriority _
  case acquireDown l =>
    subst hs
    exact downLoop_known h
  case releaseRestore l =>
    subst hs
    exact h.setPriority _
  case releaseUp l =>
    exact up_known h hs
  case yielding =>
    subst hs
    exact h.yieldCurrent
  case sleep w =>
    subst hs
    exact h.block
  all_goals
    subst hs
    exact h

theorem resume_known : k.resume.sched.Known P := by
  unfold resume
  cases k.pc k.sched.current with
  | inDown m => exact downLoop_known h.scheduleTail
  | _ => exact h.scheduleTail

theorem created_known (hP : P k.nextTid) : (k.created p).sched.Known P := by
  obtain ⟨hc, hi, hr, hb⟩ := h.update hP .blocked
  exact ⟨hc, hi, hr, hb⟩

theorem act_known (hP : (∃ p, x = .create p) → P k.nextTid) (hs : k.act x = some k') :
    k'.sched.Known P := by
  cases x <;> obtain ⟨hg, ha⟩ := ite_none_right_eq_some.mp hs
  case resume =>
    cases ha
    exact resume_known h
  case next =>
    exact next_known h ha
  case acquire l =>
    cases ha
    exact h
  case tryAcquire l =>
    split at ha <;> cases ha <;> exact h
  case release l =>
    cases ha
    exact h
  case setPriority p =>
    cases ha
    exact h.setPriority _
  case down n =>
    cases ha
    exact downLoop_known h
  case tryDown n =>
    split at ha <;> cases ha <;> exact h
  case up n =>
    exact up_known h ha
  case create p =>
    exact unblockHere_known (created_known h (hP ⟨p, rfl⟩)) ha
  case unblock t =>
    exact unblockHere_known h ha
  case block | idle =>
    cases ha
    exact h.block
  case yield =>
    cases ha
    exact h.yieldCurrent
  case timerSleep n =>
    split at ha <;> cases ha <;> exact h
  case exit =>
    cases ha
    exact h.exit
  case timer =>
    exact timer_known h ha
  case intrUp n =>
    obtain ⟨r, hr, rfl⟩ := map_eq_some_iff.mp ha
    exact wakeOne_known h hr
  case intrUnblock t =>
    obtain ⟨r, hr, rfl⟩ := map_eq_some_iff.mp ha
    exact h.unblock hr

end

theorem finish_sched : k.finish.sched = k.sched := by
  unfold finish
  split <;> rfl

theorem act_create (hs : k.act (.create p) = some k') : k'.nextTid = k.nextTid + 1 := by
  obtain ⟨_, hs⟩ := ite_none_right_eq_some.mp hs
  obtain ⟨r, _, rfl⟩ := map_eq_some_iff.mp hs
  rfl

theorem step_born (h : k.Born) (hs : k.step x = some k') : k'.Born := by
  have hle : k.nextTid ≤ k'.nextTid := (step_move hs).nextTid_le
  obtain ⟨k₁, ha, rfl⟩ := map_eq_some_iff.mp hs
  have hnext : k₁.finish.nextTid = k₁.nextTid := congrArg Locks.nextTid locks_finish
  unfold Born
  rw [finish_sched]
  refine act_known (h.mono fun t ht ↦ ht.trans_le hle) ?_ ha
  rintro ⟨p, rfl⟩
  rw [hnext, act_create ha]
  exact Int.lt_succ _

end Threads

section Exclusion

variable {k k₀ : Kernel}

/-- The kernel after `start`: the main thread runs, no other thread is ready, no lock is held and nobody
waits for anything. -/
structure Boot (k : Kernel) : Prop where
  born : k.Born
  switched : k.sched.switched = false
  readyList : k.sched.readyList = []
  pc : ∀ t, k.pc t = .user
  owns : ∀ t, k.owns t = ∅
  holder : ∀ l, k.holder l = none
  waitingOnLock : ∀ t, k.waitingOnLock t = none
  value : ∀ l, (k.sema (.lock l)).value = 1
  waiters : ∀ m, (k.sema m).waiters = []
  sleepList : k.sleepList = []
  priority : ∀ t, i32Min ≤ k.sched.priority t ∧ k.originalPriority t = k.sched.priority t

theorem Boot.locks_inv (h : Boot k) : k.locks.Inv := by
  have hin : ∀ t l, ¬ k.locks.Inside t l := by
    simp [Inside, locks, h.owns, h.pc]
  refine ⟨fun l ↦ .inl ⟨h.value l, fun t ↦ hin t l⟩, ?_, ?_, ?_, ?_⟩
  · simp [locks, h.holder, h.owns, h.pc]
  · simp [locks, h.owns]
  · simp [locks, h.waitingOnLock]
  · simp [locks, h.pc, h.owns]

theorem inv_of_run (h₀ : Boot k₀) (hrun : Run step always k₀ k) : k.Born ∧ k.locks.Inv := by
  refine hrun.invariant (fun k ↦ k.Born ∧ k.locks.Inv) ?_ ⟨h₀.born, h₀.locks_inv⟩
  rintro k x k' ⟨hb, hl⟩ _ hs
  exact ⟨step_born hb hs, hl.move hb.current (step_move hs)⟩

/-- In every interleaving at most one thread is between the return of `acquire` or `try_acquire` and the
start of `release`, it is the holder for that time, and the assertions of a thread that acquires only what
it does not own and releases only what it owns hold. -/
theorem lock_exclusive (h₀ : Boot k₀) (hrun : Run step always k₀ k) :
    (∀ l t u, l ∈ k.owns t → l ∈ k.owns u → t = u) ∧ (∀ l t, l ∈ k.owns t → k.holder l = some t) ∧
        (k.AtUser → ∀ l, (l ∉ k.owns k.sched.current → ¬ k.heldByCurrentThread l) ∧
          (l ∈ k.owns k.sched.current → k.heldByCurrentThread l)) := by
  obtain ⟨_, hl⟩ := inv_of_run h₀ hrun
  refine ⟨?_, ?_, ?_⟩
  · intro l t u ht hu
    exact hl.inside_unique (.inl ht) (.inl hu)
  · intro l t ht
    exact hl.holder_of_owns ht
  · rintro ⟨_, hu, _⟩ l
    refine ⟨fun hn hh ↦ hn ?_, hl.holder_of_owns⟩
    simpa [locks, hu] using (hl.holder l k.sched.current).mp hh

def initial : SemaId → Nat
  | .lock _ => 1
  | .plain _ => 0

def boot : Kernel where
  sched :=
    { status := fun t ↦ if t = 1 then .running else if t = 2 then .blocked else .dying
      priority := fun t ↦ if t = 2 then 0 else 31
      readyList := []
      idleThread := 2
      current := 1
      switched := false }
  originalPriority := fun t ↦ if t = 2 then 0 else 31
  waitingOnLock := fun _ ↦ none
  holder := fun _ ↦ none
  sema := fun m ↦ ⟨initial m, []⟩
  pc := fun _ ↦ .user
  owns := fun _ ↦ ∅
  nextTid := 3
  threadTicks := 0
  ticks := 0
  sleepList := []

theorem boot_ok : Boot boot := by
  refine ⟨⟨by decide, by decide, by simp [boot], ?_⟩, rfl, rfl, fun _ ↦ rfl, fun _ ↦ rfl, fun _ ↦ rfl,
    fun _ ↦ rfl, fun _ ↦ rfl, fun _ ↦ rfl, rfl, ?_⟩
  · intro t ht
    by_cases h1 : t = 1
    · rw [h1]
      decide
    · by_cases h2 : t = 2
      · rw [h2]
        decide
      · simp [boot, h1, h2] at ht
  · intro t
    by_cases h2 : t = 2 <;> simp [boot, h2, i32Min]

/-- All statements of `acquire` when the lock is free. -/
def acquireFree (l : LockId) : List Act := [.acquire l, .next, .next, .next, .next]

def contended : List Act :=
  acquireFree 0 ++ [.create 40, .next, .resume, .acquire 0, .next, .next, .resume]

theorem lock_exclusive_contended : ∃ k, exec step boot contended = some k ∧ k.sched.current = 1 ∧
    k.pc 3 = .inDown (.lock 0) ∧ k.getPriority = 40 ∧ 0 ∈ k.owns 1 ∧ k.holder 0 = some 1 := by
  have hrun : ∃ k, exec step boot contended = some k ∧ k.sched.current = 1 ∧ k.pc 3 = .inDown (.lock 0) ∧
      k.getPriority = 40 ∧ 0 ∈ k.owns 1 := ⟨_, rfl, rfl, rfl, rfl, by decide⟩
  obtain ⟨k, hk, hc, hp, hg, ho⟩ := hrun
  exact ⟨k, hk, hc, hp, hg, ho, (lock_exclusive boot_ok (Run.of_exec hk)).2.1 0 1 ho⟩

end Exclusion

end Kernel

end Rxv6.Sync
