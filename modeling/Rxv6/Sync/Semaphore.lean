import Rxv6.Lib.Runs
import Rxv6.Thread.Scheduler

namespace Rxv6.Sync

open Function Rxv6.Thread Rxv6.Lib.Runs List Option

structure Semaphore where
  value : Nat
  waiters : List Tid
  deriving DecidableEq, Repr

namespace Semaphore

/-- Where a thread stands with respect to one semaphore: outside its operations, in
`down` at the test of the loop, or in `up` between `unblock` and the increment. -/
inductive Pc
  | user | inDown | inUp
  deriving DecidableEq, Repr

structure System where
  sched : Sched
  sema : Semaphore
  pc : Tid → Pc

inductive Act
  | resume
  | down
  | tryDown
  | up
  | intrUp
  | preempt
  | blockElsewhere
  | wakeElsewhere (intr : Bool) (t : Tid)
  | setPriority (t : Tid) (p : Int)

namespace System

/-- The loop of `down`, from a test of the value to the next switch or to the return. -/
def downLoop (s : System) : System :=
  if s.sema.value = 0 then
    { sched := s.sched.block
      sema := { s.sema with waiters := s.sema.waiters ++ [s.sched.current] }
      pc := update s.pc s.sched.current .inDown }
  else
    { s with
      sema := { s.sema with value := s.sema.value - 1 }
      pc := update s.pc s.sched.current .user }

def tryDown (s : System) : System :=
  if s.sema.value > 0 then { s with sema := { s.sema with value := s.sema.value - 1 } } else s

def upEnd (s : System) : System :=
  { s with
    sema := { s.sema with value := s.sema.value + 1 }
    pc := update s.pc s.sched.current .user }

/-- `up` removes the best waiter, unblocks it and increments the value. When `unblock`
switches away, the increment is left for the caller's next turn. -/
def up (intr : Bool) (s : System) : Option System :=
  match s.sema.waiters[bestIdx s.sched.priority s.sema.waiters]? with
  | none => some s.upEnd
  | some waiter =>
    let sema := { s.sema with
      waiters := s.sema.waiters.eraseIdx (bestIdx s.sched.priority s.sema.waiters) }
    match s.sched.unblock intr waiter with
    | none => none
    | some (k, true) => some { sched := k, sema := sema, pc := update s.pc s.sched.current .inUp }
    | some (k, false) => some (upEnd { s with sched := k, sema := sema })

def resume (s : System) : System :=
  let s' := { s with sched := s.sched.scheduleTail }
  match s.pc s.sched.current with
  | .user => s'
  | .inDown => s'.downLoop
  | .inUp => s'.upEnd

/-- One step: the thread on the CPU runs to its next switch or to a point with
interrupts on. The idle thread never touches the semaphore. -/
def step (s : System) : Act → Option System
  | .resume => if s.sched.switched then some s.resume else none
  | .down => if ¬ s.sched.switched ∧ s.sched.current ≠ s.sched.idleThread then some s.downLoop else none
  | .tryDown => if ¬ s.sched.switched then some s.tryDown else none
  | .up => if ¬ s.sched.switched ∧ s.sched.current ≠ s.sched.idleThread then s.up false else none
  | .intrUp => if ¬ s.sched.switched then s.up true else none
  | .preempt => if ¬ s.sched.switched then some { s with sched := s.sched.yieldCurrent } else none
  | .blockElsewhere => if ¬ s.sched.switched then some { s with sched := s.sched.block } else none
  | .wakeElsewhere intr t =>
    if ¬ s.sched.switched ∧ s.pc t = .user ∧ t ≠ s.sched.idleThread then
      (s.sched.unblock intr t).map fun r ↦ { s with sched := r.1 }
    else none
  | .setPriority t p => some { s with sched := { s.sched with priority := update s.sched.priority t p } }

end System

structure Init (s : System) : Prop where
  sched : s.sched.Ok
  waiters : s.sema.waiters = []
  pc : ∀ t, s.pc t = .user
  running : s.sched.switched = false

def NoLostWakeup (s : System) : Prop :=
  (∀ t, s.pc t ≠ .inUp) → 0 < s.sema.value → s.sema.waiters = [] ∨
      ∃ t, s.pc t = .inDown ∧ t ∉ s.sema.waiters ∧ s.sched.status t = .ready

/-- `up` does not find as its best waiter a thread of higher priority than the caller. -/
def NoSwitchInUp (s : System) : Act → Prop
  | .up => ∀ w, s.sema.waiters[bestIdx s.sched.priority s.sema.waiters]? = some w →
      s.sched.priority w ≤ s.sched.priority s.sched.current
  | _ => True

/-- The threads of `l` that the semaphore has woken and that have not resumed yet. -/
def wokenIn (status : Tid → ThreadStatus) (pc : Tid → Pc) (l : List Tid) : Nat :=
  l.countP fun t ↦ status t = .ready ∧ pc t = .inDown

def woken (s : System) : Nat := wokenIn s.sched.status s.pc (s.sched.current :: s.sched.readyList)

structure Inv (s : System) : Prop where
  sched : s.sched.Ok
  user : s.sched.switched = false → s.pc s.sched.current = .user
  idle : s.pc s.sched.idleThread = .user
  waiter : ∀ t ∈ s.sema.waiters, s.sched.status t = .blocked ∧ s.pc t = .inDown
  nodup : s.sema.waiters.Nodup
  noUp : ∀ t, s.pc t ≠ .inUp
  tokens : s.sema.waiters = [] ∨ s.sema.value ≤ woken s

theorem wokenIn_congr {status status' : Tid → ThreadStatus} {pc pc' : Tid → Pc} {l : List Tid}
    (h : ∀ t ∈ l, (status' t = .ready ∧ pc' t = .inDown) ↔ (status t = .ready ∧ pc t = .inDown)) :
    wokenIn status' pc' l = wokenIn status pc l := by
  apply countP_congr
  intro t ht
  simpa using h t ht

theorem wokenIn_append (status : Tid → ThreadStatus) (pc : Tid → Pc) (l l' : List Tid) :
    wokenIn status pc (l ++ l') = wokenIn status pc l + wokenIn status pc l' :=
  countP_append

variable {s : System} {t : Tid} {intr : Bool}

theorem woken_of_running (h : s.sched.status s.sched.current = .running) :
    woken s = wokenIn s.sched.status s.pc s.sched.readyList := by
  unfold woken wokenIn
  rw [countP_cons_of_neg (by simp [h])]

theorem schedule_inv (k : Sched) (m : Semaphore) (pc : Tid → Pc) (hnodup : k.readyList.Nodup)
    (hready : ∀ t ∈ k.readyList, k.status t = .ready)
    (hnotin : k.idleThread ∉ k.readyList) (hidle : pc k.idleThread = .user)
    (hwait : ∀ t ∈ m.waiters, k.status t = .blocked ∧ pc t = .inDown) (hnd : m.waiters.Nodup)
    (hup : ∀ t, pc t ≠ .inUp)
    (htok : m.waiters = [] ∨ m.value ≤ wokenIn k.status pc k.readyList) :
    Inv ⟨k.schedule, m, pc⟩ := by
  refine ⟨Sched.schedule_ok hnodup hready hnotin, by simp, hidle, hwait, hnd, hup, ?_⟩
  have he : woken ⟨k.schedule, m, pc⟩ = wokenIn k.status pc k.readyList := by
    obtain ⟨hl, hc, hr⟩ | hp := Sched.schedule_cases k
    · simp [woken, wokenIn, hl, hc, hr, hidle]
    · exact hp.countP_eq fun t ↦ k.status t = .ready ∧ pc t = .inDown
  rwa [he]

theorem noUp_update {pc : Tid → Pc} (hup : ∀ t, pc t ≠ .inUp) (u : Tid) {p : Pc} (hp : p ≠ .inUp) :
    ∀ t, update pc u p t ≠ .inUp := by
  intro t
  by_cases h : t = u
  · simpa [h] using hp
  · simpa [update_of_ne h] using hup t

theorem downLoop_inv (hk : s.sched.Ok) (hsw : s.sched.switched = false)
    (hcur : s.sched.current ≠ s.sched.idleThread) (hidle : s.pc s.sched.idleThread = .user)
    (hwait : ∀ t ∈ s.sema.waiters, s.sched.status t = .blocked ∧ s.pc t = .inDown)
    (hnd : s.sema.waiters.Nodup) (hup : ∀ t, s.pc t ≠ .inUp)
    (htok : s.sema.waiters = [] ∨ s.sema.value ≤ woken s + 1) : Inv s.downLoop := by
  have hrun := hk.running hsw
  have hne : ∀ t ∈ s.sema.waiters, t ≠ s.sched.current := by
    rintro t ht rfl
    have h := (hwait _ ht).1
    rw [hrun] at h
    cases h
  have hidle' (p : Pc) : update s.pc s.sched.current p s.sched.idleThread = .user := by
    rwa [update_of_ne hcur.symm]
  unfold System.downLoop
  split
  · next hv =>
    refine schedule_inv { s.sched with status := update s.sched.status s.sched.current .blocked } _ _
      (nodup_cons.mp hk.nodup).2 ?_ hk.idle (hidle' _) ?_ ?_
      (noUp_update hup _ (by simp)) (.inr (by simp [hv]))
    · intro t ht
      have hother : t ≠ s.sched.current := fun h ↦ (nodup_cons.mp hk.nodup).1 (h ▸ ht)
      simpa [update_of_ne hother] using hk.ready t ht
    · intro t ht
      rcases mem_append.mp ht with ht | ht
      · simpa [update_of_ne (hne t ht)] using hwait t ht
      · obtain rfl := mem_singleton.mp ht
        simp
    · simpa [nodup_append, hnd] using hne
  · next hv =>
    refine ⟨hk, by simp, hidle' _, ?_, hnd, noUp_update hup _ (by simp), ?_⟩
    · intro t ht
      simpa [update_of_ne (hne t ht)] using hwait t ht
    · refine htok.imp_right fun h ↦ ?_
      rw [woken_of_running hrun] at h
      rw [woken_of_running (by exact hrun)]
      have he : wokenIn s.sched.status (update s.pc s.sched.current .user) s.sched.readyList =
          wokenIn s.sched.status s.pc s.sched.readyList := by
        apply wokenIn_congr
        intro t ht
        have hother : t ≠ s.sched.current := fun h ↦ (nodup_cons.mp hk.nodup).1 (h ▸ ht)
        simp [update_of_ne hother]
      simp only
      omega

theorem Inv.waiter_ne (hi : Inv s) (ht : t ∈ s.sema.waiters) : t ≠ s.sched.current := by
  rintro rfl
  obtain ⟨hb, hd⟩ := hi.waiter _ ht
  cases hsw : s.sched.switched with
  | false => rw [hi.sched.running hsw] at hb; cases hb
  | true =>
    rcases hi.sched.dispatched hsw with h | h
    · rw [h, hi.idle] at hd; cases hd
    · rw [h] at hb; cases hb

theorem Inv.ready_ne (hi : Inv s) (ht : t ∈ s.sched.readyList) : t ≠ s.sched.current :=
  fun h ↦ (nodup_cons.mp hi.sched.nodup).1 (h ▸ ht)

theorem Inv.update_current (hi : Inv s) (st : ThreadStatus) :
    (∀ t ∈ s.sema.waiters, update s.sched.status s.sched.current st t = .blocked ∧ s.pc t = .inDown) ∧
    (∀ t ∈ s.sched.readyList, update s.sched.status s.sched.current st t = .ready) ∧
    wokenIn (update s.sched.status s.sched.current st) s.pc s.sched.readyList =
      wokenIn s.sched.status s.pc s.sched.readyList := by
  refine ⟨fun t ht ↦ ?_, fun t ht ↦ ?_, wokenIn_congr fun t ht ↦ ?_⟩
  · rw [update_of_ne (hi.waiter_ne ht)]
    exact hi.waiter t ht
  · rw [update_of_ne (hi.ready_ne ht)]
    exact hi.sched.ready t ht
  · rw [update_of_ne (hi.ready_ne ht)]

theorem resume_inv (hi : Inv s) : Inv s.resume := by
  obtain ⟨hwait, hready, hcount⟩ := hi.update_current .running
  have hk : s.sched.scheduleTail.Ok :=
    ⟨hi.sched.nodup, hready, hi.sched.idle, by simp [Sched.scheduleTail], by simp⟩
  have hrest : woken { s with sched := s.sched.scheduleTail } =
      wokenIn s.sched.status s.pc s.sched.readyList := by
    rw [woken_of_running (by simp [Sched.scheduleTail])]
    exact hcount
  unfold System.resume
  cases hpc : s.pc s.sched.current with
  | user =>
    refine ⟨hk, fun _ ↦ hpc, hi.idle, hwait, hi.nodup, hi.noUp, ?_⟩
    rw [hrest]
    simpa [woken, wokenIn, hpc] using hi.tokens
  | inDown =>
    have hne : s.sched.current ≠ s.sched.idleThread := by
      intro h
      rw [h, hi.idle] at hpc
      cases hpc
    refine downLoop_inv hk rfl hne hi.idle hwait hi.nodup hi.noUp (hi.tokens.imp_right fun h ↦ ?_)
    have hle : woken s ≤ wokenIn s.sched.status s.pc s.sched.readyList + 1 := by
      unfold woken wokenIn
      rw [countP_cons]
      split <;> omega
    rw [hrest]
    exact h.trans hle
  | inUp => exact absurd hpc (hi.noUp _)

section

variable (hi : Inv s) (hsw : s.sched.switched = false)
include hi hsw

theorem yield_inv :
    Inv { s with sched := s.sched.yieldCurrent } := by
  obtain ⟨hwait, hready, hcount⟩ := hi.update_current .ready
  have htok := hi.tokens
  rw [woken_of_running (hi.sched.running hsw), ← hcount] at htok
  unfold Sched.yieldCurrent
  split
  · next hne =>
    refine schedule_inv { s.sched with
        status := update s.sched.status s.sched.current .ready
        readyList := s.sched.readyList ++ [s.sched.current] } _ _ ?_ ?_ ?_ hi.idle hwait hi.nodup hi.noUp ?_
    · simpa [nodup_append, nodup_cons.mp hi.sched.nodup] using fun t ht ↦ hi.ready_ne ht
    · intro t ht
      rcases mem_append.mp ht with ht | ht
      · exact hready t ht
      · obtain rfl := mem_singleton.mp ht
        simp
    · simpa [symm hne] using hi.sched.idle
    · refine htok.imp_right fun h ↦ ?_
      dsimp only
      rw [wokenIn_append]
      omega
  · exact schedule_inv { s.sched with status := update s.sched.status s.sched.current .ready } _ _
      (nodup_cons.mp hi.sched.nodup).2 hready hi.sched.idle hi.idle hwait hi.nodup hi.noUp htok

theorem block_inv :
    Inv { s with sched := s.sched.block } := by
  obtain ⟨hwait, hready, hcount⟩ := hi.update_current .blocked
  have htok := hi.tokens
  rw [woken_of_running (hi.sched.running hsw), ← hcount] at htok
  exact schedule_inv { s.sched with status := update s.sched.status s.sched.current .blocked } _ _
    (nodup_cons.mp hi.sched.nodup).2 hready hi.sched.idle hi.idle hwait hi.nodup hi.noUp htok

theorem wake_inv
    (hb : s.sched.status t = .blocked) (hne : t ≠ s.sched.idleThread) {m : Semaphore}
    (hm : ∀ u ∈ m.waiters, u ∈ s.sema.waiters ∧ u ≠ t) (hnd : m.waiters.Nodup) (htok : m.waiters = [] ∨
      m.value ≤ wokenIn s.sched.status s.pc s.sched.readyList + if s.pc t = .inDown then 1 else 0) :
    Inv { s with
      sched := { s.sched with
        status := update s.sched.status t .ready
        readyList := s.sched.readyList ++ [t] }
      sema := m } := by
  have hrun := hi.sched.running hsw
  have hcur : s.sched.current ≠ t := by
    rintro rfl
    rw [hrun] at hb
    cases hb
  have hother : ∀ u ∈ s.sched.readyList, u ≠ t := by
    rintro u hu rfl
    rw [hi.sched.ready _ hu] at hb
    cases hb
  have hrun' : update s.sched.status t .ready s.sched.current = .running := by
    rwa [update_of_ne hcur]
  refine ⟨⟨?_, ?_, ?_, fun _ ↦ hrun', by simp [hsw]⟩, hi.user, hi.idle, ?_, hnd, hi.noUp, ?_⟩
  · have h := nodup_cons.mp hi.sched.nodup
    simpa [nodup_append, h, hcur] using hother
  · intro u hu
    rcases mem_append.mp hu with hu | hu
    · simpa [update_of_ne (hother u hu)] using hi.sched.ready u hu
    · obtain rfl := mem_singleton.mp hu
      simp
  · simpa [symm hne] using hi.sched.idle
  · intro u hu
    obtain ⟨hu, hut⟩ := hm u hu
    simpa [update_of_ne hut] using hi.waiter u hu
  · refine htok.imp_right fun h ↦ ?_
    have hold : wokenIn (update s.sched.status t .ready) s.pc s.sched.readyList =
        wokenIn s.sched.status s.pc s.sched.readyList :=
      wokenIn_congr fun u hu ↦ by rw [update_of_ne (hother u hu)]
    have hnew : wokenIn (update s.sched.status t .ready) s.pc [t] =
        if s.pc t = .inDown then 1 else 0 := by
      simp [wokenIn]
    rw [woken_of_running hrun', wokenIn_append, hold, hnew]
    exact h

end

theorem upEnd_eq (h : s.pc s.sched.current = .user) :
    s.upEnd = { s with sema := { s.sema with value := s.sema.value + 1 } } := by
  have he : update s.pc s.sched.current .user = s.pc := by
    rw [update_eq_self_iff, h]
  simp [System.upEnd, he]

theorem up_inv {s' : System} (hi : Inv s) (hsw : s.sched.switched = false)
    (hpri : intr = false → NoSwitchInUp s .up) (h : s.up intr = some s') : Inv s' := by
  unfold System.up at h
  cases hw : s.sema.waiters[bestIdx s.sched.priority s.sema.waiters]? with
  | none =>
    simp only [hw, some.injEq] at h
    have hempty : s.sema.waiters = [] := by
      by_contra hne
      rw [getElem?_eq_getElem (bestIdx_lt _ hne)] at hw
      cases hw
    rw [← h, upEnd_eq (hi.user hsw)]
    exact ⟨hi.sched, hi.user, hi.idle, hi.waiter, hi.nodup, hi.noUp, .inl hempty⟩
  | some w =>
    obtain ⟨hlt, hget⟩ := List.getElem?_eq_some_iff.mp hw
    have hmem : w ∈ s.sema.waiters := hget ▸ getElem_mem hlt
    obtain ⟨hb, hd⟩ := hi.waiter w hmem
    have hne : w ≠ s.sched.idleThread := by
      rintro rfl
      rw [hi.idle] at hd
      cases hd
    have hstay : ¬ (¬ intr ∧ s.sched.priority w > s.sched.priority s.sched.current) := by
      rintro ⟨hn, hgt⟩
      have := hpri (by simpa using hn) w hw
      omega
    simp only [hw, Sched.unblock, hb, if_true, if_neg hstay, some.injEq] at h
    rw [← h, upEnd_eq (by exact hi.user hsw)]
    have hperm := getElem_cons_eraseIdx_perm hlt
    rw [hget] at hperm
    have hnd := nodup_cons.mp (hperm.symm.nodup hi.nodup)
    refine wake_inv hi hsw hb hne ?_ hnd.2 (.inr ?_)
    · exact fun u hu ↦ ⟨mem_of_mem_eraseIdx hu, fun he ↦ hnd.1 (he ▸ hu)⟩
    · have htok := hi.tokens.resolve_left (ne_nil_of_mem hmem)
      rw [woken_of_running (hi.sched.running hsw)] at htok
      simpa [hd] using htok

theorem wakeElsewhere_inv {r : Sched × Bool} (hi : Inv s)
    (hsw : s.sched.switched = false) (hpc : s.pc t = .user) (hne : t ≠ s.sched.idleThread)
    (h : s.sched.unblock intr t = some r) : Inv { s with sched := r.1 } := by
  unfold Sched.unblock at h
  split at h
  · next hb =>
    have hm : ∀ u ∈ s.sema.waiters, u ∈ s.sema.waiters ∧ u ≠ t := by
      refine fun u hu ↦ ⟨hu, ?_⟩
      rintro rfl
      have hd := (hi.waiter _ hu).2
      rw [hpc] at hd
      cases hd
    have htok := hi.tokens
    rw [woken_of_running (hi.sched.running hsw)] at htok
    have hwoken := wake_inv hi hsw hb hne hm hi.nodup (by simpa [hpc] using htok)
    split at h
    · obtain rfl := some.inj h
      exact yield_inv hwoken hsw
    · obtain rfl := some.inj h
      exact hwoken
  · cases h

theorem step_inv (s : System) (a : Act) (s' : System) (hi : Inv s) (hok : NoSwitchInUp s a)
    (h : s.step a = some s') : Inv s' := by
  cases a with
  | resume =>
    simp only [System.step, ite_none_right_eq_some, some.injEq] at h
    exact h.2 ▸ resume_inv hi
  | down =>
    simp only [System.step, ite_none_right_eq_some, some.injEq] at h
    obtain ⟨⟨hsw, hne⟩, rfl⟩ := h
    exact downLoop_inv hi.sched (by simpa using hsw) hne hi.idle hi.waiter hi.nodup hi.noUp
      (hi.tokens.imp_right fun h ↦ h.trans (Nat.le_succ _))
  | tryDown =>
    simp only [System.step, ite_none_right_eq_some, some.injEq] at h
    obtain ⟨-, rfl⟩ := h
    unfold System.tryDown
    split
    · refine ⟨hi.sched, hi.user, hi.idle, hi.waiter, hi.nodup, hi.noUp, ?_⟩
      exact hi.tokens.imp_right fun h ↦ (Nat.sub_le _ _).trans h
    · exact hi
  | up =>
    simp only [System.step, ite_none_right_eq_some] at h
    exact up_inv hi (by simpa using h.1.1) (fun _ ↦ hok) h.2
  | intrUp =>
    simp only [System.step, ite_none_right_eq_some] at h
    exact up_inv hi (by simpa using h.1) (by simp) h.2
  | preempt =>
    simp only [System.step, ite_none_right_eq_some, some.injEq] at h
    exact h.2 ▸ yield_inv hi (by simpa using h.1)
  | blockElsewhere =>
    simp only [System.step, ite_none_right_eq_some, some.injEq] at h
    exact h.2 ▸ block_inv hi (by simpa using h.1)
  | wakeElsewhere intr t =>
    simp only [System.step, ite_none_right_eq_some, map_eq_some_iff] at h
    obtain ⟨⟨hsw, hpc, hne⟩, r, hr, rfl⟩ := h
    exact wakeElsewhere_inv hi (by simpa using hsw) hpc hne hr
  | setPriority t p =>
    simp only [System.step, some.injEq] at h
    subst h
    exact ⟨⟨hi.sched.nodup, hi.sched.ready, hi.sched.idle, hi.sched.running, hi.sched.dispatched⟩,
      hi.user, hi.idle, hi.waiter, hi.nodup, hi.noUp, hi.tokens⟩

theorem Init.inv (h : Init s) : Inv s :=
  ⟨h.sched, fun _ ↦ h.pc _, h.pc _, by simp [h.waiters], by simp [h.waiters], by simp [h.pc], .inl h.waiters⟩

theorem Inv.noLostWakeup (hi : Inv s) : NoLostWakeup s := by
  intro _ hv
  refine hi.tokens.imp_right fun hle ↦ ?_
  have hpos : 0 < woken s := by omega
  obtain ⟨t, -, ht⟩ := countP_pos_iff.mp hpos
  simp only [decide_eq_true_eq] at ht
  refine ⟨t, ht.2, fun hmem ↦ ?_, ht.1⟩
  have hb := (hi.waiter t hmem).1
  rw [ht.1] at hb
  cases hb

/-- As long as no `up` wakes a thread of higher priority than its caller, no wake-up of the
semaphore is lost, over all runs of any number of threads. -/
theorem no_lost_wakeup {s₀ s : System} (h₀ : Init s₀) (h : Run System.step NoSwitchInUp s₀ s) :
    NoLostWakeup s :=
  (h.invariant Inv step_inv h₀.inv).noLostWakeup

/-- Main and a second thread of the same priority, which is about to call `down`. -/
def equalPriority : System where
  sched :=
    { status := fun t ↦ if t = 3 then .running else if t = 1 then .ready else .blocked
      priority := fun _ ↦ 31
      readyList := [1]
      idleThread := 2
      current := 3
      switched := false }
  sema := ⟨0, []⟩
  pc := fun _ ↦ .user

theorem no_lost_wakeup_equalPriority : ∃ s, Run System.step NoSwitchInUp equalPriority s ∧
    s.sema.value = 1 ∧ s.sched.status 3 = .ready ∧ NoLostWakeup s := by
  have hinit : Init equalPriority :=
    ⟨⟨by decide, by decide, by decide, by decide, by decide⟩, rfl, fun _ ↦ rfl, rfl⟩
  have hrun : Run System.step NoSwitchInUp equalPriority _ :=
    .snoc (x := .up) (.snoc (x := .resume) (.one (x := .down) trivial rfl) trivial rfl)
      (by rintro w ⟨⟩; decide) rfl
  exact ⟨_, hrun, rfl, rfl, no_lost_wakeup hinit hrun⟩

/-- The threads of `test_priority_donate_one`: main at the default priority, a second thread
ten above it, and the idle thread. -/
def donateOne : System where
  sched :=
    { status := fun t ↦ if t = 3 then .running else if t = 1 then .ready else .blocked
      priority := fun t ↦ if t = 3 then 41 else if t = 1 then 31 else 0
      readyList := [1]
      idleThread := 2
      current := 3
      switched := false }
  sema := ⟨0, []⟩
  pc := fun _ ↦ .user

theorem donateOne_init : Init donateOne :=
  ⟨⟨by decide, by decide, by decide, by decide, by decide⟩, rfl, fun _ ↦ rfl, rfl⟩

/-- The high-priority thread runs in the middle of `up`, finds the value still zero and
blocks again; then main increments the value for nobody. -/
theorem up_loses_wakeup :
    Init donateOne ∧ ∃ s, Run System.step always donateOne s ∧ ¬ NoLostWakeup s := by
  refine ⟨donateOne_init, _, Run.of_exec (l := [.down, .resume, .up, .resume, .resume]) rfl, ?_⟩
  have hpc : ∀ t : Tid, (update (update (update (update (fun _ ↦ Pc.user) 3 .inDown) 1 .inUp)
      3 .inDown) 1 .user) t = if t = 3 then .inDown else .user := by
    intro t
    simp only [update_apply]
    split_ifs <;> simp_all
  intro h
  obtain h | ⟨t, ht, hn, -⟩ := h (fun t ht ↦ by
    have := (hpc t).symm.trans ht
    split_ifs at this) (by decide)
  · revert h
    decide
  · have h3 : t = 3 := by
      have := (hpc t).symm.trans ht
      split_ifs at this with h
      exact h
    exact hn (h3 ▸ by decide)

end Semaphore

end Rxv6.Sync
