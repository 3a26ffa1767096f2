import Rxv6.Lib.Runs
import Rxv6.Thread.Scheduler

namespace Rxv6.Thread

open Function Rxv6.Lib.Runs List Option

theorem scanBest_cases (pri : Tid → Int) (l : List Tid) (i b : Nat) (p : Int) :
    (scanBest pri l i b p = b ∧ ∀ u ∈ l, pri u ≤ p) ∨
      ∃ j t, scanBest pri l i b p = i + j ∧ l[j]? = some t ∧ p < pri t ∧ (∀ u ∈ l, pri u ≤ pri t) ∧
        ∀ k < j, ∀ u, l[k]? = some u → pri u < pri t := by
  induction l generalizing i b p with
  | nil => exact .inl ⟨rfl, by simp⟩
  | cons t ts ih =>
    unfold scanBest
    split
    · next hlt =>
      refine .inr ?_
      rcases ih (i + 1) i (pri t) with ⟨hs, hle⟩ | ⟨j, u, hs, hu, hpu, hle, hfirst⟩
      · exact ⟨0, t, by simpa using hs, rfl, hlt, by simpa using hle, fun k hk ↦ by omega⟩
      · refine ⟨j + 1, u, by omega, hu, by omega, ?_, fun k hk v hv ↦ ?_⟩
        · simp only [mem_cons, forall_eq_or_imp]
          exact ⟨hpu.le, hle⟩
        · cases k with
          | zero =>
            cases hv
            exact hpu
          | succ k => exact hfirst k (by omega) v hv
    · next hge =>
      rcases ih (i + 1) b p with ⟨hs, hle⟩ | ⟨j, u, hs, hu, hpu, hle, hfirst⟩
      · refine .inl ⟨hs, ?_⟩
        simp only [mem_cons, forall_eq_or_imp]
        exact ⟨by omega, hle⟩
      · refine .inr ⟨j + 1, u, by omega, hu, hpu, ?_, fun k hk v hv ↦ ?_⟩
        · simp only [mem_cons, forall_eq_or_imp]
          exact ⟨by omega, hle⟩
        · cases k with
          | zero =>
            cases hv
            omega
          | succ k => exact hfirst k (by omega) v hv

theorem bestIdx_spec {pri : Tid → Int} {l : List Tid} (hl : l ≠ []) (hpri : ∀ t, i32Min ≤ pri t) :
    ∃ t, l[bestIdx pri l]? = some t ∧ (∀ u ∈ l, pri u ≤ pri t) ∧
      ∀ k < bestIdx pri l, ∀ u, l[k]? = some u → pri u < pri t := by
  unfold bestIdx
  rcases scanBest_cases pri l 0 0 i32Min with ⟨hs, hle⟩ | ⟨j, t, hs, ht, -, hle, hfirst⟩
  · obtain ⟨t, ts, rfl⟩ := exists_cons_of_ne_nil hl
    rw [hs]
    exact ⟨t, rfl, fun u hu ↦ (hle u hu).trans (hpri t), fun k hk ↦ by omega⟩
  · rw [hs, zero_add]
    exact ⟨t, ht, hle, hfirst⟩

namespace Sched

variable {k : Sched} {t : Tid}

/-- From the ready list `l` the scheduler takes a thread of the greatest priority, among these the one
that has been in the list for longest, and only from an empty list the idle thread. -/
def Dispatched (pri : Tid → Int) (idle : Tid) (l : List Tid) (next : Tid) (rest : List Tid) : Prop :=
  l = [] ∧ next = idle ∧ rest = [] ∨
    ∃ i, l[i]? = some next ∧ rest = l.eraseIdx i ∧ (∀ u ∈ l, pri u ≤ pri next) ∧
      ∀ j < i, ∀ u, l[j]? = some u → pri u < pri next

theorem schedule_dispatched (k : Sched) (hpri : ∀ t, i32Min ≤ k.priority t) :
    Dispatched k.priority k.idleThread k.readyList k.schedule.current k.schedule.readyList := by
  unfold schedule nextThreadToRun
  by_cases hl : k.readyList = []
  · exact .inl ⟨hl, by simp [hl], by simp [hl]⟩
  · obtain ⟨t, ht, hle, hfirst⟩ := bestIdx_spec hl hpri
    simp only [ht]
    exact .inr ⟨_, ht, rfl, hle, hfirst⟩

/-- What `yield_current` puts at the end of the ready list. -/
def yielded (k : Sched) : List Tid := if k.current ≠ k.idleThread then [k.current] else []

/-- What `unblock` puts there: the thread, and the caller after it if it yields to the thread. -/
def woken (k : Sched) (intr : Bool) (t : Tid) : List Tid :=
  t :: if ¬ intr ∧ k.priority t > k.priority k.current then k.yielded else []

theorem yieldCurrent_dispatched (k : Sched) (hpri : ∀ t, i32Min ≤ k.priority t) :
    Dispatched k.priority k.idleThread (k.readyList ++ k.yielded) k.yieldCurrent.current
      k.yieldCurrent.readyList := by
  unfold yieldCurrent yielded
  split
  · exact schedule_dispatched { k with
      status := update k.status k.current .ready
      readyList := k.readyList ++ [k.current] } hpri
  · rw [append_nil]
    exact schedule_dispatched { k with status := update k.status k.current .ready } hpri

theorem unblock_dispatched {intr : Bool} {r : Sched × Bool} (hr : k.unblock intr t = some r)
    (hpri : ∀ t, i32Min ≤ k.priority t) :
    (r.1.current = k.current ∧ r.1.readyList = k.readyList ++ k.woken intr t) ∨
      Dispatched k.priority k.idleThread (k.readyList ++ k.woken intr t) r.1.current r.1.readyList := by
  unfold unblock at hr
  unfold woken
  split at hr
  · split at hr
    · next hyield =>
      cases hr
      rw [if_pos hyield, show k.readyList ++ t :: k.yielded = k.readyList ++ [t] ++ k.yielded by simp]
      exact .inr (yieldCurrent_dispatched
        { k with status := update k.status t .ready, readyList := k.readyList ++ [t] } hpri)
    · next hstay =>
      cases hr
      rw [if_neg hstay]
      exact .inl ⟨rfl, rfl⟩
  · cases hr

def exit (k : Sched) : Sched := schedule { k with status := update k.status k.current .dying }

/-- The switched-in thread executes `schedule_tail` before anything else. -/
def settle (k : Sched) : Sched := if k.switched then k.scheduleTail else k

@[simp] theorem settle_current (k : Sched) : k.settle.current = k.current := by
  unfold settle
  split <;> rfl

@[simp] theorem settle_readyList (k : Sched) : k.settle.readyList = k.readyList := by
  unfold settle
  split <;> rfl

@[simp] theorem settle_priority (k : Sched) : k.settle.priority = k.priority := by
  unfold settle
  split <;> rfl

@[simp] theorem yieldCurrent_priority (k : Sched) : k.yieldCurrent.priority = k.priority := by
  unfold yieldCurrent
  split <;> rfl

@[simp] theorem yieldCurrent_idleThread (k : Sched) : k.yieldCurrent.idleThread = k.idleThread := by
  unfold yieldCurrent
  split <;> rfl

theorem unblock_priority {intr : Bool} {r : Sched × Bool} (hr : k.unblock intr t = some r) :
    r.1.priority = k.priority ∧ r.1.idleThread = k.idleThread := by
  unfold unblock at hr
  split at hr
  · split at hr
    · cases hr
      simp
    · cases hr
      exact ⟨rfl, rfl⟩
  · cases hr

end Sched

/-- The scheduler with the counter of `allocate_tid`. `idleRan` says that the idle thread has run. -/
structure Lifecycle where
  sched : Sched
  nextTid : Tid
  idleRan : Bool

open Sched Lifecycle

namespace Lifecycle

/-- The calls of the running thread, or of an interrupt handler on its stack (`intr`). `page` says whether
there is a page for the new thread. The priorities are changed by others: `set_priority` and donation. -/
inductive Act
  | create (priority : Int) (page : Bool)
  | block
  | unblock (intr : Bool) (t : Tid)
  | yieldCurrent
  | exit
  | setPriority (t : Tid) (p : Int)

def finish (s : Lifecycle) (k : Sched) : Lifecycle :=
  { s with sched := k.settle, idleRan := s.idleRan || k.settle.current == s.sched.idleThread }

/-- `create`: a new thread is blocked until it is unblocked at once. -/
def create (s : Lifecycle) (priority : Int) : Option Lifecycle :=
  let k := { s.sched with
    status := update s.sched.status s.nextTid .blocked
    priority := update s.sched.priority s.nextTid priority }
  (k.unblock false s.nextTid).map fun r ↦ { s.finish r.1 with nextTid := s.nextTid + 1 }

/-- Each call runs with interrupts off to its end, the switch included. The idle thread does not end, and
no code can unblock it: it blocks in its own loop only. -/
def step (s : Lifecycle) : Act → Option Lifecycle
  | .create p page => if i32Min ≤ p then if page then s.create p else some s else none
  | .block => some (s.finish s.sched.block)
  | .unblock intr t =>
    if t ≠ s.sched.idleThread then (s.sched.unblock intr t).map fun r ↦ s.finish r.1 else none
  | .yieldCurrent => some (s.finish s.sched.yieldCurrent)
  | .exit => if s.sched.current ≠ s.sched.idleThread then some (s.finish s.sched.exit) else none
  | .setPriority t p =>
    if i32Min ≤ p then some { s with sched := { s.sched with priority := update s.sched.priority t p } } else none

/-- The threads that a call puts at the end of the ready list. -/
def enqueued (s : Lifecycle) : Act → List Tid
  | .create p page =>
    if page then { s.sched with priority := update s.sched.priority s.nextTid p }.woken false s.nextTid else []
  | .unblock intr t => s.sched.woken intr t
  | .yieldCurrent => s.sched.yielded
  | .block | .exit | .setPriority _ _ => []

structure Boot (s : Lifecycle) : Prop where
  settled : s.sched.switched = false
  running : ∀ t, s.sched.status t = .running ↔ t = s.sched.current
  nodup : s.sched.readyList.Nodup
  ready : ∀ t, t ∈ s.sched.readyList ↔ s.sched.status t = .ready
  idle : s.sched.idleThread ∈ s.sched.readyList
  unused : ∀ t, s.nextTid ≤ t → s.sched.status t = .dying
  priority : ∀ t, i32Min ≤ s.sched.priority t
  notRan : s.idleRan = false

structure Inv (s : Lifecycle) : Prop where
  settled : s.sched.switched = false
  running : ∀ t, s.sched.status t = .running ↔ t = s.sched.current
  nodup : s.sched.readyList.Nodup
  ready : ∀ t, t ∈ s.sched.readyList ↔ s.sched.status t = .ready ∧ (s.idleRan = true → t ≠ s.sched.idleThread)
  waiting : s.idleRan = false → s.sched.status s.sched.idleThread = .ready
  known : s.sched.idleThread < s.nextTid
  unused : ∀ t, s.nextTid ≤ t → s.sched.status t = .dying
  priority : ∀ t, i32Min ≤ s.sched.priority t

variable {s s' : Lifecycle} {a : Act}

theorem Boot.inv (h : Boot s) : Inv s := by
  have hidle := (h.ready _).mp h.idle
  refine ⟨h.settled, h.running, h.nodup, fun t ↦ ?_, fun _ ↦ hidle, ?_, h.unused, h.priority⟩
  · rw [h.ready t, h.notRan]
    simp
  · by_contra hge
    rw [h.unused _ (not_lt.mp hge)] at hidle
    cases hidle

theorem Inv.schedule {k : Sched} {n : Tid} (hidle : k.idleThread = s.sched.idleThread)
    (hrunning : ∀ t, k.status t ≠ .running) (hnodup : k.readyList.Nodup)
    (hready : ∀ t, t ∈ k.readyList ↔ k.status t = .ready ∧ (s.idleRan = true → t ≠ k.idleThread))
    (hwaiting : s.idleRan = false → k.status k.idleThread = .ready) (hknown : k.idleThread < n)
    (hunused : ∀ t, n ≤ t → k.status t = .dying) (hpri : ∀ t, i32Min ≤ k.priority t) :
    Inv { s.finish k.schedule with nextTid := n } := by
  have hstatus : ∀ t, k.schedule.settle.status t = .running ↔ t = k.schedule.current := by
    intro t
    change update k.status k.schedule.current .running t = _ ↔ _
    by_cases ht : t = k.schedule.current
    · simp [ht]
    · simp [ht, hrunning t]
  have hother : ∀ t, t ≠ k.schedule.current → k.schedule.settle.status t = k.status t := fun t ht ↦
    update_of_ne ht _ _
  have hran : (s.finish k.schedule).idleRan = (s.idleRan || k.schedule.current == k.idleThread) := by
    rw [hidle]
    rfl
  have hdispatched : k.schedule.current = k.idleThread ∨ k.schedule.current ∈ k.readyList := by
    obtain ⟨-, hc, -⟩ | hp := schedule_cases k
    · exact .inl hc
    · exact .inr (hp.subset mem_cons_self)
  have hcur : k.schedule.current < n := by
    rcases hdispatched with hc | hc
    · exact hc ▸ hknown
    · by_contra hge
      have := ((hready _).mp hc).1
      rw [hunused _ (not_lt.mp hge)] at this
      cases this
  refine ⟨rfl, hstatus, ?_, fun t ↦ ?_, fun hnot ↦ ?_, hknown, fun t ht ↦ ?_, hpri⟩
  · change k.schedule.readyList.Nodup
    obtain ⟨-, -, hr⟩ | hp := schedule_cases k
    · simp [hr]
    · exact (nodup_cons.mp (hp.symm.nodup hnodup)).2
  · change t ∈ k.schedule.readyList ↔ k.schedule.settle.status t = _ ∧ ((s.finish k.schedule).idleRan = true → t ≠ k.idleThread)
    have hself : k.schedule.settle.status k.schedule.current ≠ .ready := by
      rw [(hstatus _).mpr rfl]
      simp
    obtain ⟨hl, hc, hr⟩ | hp := schedule_cases k
    · rw [hr]
      refine ⟨by simp, fun ⟨hst, hne⟩ ↦ ?_⟩
      have htc : t ≠ k.schedule.current := fun h ↦ hself (h ▸ hst)
      rw [hother t htc] at hst
      have := (hready t).mpr ⟨hst, fun _ ↦ hc ▸ htc⟩
      rw [hl] at this
      cases this
    · have hnd := nodup_cons.mp (hp.symm.nodup hnodup)
      by_cases htc : t = k.schedule.current
      · subst htc
        exact ⟨fun h ↦ absurd h hnd.1, fun h ↦ absurd h.1 hself⟩
      · have hmem : t ∈ k.schedule.readyList ↔ t ∈ k.readyList := by
          rw [← hp.mem_iff]
          simp [htc]
        rw [hmem, hready t, hother t htc, hran]
        refine and_congr_right fun _ ↦ ?_
        simp only [Bool.or_eq_true, beq_iff_eq]
        constructor
        · rintro h (h' | h')
          · exact h h'
          · exact h' ▸ htc
        · exact fun h h' ↦ h (.inl h')
  · rw [hran, Bool.or_eq_false_iff, beq_eq_false_iff_ne] at hnot
    change k.schedule.settle.status k.idleThread = _
    rw [hother _ hnot.2.symm]
    exact hwaiting hnot.1
  · change k.schedule.settle.status t = _
    rw [hother t fun he ↦ absurd (he ▸ hcur) (not_lt.mpr ht)]
    exact hunused t ht

section

variable (h : Inv s)
include h

theorem Inv.finish_self : s.finish s.sched = s := by
  have hsettle : s.sched.settle = s.sched := by rw [settle, h.settled, if_neg (by simp)]
  have hran : (s.idleRan || s.sched.current == s.sched.idleThread) = s.idleRan := by
    cases hr : s.idleRan with
    | true => rfl
    | false =>
      have hidle := h.waiting hr
      have hcur := (h.running s.sched.current).mpr rfl
      rw [Bool.false_or, beq_eq_false_iff_ne]
      intro he
      rw [he, hidle] at hcur
      cases hcur
  rw [finish, hsettle, hran]

theorem Inv.current_facts : s.sched.current ∉ s.sched.readyList ∧ s.sched.current < s.nextTid ∧
    (s.idleRan = false → s.sched.idleThread ≠ s.sched.current) := by
  have hcur := (h.running s.sched.current).mpr rfl
  refine ⟨fun hmem ↦ ?_, ?_, fun hr he ↦ ?_⟩
  · have := ((h.ready _).mp hmem).1
    rw [hcur] at this
    cases this
  · by_contra hge
    rw [h.unused _ (not_lt.mp hge)] at hcur
    cases hcur
  · have := h.waiting hr
    rw [he, hcur] at this
    cases this

theorem Inv.leave {st : ThreadStatus} (hst : st ≠ .running ∧ st ≠ .ready) :
    Inv (s.finish (Sched.schedule { s.sched with status := update s.sched.status s.sched.current st })) := by
  obtain ⟨hnot, hlt, hidle⟩ := h.current_facts
  refine schedule rfl (fun t ↦ ?_) h.nodup (fun t ↦ ?_) (fun hr ↦ ?_) h.known (fun t ht ↦ ?_)
    h.priority
  · by_cases ht : t = s.sched.current
    · simp [ht, hst.1]
    · simp [ht, h.running t]
  · by_cases ht : t = s.sched.current
    · simp [ht, hst.2, hnot]
    · simp [ht, h.ready t]
  · simp [hidle hr, h.waiting hr]
  · have hne : t ≠ s.sched.current := fun he ↦ absurd (he ▸ hlt) (not_lt.mpr ht)
    simp [hne, h.unused t ht]

theorem Inv.yieldCurrent : Inv (s.finish s.sched.yieldCurrent) := by
  obtain ⟨hnot, hlt, hidle⟩ := h.current_facts
  have hrunning : ∀ t, update s.sched.status s.sched.current .ready t ≠ .running := by
    intro t
    by_cases ht : t = s.sched.current
    · simp [ht]
    · simp [ht, h.running t]
  have hwaiting : s.idleRan = false → update s.sched.status s.sched.current .ready s.sched.idleThread = .ready :=
    fun hr ↦ by simp [hidle hr, h.waiting hr]
  have hunused : ∀ t, s.nextTid ≤ t → update s.sched.status s.sched.current .ready t = .dying := by
    intro t ht
    have hne : t ≠ s.sched.current := fun he ↦ absurd (he ▸ hlt) (not_lt.mpr ht)
    simp [hne, h.unused t ht]
  unfold Sched.yieldCurrent
  split
  · next hne =>
    refine schedule rfl hrunning ?_ (fun t ↦ ?_) hwaiting h.known hunused h.priority
    · exact nodup_append.mpr ⟨h.nodup, nodup_singleton _, by
        rintro t ht u hu rfl
        exact hnot (mem_singleton.mp hu ▸ ht)⟩
    · by_cases ht : t = s.sched.current
      · simp [ht, hne]
      · simp [ht, h.ready t]
  · next he =>
    rw [not_not] at he
    refine schedule rfl hrunning h.nodup (fun t ↦ ?_) hwaiting h.known hunused h.priority
    -- The idle thread is ready and not in the list.
    have hran : s.idleRan = true := by
      by_contra hr
      exact hidle (Bool.not_eq_true _ ▸ hr) he.symm
    by_cases ht : t = s.sched.current
    · subst ht
      simp [hran, he, he ▸ hnot]
    · simp [ht, h.ready t]

theorem Inv.unblocked {t : Tid} (ht : s.idleRan = true → t ≠ s.sched.idleThread)
    (hb : s.sched.status t = .blocked) :
    Inv { s with sched := { s.sched with
      status := update s.sched.status t .ready
      readyList := s.sched.readyList ++ [t] } } := by
  have hnot : t ∉ s.sched.readyList := fun hmem ↦ by
    have := ((h.ready t).mp hmem).1
    rw [hb] at this
    cases this
  refine ⟨h.settled, fun u ↦ ?_, ?_, fun u ↦ ?_, fun hr ↦ ?_, h.known, fun u hu ↦ ?_, h.priority⟩
  · by_cases hut : u = t
    · subst hut
      have hne : u ≠ s.sched.current := fun he ↦ by
        have := (h.running u).mpr he
        rw [hb] at this
        cases this
      simp [hne]
    · simp [hut, h.running u]
  · exact nodup_append.mpr ⟨h.nodup, nodup_singleton _, by
      rintro u hu v hv rfl
      exact hnot (mem_singleton.mp hv ▸ hu)⟩
  · by_cases hut : u = t
    · subst hut
      simpa using ht
    · simp [hut, h.ready u]
  · by_cases he : s.sched.idleThread = t
    · simp [he]
    · simp [he, h.waiting hr]
  · have hne : u ≠ t := by
      rintro rfl
      rw [h.unused u hu] at hb
      cases hb
    simp [hne, h.unused u hu]

theorem Inv.unblock {t : Tid} {intr : Bool} {r : Sched × Bool}
    (ht : s.idleRan = true → t ≠ s.sched.idleThread) (hr : s.sched.unblock intr t = some r) : Inv (s.finish r.1) := by
  unfold Sched.unblock at hr
  split at hr
  · next hb =>
    have hv := h.unblocked ht hb
    split at hr
    · cases hr
      exact hv.yieldCurrent
    · cases hr
      have hself := hv.finish_self
      exact hself ▸ hv
  · cases hr

theorem Inv.created {p : Int} (hp : i32Min ≤ p) :
    Inv { s with
      sched := { s.sched with
        status := update s.sched.status s.nextTid .blocked
        priority := update s.sched.priority s.nextTid p }
      nextTid := s.nextTid + 1 } := by
  have hnew := h.unused s.nextTid le_rfl
  refine ⟨h.settled, fun t ↦ ?_, h.nodup, fun t ↦ ?_, fun hr ↦ ?_, ?_, fun t ht ↦ ?_, fun t ↦ ?_⟩
  · by_cases ht : t = s.nextTid
    · have hne : t ≠ s.sched.current := fun he ↦ by
        have := (h.running t).mpr he
        rw [ht, hnew] at this
        cases this
      simp [ht, ht ▸ hne]
    · simp [ht, h.running t]
  · by_cases ht : t = s.nextTid
    · simp [ht, h.ready, hnew]
    · simp [ht, h.ready t]
  · have hne : s.sched.idleThread ≠ s.nextTid := ne_of_lt h.known
    simp [hne, h.waiting hr]
  · exact h.known.trans (Int.lt_succ _)
  · have hne : t ≠ s.nextTid := ne_of_gt (Int.add_one_le_iff.mp ht)
    simp [hne, h.unused t (le_of_lt (Int.add_one_le_iff.mp ht))]
  · by_cases ht : t = s.nextTid
    · simp [ht, hp]
    · simp [ht, h.priority t]

theorem Inv.step (hs : s.step a = some s') : Inv s' := by
  cases a with
  | create p page =>
    simp only [step] at hs
    split at hs
    · next hp =>
      split at hs
      · obtain ⟨r, hr, rfl⟩ := map_eq_some_iff.mp hs
        exact (h.created hp).unblock (fun _ ↦ ne_of_gt h.known) hr
      · cases hs
        exact h
    · cases hs
  | block =>
    cases hs
    exact h.leave ⟨by simp, by simp⟩
  | unblock intr t =>
    simp only [step] at hs
    split at hs
    · next ht =>
      obtain ⟨r, hr, rfl⟩ := map_eq_some_iff.mp hs
      exact h.unblock (fun _ ↦ ht) hr
    · cases hs
  | yieldCurrent =>
    cases hs
    exact h.yieldCurrent
  | exit =>
    simp only [step] at hs
    split at hs
    · cases hs
      exact h.leave ⟨by simp, by simp⟩
    · cases hs
  | setPriority t p =>
    simp only [step] at hs
    split at hs
    · next hp =>
      cases hs
      refine ⟨h.settled, h.running, h.nodup, h.ready, h.waiting, h.known, h.unused, fun u ↦ ?_⟩
      by_cases hu : u = t
      · simp [hu, hp]
      · simp [hu, h.priority u]
    · cases hs

theorem Inv.step_dispatched (hs : s.step a = some s') :
    (s'.sched.current = s.sched.current ∧ s'.sched.readyList = s.sched.readyList ++ s.enqueued a) ∨
      Sched.Dispatched s'.sched.priority s.sched.idleThread (s.sched.readyList ++ s.enqueued a) s'.sched.current
        s'.sched.readyList := by
  cases a with
  | create p page =>
    simp only [Lifecycle.step] at hs
    split at hs
    · next hp =>
      split at hs
      · next hpage =>
        obtain ⟨r, hr, rfl⟩ := map_eq_some_iff.mp hs
        have hd := unblock_dispatched hr (h.created hp).priority
        have hpri := (unblock_priority hr).1
        simp only [finish, settle_current, settle_readyList, settle_priority, hpri, enqueued, if_pos hpage]
        exact hd
      · next hpage =>
        cases hs
        exact .inl ⟨rfl, by simp [enqueued, hpage]⟩
    · cases hs
  | block =>
    cases hs
    refine .inr ?_
    rw [enqueued, append_nil]
    exact schedule_dispatched
      { s.sched with status := update s.sched.status s.sched.current .blocked } h.priority
  | unblock intr t =>
    simp only [Lifecycle.step] at hs
    split at hs
    · obtain ⟨r, hr, rfl⟩ := map_eq_some_iff.mp hs
      have hd := unblock_dispatched hr h.priority
      have hpri := (unblock_priority hr).1
      simp only [finish, settle_current, settle_readyList, settle_priority, hpri]
      exact hd
    · cases hs
  | yieldCurrent =>
    cases hs
    have hd := yieldCurrent_dispatched s.sched h.priority
    exact .inr (by simpa [finish, enqueued] using hd)
  | exit =>
    simp only [Lifecycle.step] at hs
    split at hs
    · cases hs
      refine .inr ?_
      rw [enqueued, append_nil]
      exact schedule_dispatched
        { s.sched with status := update s.sched.status s.sched.current .dying } h.priority
    · cases hs
  | setPriority t p =>
    simp only [Lifecycle.step] at hs
    split at hs
    · cases hs
      exact .inl ⟨rfl, (append_nil _).symm⟩
    · cases hs

end

/-- After the idle thread has first run, exactly one thread is running, the ready list holds exactly the
ready threads other than the idle thread. A call puts the threads that it makes ready at the end of the
list, and the scheduler takes the first of the greatest priority from it. -/
theorem ready_list_exact {s₀ : Lifecycle} (h₀ : Boot s₀) (hrun : Run Lifecycle.step always s₀ s)
    (hran : s.idleRan = true) :
    (∃! t, s.sched.status t = .running) ∧ s.sched.readyList.Nodup ∧
      (∀ t, t ∈ s.sched.readyList ↔ s.sched.status t = .ready ∧ t ≠ s.sched.idleThread) ∧
      ∀ a s', s.step a = some s' →
        (s'.sched.current = s.sched.current ∧ s'.sched.readyList = s.sched.readyList ++ s.enqueued a) ∨
          Sched.Dispatched s'.sched.priority s.sched.idleThread (s.sched.readyList ++ s.enqueued a)
            s'.sched.current s'.sched.readyList := by
  have h : Inv s := hrun.invariant Inv (fun _ _ _ hi _ hs ↦ hi.step hs) h₀.inv
  refine ⟨⟨s.sched.current, (h.running _).mpr rfl, fun t ht ↦ (h.running t).mp ht⟩, h.nodup, fun t ↦ ?_,
    fun a s' hs ↦ h.step_dispatched hs⟩
  rw [h.ready t]
  simp [hran]

/-- The state in which `start` has created the idle thread. -/
def boot : Lifecycle where
  sched :=
    { status := fun t ↦ if t = 1 then .running else if t = 2 then .ready else .dying
      priority := fun t ↦ if t = 2 then 0 else 31
      readyList := [2]
      idleThread := 2
      current := 1
      switched := false }
  nextTid := 3
  idleRan := false

theorem boot_ok : Boot boot := by
  refine ⟨rfl, fun t ↦ ?_, by simp [boot], fun t ↦ ?_, by simp [boot], fun t ht ↦ ?_, fun t ↦ ?_, rfl⟩
  · by_cases h1 : t = 1
    · simp [boot, h1]
    · by_cases h2 : t = 2 <;> simp [boot, h2]
  · by_cases h1 : t = 1
    · simp [boot, h1]
    · by_cases h2 : t = 2 <;> simp [boot, h1]
  · have h3 : (3 : Int) ≤ t := ht
    have h1 : t ≠ 1 := by rintro rfl; omega
    have h2 : t ≠ 2 := by rintro rfl; omega
    simp [boot, h1, h2]
  · by_cases h2 : t = 2 <;> simp [boot, h2, i32Min]

def started : List Act := [.setPriority 1 0, .block, .unblock false 1, .block]

theorem ready_list_exact_started : ∃ s, exec Lifecycle.step boot started = some s ∧ s.idleRan = true ∧
    s.sched.current = 1 ∧ s.sched.status 2 = .blocked ∧ ∃! t, s.sched.status t = .running := by
  refine ⟨_, rfl, rfl, rfl, rfl, ?_⟩
  exact (ready_list_exact boot_ok (Run.of_exec (l := started) rfl) rfl).1

/-- A run in which the CPU changes hands `n` times and never comes to `t`, although no thread that runs
or is ready has a greater priority. -/
inductive PassedOver (t : Tid) (s : Lifecycle) : Nat → Lifecycle → Prop
  | refl : PassedOver t s 0 s
  | snoc {n : Nat} {u v : Lifecycle} {a : Act} : PassedOver t s n u → u.step a = some v →
      v.sched.current ≠ t → (∀ x ∈ v.sched.current :: v.sched.readyList, v.sched.priority x ≤ v.sched.priority t) →
      PassedOver t s (if v.sched.current = u.sched.current then n else n + 1) v

theorem Inv.closer {t : Tid} {j : Nat} (h : Inv s) (hs : s.step a = some s') (ht : s.sched.readyList[j]? = some t)
    (hne : s'.sched.current ≠ t)
    (hmax : ∀ x ∈ s'.sched.current :: s'.sched.readyList, s'.sched.priority x ≤ s'.sched.priority t) :
    ∃ k, s'.sched.readyList[k]? = some t ∧ k ≤ j ∧ (s'.sched.current ≠ s.sched.current → k < j) := by
  have hlt := (List.getElem?_eq_some_iff.mp ht).1
  obtain ⟨hcur, hready⟩ | ⟨hnil, -⟩ | ⟨i, hi, hrest, -, hfirst⟩ := h.step_dispatched hs
  · exact ⟨j, by rw [hready, getElem?_append_left hlt, ht], le_rfl, fun hc ↦ absurd hcur hc⟩
  · rw [(append_eq_nil_iff.mp hnil).1] at ht
    cases ht
  · have hj : (s.sched.readyList ++ s.enqueued a)[j]? = some t := by rw [getElem?_append_left hlt, ht]
    obtain hlt | rfl | hgt := Nat.lt_trichotomy j i
    · exact absurd (hfirst j hlt t hj) (hmax _ mem_cons_self).not_gt
    · exact absurd (some_inj.mp (hi.symm.trans hj)) hne
    · refine ⟨j - 1, ?_, by omega, fun _ ↦ by omega⟩
      rw [hrest, getElem?_eraseIdx, if_neg (by omega), Nat.sub_add_cancel (by omega), hj]

/-- A ready thread is passed over at most once for each thread before it in the ready list, whatever
calls the threads make meanwhile. -/
theorem passed_over_le {s₀ : Lifecycle} {t : Tid} {i n : Nat} (h₀ : Boot s₀) (hrun : Run Lifecycle.step always s₀ s)
    (ht : s.sched.readyList[i]? = some t) (hpass : PassedOver t s n s') : n ≤ i := by
  have hinv : Inv s' ∧ ∃ j, s'.sched.readyList[j]? = some t ∧ n + j ≤ i := by
    induction hpass with
    | refl => exact ⟨hrun.invariant Inv (fun _ _ _ hi _ hs ↦ hi.step hs) h₀.inv, i, ht, by omega⟩
    | snoc _ hs hne hmax ih =>
      obtain ⟨hu, j, hj, hle⟩ := ih
      obtain ⟨k, hk, hkj, hswitch⟩ := hu.closer hs hj hne hmax
      refine ⟨hu.step hs, k, hk, ?_⟩
      split
      · omega
      · next hc =>
        have := hswitch hc
        omega
  obtain ⟨-, j, -, hle⟩ := hinv
  omega

/-- Of two ready threads of one priority the second waits for the first only. -/
theorem passed_over_le_created : ∃ s s', Run Lifecycle.step always boot s ∧ s.sched.readyList[1]? = some 3 ∧
    PassedOver 3 s 1 s' ∧ 1 ≤ 1 := by
  obtain ⟨s, s', hs, ht, hstep, hne, hswitch, hmax⟩ : ∃ s s',
      exec Lifecycle.step boot [.setPriority 1 0, .create 0 true] = some s ∧ s.sched.readyList[1]? = some 3 ∧
      s.step .yieldCurrent = some s' ∧ s'.sched.current ≠ 3 ∧ s'.sched.current ≠ s.sched.current ∧
      ∀ x ∈ s'.sched.current :: s'.sched.readyList, s'.sched.priority x ≤ s'.sched.priority 3 :=
    ⟨_, _, rfl, rfl, rfl, by decide, by decide, by decide⟩
  have hpass := PassedOver.refl.snoc hstep hne hmax
  rw [if_neg hswitch] at hpass
  exact ⟨s, s', .of_exec hs, ht, hpass, passed_over_le boot_ok (.of_exec hs) ht hpass⟩

end Lifecycle

end Rxv6.Thread
