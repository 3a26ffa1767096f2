import Mathlib.Tactic

namespace Rxv6.Thread

open Function List

abbrev Tid := Int

inductive ThreadStatus
  | running | ready | blocked | dying
  deriving DecidableEq, Repr

/-- The scheduler's globals: the thread table, the ready list, the idle thread and
the thread on the CPU. `switched` holds between `switch_threads` and the new
thread's `schedule_tail`, which is the first thing the new thread executes. -/
structure Sched where
  status : Tid → ThreadStatus
  priority : Tid → Int
  readyList : List Tid
  idleThread : Tid
  current : Tid
  switched : Bool

def i32Min : Int := -2 ^ 31

/-- The scan shared by `next_thread_to_run` and `Semaphore::up`: the first entry
whose priority exceeds every earlier one. -/
def scanBest (pri : Tid → Int) : List Tid → Nat → Nat → Int → Nat
  | [], _, bestIdx, _ => bestIdx
  | t :: ts, i, bestIdx, bestPri =>
    if pri t > bestPri then scanBest pri ts (i + 1) i (pri t)
    else scanBest pri ts (i + 1) bestIdx bestPri

def bestIdx (pri : Tid → Int) (l : List Tid) : Nat := scanBest pri l 0 0 i32Min

theorem scanBest_lt (pri : Tid → Int) (l : List Tid) (i b : Nat) (p : Int) (hb : b < i + l.length) :
    scanBest pri l i b p < i + l.length := by
  induction l generalizing i b p with
  | nil => exact hb
  | cons t ts ih =>
    simp only [length_cons] at hb ⊢
    unfold scanBest
    split
    · have h := ih (i + 1) i (pri t) (by omega)
      omega
    · have h := ih (i + 1) b p (by omega)
      omega

theorem bestIdx_lt (pri : Tid → Int) {l : List Tid} (hl : l ≠ []) : bestIdx pri l < l.length := by
  have hpos := length_pos_iff.mpr hl
  simpa [bestIdx] using scanBest_lt pri l 0 0 i32Min (by omega)

namespace Sched

/-- `next_thread_to_run`: the thread and the ready list without it. -/
def nextThreadToRun (k : Sched) : Tid × List Tid :=
  match k.readyList[bestIdx k.priority k.readyList]? with
  | none => (k.idleThread, k.readyList)
  | some t => (t, k.readyList.eraseIdx (bestIdx k.priority k.readyList))

def schedule (k : Sched) : Sched :=
  { k with current := k.nextThreadToRun.1, readyList := k.nextThreadToRun.2, switched := true }

def scheduleTail (k : Sched) : Sched :=
  { k with status := update k.status k.current .running, switched := false }

def block (k : Sched) : Sched :=
  schedule { k with status := update k.status k.current .blocked }

def yieldCurrent (k : Sched) : Sched :=
  if k.current ≠ k.idleThread then
    schedule { k with
      status := update k.status k.current .ready
      readyList := k.readyList ++ [k.current] }
  else
    schedule { k with status := update k.status k.current .ready }

/-- `unblock`, inside (`intr`) or outside interrupt context. The flag says whether the
caller was switched away from; `none` is the failed assertion. -/
def unblock (intr : Bool) (k : Sched) (t : Tid) : Option (Sched × Bool) :=
  if k.status t = .blocked then
    let k' := { k with status := update k.status t .ready, readyList := k.readyList ++ [t] }
    if ¬ intr ∧ k.priority t > k.priority k.current then some (k'.yieldCurrent, true)
    else some (k', false)
  else none

/-- What holds of the ready list whenever interrupts are on or a switch has just been made. -/
structure Ok (k : Sched) : Prop where
  nodup : (k.current :: k.readyList).Nodup
  ready : ∀ t ∈ k.readyList, k.status t = .ready
  idle : k.idleThread ∉ k.readyList
  running : k.switched = false → k.status k.current = .running
  dispatched : k.switched = true → k.current = k.idleThread ∨ k.status k.current = .ready

section

variable (k : Sched)
include k

theorem nextThreadToRun_cases :
    (k.readyList = [] ∧ k.nextThreadToRun = (k.idleThread, [])) ∨
      (k.nextThreadToRun.1 :: k.nextThreadToRun.2).Perm k.readyList := by
  by_cases hl : k.readyList = []
  · left
    simp [nextThreadToRun, hl]
  · right
    have hlt := bestIdx_lt k.priority hl
    simp only [nextThreadToRun, getElem?_eq_getElem hlt]
    exact getElem_cons_eraseIdx_perm hlt

theorem schedule_cases :
    (k.readyList = [] ∧ k.schedule.current = k.idleThread ∧ k.schedule.readyList = []) ∨
      (k.schedule.current :: k.schedule.readyList).Perm k.readyList := by
  obtain ⟨hl, hn⟩ | hp := nextThreadToRun_cases k
  · exact .inl ⟨hl, by simp [schedule, hn], by simp [schedule, hn]⟩
  · exact .inr hp

@[simp] theorem schedule_switched : k.schedule.switched = true := rfl
@[simp] theorem scheduleTail_current : k.scheduleTail.current = k.current := rfl
@[simp] theorem scheduleTail_switched : k.scheduleTail.switched = false := rfl

end

theorem schedule_ok {k : Sched} (hnodup : k.readyList.Nodup)
    (hready : ∀ t ∈ k.readyList, k.status t = .ready) (hidle : k.idleThread ∉ k.readyList) :
    k.schedule.Ok := by
  obtain ⟨hl, hc, hr⟩ | hp := schedule_cases k
  · exact ⟨by simp [hr], by simp [hr], by simp [hr], by simp, fun _ ↦ .inl hc⟩
  · refine ⟨hp.symm.nodup hnodup, ?_, ?_, by simp, fun _ ↦ .inr (hready _ (hp.subset mem_cons_self))⟩
    · intro t ht
      exact hready t (hp.subset (mem_cons_of_mem _ ht))
    · intro h
      exact hidle (hp.subset (mem_cons_of_mem _ h))

end Sched

end Rxv6.Thread
