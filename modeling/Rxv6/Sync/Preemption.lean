import Rxv6.Sync.Kernel

namespace Rxv6.Thread.Sched

open Function

variable {s : Sched} {t : Tid} {intr : Bool} {r : Sched × Bool}

def Top (s : Sched) : Prop := ∀ t ∈ s.readyList, s.priority t ≤ s.priority s.current

section

variable (hpri : ∀ t, i32Min ≤ s.priority t)

include hpri

theorem schedule_top : s.schedule.Top := by
  intro t ht
  obtain ⟨_, _, hr⟩ | ⟨i, _, hr, hle, _⟩ := schedule_dispatched s hpri
  · simp [hr] at ht
  · rw [hr] at ht
    exact hle t (List.mem_of_mem_eraseIdx ht)

theorem block_top : s.block.Top := schedule_top hpri

theorem exit_top : s.exit.Top := schedule_top hpri

theorem yieldCurrent_top : s.yieldCurrent.Top := by
  unfold yieldCurrent
  split <;> exact schedule_top hpri

end

theorem Top.push (h : s.Top) (ht : s.priority t ≤ s.priority s.current) :
    Top { s with status := update s.status t .ready, readyList := s.readyList ++ [t] } := by
  intro u hu
  obtain hu | hu := List.mem_append.mp hu
  · exact h u hu
  · rw [List.mem_singleton.mp hu]
    exact ht

theorem unblock_top (hpri : ∀ t, i32Min ≤ s.priority t)
    (h : s.priority t ≤ s.priority s.current → s.Top)
    (hintr : intr = true → s.priority t ≤ s.priority s.current)
    (hs : s.unblock intr t = some r) : r.1.Top := by
  obtain ⟨_, ⟨rfl, _⟩ | ⟨rfl, hle⟩⟩ := unblock_cases hs
  · exact yieldCurrent_top hpri
  · have ht : s.priority t ≤ s.priority s.current := hle.elim hintr id
    exact (h ht).push ht

def Settled (s : Sched) : Prop := s.Top ∨ s.switched = false

theorem unblock_settled (hpri : ∀ t, i32Min ≤ s.priority t) (hsw : s.switched = false)
    (hs : s.unblock intr t = some r) : r.1.Settled := by
  obtain ⟨_, ⟨rfl, _⟩ | ⟨rfl, _⟩⟩ := unblock_cases hs
  · exact .inl (yieldCurrent_top hpri)
  · exact .inr hsw

end Rxv6.Thread.Sched

namespace Rxv6.Sync

open Function Rxv6.Thread Rxv6.Lib.Runs

def Pc.restoring : Pc → Option LockId
  | releaseRestore l => some l
  | _ => none

open Option Sched

namespace Kernel

/-- The thread on the CPU is on its way to a yield: `release` will wake a higher waiter, or
`yield_if_not_highest` or the end of `unblock` is still to come. -/
def Yields (k : Kernel) : Prop :=
  (∃ l, (k.pc k.sched.current = .releaseClear l ∨ k.pc k.sched.current = .releaseUp l) ∧
      ∃ w ∈ (k.sema (.lock l)).waiters, k.getPriority < k.sched.priority w) ∨
    (∃ p, k.pc k.sched.current = .setBase p) ∨ k.pc k.sched.current = .checkYield ∨
      k.pc k.sched.current = .yielding

def Watched (k : Kernel) : Prop := k.sched.Top ∨ k.sched.switched = false ∧ k.Yields

/-- An interrupt that does not end the slice finds no ready thread above the running one and wakes none,
and the donation that `release` takes away leaves no ready thread above the running one unless another
thread that is above it waits for the same lock. -/
def Prompt (k : Kernel) : Act → Prop
  | .timer => timeSlice ≤ k.threadTicks + 1 ∨ k.sched.Top ∧
      ∀ e ∈ k.sleepList.takeWhile (·.wakeupTick ≤ k.ticks + 1), k.sched.priority e.thread ≤ k.getPriority
  | .intrUp n => k.sched.Top ∧
      ∀ w ∈ (k.sema (.plain n)).waiters[bestIdx k.sched.priority (k.sema (.plain n)).waiters]?,
        k.sched.priority w ≤ k.getPriority
  | .intrUnblock t => k.sched.Top ∧ k.sched.priority t ≤ k.getPriority
  | .next => ∀ l ∈ (k.pc k.sched.current).restoring,
      (∀ t ∈ k.sched.readyList, k.sched.priority t ≤ k.originalPriority k.sched.current) ∨
        ∃ w ∈ (k.sema (.lock l)).waiters, w ≠ k.sched.current ∧
          k.originalPriority k.sched.current < k.sched.priority w
  | _ => True

instance (s : Sched) : Decidable s.Top := inferInstanceAs (Decidable (∀ t ∈ s.readyList, _))

instance (k : Kernel) (x : Act) : Decidable (k.Prompt x) :=
  match x with
  | .timer => inferInstanceAs (Decidable (_ ∨ _ ∧ ∀ e ∈ k.sleepList.takeWhile _, _))
  | .intrUp _ => inferInstanceAs (Decidable (_ ∧ ∀ w ∈ (_ : Option Tid), _))
  | .intrUnblock _ => inferInstanceAs (Decidable (_ ∧ _))
  | .next => inferInstanceAs (Decidable (∀ l ∈ (_ : Option LockId), _))
  | .resume | .acquire _ | .tryAcquire _ | .release _ | .setPriority _ | .down _ | .tryDown _ | .up _
  | .create _ | .unblock _ | .block | .yield | .timerSleep _ | .exit | .idle => .isTrue trivial

def Act.Returns : Act → Prop
  | .resume | .timer | .intrUp _ | .intrUnblock _ => True
  | _ => False

section Steps

variable {k k' : Kernel} {x : Act} {m : SemaId} {t : Tid}

theorem Watched.top (h : k.Watched) (hy : ¬ k.Yields) : k.sched.Top := h.resolve_right fun h ↦ hy h.2

theorem AtUser.not_yields (h : k.AtUser) : ¬ k.Yields := by
  simp [Yields, h.2.1]

theorem unblockHere_watched (h : k.sched.Top) (hsw : k.sched.switched = false)
    (hs : k.unblockHere t = some k') : k'.Watched := by
  obtain ⟨r, hr, rfl⟩ := map_eq_some_iff.mp hs
  obtain ⟨_, ⟨rfl, hi, _⟩ | ⟨rfl, _⟩⟩ := unblock_cases hr
  · cases hi
  · by_cases ht : k.sched.priority t > k.getPriority
    · exact .inr ⟨hsw, .inr (.inr (.inr (by simp [ht])))⟩
    · exact .inl (h.push (not_lt.mp ht))

variable {now : Int} {sleepers : List SleepEntry} {s : Sched} {r : List SleepEntry × Sched} {l : LockId}

theorem wakeSleepingThreads_top
    (h : s.Top)
    (hle : ∀ e ∈ sleepers.takeWhile (·.wakeupTick ≤ now), s.priority e.thread ≤ s.priority s.current)
    (hs : wakeSleepingThreads now sleepers s = some r) : r.2.Top := by
  induction sleepers generalizing s with
  | nil =>
    cases hs
    exact h
  | cons e rest ih =>
    rw [wakeSleepingThreads] at hs
    split at hs
    · cases hs
      exact h
    · next hnow =>
      obtain ⟨q, hq, hs⟩ := bind_eq_some_iff.mp hs
      rw [List.takeWhile_cons_of_pos (by simpa using hnow)] at hle
      have he := hle e List.mem_cons_self
      obtain ⟨_, ⟨rfl, hi, _⟩ | ⟨rfl, _⟩⟩ := unblock_cases hq
      · cases hi
      · exact ih (h.push he) (fun e' he' ↦ hle e' (List.mem_cons_of_mem _ he')) hs

theorem acquireDonate_top (h : k.sched.Top) : (k.acquireDonate l).sched.Top := by
  intro t ht
  have hready : (k.acquireDonate l).sched.readyList = k.sched.readyList ∧
      (k.acquireDonate l).sched.current = k.sched.current := by
    unfold acquireDonate
    split <;> exact ⟨rfl, rfl⟩
  have hpri : (k.acquireDonate l).sched.priority = (k.locks.donate k.sched.current l).priority :=
    congrArg Locks.priority locks_acquireDonate
  rw [hready.1] at ht
  rw [hready.2, hpri]
  have hcases := Locks.donate_priority_cases (v := k.locks) (c := k.sched.current) (l := l)
  have hcur : k.sched.priority k.sched.current ≤
      (k.locks.donate k.sched.current l).priority k.sched.current := by
    obtain e | ⟨e, _⟩ := hcases k.sched.current
    · exact e.ge
    · exact e.ge
  obtain e | ⟨e, _⟩ := hcases t
  · rw [e]
    exact (h t ht).trans hcur
  · rw [e]
    exact hcur

theorem created_top {p : Int} (hb : k.Born) (h : k.sched.Top) : (k.created p).sched.Top := by
  intro t ht
  have hne : ∀ u, u < k.nextTid → update k.sched.priority k.nextTid p u = k.sched.priority u :=
    fun u hu ↦ update_of_ne hu.ne ..
  have hle := h t ht
  rw [← hne t (hb.ready t ht), ← hne k.sched.current hb.current] at hle
  exact hle

theorem restored_watched (hsw : k.sched.switched = false)
    (hok : (∀ t ∈ k.sched.readyList, k.sched.priority t ≤ k.originalPriority k.sched.current) ∨
      ∃ w ∈ (k.sema (.lock l)).waiters, w ≠ k.sched.current ∧
        k.originalPriority k.sched.current < k.sched.priority w) :
    ((k.setPriority k.sched.current (k.originalPriority k.sched.current)).setPc (.releaseClear l)).Watched := by
  obtain hle | ⟨w, hw, hwc, hlt⟩ := hok
  · left
    intro t ht
    by_cases htc : t = k.sched.current
    · subst htc
      rfl
    · simpa [setPc, setPriority, htc] using hle t ht
  · refine .inr ⟨hsw, .inl ⟨l, .inl (by simp [setPc]), w, hw, ?_⟩⟩
    simpa [setPc, setPriority, getPriority, hwc] using hlt

theorem wakeSleepingThreads_switched
    (hs : wakeSleepingThreads now sleepers s = some r) :
    r.2.switched = s.switched := by
  induction sleepers generalizing s with
  | nil =>
    cases hs
    rfl
  | cons e rest ih =>
    rw [wakeSleepingThreads] at hs
    split at hs
    · cases hs
      rfl
    · obtain ⟨q, hq, hs⟩ := bind_eq_some_iff.mp hs
      obtain ⟨_, ⟨rfl, hi, _⟩ | ⟨rfl, _⟩⟩ := unblock_cases hq
      · cases hi
      · have h' := ih hs
        exact h'

section Bounded

-- the priorities are those of an `i32`, so that the scan of the ready list finds a greatest one
variable (hpri : ∀ t, i32Min ≤ k.sched.priority t)

include hpri

theorem downLoop_top (h : k.sched.Top) : (k.downLoop m).sched.Top := by
  unfold downLoop
  split
  · exact block_top hpri
  · exact h

variable {intr : Bool} {r : Kernel × Bool}

theorem wakeOne_top
    (h : (∀ w ∈ (k.sema m).waiters, k.sched.priority w ≤ k.getPriority) → k.sched.Top)
    (hintr : intr = true → ∀ w ∈ (k.sema m).waiters[bestIdx k.sched.priority (k.sema m).waiters]?,
      k.sched.priority w ≤ k.getPriority)
    (hs : k.wakeOne intr m = some r) : r.1.sched.Top := by
  unfold wakeOne at hs
  split at hs
  · next hnone =>
    cases hs
    apply h
    intro w hw
    have hlt := bestIdx_lt k.sched.priority (List.ne_nil_of_mem hw)
    rw [List.getElem?_eq_getElem hlt] at hnone
    cases hnone
  · next w hw =>
    obtain ⟨q, hq, rfl⟩ := map_eq_some_iff.mp hs
    refine unblock_top hpri ?_ (fun hi ↦ hintr hi w hw) hq
    intro hle
    apply h
    intro u hu
    obtain ⟨b, hb, hbest, _⟩ := bestIdx_spec (List.ne_nil_of_mem hu) hpri
    rw [hb] at hw
    cases hw
    exact (hbest u hu).trans hle

theorem up_top
    (h : k.sched.Top ∨ ∃ w ∈ (k.sema m).waiters, k.getPriority < k.sched.priority w)
    (hs : k.up m = some k') : k'.sched.Top := by
  obtain ⟨r, hr, rfl⟩ := map_eq_some_iff.mp hs
  have ht : r.1.sched.Top := by
    refine wakeOne_top hpri ?_ (by simp) hr
    intro hle
    obtain h | ⟨w, hw, hlt⟩ := h
    · exact h
    · exact absurd (hle w hw) (not_le.mpr hlt)
  split <;> exact ht

theorem timer_top (hok : k.Prompt .timer) (hs : k.timer = some k') :
    k'.sched.Top := by
  obtain ⟨r, hr, rfl⟩ := map_eq_some_iff.mp hs
  split
  · apply yieldCurrent_top
    rwa [wakeSleepingThreads_priority hr]
  · next hslice =>
    obtain ⟨h, hle⟩ := hok.resolve_left hslice
    exact wakeSleepingThreads_top h hle hr

theorem resume_top (h : k.sched.Top) : k.resume.sched.Top := by
  unfold resume
  cases k.pc k.sched.current with
  | inDown m => exact downLoop_top hpri h
  | _ => exact h

theorem next_watched (h : k.Watched) (hsw : k.sched.switched = false)
    (hok : k.Prompt .next) (hs : k.next = some k') : k'.Watched := by
  unfold next at hs
  cases hpc : k.pc k.sched.current <;> simp only [hpc, some.injEq, reduceCtorEq] at hs
  case acquireDonate l =>
    subst hs
    exact .inl (acquireDonate_top (h.top (by simp [Yields, hpc])))
  case acquireDown l =>
    subst hs
    exact .inl (downLoop_top hpri (h.top (by simp [Yields, hpc])))
  case acquireClear l | acquireHold l =>
    subst hs
    exact .inl (h.top (by simp [Yields, hpc]))
  case releaseRestore l =>
    subst hs
    exact restored_watched hsw (hok l (by simp [hpc, Pc.restoring]))
  case releaseClear l =>
    subst hs
    refine h.imp id ?_
    rintro ⟨_, ⟨l', hl', hw⟩ | hy⟩
    · obtain rfl : l = l' := by simpa [hpc] using hl'
      exact ⟨hsw, .inl ⟨l, .inr (by simp [setPc]), hw⟩⟩
    · simp [hpc] at hy
  case releaseUp l =>
    refine .inl (up_top hpri ?_ hs)
    refine h.imp id ?_
    rintro ⟨_, ⟨l', hl', hw⟩ | hy⟩
    · obtain rfl : l = l' := by simpa [hpc] using hl'
      exact hw
    · simp [hpc] at hy
  case setBase p =>
    subst hs
    exact .inr ⟨hsw, .inr (.inr (.inl (by simp [setPc])))⟩
  case checkYield =>
    subst hs
    by_cases hy : k.shouldYield = true
    · exact .inr ⟨hsw, .inr (.inr (.inr (by simp [setPc, hy])))⟩
    · left
      intro t ht
      have hno : ∀ u ∈ k.sched.readyList, k.sched.priority u ≤ k.getPriority := by
        simpa [shouldYield] using hy
      exact hno t ht
  case yielding =>
    subst hs
    exact .inl (yieldCurrent_top hpri)
  case sleep w =>
    subst hs
    exact .inl (block_top hpri)

theorem act_watched (hb : k.Born) (h : k.Watched) (hok : k.Prompt x)
    (hs : k.act x = some k') : k'.Watched ∧ (x.Returns → k'.sched.Top) := by
  have hsame : k.AtUser → k.sched.Top := fun hu ↦ h.top hu.not_yields
  cases x <;> obtain ⟨hg, ha⟩ := ite_none_right_eq_some.mp hs
  case resume =>
    cases ha
    have ht : k.sched.Top := h.resolve_right (by simp [hg])
    exact ⟨.inl (resume_top hpri ht), fun _ ↦ resume_top hpri ht⟩
  case next =>
    exact ⟨next_watched hpri h (by simpa using hg) hok ha, False.elim⟩
  case acquire l | release l =>
    cases ha
    exact ⟨.inl (hsame hg.1), False.elim⟩
  case tryAcquire l | tryDown n =>
    split at ha <;> cases ha <;> exact ⟨.inl (hsame hg), False.elim⟩
  case setPriority p =>
    cases ha
    exact ⟨.inr ⟨hg.1.1, .inr (.inl ⟨p, by simp [setPc]⟩)⟩, False.elim⟩
  case down n =>
    cases ha
    exact ⟨.inl (downLoop_top hpri (hsame hg)), False.elim⟩
  case up n =>
    exact ⟨.inl (up_top hpri (.inl (hsame hg)) ha), False.elim⟩
  case create p =>
    exact ⟨unblockHere_watched (created_top hb (hsame hg.1)) hg.1.1 ha, False.elim⟩
  case unblock t =>
    exact ⟨unblockHere_watched (hsame hg.1) hg.1.1 ha, False.elim⟩
  case block | idle =>
    cases ha
    exact ⟨.inl (block_top hpri), False.elim⟩
  case yield =>
    cases ha
    exact ⟨.inl (yieldCurrent_top hpri), False.elim⟩
  case timerSleep n =>
    split at ha <;> cases ha <;> exact ⟨.inl (hsame hg), False.elim⟩
  case exit =>
    cases ha
    exact ⟨.inl (exit_top hpri), False.elim⟩
  case timer =>
    have ht := timer_top hpri hok ha
    exact ⟨.inl ht, fun _ ↦ ht⟩
  case intrUp n =>
    obtain ⟨r, hr, rfl⟩ := map_eq_some_iff.mp ha
    have ht : r.1.sched.Top := wakeOne_top hpri (fun _ ↦ hok.1) (fun _ ↦ hok.2) hr
    exact ⟨.inl ht, fun _ ↦ ht⟩
  case intrUnblock t =>
    obtain ⟨r, hr, rfl⟩ := map_eq_some_iff.mp ha
    have ht : r.1.Top := unblock_top hpri (fun _ ↦ hok.1) (fun _ ↦ hok.2) hr
    exact ⟨.inl ht, fun _ ↦ ht⟩

section

variable (hsw : k.sched.switched = false)
include hsw

theorem downLoop_settled :
    (k.downLoop m).sched.Settled := by
  unfold downLoop
  split
  · exact .inl (block_top hpri)
  · exact .inr hsw

theorem wakeOne_settled (hs : k.wakeOne intr m = some r) : r.1.sched.Settled := by
  unfold wakeOne at hs
  split at hs
  · cases hs
    exact .inr hsw
  · obtain ⟨q, hq, rfl⟩ := map_eq_some_iff.mp hs
    exact unblock_settled hpri hsw hq

theorem up_settled
    (hs : k.up m = some k') : k'.sched.Settled := by
  obtain ⟨r, hr, rfl⟩ := map_eq_some_iff.mp hs
  split <;> exact wakeOne_settled hpri hsw hr

theorem timer_settled
    (hs : k.timer = some k') : k'.sched.Settled := by
  obtain ⟨r, hr, rfl⟩ := map_eq_some_iff.mp hs
  split
  · refine .inl (yieldCurrent_top ?_)
    rwa [wakeSleepingThreads_priority hr]
  · exact .inr ((wakeSleepingThreads_switched hr).trans hsw)

end

theorem resume_settled : k.resume.sched.Settled := by
  unfold resume
  cases k.pc k.sched.current with
  | inDown m => exact downLoop_settled hpri rfl
  | _ => exact .inr rfl

theorem next_settled (hsw : k.sched.switched = false)
    (hs : k.next = some k') : k'.sched.Settled := by
  unfold next at hs
  cases hpc : k.pc k.sched.current <;> simp only [hpc, some.injEq, reduceCtorEq] at hs
  case acquireDonate l =>
    subst hs
    unfold acquireDonate
    split <;> exact .inr hsw
  case acquireDown l =>
    subst hs
    exact downLoop_settled hpri hsw
  case releaseUp l =>
    exact up_settled hpri hsw hs
  case yielding =>
    subst hs
    exact .inl (yieldCurrent_top hpri)
  case sleep w =>
    subst hs
    exact .inl (block_top hpri)
  all_goals
    subst hs
    exact .inr hsw

theorem act_settled (hs : k.act x = some k') : k'.sched.Settled := by
  cases x <;> obtain ⟨hg, ha⟩ := ite_none_right_eq_some.mp hs
  case resume =>
    cases ha
    exact resume_settled hpri
  case next =>
    exact next_settled hpri (by simpa using hg) ha
  case acquire l | release l | setPriority p =>
    cases ha
    exact .inr hg.1.1
  case tryAcquire l | tryDown n | timerSleep n =>
    split at ha <;> cases ha <;> exact .inr hg.1
  case down n =>
    cases ha
    exact downLoop_settled hpri hg.1
  case up n =>
    exact up_settled hpri hg.1 ha
  case create p | unblock t =>
    obtain ⟨r, hr, rfl⟩ := map_eq_some_iff.mp ha
    obtain ⟨_, ⟨rfl, hi, _⟩ | ⟨rfl, _⟩⟩ := unblock_cases hr
    · cases hi
    · exact .inr hg.1.1
  case block | idle =>
    cases ha
    exact .inl (block_top hpri)
  case yield =>
    cases ha
    exact .inl (yieldCurrent_top hpri)
  case exit =>
    cases ha
    exact .inl (exit_top hpri)
  case timer =>
    exact timer_settled hpri hg ha
  case intrUp n =>
    obtain ⟨r, hr, rfl⟩ := map_eq_some_iff.mp ha
    exact wakeOne_settled hpri hg hr
  case intrUnblock t =>
    obtain ⟨r, hr, rfl⟩ := map_eq_some_iff.mp ha
    exact unblock_settled hpri hg.1 hr

end Bounded

end Steps

section Runs

variable {k k' k'' k₀ : Kernel} {x : Act}

theorem Boot.bounded (h : Boot k) : k.locks.Bounded := by
  intro t
  refine ⟨(h.priority t).1, (h.priority t).1.trans_eq (h.priority t).2.symm, ?_⟩
  intro p hp
  simp [locks, h.pc] at hp

theorem bounded_of_run (h₀ : Boot k₀) (hrun : Run step always k₀ k) : k.locks.Bounded :=
  hrun.invariant (fun k ↦ k.locks.Bounded) (fun _ _ _ h _ hs ↦ h.move (step_move hs)) h₀.bounded

theorem step_watched (hb : k.Born) (hpri : ∀ t, i32Min ≤ k.sched.priority t) (h : k.Watched)
    (hok : k.Prompt x) (hs : k.step x = some k') : k'.Watched ∧ (x.Returns → k'.sched.Top) := by
  obtain ⟨k₁, ha, rfl⟩ := map_eq_some_iff.mp hs
  have h₁ := act_watched hpri hb h hok ha
  unfold finish
  split <;> exact h₁

theorem step_settled (hpri : ∀ t, i32Min ≤ k.sched.priority t) (hs : k.step x = some k') :
    k'.sched.Settled := by
  obtain ⟨k₁, ha, rfl⟩ := map_eq_some_iff.mp hs
  rw [finish_sched]
  exact act_settled hpri ha

theorem settled_of_run (h₀ : Boot k₀) (hrun : Run step always k₀ k) : k.sched.Settled := by
  cases hrun with
  | refl => exact .inr h₀.switched
  | snoc hrun _ hs => exact step_settled (fun t ↦ (bounded_of_run h₀ hrun t).1) hs

theorem watched_of_run (h₀ : Boot k₀) (hrun : Run step always k₀ k) (hk : k = k₀ ∨ k.sched.switched = true)
    (hrun' : Run step Prompt k k') : Run step always k₀ k' ∧ k'.Watched := by
  have hstart : k.Watched := by
    obtain rfl | hsw := hk
    · left
      intro t ht
      simp [h₀.readyList] at ht
    · exact .inl ((settled_of_run h₀ hrun).resolve_right (by simp [hsw]))
  refine hrun'.invariant (fun k' ↦ Run step always k₀ k' ∧ k'.Watched) ?_ ⟨hrun, hstart⟩
  rintro a x b ⟨ha, hw⟩ hok hs
  refine ⟨.snoc ha trivial hs, ?_⟩
  exact (step_watched (inv_of_run h₀ ha).1 (fun t ↦ (bounded_of_run h₀ ha t).1) hw hok hs).1

/-- An interrupt, the end of a switch or a whole operation has returned to the thread on the CPU, with
interrupts on. -/
def Returned (x : Act) (k : Kernel) : Prop :=
  k.sched.switched = false ∧ (x.Returns ∨ k.pc k.sched.current = .user)

/-- Since the running thread was dispatched, or since the start, all steps were prompt: then no thread of
higher priority is ready whenever an operation or an interrupt has returned. -/
theorem no_higher_ready (h₀ : Boot k₀) (hrun : Run step always k₀ k) (hk : k = k₀ ∨ k.sched.switched = true)
    (hrun' : Run step Prompt k k') (hok : k'.Prompt x) (hs : k'.step x = some k'') (hret : Returned x k'') :
    ∀ t ∈ k''.sched.readyList, k''.sched.priority t ≤ k''.getPriority := by
  obtain ⟨hall, hw⟩ := watched_of_run h₀ hrun hk hrun'
  obtain ⟨hw', hint⟩ :=
    step_watched (inv_of_run h₀ hall).1 (fun t ↦ (bounded_of_run h₀ hall t).1) hw hok hs
  obtain ⟨_, hx | hu⟩ := hret
  · exact hint hx
  · exact hw'.top (by simp [Yields, hu])

def undisturbed : List Act := .create 20 :: acquireFree 0 ++ [.release 0, .next, .next]

theorem no_higher_ready_undisturbed : ∃ k k', execWhile step Prompt boot undisturbed = some k ∧
    k.step .next = some k' ∧ k'.sched.current = 1 ∧ k'.sched.readyList = [3] ∧
      ∀ t ∈ k'.sched.readyList, k'.sched.priority t ≤ k'.getPriority := by
  have hrun : ∃ k k', execWhile step Prompt boot undisturbed = some k ∧ k.Prompt .next ∧
      k.step .next = some k' ∧ k'.sched.current = 1 ∧ k'.sched.readyList = [3] ∧ Returned .next k' :=
    ⟨_, _, rfl, by decide, rfl, rfl, rfl, rfl, .inr rfl⟩
  obtain ⟨k, k', hk, hok, hs, hc, hr, hret⟩ := hrun
  exact ⟨k, k', hk, hs, hc, hr,
    no_higher_ready boot_ok (.refl boot) (.inl rfl) (Run.of_execWhile hk) hok hs hret⟩

def overslept : List Act := [.create 41, .next, .resume, .timerSleep 1, .next, .resume]

/-- The timer wakes the sleeper and returns to the main thread, which keeps the CPU. -/
theorem timer_leaves_higher_ready : ∃ k k', exec step boot overslept = some k ∧ k.step .timer = some k' ∧
    Returned .timer k' ∧ k'.sched.current = 1 ∧ k'.getPriority = 31 ∧ k'.sched.readyList = [3] ∧
      k'.sched.priority 3 = 41 :=
  ⟨_, _, rfl, rfl, ⟨rfl, .inr rfl⟩, rfl, rfl, rfl, rfl⟩

end Runs

end Kernel

end Rxv6.Sync
