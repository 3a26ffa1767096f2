import Rxv6.Ipc.Stream

namespace Rxv6.Ipc

open Function Rxv6.Lib.Runs Rxv6.Thread List Option

variable {s s' : System} {t u : Tid} {c : Call} {data : List UInt8} {w i : Nat} {a : Act}

open Ipc.System

/-- What one turn of a call leaves as it was. -/
theorem runCall_frame (h : s.runCall t c w i = some s') :
    (∃ pc, s'.pc = update s.pc t pc) ∧ (s.pipe.readOpen = false → s'.pipe.readOpen = false) ∧
      (s'.input = s.input ∨ ∃ data, c = .write data ∧ w < data.length ∧ s.pipe.full = false ∧
        s'.input = s.input ++ (data.drop w).take (min (data.length - w) (512 - s.pipe.fill))) := by
  cases c with
  | write data =>
    simp only [runCall, runWrite] at h
    split at h
    · next hlt =>
      split at h
      · split at h
        · cases h
          exact ⟨⟨_, rfl⟩, id, .inl rfl⟩
        · obtain ⟨q, -, rfl⟩ := map_eq_some_iff.mp h
          exact ⟨⟨_, rfl⟩, id, .inl rfl⟩
      · next hfull =>
        cases h
        exact ⟨⟨_, rfl⟩, id, .inr ⟨data, rfl, hlt, Bool.eq_false_iff.mpr hfull, rfl⟩⟩
    · obtain ⟨q, -, rfl⟩ := map_eq_some_iff.mp h
      exact ⟨⟨_, rfl⟩, id, .inl rfl⟩
  | read len =>
    simp only [runCall, runRead] at h
    split at h
    · split at h <;> cases h <;> exact ⟨⟨_, rfl⟩, id, .inl rfl⟩
    · obtain ⟨q, -, rfl⟩ := map_eq_some_iff.mp h
      exact ⟨⟨_, rfl⟩, id, .inl rfl⟩
  | closeRead =>
    simp only [runCall, runCloseRead] at h
    split at h
    · obtain ⟨q, -, rfl⟩ := map_eq_some_iff.mp h
      exact ⟨⟨_, rfl⟩, fun _ ↦ rfl, .inl rfl⟩
    · cases h
      exact ⟨⟨_, rfl⟩, id, .inl rfl⟩
  | closeWrite =>
    simp only [runCall, runCloseWrite] at h
    split at h
    · obtain ⟨q, -, rfl⟩ := map_eq_some_iff.mp h
      exact ⟨⟨_, rfl⟩, id, .inl rfl⟩
    · cases h
      exact ⟨⟨_, rfl⟩, id, .inl rfl⟩

theorem step_pc (h : s.step a = some s') (hu : u ≠ a.tid) : s'.pc u = s.pc u := by
  obtain ⟨lock, pc, rfl⟩ | ⟨t, c, w, i, rfl, -, hrun⟩ := step_cases h
  · exact update_of_ne hu _ _
  · obtain ⟨⟨pc, hpc⟩, -⟩ := runCall_frame hrun
    rw [hpc]
    exact update_of_ne hu _ _

theorem exec_pc {l : List Act} (h : exec System.step s l = some s')
    (hu : ∀ a ∈ l, u ≠ a.tid) : s'.pc u = s.pc u := by
  induction l generalizing s with
  | nil => rw [some.inj h]
  | cons a l ih =>
    obtain ⟨s₁, hs, hrest⟩ := bind_eq_some_iff.mp h
    rw [ih hrest fun b hb ↦ hu b (mem_cons_of_mem _ hb), step_pc hs (hu a mem_cons_self)]

/-- A reader stays in the queue of `not_empty` after the last write end is closed, with nobody
left to wake it. -/
def StrandedReader (s : System) : Prop :=
  s.pipe.writeOpen = false ∧ s.lock = none ∧ s.notEmpty ≠ [] ∧
    ∀ t len w, s.pc t = .busy (.read len) w .waiting → t ∈ s.notEmpty

/-- The same for a writer in the queue of `not_full` after the last read end is closed. -/
def StrandedWriter (s : System) : Prop :=
  s.pipe.readOpen = false ∧ s.lock = none ∧ s.notFull ≠ [] ∧
    ∀ t data w, s.pc t = .busy (.write data) w .waiting → t ∈ s.notFull

/-- The close of a last write end finds at most one waiting reader, and the close of a last read
end at most one waiting writer. -/
def atMostOneWaits (s : System) : Act → Bool
  | .run t _ =>
    match s.pc t with
    | .busy .closeWrite _ .inside => System.decr s.pipe.writeRefcnt ≠ 0 || s.notEmpty.length ≤ 1
    | .busy .closeRead _ .inside => System.decr s.pipe.readRefcnt ≠ 0 || s.notFull.length ≤ 1
    | _ => true
  | _ => true

def AtMostOneWaits (s : System) (a : Act) : Prop := atMostOneWaits s a = true

instance (s : System) (a : Act) : Decidable (AtMostOneWaits s a) :=
  inferInstanceAs (Decidable (_ = _))

structure Quiet (s : System) : Prop where
  readers : s.pipe.writeOpen = false → s.notEmpty = []
  writers : s.pipe.readOpen = false → s.notFull = []

theorem signal_nil {q : List Tid} (h : signal [] i = some q) : q = [] := by
  simpa [signal] using h.symm

theorem signal_single {q q' : List Tid} (h : signal q i = some q') (hq : q.length ≤ 1) :
    q' = [] := by
  unfold signal at h
  split at h
  · exact (some.inj h).symm
  · split at h
    · next hi =>
      have hlen : q'.length = 0 := by
        rw [← some.inj h, length_eraseIdx_of_lt hi]
        omega
      exact length_eq_zero_iff.mp hlen
    · cases h

theorem Quiet.runWrite (h : Quiet s) (hs : s.runWrite t data w i = some s') : Quiet s' := by
  unfold System.runWrite at hs
  split at hs
  · split at hs
    · split at hs
      · cases hs
        exact ⟨h.readers, h.writers⟩
      · next hopen =>
        obtain ⟨q, hq, rfl⟩ := map_eq_some_iff.mp hs
        refine ⟨fun hw ↦ ?_, fun hr ↦ absurd (Bool.eq_false_iff.mp hr) hopen⟩
        rw [h.readers hw] at hq
        exact signal_nil hq
    · cases hs
      exact ⟨h.readers, h.writers⟩
  · obtain ⟨q, hq, rfl⟩ := map_eq_some_iff.mp hs
    refine ⟨fun hw ↦ ?_, h.writers⟩
    rw [h.readers hw] at hq
    exact signal_nil hq

theorem Quiet.runRead {len : Nat} (h : Quiet s) (hs : s.runRead t len i = some s') :
    Quiet s' := by
  unfold System.runRead at hs
  split at hs
  · split at hs
    · cases hs
      exact ⟨h.readers, h.writers⟩
    · next hopen =>
      cases hs
      exact ⟨fun hw ↦ absurd (Bool.eq_false_iff.mp hw) hopen, h.writers⟩
  · obtain ⟨q, hq, rfl⟩ := map_eq_some_iff.mp hs
    refine ⟨h.readers, fun hr ↦ ?_⟩
    rw [h.writers hr] at hq
    exact signal_nil hq

theorem Quiet.runCloseRead (h : Quiet s) (hs : s.runCloseRead t i = some s')
    (hone : System.decr s.pipe.readRefcnt = 0 → s.notFull.length ≤ 1) : Quiet s' := by
  simp only [System.runCloseRead] at hs
  split at hs
  · next h0 =>
    obtain ⟨q, hq, rfl⟩ := map_eq_some_iff.mp hs
    exact ⟨h.readers, fun _ ↦ signal_single hq (hone h0)⟩
  · cases hs
    exact ⟨h.readers, h.writers⟩

theorem Quiet.runCloseWrite (h : Quiet s) (hs : s.runCloseWrite t i = some s')
    (hone : System.decr s.pipe.writeRefcnt = 0 → s.notEmpty.length ≤ 1) : Quiet s' := by
  simp only [System.runCloseWrite] at hs
  split at hs
  · next h0 =>
    obtain ⟨q, hq, rfl⟩ := map_eq_some_iff.mp hs
    exact ⟨fun _ ↦ signal_single hq (hone h0), h.writers⟩
  · cases hs
    exact ⟨h.readers, h.writers⟩

theorem Quiet.step (h : Quiet s) (hok : AtMostOneWaits s a) (hs : s.step a = some s') :
    Quiet s' := by
  obtain ⟨lock, pc, rfl⟩ | ⟨t, c, w, i, rfl, hpc, hrun⟩ := step_cases hs
  · exact ⟨h.readers, h.writers⟩
  · cases c with
    | write data => exact h.runWrite hrun
    | read len => exact h.runRead hrun
    | closeRead =>
      simp only [AtMostOneWaits, atMostOneWaits, hpc, Bool.or_eq_true, decide_eq_true_eq] at hok
      exact h.runCloseRead hrun fun h0 ↦ hok.resolve_left (fun h ↦ h h0)
    | closeWrite =>
      simp only [AtMostOneWaits, atMostOneWaits, hpc, Bool.or_eq_true, decide_eq_true_eq] at hok
      exact h.runCloseWrite hrun fun h0 ↦ hok.resolve_left (fun h ↦ h h0)

/-- As long as a last close finds at most one waiter, the end of the file reaches every reader
and the closed read end every writer. -/
theorem close_reaches_waiters (h : Run System.step AtMostOneWaits System.init s) :
    ¬ StrandedReader s ∧ ¬ StrandedWriter s := by
  have hq := h.invariant Quiet (fun _ _ _ hi hok hs ↦ hi.step hok hs)
    ⟨fun h ↦ (by cases h), fun h ↦ (by cases h)⟩
  exact ⟨fun hr ↦ hr.2.2.1 (hq.readers hr.1), fun hw ↦ hw.2.2.1 (hq.writers hw.1)⟩

def oneReader : List Act :=
  [.call 3 (.read 1), .acquire 3, .run 3 0, .call 5 .closeWrite, .acquire 5, .run 5 0]

theorem close_reaches_waiters_oneReader : ∃ s, Run System.step AtMostOneWaits System.init s ∧
    s.pipe.writeOpen = false ∧ ¬ StrandedReader s ∧ ¬ StrandedWriter s := by
  have hsome : (execWhile System.step AtMostOneWaits System.init oneReader).isSome := by
    decide +kernel
  obtain ⟨s, hs⟩ := isSome_iff_exists.mp hsome
  have hopen : (execWhile System.step AtMostOneWaits System.init oneReader).map
      (·.pipe.writeOpen) = some false := by decide +kernel
  rw [hs] at hopen
  have hrun := Run.of_execWhile hs
  exact ⟨s, hrun, Option.some.inj hopen, close_reaches_waiters hrun⟩

/-- Two readers wait. The last close wakes one of them, which returns 0 without passing the
signal on. -/
def twoReaders : List Act :=
  [.call 3 (.read 1), .acquire 3, .run 3 0, .call 4 (.read 1), .acquire 4, .run 4 0,
    .call 5 .closeWrite, .acquire 5, .run 5 0, .acquire 3, .run 3 0]

theorem close_strands_second_reader :
    ∃ s, Run System.step always System.init s ∧ StrandedReader s := by
  have hsome : (exec System.step System.init twoReaders).isSome := by decide +kernel
  obtain ⟨s, hs⟩ := isSome_iff_exists.mp hsome
  have hseen : (exec System.step System.init twoReaders).map
      (fun s ↦ (s.pipe.writeOpen, s.lock, s.notEmpty, s.pc 3, s.pc 5)) =
        some (false, none, [4], .user, .user) := by decide +kernel
  rw [hs] at hseen
  have hseen := Option.some.inj hseen
  simp only [Prod.mk.injEq] at hseen
  obtain ⟨hopen, hlock, hqueue, h3, h5⟩ := hseen
  refine ⟨s, Run.of_exec hs, hopen, hlock, by simp [hqueue], fun t len w ht ↦ ?_⟩
  rw [hqueue, mem_singleton]
  by_contra h4
  have hne : ∀ a ∈ twoReaders, a.tid = 3 ∨ a.tid = 4 ∨ a.tid = 5 := by decide
  have huser : s.pc t = .user := by
    by_cases ht3 : t = 3
    · rw [ht3, h3]
    by_cases ht5 : t = 5
    · rw [ht5, h5]
    refine exec_pc hs fun a ha hta ↦ ?_
    rcases hne a ha with h | h | h
    · exact ht3 (hta.trans h)
    · exact h4 (hta.trans h)
    · exact ht5 (hta.trans h)
  rw [huser] at ht
  cases ht

end Rxv6.Ipc
