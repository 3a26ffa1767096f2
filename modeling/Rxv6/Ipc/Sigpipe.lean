import Rxv6.Ipc.Close

namespace Rxv6.Ipc

open Function Rxv6.Lib.Runs Rxv6.Thread List Option

variable {s s' : System} {t : Tid} {c : Call} {data : List UInt8} {w i : Nat} {a : Act}

structure Pipe.Valid (p : Pipe) : Prop where
  nread : p.nread < 4294967296
  nwrite : p.nwrite < 4294967296
  fill : p.fill ≤ 512

theorem Pipe.Valid.fill_lt {p : Pipe} (h : p.Valid) (hfull : p.full = false) : p.fill < 512 := by
  have hle := h.fill
  have hw := h.nwrite
  simp only [full, decide_eq_false_iff_not] at hfull
  unfold Pipe.fill at hle ⊢
  omega

def only (t : Tid) : System → Act → Prop := fun _ a ↦ ∃ i, a = .run t i

/-- Left alone with the lock, the call of `write` stores nothing, sends `SIGPIPE` to its caller
and returns -1. -/
def Refuses (s : System) (t : Tid) (data : List UInt8) : Prop :=
  ∃ s', Run System.step (only t) s s' ∧ s'.pipe = s.pipe ∧ s'.input = s.input ∧
    s'.pc t = .user ∧ s'.returns = ⟨t, .write data, 0, -1, true⟩ :: s.returns

theorem step_input_length (h : s.step a = some s') : s.input.length ≤ s'.input.length := by
  obtain ⟨lock, pc, rfl⟩ | ⟨t, c, w, i, -, -, hrun⟩ := step_cases h
  · exact le_rfl
  · rcases (runCall_frame hrun).2.2 with he | ⟨data, -, -, -, he⟩
    · rw [he]
    · rw [he, length_append]
      omega

open Ipc.System

theorem refuses_iff (hpc : s.pc t = .busy (.write data) 0 .inside)
    (hclosed : s.pipe.readOpen = false) (hdata : data ≠ []) (hvalid : s.pipe.Valid) :
    Refuses s t data ↔ s.pipe.full = true := by
  have hlen : 0 < data.length := length_pos_iff.mpr hdata
  constructor
  · rintro ⟨s', hrun, -, hin, huser, -⟩
    by_contra hfull
    have hfull := Bool.eq_false_iff.mpr hfull
    have hlt := hvalid.fill_lt hfull
    have hI := hrun.invariant (fun r ↦ r = s ∨ s.input.length < r.input.length) ?_ (.inl rfl)
    · rcases hI with rfl | hgrown
      · rw [hpc] at huser
        cases huser
      · rw [hin] at hgrown
        exact lt_irrefl _ hgrown
    · rintro r b r' (rfl | hgrown) ⟨i, rfl⟩ hstep
      · right
        simp only [step, hpc, runCall, runWrite, hlen, hfull] at hstep
        cases hstep
        simp only [length_append, length_take, drop_zero]
        omega
      · exact .inr (lt_of_lt_of_le hgrown (step_input_length hstep))
  · intro hfull
    refine ⟨s.finish t (.write data) 0 (-1) true, .one ⟨0, rfl⟩ ?_, rfl, rfl, ?_, rfl⟩
    · simp [step, hpc, runCall, runWrite, hlen, hfull, hclosed]
    · simp [finish]

/-- A write that gets to the test of its loop with bytes left and the read end closed finds the
ring full. -/
def seesClose (s : System) : Act → Bool
  | .run t _ =>
    match s.pc t with
    | .busy (.write data) w .inside => s.pipe.readOpen || data.length ≤ w || s.pipe.full
    | _ => true
  | _ => true

def SeesClose (s : System) (a : Act) : Prop := seesClose s a = true

instance (s : System) (a : Act) : Decidable (SeesClose s a) := inferInstanceAs (Decidable (_ = _))

def Answered (s : System) : Prop :=
  ∀ r ∈ s.returns, ∀ data, r.call = .write data → (r.result = r.written ∧ r.sigpipe = false) ∨
      (r.written = 0 ∧ r.result = -1 ∧ r.sigpipe = true)

theorem Answered.finish {n : Nat} {k : Int} {b : Bool} (h : Answered s)
    (hnew : ∀ data, c = .write data → (k = n ∧ b = false) ∨ (n = 0 ∧ k = -1 ∧ b = true)) :
    Answered (s.finish t c n k b) := by
  intro r hr data hc
  rcases mem_cons.mp hr with rfl | hr
  · exact hnew data hc
  · exact h r hr data hc

theorem Answered.congr (h : Answered s) (hr : s'.returns = s.returns) : Answered s' := by
  unfold Answered
  rw [hr]
  exact h

theorem Answered.runWrite (h : Answered s) (hs : s.runWrite t data w i = some s') :
    Answered s' := by
  unfold System.runWrite at hs
  split at hs
  · split at hs
    · split at hs
      · cases hs
        refine h.finish fun _ _ ↦ ?_
        by_cases hw : w = 0
        · exact .inr (by simp [hw])
        · exact .inl ⟨if_pos (pos_of_ne_zero hw), by simp [hw]⟩
      · obtain ⟨q, -, rfl⟩ := map_eq_some_iff.mp hs
        exact h.congr rfl
    · cases hs
      exact h.congr rfl
  · obtain ⟨q, -, rfl⟩ := map_eq_some_iff.mp hs
    have hq : Answered { s with notEmpty := q } := h.congr rfl
    exact hq.finish fun _ _ ↦ .inl ⟨rfl, rfl⟩

theorem Answered.runCall (h : Answered s) (hs : s.runCall t c w i = some s') : Answered s' := by
  cases c with
  | write data => exact h.runWrite hs
  | read len =>
    simp only [runCall, runRead] at hs
    split at hs
    · split at hs
      · cases hs
        exact h.finish (by rintro _ ⟨⟩)
      · cases hs
        exact h.congr rfl
    · obtain ⟨q, -, rfl⟩ := map_eq_some_iff.mp hs
      refine finish (h.congr ?_) (by rintro _ ⟨⟩)
      rfl
  | closeRead | closeWrite =>
    simp only [runCall, runCloseRead, runCloseWrite] at hs
    split at hs
    · obtain ⟨q, -, rfl⟩ := map_eq_some_iff.mp hs
      refine finish (h.congr ?_) (by rintro _ ⟨⟩)
      rfl
    · cases hs
      refine finish (h.congr ?_) (by rintro _ ⟨⟩)
      rfl

theorem Answered.step (h : Answered s) (hs : s.step a = some s') : Answered s' := by
  obtain ⟨lock, pc, rfl⟩ | ⟨t, c, w, i, -, -, hrun⟩ := step_cases hs
  · exact h.congr rfl
  · exact h.runCall hrun

theorem returns_of_seesClose (hpc : s.pc t = .busy (.write data) w .inside) (hw : w < data.length)
    (hclosed : s.pipe.readOpen = false) (hok : SeesClose s (.run t i))
    (hs : s.step (.run t i) = some s') :
    s' = s.finish t (.write data) w (if w > 0 then w else -1) (w = 0) := by
  have hfull : s.pipe.full = true := by
    simp only [SeesClose, seesClose, hpc, hclosed, Bool.false_or, Bool.or_eq_true, decide_eq_true_eq] at hok
    exact hok.resolve_left (by omega)
  simp only [step, hpc, runCall, runWrite, hw, hfull, hclosed] at hs
  exact (some.inj hs).symm

theorem step_closed (hclosed : s.pipe.readOpen = false) (hok : SeesClose s a)
    (hs : s.step a = some s') : s'.pipe.readOpen = false ∧ s'.input = s.input := by
  obtain ⟨lock, pc, rfl⟩ | ⟨t, c, w, i, rfl, hpc, hrun⟩ := step_cases hs
  · exact ⟨hclosed, rfl⟩
  · refine ⟨(runCall_frame hrun).2.1 hclosed, ?_⟩
    rcases (runCall_frame hrun).2.2 with he | ⟨data, rfl, hw, -, -⟩
    · exact he
    · rw [returns_of_seesClose hpc hw hclosed hok hs]
      rfl

/-- On a closed read end a write is refused exactly when the ring is full. In a run where every
write that meets the closed end finds the ring full, nothing is stored after the close and each
write in progress returns what it had stored before. -/
theorem write_refused_when_full (s : System) :
    (∀ t data, s.pc t = .busy (.write data) 0 .inside → s.pipe.readOpen = false → data ≠ [] →
      s.pipe.Valid → (Refuses s t data ↔ s.pipe.full = true)) ∧
    ∀ s', Run System.step SeesClose System.init s → s.pipe.readOpen = false → Run System.step SeesClose s s' →
        s'.input = s.input ∧ Answered s' ∧
          ∀ t data w i r, s'.pc t = .busy (.write data) w .inside → w < data.length →
            SeesClose s' (.run t i) → s'.step (.run t i) = some r → r.input = s.input ∧ r.pc t = .user ∧
                r.returns = ⟨t, .write data, w, if w > 0 then w else -1, w = 0⟩ :: s'.returns := by
  refine ⟨fun t data hpc hr hd hv ↦ refuses_iff hpc hr hd hv, fun s' h hr h' ↦ ?_⟩
  have hclosed := h'.invariant (fun r ↦ r.pipe.readOpen = false ∧ r.input = s.input) ?_ ⟨hr, rfl⟩
  · have hans := (h.trans h').invariant Answered (fun _ _ _ hi _ hs ↦ hi.step hs)
      (fun r hr ↦ absurd hr not_mem_nil)
    refine ⟨hclosed.2, hans, fun t data w i r hpc hw hok hs ↦ ?_⟩
    rw [returns_of_seesClose hpc hw hclosed.1 hok hs]
    exact ⟨hclosed.2, update_self _ _ _, rfl⟩
  · intro r b r' hi hok hs
    obtain ⟨ho, hin⟩ := step_closed hi.1 hok hs
    exact ⟨ho, hin.trans hi.2⟩

def fullPipe : System :=
  { System.init with
    pipe := { Pipe.new with nwrite := 512, readOpen := false, readRefcnt := 0 }
    lock := some 3
    pc := fun _ ↦ .busy (.write [7]) 0 .inside }

theorem write_refused_when_full_fullPipe : fullPipe.pipe.full = true ∧ Refuses fullPipe 3 [7] := by
  have hfull : fullPipe.pipe.full = true := by decide +kernel
  exact ⟨hfull, ((write_refused_when_full fullPipe).1 3 [7] rfl rfl (by simp)
    ⟨by decide +kernel, by decide +kernel, by decide +kernel⟩).mpr hfull⟩

def writeAfterClose : List Act :=
  [.call 4 .closeRead, .acquire 4, .run 4 0, .call 3 (.write [7]), .acquire 3]

theorem write_ignores_closed_end : ∃ s, Run System.step always System.init s ∧
    s.pipe.readOpen = false ∧ s.pc 3 = .busy (.write [7]) 0 .inside ∧ ¬ Refuses s 3 [7] ∧
    ∃ r, Run System.step (only 3) s r ∧ r.input = [7] ∧
      r.returns.head? = some ⟨3, .write [7], 1, 1, false⟩ := by
  have hsome : (exec System.step System.init writeAfterClose).isSome := by decide +kernel
  obtain ⟨s, hs⟩ := isSome_iff_exists.mp hsome
  have hseen : (exec System.step System.init writeAfterClose).map (fun s ↦
      (s.pipe.readOpen, s.pc 3, s.pipe.nread, s.pipe.nwrite, s.pipe.full)) =
        some (false, .busy (.write [7]) 0 .inside, 0, 0, false) := by decide +kernel
  have hwrote : ((exec System.step System.init writeAfterClose).bind fun s ↦
      exec System.step s [.run 3 0, .run 3 0]).map (fun r ↦ (r.input, r.returns.head?)) =
        some ([7], some ⟨3, .write [7], 1, 1, false⟩) := by decide +kernel
  rw [hs] at hseen hwrote
  have hseen := Option.some.inj hseen
  simp only [Prod.mk.injEq] at hseen
  obtain ⟨hr, hpc, hnr, hnw, hfull⟩ := hseen
  refine ⟨s, Run.of_exec hs, hr, hpc, fun href ↦ ?_, ?_⟩
  · have hv : s.pipe.Valid := ⟨by omega, by omega, by unfold Pipe.fill; omega⟩
    rw [refuses_iff hpc hr (by simp) hv, hfull] at href
    cases href
  · simp only [bind_some, map_eq_some_iff, exec, bind_eq_some_iff] at hwrote
    obtain ⟨r, ⟨s₁, h₁, s₂, h₂, h₃⟩, hr⟩ := hwrote
    cases h₃
    simp only [Prod.mk.injEq] at hr
    exact ⟨r, (Run.one ⟨0, rfl⟩ h₁).trans (.one ⟨0, rfl⟩ h₂), hr.1, hr.2⟩

end Rxv6.Ipc
