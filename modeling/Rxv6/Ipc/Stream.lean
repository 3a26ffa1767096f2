import Rxv6.Ipc.Monitor

namespace Rxv6.Ipc

open Function Rxv6.Lib Rxv6.Lib.Runs Rxv6.Thread List Option

theorem ringIdx_mod (pos i : Nat) : ringIdx (pos % 4294967296) i = (pos + i) % 512 := by
  unfold ringIdx
  omega

theorem copyIn_eq_store (buf : Nat → UInt8) (pos i : Nat) (l : List UInt8) :
    copyIn buf (pos % 4294967296) i l = Ring.store 512 buf (pos + i) l := by
  induction l generalizing buf i with
  | nil => rfl
  | cons b l ih => rw [copyIn, Ring.store, ih, ringIdx_mod, Nat.add_assoc]

theorem copyOut_eq_load (buf : Nat → UInt8) (pos n : Nat) :
    copyOut buf (pos % 4294967296) n = Ring.load 512 buf pos n := by
  simp only [copyOut, Ring.load, ringIdx_mod]

/-- The ring holds the bytes `q`, and the counters are the true positions modulo `2 ^ 32`. -/
def Queued (p : Pipe) (q : List UInt8) : Prop :=
  ∃ pos, p.nread = pos % 4294967296 ∧ p.nwrite = (pos + q.length) % 4294967296 ∧
    q.length ≤ 512 ∧ Ring.Holds 512 p.buf pos q

namespace Queued

variable {p : Pipe} {q l : List UInt8} {n : Nat}

theorem fill_eq (h : Queued p q) : p.fill = q.length := by
  obtain ⟨pos, hr, hw, hlen, -⟩ := h
  unfold Pipe.fill
  omega

theorem push (h : Queued p q) (hfit : q.length + l.length ≤ 512) :
    Queued { p with buf := copyIn p.buf p.nwrite 0 l
                    nwrite := (p.nwrite + l.length) % 4294967296 } (q ++ l) := by
  obtain ⟨pos, hr, hw, -, hold⟩ := h
  refine ⟨pos, hr, ?_, ?_, ?_⟩
  · simp only [length_append]
    omega
  · simpa using hfit
  · simp only [hw, copyIn_eq_store]
    exact hold.store hfit

theorem take (h : Queued p q) (hn : n ≤ q.length) : copyOut p.buf p.nread n = q.take n := by
  obtain ⟨pos, hr, -, -, hold⟩ := h
  rw [hr, copyOut_eq_load]
  exact hold.load hn

theorem pop (h : Queued p q) (hn : n ≤ q.length) :
    Queued { p with nread := (p.nread + n) % 4294967296 } (q.drop n) := by
  obtain ⟨pos, hr, hw, hlen, hold⟩ := h
  refine ⟨pos + n, ?_, ?_, ?_, hold.drop hn⟩
  · simp only
    omega
  · simp only [length_drop]
    omega
  · rw [length_drop]
    omega

theorem congr {p' : Pipe} (h : Queued p q) (hb : p'.buf = p.buf) (hr : p'.nread = p.nread)
    (hw : p'.nwrite = p.nwrite) : Queued p' q := by
  unfold Queued
  rw [hb, hr, hw]
  exact h

end Queued

def Lossless (s : System) : Prop := ∃ q, s.input = s.output ++ q ∧ Queued s.pipe q

variable {s s' : System} {t : Tid} {data : List UInt8} {w i : Nat}

theorem Lossless.congr (h : Lossless s) (hin : s'.input = s.input) (hout : s'.output = s.output)
    (hb : s'.pipe.buf = s.pipe.buf) (hr : s'.pipe.nread = s.pipe.nread)
    (hw : s'.pipe.nwrite = s.pipe.nwrite) : Lossless s' := by
  obtain ⟨q, hq, hold⟩ := h
  exact ⟨q, by rw [hin, hout, hq], hold.congr hb hr hw⟩

theorem Lossless.runWrite (h : Lossless s) (hs : s.runWrite t data w i = some s') :
    Lossless s' := by
  unfold System.runWrite at hs
  split at hs
  · next hlt =>
    split at hs
    · split at hs
      · cases hs
        exact h.congr rfl rfl rfl rfl rfl
      · obtain ⟨q, -, rfl⟩ := map_eq_some_iff.mp hs
        exact h.congr rfl rfl rfl rfl rfl
    · cases hs
      obtain ⟨q, hq, hold⟩ := h
      have hfill := hold.fill_eq
      have hle : q.length ≤ 512 := hold.elim fun _ hp ↦ hp.2.2.1
      set n := min (data.length - w) _ with hn
      have hlen : ((data.drop w).take n).length = n := by
        rw [length_take, length_drop]
        omega
      refine ⟨q ++ (data.drop w).take n, ?_, ?_⟩
      · simp only [hq, append_assoc]
      · have hpush := hold.push (l := (data.drop w).take n) (by omega)
        rw [hlen] at hpush
        exact hpush
  · obtain ⟨q, -, rfl⟩ := map_eq_some_iff.mp hs
    exact h.congr rfl rfl rfl rfl rfl

theorem Lossless.runRead {len : Nat} (h : Lossless s) (hs : s.runRead t len i = some s') :
    Lossless s' := by
  unfold System.runRead at hs
  split at hs
  · split at hs
    · cases hs
      exact h.congr rfl rfl rfl rfl rfl
    · cases hs
      exact h.congr rfl rfl rfl rfl rfl
  · obtain ⟨k, -, rfl⟩ := map_eq_some_iff.mp hs
    obtain ⟨q, hq, hold⟩ := h
    have hn : min len s.pipe.fill ≤ q.length := by
      rw [hold.fill_eq]
      exact Nat.min_le_right _ _
    refine ⟨q.drop _, ?_, hold.pop hn⟩
    simp only [System.finish, hold.take hn, append_assoc, take_append_drop, hq]

theorem Lossless.runCloseRead (h : Lossless s) (hs : s.runCloseRead t i = some s') :
    Lossless s' := by
  simp only [System.runCloseRead] at hs
  split at hs
  · obtain ⟨k, -, rfl⟩ := map_eq_some_iff.mp hs
    exact h.congr rfl rfl rfl rfl rfl
  · cases hs
    exact h.congr rfl rfl rfl rfl rfl

theorem Lossless.runCloseWrite (h : Lossless s) (hs : s.runCloseWrite t i = some s') :
    Lossless s' := by
  simp only [System.runCloseWrite] at hs
  split at hs
  · obtain ⟨k, -, rfl⟩ := map_eq_some_iff.mp hs
    exact h.congr rfl rfl rfl rfl rfl
  · cases hs
    exact h.congr rfl rfl rfl rfl rfl

def Act.tid : Act → Tid
  | .call t _ => t
  | .acquire t => t
  | .run t _ => t

theorem step_cases {a : Act} (h : s.step a = some s') :
    (∃ lock pc, s' = { s with lock := lock, pc := update s.pc a.tid pc }) ∨
      ∃ t c w i, a = .run t i ∧ s.pc t = .busy c w .inside ∧ s.runCall t c w i = some s' := by
  cases a with
  | call t c =>
    simp only [System.step] at h
    split at h
    · cases h
      exact .inl ⟨s.lock, _, rfl⟩
    · cases h
  | acquire t =>
    simp only [System.step] at h
    split at h
    · split at h
      · cases h
        exact .inl ⟨some t, _, rfl⟩
      · cases h
    · split at h
      · cases h
        exact .inl ⟨some t, _, rfl⟩
      · cases h
    · cases h
  | run t i =>
    simp only [System.step] at h
    split at h
    · next c w hpc => exact .inr ⟨t, c, w, i, rfl, hpc, h⟩
    · cases h

theorem Lossless.step {a : Act} (h : Lossless s) (hs : s.step a = some s') : Lossless s' := by
  obtain ⟨lock, pc, rfl⟩ | ⟨t, c, w, i, -, -, hrun⟩ := step_cases hs
  · exact h.congr rfl rfl rfl rfl rfl
  · cases c with
    | write data => exact h.runWrite hrun
    | read len => exact h.runRead hrun
    | closeRead => exact h.runCloseRead hrun
    | closeWrite => exact h.runCloseWrite hrun

theorem Lossless.init : Lossless System.init :=
  ⟨[], rfl, 0, rfl, rfl, by simp, fun i hi ↦ absurd hi (by simp)⟩

/-- In every schedule what the reads have copied out is a prefix of what the writes have copied
in, and the bytes in between stand in the ring, untouched. -/
theorem pipe_lossless (h : Run System.step always System.init s) :
    s.output <+: s.input ∧ s.input.length - s.output.length = s.pipe.fill ∧ s.pipe.fill ≤ 512 ∧
      copyOut s.pipe.buf s.pipe.nread s.pipe.fill = s.input.drop s.output.length := by
  obtain ⟨q, hq, hold⟩ := h.invariant Lossless (fun _ _ _ hi _ hs ↦ hi.step hs) Lossless.init
  have hle : q.length ≤ 512 := hold.elim fun _ hp ↦ hp.2.2.1
  refine ⟨hq ▸ prefix_append _ _, ?_, hold.fill_eq ▸ hle, ?_⟩
  · rw [hq, hold.fill_eq, length_append]
    omega
  · rw [hold.take (by rw [hold.fill_eq]), hold.fill_eq, take_length, hq, drop_left]

def twoThenOne : List Act :=
  [.call 3 (.write [7, 8]), .acquire 3, .run 3 0, .run 3 0, .call 4 (.read 1), .acquire 4, .run 4 0]

theorem pipe_lossless_twoThenOne : ∃ s, Run System.step always System.init s ∧
    s.output = [7] ∧ s.input = [7, 8] ∧ s.output <+: s.input := by
  have hs : (exec System.step System.init twoThenOne).isSome := by decide +kernel
  obtain ⟨s, hs⟩ := isSome_iff_exists.mp hs
  have hout : (exec System.step System.init twoThenOne).map System.output = some [7] := by decide +kernel
  have hin : (exec System.step System.init twoThenOne).map System.input = some [7, 8] := by decide +kernel
  rw [hs] at hout hin
  have hrun := Run.of_exec hs
  exact ⟨s, hrun, Option.some.inj hout, Option.some.inj hin, (pipe_lossless hrun).1⟩

end Rxv6.Ipc
