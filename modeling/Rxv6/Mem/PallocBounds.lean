import Rxv6.Mem.Palloc

namespace Rxv6.Mem

open Bitmap Rxv6.Lib.Runs Rxv6.Vm

theorem ramEnd_eq (ramPages : Nat) : ramEnd ramPages = (ramPages + physBase / pgsize) * pgsize := by
  simp only [ramEnd, physBase, pgsize]
  omega

section Layout

variable {ramPages kernelEnd userPageLimit : Nat} {m : Bytes} {v : Bool}

theorem freeStart_le (hend : kernelEnd ≤ ramEnd ramPages) : freeStart kernelEnd ≤ ramEnd ramPages := by
  rw [ramEnd_eq] at hend ⊢
  simp only [freeStart, pgRoundUp, pgsize] at hend ⊢
  omega

theorem pages_add (userPageLimit : Nat) (hend : kernelEnd ≤ ramEnd ramPages) :
    freeStart kernelEnd +
        (kernelPages ramPages kernelEnd userPageLimit + userPages ramPages kernelEnd userPageLimit) * pgsize =
      ramEnd ramPages := by
  have hle := freeStart_le hend
  have hhalf : userPages ramPages kernelEnd userPageLimit ≤ freePages ramPages kernelEnd := by
    simp only [userPages]
    split <;> omega
  have hsum : kernelPages ramPages kernelEnd userPageLimit + userPages ramPages kernelEnd userPageLimit =
      freePages ramPages kernelEnd := by
    simp only [kernelPages]
    omega
  rw [hsum, freePages]
  rw [ramEnd_eq] at hle ⊢
  simp only [freeStart, pgRoundUp, pgsize] at hle ⊢
  omega

def InFree (ramPages kernelEnd a : Nat) : Prop := freeStart kernelEnd ≤ a ∧ a < ramEnd ramPages

def BitmapsFit (ramPages kernelEnd userPageLimit : Nat) : Prop :=
  userPages ramPages kernelEnd userPageLimit = 0 ∨ bmPages (kernelPages ramPages kernelEnd userPageLimit) +
      bmPages (userPages ramPages kernelEnd userPageLimit) ≤ userPages ramPages kernelEnd userPageLimit

theorem bmPages_le (n : Nat) : bmPages n ≤ n := by
  simp only [bmPages, byteCnt, pgsize]
  omega

theorem init_bitmap_inFree (hend : kernelEnd ≤ ramEnd ramPages)
    (hfit : BitmapsFit ramPages kernelEnd userPageLimit) {a : Nat}
    (ha : ((init ramPages kernelEnd userPageLimit m).pool v).bitmap.Holds a) :
    InFree ramPages kernelEnd a := by
  have hsum := pages_add userPageLimit hend
  rw [Nat.add_mul] at hsum
  cases v with
  | false =>
    change freeStart kernelEnd ≤ a ∧
      a < freeStart kernelEnd + byteCnt (kernelPages ramPages kernelEnd userPageLimit) at ha
    have hbytes := le_bmPages (kernelPages ramPages kernelEnd userPageLimit)
    have hpages := Nat.mul_le_mul_right pgsize (bmPages_le (kernelPages ramPages kernelEnd userPageLimit))
    exact ⟨ha.1, by omega⟩
  | true =>
    simp only [Holds, init, initPool, createInBuf, Palloc.pool, if_true] at ha
    refine ⟨by omega, ?_⟩
    rcases hfit with hzero | hroom
    · simp only [byteCnt] at ha
      omega
    · have hbytes := le_bmPages (userPages ramPages kernelEnd userPageLimit)
      have hpages := Nat.mul_le_mul_right pgsize hroom
      rw [Nat.add_mul] at hpages
      omega

theorem init_base_ge :
    freeStart kernelEnd ≤ ((init ramPages kernelEnd userPageLimit m).pool v).base := by
  cases v with
  | false => exact Nat.le_add_right _ _
  | true => exact (Nat.le_add_right _ _).trans (Nat.le_add_right _ _)

end Layout

namespace Pages

variable {s s' : Pages} {ramPages kernelEnd userPageLimit : Nat} {m : Bytes}

/-- If the pool has a run of free pages of that length, then it has one that is inside the memory. -/
def InRam (ramPages : Nat) (s : Pages) : Act → Prop
  | .get flags cnt => (∃ k, s.FreeRun flags.user cnt k) →
      ∃ k, s.FreeRun flags.user cnt k ∧ s.addr ⟨flags.user, k, cnt⟩ + cnt * pgsize ≤ ramEnd ramPages
  | .free _ => True
  | .write _ => True

def Ends (ramPages : Nat) (s : Pages) : Prop := ∀ r ∈ s.live, s.addr r + r.cnt * pgsize ≤ ramEnd ramPages

theorem addr_congr (hp : ∀ v, s'.pool v = s.pool v) (r : Range) : s'.addr r = s.addr r := by
  rw [addr, addr, hp]

theorem Ends.step (h : Ends ramPages s) (hinv : Inv s) {x : Act} (hx : s.InRam ramPages x)
    (hs : s.step x = some s') : Ends ramPages s' := by
  intro r hr
  rw [addr_congr (fun v ↦ step_pool hs)]
  cases x with
  | get flags cnt =>
    rcases hinv.step_get flags cnt with ⟨idx, p, hleast, hstep, -⟩ | ⟨-, hsame⟩
    · cases hstep.symm.trans hs
      rcases List.mem_cons.mp hr with rfl | hold
      · -- First fit: the range that was returned is not above the one inside the memory.
        obtain ⟨k, hk, hkend⟩ := hx ⟨idx, hleast.1⟩
        have hmul := Nat.mul_le_mul_right pgsize (hleast.2 hk)
        simp only [addr] at hkend ⊢
        omega
      · exact h r hold
    · exact h r (hsame s' hs ▸ hr)
  | free q =>
    cases hs
    exact h r (List.mem_of_mem_erase hr)
  | write m =>
    cases hs
    exact h r hr

theorem pages_inFree (hend : kernelEnd ≤ ramEnd ramPages)
    (hfit : BitmapsFit ramPages kernelEnd userPageLimit)
    (run : Run step (fun s x ↦ s.Honest x ∧ s.InRam ramPages x)
      ⟨init ramPages kernelEnd userPageLimit m, []⟩ s) :
    (∀ v a, (s.pool v).bitmap.Holds a → InFree ramPages kernelEnd a) ∧
      ∀ r ∈ s.live, ∀ a, s.Covers r a → InFree ramPages kernelEnd a := by
  have hpool : ∀ u, s.pool u = (init ramPages kernelEnd userPageLimit m).pool u := fun u ↦
    run.invariant (fun t ↦ t.pool u = (init ramPages kernelEnd userPageLimit m).pool u)
      (fun _ _ _ ht _ hs ↦ (step_pool hs).trans ht) rfl
  obtain ⟨hinv, hends⟩ : Inv s ∧ Ends ramPages s :=
    run.invariant (fun t ↦ Inv t ∧ Ends ramPages t)
      (fun _ _ _ h hx hs ↦ ⟨h.1.step hx.1 hs, h.2.step h.1 hx.2 hs⟩) ⟨.init .., by simp [Ends]⟩
  refine ⟨fun v a ha ↦ init_bitmap_inFree hend hfit (hpool v ▸ ha), fun r hr a ha ↦ ⟨?_, ?_⟩⟩
  · calc freeStart kernelEnd ≤ (s.pool r.user).base := hpool r.user ▸ init_base_ge
      _ ≤ s.addr r := Nat.le_add_right _ _
      _ ≤ a := ha.1
  · exact ha.2.trans_le (hends r hr)

def Placed (s : Pages) : Prop :=
  ∀ u, pgsize ∣ (s.pool u).base ∧ (s.pool u).base + s.size u * pgsize + pgsize ≤ 2 ^ 32

section

variable (hram : ramPages ≤ 16384) (hend : kernelEnd ≤ ramEnd ramPages)
include hram hend

theorem init_placed :
    Placed ⟨init ramPages kernelEnd userPageLimit m, []⟩ := by
  have hsum := pages_add userPageLimit hend
  have hstart : pgsize ∣ freeStart kernelEnd := Nat.dvd_mul_left _ _
  have hbits : ∀ n, bmPages n ≤ n / 32768 + 1 := by
    simp only [bmPages, byteCnt, pgsize]
    omega
  have hk := hbits (kernelPages ramPages kernelEnd userPageLimit)
  have hu := hbits (userPages ramPages kernelEnd userPageLimit)
  simp only [ramEnd, physBase] at hsum
  intro u
  cases u with
  | false =>
    simp only [pool, size, Palloc.pool, init, initPool, createInBuf, Bool.false_eq_true, if_false]
    refine ⟨hstart.add (Nat.dvd_mul_left _ _), ?_⟩
    simp only [pgsize] at *
    omega
  | true =>
    simp only [pool, size, Palloc.pool, init, initPool, createInBuf, if_true]
    refine ⟨(hstart.add ((Nat.dvd_mul_left _ _).add (Nat.dvd_mul_left _ _))).add (Nat.dvd_mul_left _ _), ?_⟩
    simp only [pgsize] at *
    omega

theorem placed_of_run
    {ok : Pages → Act → Prop} (run : Run step ok ⟨init ramPages kernelEnd userPageLimit m, []⟩ s) :
    Placed s := by
  refine run.invariant Placed (fun t x t' ht _ hs u ↦ ?_) (init_placed hram hend)
  rw [size, step_pool hs]
  exact ht u

end

/-- The first pages taken from a pool are its first pages. -/
theorem Inv.first_get (h : Inv s) {cnt : Nat} (flags : PallocFlags) (hnone : ∀ r ∈ s.live, r.user ≠ flags.user)
    (hpos : 0 < cnt) (hcnt : cnt ≤ s.size flags.user) :
    ∃ p, s.step (.get flags cnt) = some ⟨p, ⟨flags.user, 0, cnt⟩ :: s.live⟩ ∧ s.FreeRun flags.user cnt 0 ∧
      Inv ⟨p, ⟨flags.user, 0, cnt⟩ :: s.live⟩ := by
  have hfree : s.FreeRun flags.user cnt 0 :=
    ⟨hpos, (Nat.zero_add cnt).trans_le hcnt, fun k _ ⟨r, hr, hhas⟩ ↦ hnone r hr hhas.1⟩
  rcases h.step_get flags cnt with ⟨idx, p, hleast, hstep, hinv⟩ | ⟨hno, -⟩
  · obtain rfl : idx = 0 := Nat.le_zero.mp (hleast.2 hfree)
    exact ⟨p, hstep, hfree, hinv⟩
  · exact absurd hfree (hno 0)

/-- 64 free pages, of which the kernel takes one and then a process two. -/
theorem pages_inFree_threePages :
    ∃ s : Pages, s.live = [⟨true, 0, 2⟩, ⟨false, 0, 1⟩] ∧
      ∀ r ∈ s.live, ∀ a, s.Covers r a → InFree 64 physBase a := by
  obtain ⟨p, hkernel, hfree, hinv⟩ := (Inv.init 64 physBase 0 fun _ ↦ 0).first_get ⟨false, true, false⟩
    (fun _ h ↦ by cases h) Nat.one_pos (by decide)
  have hpool : ∀ u, pool ⟨p, [⟨false, 0, 1⟩]⟩ u = pool ⟨init 64 physBase 0 fun _ ↦ 0, []⟩ u := fun u ↦
    step_pool hkernel
  have hsize : 2 ≤ size ⟨p, [⟨false, 0, 1⟩]⟩ true := by rw [size, hpool]; decide
  obtain ⟨q, huser, hfree', -⟩ := hinv.first_get ⟨false, false, true⟩ (by simp) Nat.two_pos hsize
  have hram : addr ⟨p, [⟨false, 0, 1⟩]⟩ ⟨true, 0, 2⟩ + 2 * pgsize ≤ ramEnd 64 := by
    rw [addr_congr hpool]
    decide
  have run : Run step (fun s x ↦ s.Honest x ∧ s.InRam 64 x) ⟨init 64 physBase 0 fun _ ↦ 0, []⟩
      ⟨q, [⟨true, 0, 2⟩, ⟨false, 0, 1⟩]⟩ :=
    .snoc (x := .get ⟨false, false, true⟩ 2)
      (.one (x := .get ⟨false, true, false⟩ 1) ⟨trivial, fun _ ↦ ⟨0, hfree, by decide⟩⟩ hkernel)
      ⟨trivial, fun _ ↦ ⟨0, hfree', hram⟩⟩ huser
  exact ⟨_, rfl, (pages_inFree (by decide) (.inr (by decide)) run).2⟩

/-- 64 MB, of which the kernel fills the first two: the last pages of the user pool are not there. -/
theorem user_pool_leaves_ram :
    ∃ s : Pages, Run step Honest ⟨init 16384 (physBase + 0x200000) 0 fun _ ↦ 0, []⟩ s ∧
      ∃ r ∈ s.live, ∃ a, s.Covers r a ∧ ramEnd 16384 ≤ a := by
  obtain ⟨p, hstep, -⟩ := (Inv.init 16384 (physBase + 0x200000) 0 fun _ ↦ 0).first_get ⟨false, false, true⟩
    (fun _ h ↦ by cases h) (show 0 < 7936 by decide) (by decide)
  have haddr : addr ⟨p, [⟨true, 0, 7936⟩]⟩ ⟨true, 0, 7936⟩ =
      addr ⟨init 16384 (physBase + 0x200000) 0 fun _ ↦ 0, []⟩ ⟨true, 0, 7936⟩ :=
    addr_congr (fun v ↦ step_pool hstep) _
  refine ⟨_, .one (x := .get ⟨false, false, true⟩ 7936) trivial hstep, _, List.mem_cons_self,
    ramEnd 16384, ?_, le_rfl⟩
  rw [Covers, haddr]
  decide

end Pages

end Rxv6.Mem
