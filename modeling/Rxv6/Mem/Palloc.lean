import Rxv6.Lib.Runs
import Rxv6.Mem.Bitmap
import Rxv6.Vm.State

namespace Rxv6.Mem

open Bitmap Rxv6.Lib.Runs Rxv6.Vm List

structure Pool where
  bitmap : Bitmap
  base : Nat

structure Palloc where
  mem : Bytes
  kernelPool : Pool
  userPool : Pool

/-- `ASSERT`, `ZERO` and `USER`. -/
structure PallocFlags where
  assert : Bool
  zero : Bool
  user : Bool
  deriving DecidableEq

def pgRoundUp (addr : Nat) : Nat := (addr + pgsize - 1) / pgsize * pgsize

def bmPages (pageCnt : Nat) : Nat := (byteCnt pageCnt + pgsize - 1) / pgsize

def initPool (m : Bytes) (start pageCnt : Nat) : Bytes × Pool :=
  let r := createInBuf m pageCnt start
  (r.1, ⟨r.2, start + bmPages pageCnt * pgsize⟩)

section Layout

variable (ramPages kernelEnd userPageLimit : Nat)

def freeStart : Nat := pgRoundUp kernelEnd

/-- `ptov(ram_pages * PGSIZE)`. -/
def ramEnd : Nat := ramPages * pgsize + physBase

def freePages : Nat := (ramEnd ramPages - freeStart kernelEnd) / pgsize

def userPages : Nat :=
  let half := freePages ramPages kernelEnd / 2
  if 0 < userPageLimit ∧ userPageLimit < half then userPageLimit else half

def kernelPages : Nat := freePages ramPages kernelEnd - userPages ramPages kernelEnd userPageLimit

/-- `palloc::init`. -/
def init (m : Bytes) : Palloc :=
  let kernelPages := kernelPages ramPages kernelEnd userPageLimit
  let userPages := userPages ramPages kernelEnd userPageLimit
  let kernel := initPool m (freeStart kernelEnd) kernelPages
  let userStart := freeStart kernelEnd + (bmPages kernelPages * pgsize + kernelPages * pgsize)
  let user := initPool kernel.1 userStart userPages
  ⟨user.1, kernel.2, user.2⟩

end Layout

inductive Outcome
  | pages (addr : Nat)
  | null
  | panic
  deriving DecidableEq

namespace Palloc

variable (p : Palloc)

def pool (user : Bool) : Pool := if user then p.userPool else p.kernelPool

def getMultiple (flags : PallocFlags) (pageCnt : Nat) : Outcome × Palloc :=
  if pageCnt = 0 then (.null, p)
  else
    match (p.pool flags.user).bitmap.scanAndFlip p.mem 0 pageCnt false with
    | (none, m) => (if flags.assert then .panic else .null, { p with mem := m })
    | (some idx, m) =>
      let pages := (p.pool flags.user).base + idx * pgsize
      let m := if flags.zero then
          fun a ↦ if pages ≤ a ∧ a < pages + pageCnt * pgsize then 0 else m a
        else m
      (.pages pages, { p with mem := m })

/-- The pool that `free_multiple` takes an address to be in. -/
def inUserPool (addr : Nat) : Bool :=
  ¬ (p.kernelPool.base ≤ addr ∧ addr < p.kernelPool.base + p.kernelPool.bitmap.bitCnt * pgsize)

def freeMultiple (pages pageCnt : Nat) : Palloc :=
  if pages = 0 ∨ pageCnt = 0 then p
  else
    let q := p.pool (p.inUserPool pages)
    { p with mem := q.bitmap.setMultiple p.mem ((pages - q.base) / pgsize) pageCnt false }

end Palloc

structure Range where
  user : Bool
  idx : Nat
  cnt : Nat
  deriving DecidableEq

def Range.Has (r : Range) (user : Bool) (i : Nat) : Prop := r.user = user ∧ r.idx ≤ i ∧ i < r.idx + r.cnt

instance {r : Range} {user : Bool} {i : Nat} : Decidable (r.Has user i) :=
  inferInstanceAs (Decidable (_ ∧ _))

structure Pages where
  palloc : Palloc
  live : List Range

namespace Pages

variable (s : Pages)

def pool (user : Bool) : Pool := s.palloc.pool user

def size (user : Bool) : Nat := (s.pool user).bitmap.bitCnt

def addr (r : Range) : Nat := (s.pool r.user).base + r.idx * pgsize

def Covers (r : Range) (a : Nat) : Prop := s.addr r ≤ a ∧ a < s.addr r + r.cnt * pgsize

inductive Act
  | get (flags : PallocFlags) (pageCnt : Nat)
  | free (r : Range)
  | write (m : Bytes)

def step : Act → Option Pages
  | .get flags cnt =>
    match s.palloc.getMultiple flags cnt with
    | (.pages a, p) => some ⟨p, ⟨flags.user, (a - (s.pool flags.user).base) / pgsize, cnt⟩ :: s.live⟩
    | (.null, p) => some ⟨p, s.live⟩
    | (.panic, _) => none
  | .free r => some ⟨s.palloc.freeMultiple (s.addr r) r.cnt, s.live.erase r⟩
  | .write m => some { s with palloc := { s.palloc with mem := m } }

def Honest : Act → Prop
  | .get _ _ => True
  | .free r => r ∈ s.live
  | .write m => ∀ a, (∀ r ∈ s.live, ¬ s.Covers r a) → m a = s.palloc.mem a

def Taken (user : Bool) (i : Nat) : Prop := ∃ r ∈ s.live, r.Has user i

def FreeRun (user : Bool) (cnt i : Nat) : Prop :=
  0 < cnt ∧ i + cnt ≤ s.size user ∧ ∀ k < cnt, ¬ s.Taken user (i + k)

def freeCnt (user : Bool) : Nat :=
  ((Finset.range (s.size user)).filter fun i ↦ (s.pool user).bitmap.test s.palloc.mem i = false).card

def liveCnt (user : Bool) : Nat := ((s.live.filter fun r ↦ r.user = user).map Range.cnt).sum

structure Geometry (p : Palloc) : Prop where
  kernel : p.kernelPool.bitmap.bits + bmPages p.kernelPool.bitmap.bitCnt * pgsize = p.kernelPool.base
  user : p.userPool.bitmap.bits + bmPages p.userPool.bitmap.bitCnt * pgsize = p.userPool.base
  order : p.kernelPool.base + p.kernelPool.bitmap.bitCnt * pgsize ≤ p.userPool.bitmap.bits

structure Inv : Prop where
  geometry : Geometry s.palloc
  range : ∀ r ∈ s.live, 0 < r.cnt ∧ r.idx + r.cnt ≤ s.size r.user
  bit : ∀ u, ∀ i < s.size u, (s.pool u).bitmap.test s.palloc.mem i = true ↔ s.Taken u i
  apart : s.live.Pairwise fun r r' ↦ ∀ u i, r.Has u i → ¬ r'.Has u i

end Pages

theorem le_bmPages (n : Nat) : byteCnt n ≤ bmPages n * pgsize := by
  simp only [bmPages, pgsize]
  omega

theorem bmPages_pos {n : Nat} (hn : 0 < n) : 0 < bmPages n := by
  simp only [bmPages, byteCnt, pgsize]
  omega

theorem init_geometry (ramPages kernelEnd userPageLimit : Nat) (m : Bytes) :
    Pages.Geometry (init ramPages kernelEnd userPageLimit m) :=
  ⟨rfl, rfl, by simp only [init, initPool, createInBuf]; omega⟩

namespace Pages

variable {s s' : Pages} {u : Bool} {i cnt : Nat} {r : Range} {a : Nat}

variable {p : Palloc} {v : Bool}

theorem Geometry.base_pos (hg : Geometry p) (hn : 0 < (p.pool u).bitmap.bitCnt) :
    pgsize ≤ (p.pool u).base := by
  have hpos := bmPages_pos hn
  have hmul := Nat.mul_le_mul_right pgsize hpos
  cases u with
  | false =>
    have := hg.kernel
    simp only [Palloc.pool, Bool.false_eq_true, if_false] at *
    omega
  | true =>
    have := hg.user
    simp only [Palloc.pool, if_true] at *
    omega

theorem Geometry.not_holds (hg : Geometry p) (hlo : (p.pool u).base ≤ a)
    (hhi : a < (p.pool u).base + (p.pool u).bitmap.bitCnt * pgsize) : ¬ (p.pool v).bitmap.Holds a := by
  have hk := le_bmPages p.kernelPool.bitmap.bitCnt
  have hu := le_bmPages p.userPool.bitmap.bitCnt
  obtain ⟨h1, h2, h3⟩ := hg
  unfold Holds
  cases u <;> cases v <;> simp only [Palloc.pool, Bool.false_eq_true, if_false, if_true] at * <;> omega

theorem Geometry.holds_ne (hg : Geometry p) (huv : v ≠ u)
    (ha : (p.pool u).bitmap.Holds a) : ¬ (p.pool v).bitmap.Holds a := by
  have hk := le_bmPages p.kernelPool.bitmap.bitCnt
  obtain ⟨h1, h2, h3⟩ := hg
  unfold Holds at *
  cases u <;> cases v <;> simp only [Palloc.pool, Bool.false_eq_true, if_false, if_true] at * <;>
    first | exact absurd rfl huv | omega

theorem Inv.inUserPool (h : Inv s) (hr : r ∈ s.live) : s.palloc.inUserPool (s.addr r) = r.user := by
  obtain ⟨hpos, hend⟩ := h.range r hr
  obtain ⟨h1, h2, h3⟩ := h.geometry
  have hlt : r.idx * pgsize < s.size r.user * pgsize :=
    Nat.mul_lt_mul_of_pos_right (by omega) (by decide)
  unfold Palloc.inUserPool addr
  cases hu : r.user with
  | false =>
    simp only [hu, size, pool, Palloc.pool, Bool.false_eq_true, if_false] at hlt ⊢
    simp only [decide_eq_false_iff_not]
    omega
  | true =>
    simp only [pool, Palloc.pool, if_true] at ⊢
    simp only [decide_eq_true_eq]
    omega

theorem addr_idx (r : Range) : (s.addr r - (s.pool r.user).base) / pgsize = r.idx := by
  rw [addr, Nat.add_sub_cancel_left, Nat.mul_div_cancel _ (by decide)]

theorem Inv.addr_ne_zero (h : Inv s) (hr : r ∈ s.live) : s.addr r ≠ 0 := by
  obtain ⟨hpos, hend⟩ := h.range r hr
  have hbase := h.geometry.base_pos (show 0 < s.size r.user by omega)
  have : 0 < pgsize := by decide
  have hle : (s.pool r.user).base ≤ s.addr r := Nat.le_add_right _ _
  unfold pool at hle
  omega

theorem test_after (hg : Geometry p) {start : Nat} {b : Bool}
    (hend : start + cnt ≤ (p.pool u).bitmap.bitCnt) (hi : i < (p.pool v).bitmap.bitCnt) :
    (p.pool v).bitmap.test ((p.pool u).bitmap.setMultiple p.mem start cnt b) i =
      if v = u ∧ start ≤ i ∧ i < start + cnt then b else (p.pool v).bitmap.test p.mem i := by
  by_cases hvu : v = u
  · subst hvu
    rw [test_setMultiple]
    simp
  · rw [if_neg (fun h ↦ hvu h.1)]
    exact test_congr (fun a ha ↦ setMultiple_other hend (hg.holds_ne (Ne.symm hvu) ha)) hi

variable {idx : Nat} {m : Bytes} {l : List Range} {x : Act}

theorem has_mk : (Range.mk u idx cnt).Has v i ↔ v = u ∧ idx ≤ i ∧ i < idx + cnt := by
  simp only [Range.Has, eq_comm]

theorem Inv.taken (h : Inv s) (hr : s.FreeRun u cnt idx)
    (hm : ∀ v a, (s.pool v).bitmap.Holds a →
      m a = (s.pool u).bitmap.setMultiple s.palloc.mem idx cnt true a) :
    Inv ⟨{ s.palloc with mem := m }, ⟨u, idx, cnt⟩ :: s.live⟩ := by
  obtain ⟨hpos, hend, hfree⟩ := hr
  have hfresh : ∀ v i, (Range.mk u idx cnt).Has v i → ¬ s.Taken v i := by
    intro v i hi
    obtain ⟨rfl, hlo, hhi⟩ := has_mk.mp hi
    have := hfree (i - idx) (by omega)
    rwa [show idx + (i - idx) = i by omega] at this
  refine ⟨⟨h.geometry.kernel, h.geometry.user, h.geometry.order⟩, ?_, fun v i hi ↦ ?_, ?_⟩
  · rintro r (- | ⟨-, hr⟩)
    · exact ⟨hpos, hend⟩
    · exact h.range r hr
  · change (s.pool v).bitmap.test m i = true ↔ _
    rw [test_congr (fun a ha ↦ hm v a ha) hi]
    have htest := test_after h.geometry (b := true) hend hi
    unfold pool
    rw [htest]
    have htaken : Taken ⟨{ s.palloc with mem := m }, ⟨u, idx, cnt⟩ :: s.live⟩ v i ↔
        (Range.mk u idx cnt).Has v i ∨ s.Taken v i := by
      simp [Taken]
    rw [htaken, has_mk]
    split
    · next hin => simp [hin]
    · next hin =>
      have := h.bit v i hi
      unfold pool at this
      simp [hin, this]
  · refine pairwise_cons.mpr ⟨fun r hr v i hi hi' ↦ hfresh v i hi ⟨r, hr, hi'⟩, h.apart⟩

theorem Inv.get_cases (h : Inv s) (flags : PallocFlags) (cnt : Nat) :
    (∃ idx m, s.palloc.getMultiple flags cnt =
          (.pages (s.addr ⟨flags.user, idx, cnt⟩), { s.palloc with mem := m }) ∧
        s.FreeRun flags.user cnt idx ∧ (∀ k < idx, ¬ s.FreeRun flags.user cnt k) ∧
        Inv ⟨{ s.palloc with mem := m }, ⟨flags.user, idx, cnt⟩ :: s.live⟩ ∧
        ∀ a, ¬ (s.pool flags.user).bitmap.Holds a → ¬ s.Covers ⟨flags.user, idx, cnt⟩ a →
          m a = s.palloc.mem a) ∨
      ((∀ k, ¬ s.FreeRun flags.user cnt k) ∧
        s.palloc.getMultiple flags cnt = (if cnt ≠ 0 ∧ flags.assert then .panic else .null, s.palloc)) := by
  have hrun : ∀ k, RunAt ((s.pool flags.user).bitmap.test s.palloc.mem) (s.size flags.user) cnt false k ↔
      s.FreeRun flags.user cnt k := by
    intro k
    refine and_congr_right fun _ ↦ and_congr_right fun hend ↦ forall₂_congr fun j hj ↦ ?_
    rw [← h.bit flags.user (k + j) (by omega), Bool.not_eq_true]
  unfold Palloc.getMultiple
  by_cases hcnt : cnt = 0
  · refine .inr ⟨fun k hk ↦ absurd hk.1 (by omega), ?_⟩
    rw [if_pos hcnt, if_neg (by simp [hcnt])]
  rw [if_neg hcnt]
  rcases scanAndFlip_spec
    (Nat.pos_of_ne_zero hcnt) with ⟨idx, hscan, hr, hlow⟩ | ⟨hscan, hno⟩
  · have hfree := (hrun idx).mp hr
    unfold pool at hscan
    simp only [hscan]
    refine .inl ⟨idx, _, rfl, hfree, fun k hk ↦ mt (hrun k).mpr (hlow k hk), h.taken hfree fun v a ha ↦ ?_,
      fun a hbit hcov ↦ ?_⟩
    · split
      · -- The pages that are cleared are not in a bitmap.
        refine if_neg fun hin ↦ h.geometry.not_holds (u := flags.user) ?_ ?_ ha
        · omega
        · have hmul := Nat.mul_le_mul_right pgsize hfree.2.1
          rw [Nat.add_mul] at hmul
          change _ ≤ (s.palloc.pool flags.user).bitmap.bitCnt * pgsize at hmul
          omega
      · rfl
    · have hother := setMultiple_other (m := s.palloc.mem) (v := true)
        hfree.2.1 hbit
      split
      · exact (if_neg hcov).trans hother
      · exact hother
  · refine .inr ⟨fun k ↦ mt (hrun k).mpr (hno k), ?_⟩
    unfold pool at hscan
    rw [hscan]
    simp [hcnt]

theorem Inv.perm (h : Inv s) (hp : s.live.Perm l) : Inv ⟨s.palloc, l⟩ := by
  have htaken : ∀ v i, Taken ⟨s.palloc, l⟩ v i ↔ s.Taken v i := fun v i ↦ by
    simp only [Taken, hp.mem_iff]
  exact ⟨h.geometry, fun r hr ↦ h.range r (hp.mem_iff.mpr hr),
    fun v i hi ↦ (h.bit v i hi).trans (htaken v i).symm,
    (hp.pairwise_iff fun h u i hi hi' ↦ h u i hi' hi).mp h.apart⟩

theorem Inv.init (ramPages kernelEnd userPageLimit : Nat) (m : Bytes) :
    Inv ⟨init ramPages kernelEnd userPageLimit m, []⟩ := by
  have hg := init_geometry ramPages kernelEnd userPageLimit m
  refine ⟨hg, by simp, fun u i hi ↦ ?_, List.Pairwise.nil⟩
  have hclear : ((Mem.init ramPages kernelEnd userPageLimit m).pool u).bitmap.test
      (Mem.init ramPages kernelEnd userPageLimit m).mem i = false := by
    cases u with
    | true => exact test_createInBuf hi
    | false =>
      refine (test_congr (fun a ha ↦ ?_) hi).trans (test_createInBuf (m := m) hi)
      -- The buffer of the user pool comes later.
      exact if_neg (hg.holds_ne (v := true) (by decide) ha)
  have hno : ¬ Taken ⟨Mem.init ramPages kernelEnd userPageLimit m, []⟩ u i := by simp [Taken]
  exact iff_of_false (by rw [pool, hclear]; decide) hno

section

variable (h : Inv s) (hr : r ∈ s.live)
include h hr

theorem Inv.freeMultiple :
    s.palloc.freeMultiple (s.addr r) r.cnt =
      { s.palloc with mem := (s.pool r.user).bitmap.setMultiple s.palloc.mem r.idx r.cnt false } := by
  have hpos := (h.range r hr).1
  unfold Palloc.freeMultiple
  rw [if_neg (by simp only [h.addr_ne_zero hr, false_or]; omega), h.inUserPool hr]
  simp only
  rw [show (s.addr r - (s.palloc.pool r.user).base) / pgsize = r.idx from addr_idx r]
  rfl

theorem taken_erase :
    Taken ⟨p, s.live.erase r⟩ v i ↔ s.Taken v i ∧ ¬ r.Has v i := by
  have hperm := perm_cons_erase hr
  have hpw : (r :: s.live.erase r).Pairwise fun r r' ↦ ∀ u i, r.Has u i → ¬ r'.Has u i :=
    (hperm.pairwise_iff fun h u i hi hi' ↦ h u i hi' hi).mp h.apart
  have hapart := (pairwise_cons.mp hpw).1
  have hsplit : s.Taken v i ↔ r.Has v i ∨ Taken ⟨p, s.live.erase r⟩ v i := by
    simp only [Taken, hperm.mem_iff, mem_cons, exists_eq_or_imp]
  rw [hsplit]
  refine ⟨fun hi ↦ ⟨.inr hi, fun hri ↦ ?_⟩, fun hi ↦ hi.1.resolve_left hi.2⟩
  obtain ⟨q, hq, hqi⟩ := hi
  exact hapart q hq v i hri hqi

theorem Inv.test_freed (hi : i < s.size v) :
    (s.pool v).bitmap.test (s.palloc.freeMultiple (s.addr r) r.cnt).mem i =
      if r.Has v i then false else (s.pool v).bitmap.test s.palloc.mem i := by
  rw [h.freeMultiple hr]
  have htest := test_after h.geometry (b := false) (h.range r hr).2 hi
  unfold pool
  rw [htest]
  simp only [Range.Has, eq_comm]

theorem Inv.freed :
    Inv ⟨s.palloc.freeMultiple (s.addr r) r.cnt, s.live.erase r⟩ := by
  have hbit : ∀ v i, i < s.size v →
      ((s.pool v).bitmap.test (s.palloc.freeMultiple (s.addr r) r.cnt).mem i = true ↔
        Taken ⟨s.palloc.freeMultiple (s.addr r) r.cnt, s.live.erase r⟩ v i) := by
    intro v i hi
    rw [h.test_freed hr hi, taken_erase h hr]
    split
    · next hin => simp [hin]
    · next hin => simp [hin, h.bit v i hi]
  rw [h.freeMultiple hr] at hbit ⊢
  exact ⟨⟨h.geometry.kernel, h.geometry.user, h.geometry.order⟩,
    fun q hq ↦ h.range q (mem_of_mem_erase hq), hbit, h.apart.sublist erase_sublist⟩

theorem Inv.covers_not_holds (ha : s.Covers r a) (v : Bool) :
    ¬ (s.pool v).bitmap.Holds a := by
  have hmul := Nat.mul_le_mul_right pgsize (h.range r hr).2
  rw [Nat.add_mul] at hmul
  unfold Covers addr at ha
  refine h.geometry.not_holds (le_trans (Nat.le_add_right _ _) ha.1) ?_
  change _ < (s.pool r.user).base + s.size r.user * pgsize
  omega

end

theorem Inv.written (h : Inv s) (hm : s.Honest (.write m)) :
    Inv { s with palloc := { s.palloc with mem := m } } := by
  refine ⟨⟨h.geometry.kernel, h.geometry.user, h.geometry.order⟩, h.range, fun v i hi ↦ ?_, h.apart⟩
  have hsame : (s.pool v).bitmap.test m i = (s.pool v).bitmap.test s.palloc.mem i :=
    test_congr (fun a ha ↦ hm a fun r hr hc ↦ h.covers_not_holds hr hc v ha) hi
  exact (iff_of_eq (congrArg (· = true) hsame)).trans (h.bit v i hi)

theorem Inv.step_get (h : Inv s) (flags : PallocFlags) (cnt : Nat) :
    (∃ idx p, IsLeast {i | s.FreeRun flags.user cnt i} idx ∧
        s.step (.get flags cnt) = some ⟨p, ⟨flags.user, idx, cnt⟩ :: s.live⟩ ∧
        Inv ⟨p, ⟨flags.user, idx, cnt⟩ :: s.live⟩) ∨
      ((∀ k, ¬ s.FreeRun flags.user cnt k) ∧ ∀ s', s.step (.get flags cnt) = some s' → s' = s) := by
  rcases h.get_cases flags cnt with ⟨idx, m, hget, hfree, hlow, hinv, -⟩ | ⟨hno, hget⟩
  · refine .inl ⟨idx, _, ⟨hfree, fun j hj ↦ not_lt.mp fun hlt ↦ hlow j hlt hj⟩, ?_, hinv⟩
    simp only [Pages.step, hget]
    rw [show (s.addr ⟨flags.user, idx, cnt⟩ - (s.pool flags.user).base) / pgsize = idx from
      addr_idx ⟨flags.user, idx, cnt⟩]
  · refine .inr ⟨hno, fun s' hs ↦ ?_⟩
    simp only [Pages.step, hget] at hs
    by_cases hpanic : cnt ≠ 0 ∧ flags.assert = true
    · simp [hpanic] at hs
    · rw [if_neg hpanic] at hs
      exact (Option.some.inj hs).symm

theorem Inv.step (h : Inv s) (hx : s.Honest x) (hs : s.step x = some s') : Inv s' := by
  cases x with
  | get flags cnt =>
    rcases h.step_get flags cnt with ⟨idx, p, -, hstep, hinv⟩ | ⟨-, hsame⟩
    · exact Option.some.inj (hstep ▸ hs) ▸ hinv
    · exact hsame s' hs ▸ h
  | free r => exact Option.some.inj hs ▸ h.freed hx
  | write m => exact Option.some.inj hs ▸ h.written hx

theorem card_has {size : Nat} (hend : r.idx + r.cnt ≤ size) :
    ((Finset.range size).filter fun i ↦ r.Has u i).card = if r.user = u then r.cnt else 0 := by
  split
  · next hu =>
    have : ((Finset.range size).filter fun i ↦ r.Has u i) = Finset.Ico r.idx (r.idx + r.cnt) := by
      ext i
      simp only [Finset.mem_filter, Finset.mem_range, Finset.mem_Ico, Range.Has, hu, true_and]
      omega
    rw [this, Nat.card_Ico]
    omega
  · next hu =>
    rw [Finset.card_eq_zero, Finset.filter_eq_empty_iff]
    exact fun i _ hi ↦ hu hi.1

theorem card_taken (size : Nat) (hend : ∀ r ∈ l, r.user = u → r.idx + r.cnt ≤ size)
    (hap : l.Pairwise fun r r' ↦ ∀ u i, r.Has u i → ¬ r'.Has u i) :
    ((Finset.range size).filter fun i ↦ ∃ r ∈ l, r.Has u i).card =
      ((l.filter fun r ↦ r.user = u).map Range.cnt).sum := by
  induction l with
  | nil => simp
  | cons r l ih =>
    obtain ⟨hhead, htail⟩ := pairwise_cons.mp hap
    have ih' := ih (fun q hq ↦ hend q (mem_cons_of_mem _ hq)) htail
    simp only [mem_cons, exists_eq_or_imp]
    rw [Finset.filter_or, Finset.card_union_of_disjoint, ih']
    · by_cases hu : r.user = u
      · rw [card_has (hend r mem_cons_self hu), if_pos hu, filter_cons_of_pos (by simpa using hu)]
        simp
      · rw [filter_cons_of_neg (by simpa using hu), Finset.filter_eq_empty_iff.mpr fun i _ hi ↦ hu hi.1]
        simp
    · rw [Finset.disjoint_filter]
      rintro i - hi ⟨q, hq, hqi⟩
      exact hhead q hq u i hi hqi

theorem Inv.count (h : Inv s) (u : Bool) : s.freeCnt u + s.liveCnt u = s.size u := by
  have hlive : ((Finset.range (s.size u)).filter fun i ↦ ¬ (s.pool u).bitmap.test s.palloc.mem i = false).card =
      s.liveCnt u := by
    rw [liveCnt, ← card_taken (s.size u) (fun r hr hu ↦ by rw [← hu]; exact (h.range r hr).2) h.apart]
    congr 1
    refine Finset.filter_congr fun i hi ↦ ?_
    rw [Bool.not_eq_false]
    exact h.bit u i (Finset.mem_range.mp hi)
  rw [freeCnt, ← hlive, Finset.card_filter_add_card_filter_not, Finset.card_range]

theorem Inv.covers_apart (h : Inv s) :
    s.live.Pairwise fun r r' ↦ ∀ a, s.Covers r a → ¬ s.Covers r' a := by
  refine h.apart.imp_of_mem fun {r r'} hr hr' hap a ha ha' ↦ ?_
  have hpage : ∀ q ∈ s.live, s.Covers q a → q.Has q.user ((a - (s.pool q.user).base) / pgsize) := by
    intro q hq hc
    unfold Covers addr at hc
    refine ⟨rfl, ?_, ?_⟩
    · rw [Nat.le_div_iff_mul_le (by decide)]
      omega
    · rw [Nat.div_lt_iff_lt_mul (by decide), Nat.add_mul]
      omega
  by_cases hu : r.user = r'.user
  · exact hap _ _ (hpage r hr ha) (by rw [hu]; exact hpage r' hr' ha')
  · -- The pages of the two pools do not meet.
    have hmul := Nat.mul_le_mul_right pgsize (h.range r hr).2
    have hmul' := Nat.mul_le_mul_right pgsize (h.range r' hr').2
    rw [Nat.add_mul] at hmul hmul'
    obtain ⟨h1, h2, h3⟩ := h.geometry
    unfold Covers addr size pool Palloc.pool at *
    cases hru : r.user <;> cases hru' : r'.user <;> first
      | exact hu (hru.trans hru'.symm)
      | simp only [hru, hru', Bool.false_eq_true, if_false, if_true] at *; omega

theorem getMultiple_pool (p : Palloc) (flags : PallocFlags) (cnt : Nat) :
    (p.getMultiple flags cnt).2.pool u = p.pool u := by
  unfold Palloc.getMultiple
  split
  · rfl
  · split <;> rfl

theorem freeMultiple_pool (p : Palloc) (a cnt : Nat) : (p.freeMultiple a cnt).pool u = p.pool u := by
  unfold Palloc.freeMultiple
  split <;> rfl

theorem step_pool (hs : s.step x = some s') : s'.pool u = s.pool u := by
  cases x with
  | get flags cnt =>
    have hget := getMultiple_pool (u := u) s.palloc flags cnt
    simp only [Pages.step] at hs
    split at hs
    · next hp =>
      rw [hp] at hget
      cases hs
      exact hget
    · next hp =>
      rw [hp] at hget
      cases hs
      exact hget
    · cases hs
  | free r =>
    cases hs
    exact freeMultiple_pool _ _ _
  | write m =>
    cases hs
    rfl

end Pages

end Rxv6.Mem
