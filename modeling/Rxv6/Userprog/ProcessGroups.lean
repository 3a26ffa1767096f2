import Rxv6.Lib.Runs
import Mathlib.Data.List.Basic
import Mathlib.Algebra.Order.Ring.Int

namespace Rxv6.Userprog.Groups

open Rxv6.Lib.Runs List Option

/-- The fields of `Thread` that matter to process groups. `user` says that `pagedir` is not null. The last two
fields only remember: the process whose `fork` made the thread, and whether `setpgid` has named it. -/
structure Thread where
  tid : Int
  user : Bool
  parentTid : Int
  pgid : Int
  killed : Bool
  sigIgnore : Nat
  maker : Option Int
  changed : Bool
  deriving DecidableEq

/-- `init_thread`. The thread does not have its `tid` yet. -/
def initThread (t : Thread) : Thread := { t with parentTid := 0, pgid := t.tid, killed := false, sigIgnore := 0 }

def zeroPage : Thread := ⟨0, false, 0, 0, false, 0, none, false⟩

def deliverSignal (sig : Nat) (t : Thread) : Thread :=
  if sig = 9 then { t with killed := true }
  else if t.sigIgnore.testBit sig then t
  else if sig = 17 then t
  else { t with killed := true }

/-- `ALL_LIST` and `NEXT_TID`. -/
structure Threads where
  allList : List Thread
  nextTid : Int
  deriving DecidableEq

/-- `execute` and `fork` are their calls of `thread::create`, `start` the new thread with its page directory,
and `parentInfo` step 11 of `fork`. -/
inductive Act
  | execute
  | fork (parent : Int)
  | start (tid : Int)
  | parentInfo (child parent : Int)
  | setPgid (caller pid pgid : Int)
  | exit (tid : Int)

namespace Threads

variable (s : Threads)

/-- The loops over `ALL_LIST` that change the thread with a given `tid`. -/
def modify (tid : Int) (f : Thread → Thread) : Threads :=
  { s with allList := s.allList.map fun t ↦ if t.tid = tid then f t else t }

def create (maker : Option Int) : Threads :=
  ⟨s.allList ++ [{ initThread zeroPage with tid := s.nextTid, maker := maker }], s.nextTid + 1⟩

/-- Only a user process makes a system call. -/
def isProcess (tid : Int) : Bool := s.allList.any fun t ↦ t.tid = tid ∧ t.user

/-- `set_thread_parent_info` with what `fork` reads from its caller, a user process. -/
def setThreadParentInfo (child parent : Int) : Option Threads :=
  (s.allList.find? fun p ↦ p.tid = parent ∧ p.user).map fun p ↦
    s.modify child fun t ↦ { t with parentTid := parent, pgid := p.pgid, sigIgnore := p.sigIgnore }

def setPgid (tid pgid : Int) : Threads :=
  s.modify tid fun t ↦ { t with pgid := if pgid = 0 then tid else pgid, changed := true }

/-- The thread that `SYS_SETPGID` names. -/
def target (caller pid : Int) : Int := if pid = 0 then caller else pid

def sendSignalPgid (pgid : Int) (sig : Nat) : Threads :=
  { s with allList := s.allList.map fun t ↦ if t.user ∧ t.pgid = pgid then deliverSignal sig t else t }

/-- A turn of the loop of `foreground_pgid`, over `fg_pgid`, `max_tid` and `init_tid`. -/
def scan (r : Int × Int × Int) (t : Thread) : Int × Int × Int :=
  if t.user then
    let initTid := if t.parentTid = 0 then t.tid else r.2.2
    if t.tid > r.2.1 ∧ t.tid ≠ initTid then (t.pgid, t.tid, initTid) else (r.1, r.2.1, initTid)
  else r

def foregroundPgid : Int :=
  let fgPgid := (s.allList.foldl scan (-1, -1, -1)).1
  if fgPgid < 0 then 0 else fgPgid

def killForeground : Threads :=
  if s.foregroundPgid > 0 then s.sendSignalPgid s.foregroundPgid 2 else s

def step : Act → Option Threads
  | .execute => if s.nextTid < 2147483647 then some (s.create none) else none
  | .fork parent => if s.nextTid < 2147483647 ∧ s.isProcess parent then some (s.create (some parent)) else none
  | .start tid => some (s.modify tid fun t ↦ { t with user := true })
  | .parentInfo child parent =>
    if ∀ t ∈ s.allList, t.tid = child → t.maker = some parent then s.setThreadParentInfo child parent else none
  | .setPgid caller pid pgid => if s.isProcess caller then some (s.setPgid (target caller pid) pgid) else none
  | .exit tid => some { s with allList := s.allList.filter (·.tid ≠ tid) }

/-- Every process has a group. -/
def AllGrouped : Prop := ∀ t ∈ s.allList, t.user → 0 < t.pgid

/-- A thread has a group before it becomes a process, and no process gets a group with a negative number. -/
def Grouped : Act → Prop
  | .start tid => ∀ t ∈ s.allList, t.tid = tid → 0 < t.pgid
  | .setPgid caller pid pgid => pgid < 0 → ∀ t ∈ s.allList, t.tid = target caller pid → t.user = false
  | _ => True

instance (s : Threads) : ∀ x, Decidable (s.Grouped x)
  | .start tid => inferInstanceAs (Decidable (∀ t ∈ s.allList, t.tid = tid → 0 < t.pgid))
  | .setPgid caller pid pgid =>
    inferInstanceAs (Decidable (pgid < 0 → ∀ t ∈ s.allList, t.tid = target caller pid → t.user = false))
  | .execute | .fork _ | .parentInfo .. | .exit _ => .isTrue trivial

def boot : Threads := ⟨[{ initThread zeroPage with tid := 1 }], 2⟩

structure Inv : Prop where
  nodup : (s.allList.map Thread.tid).Nodup
  next : 0 < s.nextTid
  tids : ∀ t ∈ s.allList, 0 < t.tid ∧ t.tid < s.nextTid
  /-- `execute` gives no group, and nobody else does before `setpgid`. -/
  executed : ∀ t ∈ s.allList, t.maker = none → t.changed = false → t.pgid = 0

variable {s} {s' : Threads} {t : Thread} {l : List Thread} {f : Thread → Thread} {tid : Int} {t' : Thread}

theorem mem_modify (h : t ∈ (s.modify tid f).allList) :
    ∃ u ∈ s.allList, u.tid = tid ∧ t = f u ∨ u.tid ≠ tid ∧ t = u := by
  obtain ⟨u, hu, rfl⟩ := mem_map.mp h
  by_cases htid : u.tid = tid
  · exact ⟨u, hu, .inl ⟨htid, if_pos htid⟩⟩
  · exact ⟨u, hu, .inr ⟨htid, if_neg htid⟩⟩

theorem Inv.modify (h : Inv s) (hf : ∀ t, (f t).tid = t.tid)
    (hg : ∀ t ∈ s.allList, t.tid = tid → (f t).maker = none → (f t).changed = false → (f t).pgid = 0) :
    Inv (s.modify tid f) := by
  have htids : (s.modify tid f).allList.map Thread.tid = s.allList.map Thread.tid := by
    rw [Threads.modify, List.map_map]
    refine map_congr_left fun t _ ↦ ?_
    simp only [Function.comp_apply]
    split
    · exact hf t
    · rfl
  refine ⟨htids ▸ h.nodup, h.next, fun t ht ↦ ?_, fun t ht ↦ ?_⟩
  · obtain ⟨u, hu, htid⟩ := mem_map.mp (htids ▸ mem_map_of_mem ht)
    exact htid ▸ h.tids u hu
  · obtain ⟨u, hu, ⟨htid, rfl⟩ | ⟨-, rfl⟩⟩ := mem_modify ht
    · exact hg u hu htid
    · exact h.executed _ hu

theorem Inv.create (h : Inv s) (maker : Option Int) : Inv (s.create maker) := by
  refine ⟨?_, by simp only [Threads.create]; have := h.next; omega, fun t ht ↦ ?_, fun t ht ↦ ?_⟩
  · rw [Threads.create, map_append, nodup_append]
    refine ⟨h.nodup, by simp, fun a ha b hb ↦ ?_⟩
    obtain ⟨t, ht, rfl⟩ := mem_map.mp ha
    rw [map_singleton, mem_singleton] at hb
    exact hb ▸ (h.tids t ht).2.ne
  · rcases mem_append.mp ht with ht | ht
    · have := h.tids t ht
      simp only [Threads.create]
      omega
    · rw [mem_singleton.mp ht]
      exact ⟨h.next, Int.lt_succ _⟩
  · rcases mem_append.mp ht with ht | ht
    · exact h.executed t ht
    · rw [mem_singleton.mp ht]
      exact fun _ _ ↦ rfl

theorem Inv.step (h : Inv s) {x : Act} (hs : s.step x = some s') : Inv s' := by
  cases x with
  | execute =>
    obtain ⟨-, hs⟩ := ite_none_right_eq_some.mp hs
    exact Option.some.inj hs ▸ h.create none
  | fork parent =>
    obtain ⟨-, hs⟩ := ite_none_right_eq_some.mp hs
    exact Option.some.inj hs ▸ h.create (some parent)
  | start tid =>
    cases hs
    exact h.modify (fun _ ↦ rfl) fun t ht _ ↦ h.executed t ht
  | parentInfo child parent =>
    obtain ⟨hmaker, hs⟩ := ite_none_right_eq_some.mp hs
    obtain ⟨p, -, rfl⟩ := map_eq_some_iff.mp hs
    exact h.modify (fun _ ↦ rfl) fun t ht htid hnone ↦ nomatch (hmaker t ht htid).symm.trans hnone
  | setPgid caller pid pgid =>
    obtain ⟨-, hs⟩ := ite_none_right_eq_some.mp hs
    cases hs
    exact h.modify (fun _ ↦ rfl) fun t _ _ _ hch ↦ absurd hch (by simp)
  | exit tid =>
    cases hs
    have hmem : ∀ t ∈ s.allList.filter (·.tid ≠ tid), t ∈ s.allList := fun _ ↦ mem_of_mem_filter
    exact ⟨h.nodup.sublist (filter_sublist.map _), h.next, fun t ht ↦ h.tids t (hmem t ht),
      fun t ht ↦ h.executed t (hmem t ht)⟩

theorem Inv.boot : Inv boot := ⟨by decide, by decide, by decide, by decide⟩

theorem allGrouped_modify (h : s.AllGrouped) :
    (s.modify tid f).AllGrouped ↔ ∀ t ∈ s.allList, t.tid = tid → (f t).user → 0 < (f t).pgid := by
  refine ⟨fun hmod t ht htid hu ↦ hmod (f t) (mem_map.mpr ⟨t, ht, if_pos htid⟩) hu, fun hf t ht hu ↦ ?_⟩
  obtain ⟨u, hmem, ⟨htid, rfl⟩ | ⟨-, rfl⟩⟩ := mem_modify ht
  · exact hf u hmem htid hu
  · exact h _ hmem hu

theorem allGrouped_create (h : s.AllGrouped) (maker : Option Int) : (s.create maker).AllGrouped := by
  intro t ht hu
  rcases mem_append.mp ht with ht | ht
  · exact h t ht hu
  · rw [mem_singleton.mp ht] at hu
    exact absurd hu Bool.false_ne_true

/-- The condition is exact: a step keeps a group for every process if and only if it meets it. -/
theorem Inv.allGrouped_step (hi : Inv s) (h : s.AllGrouped) {x : Act} (hs : s.step x = some s') :
    s'.AllGrouped ↔ s.Grouped x := by
  cases x with
  | execute =>
    obtain ⟨-, hs⟩ := ite_none_right_eq_some.mp hs
    exact iff_of_true (Option.some.inj hs ▸ allGrouped_create h none) trivial
  | fork parent =>
    obtain ⟨-, hs⟩ := ite_none_right_eq_some.mp hs
    exact iff_of_true (Option.some.inj hs ▸ allGrouped_create h (some parent)) trivial
  | start tid =>
    cases hs
    rw [allGrouped_modify h]
    exact forall₃_congr fun t _ _ ↦ ⟨fun ht ↦ ht rfl, fun ht _ ↦ ht⟩
  | parentInfo child parent =>
    obtain ⟨-, hs⟩ := ite_none_right_eq_some.mp hs
    obtain ⟨p, hp, rfl⟩ := map_eq_some_iff.mp hs
    have huser : p.tid = parent ∧ p.user = true := by simpa using find?_some hp
    exact iff_of_true ((allGrouped_modify h).mpr fun _ _ _ _ ↦ h p (mem_of_find?_eq_some hp) huser.2) trivial
  | setPgid caller pid pgid =>
    obtain ⟨-, hs⟩ := ite_none_right_eq_some.mp hs
    cases hs
    rw [Threads.setPgid, allGrouped_modify h]
    constructor
    · intro hf hneg t ht htid
      by_contra hu
      have hpos := hf t ht htid (by simpa using hu)
      rw [if_neg hneg.ne] at hpos
      exact absurd hpos hneg.le.not_gt
    · intro hx t ht htid hu
      have hpos := (hi.tids t ht).1
      have hnn : 0 ≤ pgid := by
        by_contra hneg
        rw [hx (by omega) t ht htid] at hu
        cases hu
      simp only
      split <;> omega
  | exit tid =>
    cases hs
    exact iff_of_true (fun t ht ↦ h t (mem_of_mem_filter ht)) trivial

/-- A process that `fork` has made. -/
def Forked (t : Thread) : Prop := t.user ∧ t.parentTid ≠ 0

theorem scan_cases {r : Int × Int × Int} (h : r.2.2 ≠ t.tid) :
    Forked t ∧ r.2.1 < t.tid ∧ scan r t = (t.pgid, t.tid, r.2.2) ∨
      (Forked t → t.tid ≤ r.2.1) ∧ (scan r t).1 = r.1 ∧ (scan r t).2.1 = r.2.1 ∧
        ((scan r t).2.2 = r.2.2 ∨ (scan r t).2.2 = t.tid) := by
  unfold scan Forked
  by_cases huser : t.user
  · by_cases hparent : t.parentTid = 0
    · simp [huser, hparent]
    · by_cases hlt : r.2.1 < t.tid
      · simp [huser, hparent, hlt, h.symm]
      · simp [hparent, hlt, not_lt.mp hlt]
  · simp [huser]

theorem foldl_scan : ∀ (l : List Thread) (r : Int × Int × Int), (l.map Thread.tid).Nodup →
    (∀ t ∈ l, r.2.2 ≠ t.tid) →
    (l.foldl scan r).1 = r.1 ∧ (∀ t ∈ l, Forked t → t.tid ≤ r.2.1) ∨
      ∃ t ∈ l, Forked t ∧ (l.foldl scan r).1 = t.pgid ∧ r.2.1 < t.tid ∧ ∀ u ∈ l, Forked u → u.tid ≤ t.tid := by
  intro l
  induction l with
  | nil => exact fun r _ _ ↦ .inl ⟨rfl, by simp⟩
  | cons t l ih =>
    intro r hnodup hinit
    obtain ⟨ht, hnodup⟩ := nodup_cons.mp hnodup
    obtain ⟨hinit, hrest⟩ := forall_mem_cons.mp hinit
    simp only [foldl_cons, forall_mem_cons, exists_mem_cons_iff]
    obtain ⟨hforked, hlt, hscan⟩ | ⟨hle, hfg, hmax, hnext⟩ := scan_cases hinit
    · rw [hscan]
      obtain ⟨hfg, hle⟩ | ⟨u, hu, huf, hfg, hlt', hle⟩ := ih (t.pgid, t.tid, r.2.2) hnodup hrest
      · exact .inr (.inl ⟨hforked, hfg, hlt, fun _ ↦ le_rfl, hle⟩)
      · exact .inr (.inr ⟨u, hu, huf, hfg, hlt.trans hlt', fun _ ↦ hlt'.le, hle⟩)
    · have hnext : ∀ u ∈ l, (scan r t).2.2 ≠ u.tid := by
        intro u hu
        obtain h | h := hnext
        · exact h ▸ hrest u hu
        · exact fun hut ↦ ht (mem_map.mpr ⟨u, hu, hut.symm.trans h⟩)
      obtain ⟨hfg', hle'⟩ | ⟨u, hu, huf, hfg', hlt, hle'⟩ := ih (scan r t) hnodup hnext
      · exact .inl ⟨hfg'.trans hfg, hle, hmax ▸ hle'⟩
      · rw [hmax] at hlt
        exact .inr (.inr ⟨u, hu, huf, hfg', hlt, fun hf ↦ (hle hf).trans hlt.le, hle'⟩)

/-- The foreground group is the one of the last process that `fork` has made. -/
theorem Inv.foreground (h : Inv s) (hall : s.AllGrouped) (hforked : ∃ t ∈ s.allList, Forked t) :
    ∃ t ∈ s.allList, Forked t ∧ s.foregroundPgid = t.pgid ∧ ∀ u ∈ s.allList, Forked u → u.tid ≤ t.tid := by
  obtain ⟨-, hle⟩ | ⟨t, ht, hf, hfg, -, hle⟩ := foldl_scan s.allList (-1, -1, -1) h.nodup fun t ht ↦ by
    have := (h.tids t ht).1
    simp only
    omega
  · obtain ⟨t, ht, hf⟩ := hforked
    have := (h.tids t ht).1
    have := hle t ht hf
    simp only at this
    omega
  · refine ⟨t, ht, hf, ?_, hle⟩
    rw [foregroundPgid, hfg]
    exact if_neg (hall t ht hf.1).not_gt

theorem Inv.foreground_zero (h : Inv s) (hforked : ¬ ∃ t ∈ s.allList, Forked t) : s.foregroundPgid = 0 := by
  obtain ⟨hfg, -⟩ | ⟨t, ht, hf, -⟩ := foldl_scan s.allList (-1, -1, -1) h.nodup fun t ht ↦ by
    have := (h.tids t ht).1
    simp only
    omega
  · rw [foregroundPgid, hfg]
    rfl
  · exact absurd ⟨t, ht, hf⟩ hforked

/-- Where the group of `t'` after a step comes from: it stays, `setpgid` changes it, or `fork` copies it. -/
def Origin (s : Threads) (x : Act) (t' : Thread) : Prop :=
  (∃ t ∈ s.allList, t.tid = t'.tid ∧ t'.pgid = t.pgid) ∨
    (∃ caller pid pgid, x = .setPgid caller pid pgid ∧ target caller pid = t'.tid ∧
      t'.pgid = if pgid = 0 then t'.tid else pgid) ∨
    ∃ p ∈ s.allList, x = .parentInfo t'.tid p.tid ∧ t'.parentTid = p.tid ∧ t'.pgid = p.pgid

theorem create_pgid {x : Act} {maker : Option Int} (ht' : t' ∈ (s.create maker).allList) (hne : 0 < t'.pgid) :
    Origin s x t' := by
  rcases mem_append.mp ht' with ht' | ht'
  · exact .inl ⟨t', ht', rfl, rfl⟩
  · rw [mem_singleton.mp ht'] at hne
    exact absurd hne (lt_irrefl 0)

theorem step_pgid {x : Act} (hs : s.step x = some s') (ht' : t' ∈ s'.allList) (hne : 0 < t'.pgid) :
    Origin s x t' := by
  cases x with
  | execute =>
    obtain ⟨-, hs⟩ := ite_none_right_eq_some.mp hs
    cases hs
    exact create_pgid ht' hne
  | fork parent =>
    obtain ⟨-, hs⟩ := ite_none_right_eq_some.mp hs
    cases hs
    exact create_pgid ht' hne
  | start tid =>
    cases hs
    obtain ⟨u, hu, ⟨-, rfl⟩ | ⟨-, rfl⟩⟩ := mem_modify ht'
    · exact .inl ⟨u, hu, rfl, rfl⟩
    · exact .inl ⟨_, hu, rfl, rfl⟩
  | parentInfo child parent =>
    obtain ⟨-, hs⟩ := ite_none_right_eq_some.mp hs
    obtain ⟨p, hp, rfl⟩ := map_eq_some_iff.mp hs
    have hpar : p.tid = parent ∧ p.user = true := by simpa using find?_some hp
    obtain ⟨u, hu, ⟨rfl, rfl⟩ | ⟨-, rfl⟩⟩ := mem_modify ht'
    · exact .inr (.inr ⟨p, mem_of_find?_eq_some hp, by rw [hpar.1], hpar.1.symm, rfl⟩)
    · exact .inl ⟨_, hu, rfl, rfl⟩
  | setPgid caller pid pgid =>
    obtain ⟨-, hs⟩ := ite_none_right_eq_some.mp hs
    cases hs
    obtain ⟨u, hu, ⟨htid, rfl⟩ | ⟨-, rfl⟩⟩ := mem_modify ht'
    · exact .inr (.inl ⟨caller, pid, pgid, rfl, htid.symm, by rw [← htid]⟩)
    · exact .inl ⟨_, hu, rfl, rfl⟩
  | exit tid =>
    cases hs
    exact .inl ⟨t', mem_of_mem_filter ht', rfl, rfl⟩

theorem killForeground_spec (hfg : 0 < s.foregroundPgid) (ht' : t' ∈ s.killForeground.allList)
    (hu : t'.user) (hg : t'.pgid = s.foregroundPgid) : t'.killed ∨ t'.sigIgnore.testBit 2 := by
  rw [killForeground, if_pos hfg] at ht'
  obtain ⟨t, -, rfl⟩ := mem_map.mp ht'
  by_cases hmem : t.user ∧ t.pgid = s.foregroundPgid
  · rw [if_pos hmem, deliverSignal]
    by_cases hsig : t.sigIgnore.testBit 2
    · rw [if_pos hsig]
      exact .inr hsig
    · rw [if_neg hsig]
      exact .inl rfl
  · rw [if_neg hmem] at hu hg
    exact absurd ⟨hu, hg⟩ hmem

/-- In no run does `execute` give its process a group. Once every process has one, all keep one exactly as long
as each new process has its group before it starts and no process gets a negative one; the foreground group is
then not zero if and only if there is a process made by `fork`, and Ctrl-C reaches the processes in it. -/
theorem process_groups {s₀ : Threads} (boots : Run step always boot s₀) :
    (∀ t ∈ s₀.allList, t.maker = none → t.changed = false → t.pgid = 0 ∧ t.pgid ≠ t.tid) ∧
      (s₀.AllGrouped → ∀ s, Run step Grouped s₀ s → s.AllGrouped ∧
        (∀ x s', s.step x = some s' → (s'.AllGrouped ↔ s.Grouped x) ∧
          ∀ t' ∈ s'.allList, 0 < t'.pgid → Origin s x t') ∧
        (0 < s.foregroundPgid ↔ ∃ t ∈ s.allList, Forked t) ∧
        ((∃ t ∈ s.allList, Forked t) → ∃ t ∈ s.allList, Forked t ∧ s.foregroundPgid = t.pgid ∧
          ∀ u ∈ s.allList, Forked u → u.tid ≤ t.tid) ∧
        (0 < s.foregroundPgid → ∀ t ∈ s.killForeground.allList, t.user → t.pgid = s.foregroundPgid →
          t.killed ∨ t.sigIgnore.testBit 2)) := by
  have h₀ : Inv s₀ := boots.invariant Inv (fun _ _ _ h _ hs ↦ h.step hs) .boot
  refine ⟨fun t ht hmaker hch ↦ ?_, fun hall₀ s run ↦ ?_⟩
  · have hzero := h₀.executed t ht hmaker hch
    have := (h₀.tids t ht).1
    exact ⟨hzero, by omega⟩
  · obtain ⟨h, hall⟩ : Inv s ∧ s.AllGrouped := run.invariant (fun s ↦ Inv s ∧ s.AllGrouped)
      (fun _ _ _ h hx hs ↦ ⟨h.1.step hs, (h.1.allGrouped_step h.2 hs).mpr hx⟩) ⟨h₀, hall₀⟩
    have hlast := h.foreground hall
    refine ⟨hall, fun x s' hs ↦ ⟨h.allGrouped_step hall hs, fun t' ht' hne ↦ step_pgid hs ht' hne⟩, ⟨fun hpos ↦ ?_,
      fun hforked ↦ ?_⟩, hlast, fun hpos t' ht' hu hg ↦ killForeground_spec hpos ht' hu hg⟩
    · by_contra hnone
      exact absurd (h.foreground_zero hnone) hpos.ne'
    · obtain ⟨t, ht, hf, hfg, -⟩ := hlast hforked
      exact hfg ▸ hall t ht hf.1

/-- A shell that takes a group of its own as soon as it runs, and a child of it. -/
theorem process_groups_shell : ∃ s₀ s, exec step boot [.execute, .start 2, .setPgid 2 0 0] = some s₀ ∧
    execWhile step Grouped s₀ [.fork 2, .parentInfo 3 2, .start 3] = some s ∧ 0 < s.foregroundPgid := by
  obtain ⟨s₀, s, h₀, hall, hs, hforked⟩ : ∃ s₀ s, exec step boot [.execute, .start 2, .setPgid 2 0 0] = some s₀ ∧
      (∀ t ∈ s₀.allList, t.user → 0 < t.pgid) ∧
      execWhile step Grouped s₀ [.fork 2, .parentInfo 3 2, .start 3] = some s ∧
      ∃ t ∈ s.allList, t.user ∧ t.parentTid ≠ 0 := ⟨_, _, rfl, by decide, rfl, by decide⟩
  exact ⟨s₀, s, h₀, hs, ((process_groups (Run.of_exec h₀)).2 hall s (Run.of_execWhile hs)).2.2.1.mpr hforked⟩

/-- The shell that `execute` starts has group 0, and so has the child that it forks: Ctrl-C reaches
nobody. -/
theorem execute_without_group : ∃ s, exec step boot [.execute, .start 2, .fork 2, .parentInfo 3 2, .start 3] =
    some s ∧ (∀ t ∈ s.allList, t.user → t.pgid = 0) ∧ s.foregroundPgid = 0 ∧ s.killForeground = s :=
  ⟨_, rfl, by decide, by decide, by decide⟩

end Threads

end Rxv6.Userprog.Groups
