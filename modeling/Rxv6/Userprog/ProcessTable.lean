import Rxv6.Userprog.Wait

namespace Rxv6.Userprog

open Rxv6.Thread Rxv6.Sync List Option

/-- `ProcessState` with the fields that `load` and `execute` work on. -/
structure ProcessState extends Wait.ProcessState where
  loadSema : Semaphore
  loadSuccess : Bool
  executableSector : Option Nat
  deriving DecidableEq, Repr

/-- `PROCESS_STATES`, in the order of its keys. -/
abbrev States := List ProcessState

namespace States

def get (l : States) (t : Tid) : Option ProcessState := List.find? (fun ps ↦ ps.tid = t) l

/-- `get_mut` followed by an assignment. -/
def modify (l : States) (t : Tid) (f : ProcessState → ProcessState) : States :=
  l.map fun ps ↦ if ps.tid = t then f ps else ps

def insert (l : States) (ps : ProcessState) : States :=
  l.filter (·.tid < ps.tid) ++ ps :: l.filter (ps.tid < ·.tid)

def remove (l : States) (t : Tid) : States := l.filter (·.tid ≠ t)

/-- The children of an exiting process: exited ones are removed, the others go to `init`. -/
def reparent (l : States) (t : Tid) : States :=
  (l.filter fun ps ↦ ¬ (ps.parentTid = t ∧ ps.exited)).map fun ps : ProcessState ↦
    if ps.parentTid = t then { ps with parentTid := Wait.initTid } else ps

variable {l : States} {t t' : Tid} {ps : ProcessState} {f : ProcessState → ProcessState}

theorem tid_of_get (h : l.get t = some ps) : ps.tid = t := by
  simpa using find?_some h

theorem get_modify (hf : ∀ ps, (f ps).tid = ps.tid) :
    (l.modify t f).get t' = if t' = t then (l.get t').map f else l.get t' := by
  induction l with
  | nil => simp [get, modify]
  | cons a l ih =>
    simp only [get, modify, map_cons, find?_cons] at ih ⊢
    by_cases ha : a.tid = t
    · by_cases ht : t' = t
      · simp [ha, ht, hf]
      · have hne : ¬ t = t' := fun h ↦ ht h.symm
        simp [ha, hf, hne, ih]
    · by_cases ht : a.tid = t'
      · have hne : t' ≠ t := fun h ↦ ha (ht.trans h)
        simp [ht, hne]
      · simp only [ha, if_false, ht]
        exact ih

theorem get_modify_self (hf : ∀ ps, (f ps).tid = ps.tid) :
    (l.modify t f).get t = (l.get t).map f := by
  rw [get_modify hf, if_pos rfl]

variable {p : ProcessState → Bool}

theorem get_filter (hp : ∀ ps, ps.tid = t → p ps = true) : get (l.filter p) t = l.get t := by
  unfold get
  rw [find?_filter]
  congr
  funext ps
  by_cases h : ps.tid = t <;> simp [h, hp]

theorem get_filter_none (hp : ∀ ps, ps.tid = t → p ps = false) : get (l.filter p) t = none := by
  unfold get
  rw [find?_eq_none]
  intro ps hps ht
  rw [mem_filter, hp ps (by simpa using ht)] at hps
  cases hps.2

theorem get_insert : (l.insert ps).get t = if t = ps.tid then some ps else l.get t := by
  have happend : (l.insert ps).get t = (get (l.filter (·.tid < ps.tid)) t).or
      (get (ps :: l.filter (ps.tid < ·.tid)) t) := find?_append
  have hcons : get (ps :: l.filter (ps.tid < ·.tid)) t =
      if ps.tid = t then some ps else get (l.filter (ps.tid < ·.tid)) t := by
    unfold get
    by_cases h : ps.tid = t <;> simp [h]
  rw [happend, hcons]
  rcases lt_trichotomy t ps.tid with h | h | h
  · rw [get_filter (by rintro _ rfl; simpa using h), if_neg h.ne', if_neg h.ne,
      get_filter_none (by rintro _ rfl; simpa using h.le), or_none]
  · rw [get_filter_none (by rintro _ rfl; simp [h]), if_pos h.symm, if_pos h, none_or]
  · rw [get_filter_none (by rintro _ rfl; simpa using h.le), if_neg h.ne, if_neg h.ne',
      get_filter (by rintro _ rfl; simpa using h), none_or]

theorem get_remove : (l.remove t).get t' = if t' = t then none else l.get t' := by
  split
  next h => exact get_filter_none (by simp [h])
  next h => exact get_filter (by rintro _ rfl; simpa using h)

theorem get_filter_of_get (h : l.get t = some ps) (hp : p ps = true) : get (l.filter p) t = some ps := by
  induction l with
  | nil => cases h
  | cons a l ih =>
    simp only [get, find?_cons] at h ih ⊢
    by_cases ha : a.tid = t
    · simp only [ha, decide_true, Option.some.injEq] at h
      subst h
      simp [hp, ha]
    · simp only [ha] at h
      by_cases hpa : p a = true
      · simpa [ha] using ih h
      · simpa [hpa] using ih h

theorem get_map (hf : ∀ ps, (f ps).tid = ps.tid) : get (l.map f) t = (l.get t).map f := by
  simp [get, hf]

theorem get_reparent (h : l.get t' = some ps) (hp : ps.parentTid ≠ t) :
    (l.reparent t).get t' = some ps := by
  have hmap : ∀ ps : ProcessState,
      (if ps.parentTid = t then { ps with parentTid := Wait.initTid } else ps).tid = ps.tid := by
    intro ps
    split <;> rfl
  rw [reparent, get_map hmap, get_filter_of_get h (by simp [hp]), map_some, if_neg hp]

end States

end Rxv6.Userprog
