import Rxv6.Thread.Scheduler

namespace Rxv6.Sync

open Function Rxv6.Thread

abbrev LockId := Nat

inductive SemaId
  | lock (l : LockId)
  | plain (n : Nat)
  deriving DecidableEq

/-- The next statement of a thread. Interrupts are on before each of them except the three that follow a
switch: `inDown` is the test of the loop of `down`, `inUp` the increment of `up` and `inSleep` the end of
`timer_sleep`. -/
inductive Pc
  | user
  | acquireDonate (l : LockId)
  | acquireDown (l : LockId)
  | inDown (m : SemaId)
  | acquireClear (l : LockId)
  | acquireHold (l : LockId)
  | releaseRestore (l : LockId)
  | releaseClear (l : LockId)
  | releaseUp (l : LockId)
  | inUp (m : SemaId)
  | setBase (p : Int)
  | checkYield
  | yielding
  | sleep (wakeup : Int)
  | inSleep
  deriving DecidableEq

namespace Pc

def lock : Pc → Option LockId
  | acquireDonate l | acquireDown l | inDown (.lock l) | acquireClear l | acquireHold l
  | releaseRestore l | releaseClear l | releaseUp l | inUp (.lock l) => some l
  | _ => none

def inside : Pc → Option LockId
  | acquireClear l | acquireHold l | releaseRestore l | releaseClear l | releaseUp l
  | inUp (.lock l) => some l
  | _ => none

def holding : Pc → Option LockId
  | releaseRestore l | releaseClear l => some l
  | _ => none

@[simp] def waits : Pc → Option LockId
  | acquireDown l | inDown (.lock l) => some l
  | _ => none

end Pc

/-- The locks and what their holders and waiters are: `owns` says that a thread has returned from `acquire`
or `try_acquire` and has not started to release. -/
structure Locks where
  pc : Tid → Pc
  owns : Tid → Finset LockId
  holder : LockId → Option Tid
  value : LockId → Nat
  waitingOn : Tid → Option LockId
  base : Tid → Int
  priority : Tid → Int
  nextTid : Tid

/-- `donate_priority`, with the number of threads that are still to be looked at. -/
def donatePriority (waitingOn : Tid → Option LockId) (holder : LockId → Option Tid) (p : Int) :
    Nat → Option Tid → (Tid → Int) → (Tid → Int)
  | 0, _, pri => pri
  | _ + 1, none, pri => pri
  | n + 1, some t, pri =>
    if pri t < p then
      match waitingOn t with
      | none => update pri t p
      | some l => donatePriority waitingOn holder p n (holder l) (update pri t p)
    else pri

inductive Stmt
  | donate (l : LockId)
  | hold (l : LockId)
  | restore (l : LockId)
  | setPriority (p : Int)
  | other

namespace Locks

variable (v : Locks) (c : Tid)

def setPc (p : Pc) : Locks := { v with pc := update v.pc c p }

def setValue (l : LockId) (n : Nat) : Locks := { v with value := update v.value l n }

/-- The middle of `acquire`: the thread records what it waits for and donates. -/
def donate (l : LockId) : Locks :=
  match v.holder l with
  | none => v.setPc c (.acquireDown l)
  | some h =>
    let waitingOn := update v.waitingOn c (some l)
    { v.setPc c (.acquireDown l) with
      waitingOn := waitingOn
      priority := donatePriority waitingOn v.holder (v.priority c) 8 (some h) v.priority }

/-- What one statement of the thread `c` does to the locks, whatever the scheduler does. -/
inductive Move : Stmt → Locks → Prop
  | stay : Move .other v
  | quiet (p : Pc) (hc : (v.pc c).lock = none ∧ ∀ q, v.pc c ≠ .setBase q)
      (hp : p.lock = none ∧ ∀ q, p ≠ .setBase q) : Move .other (v.setPc c p)
  | acquire (l : LockId) (hc : v.pc c = .user) (hl : v.holder l ≠ some c) :
      Move .other (v.setPc c (.acquireDonate l))
  | donate (l : LockId) (hc : v.pc c = .acquireDonate l) : Move (.donate l) (v.donate c l)
  | wait (l : LockId) (hc : (v.pc c).waits = some l) (hv : v.value l = 0) :
      Move .other (v.setPc c (.inDown (.lock l)))
  | take (l : LockId) (hc : (v.pc c).waits = some l) (hv : v.value l ≠ 0) :
      Move .other ((v.setValue l (v.value l - 1)).setPc c (.acquireClear l))
  | tryTake (l : LockId) (hc : v.pc c = .user) (hv : v.value l ≠ 0) :
      Move .other ((v.setValue l (v.value l - 1)).setPc c (.acquireHold l))
  | clear (l : LockId) (hc : v.pc c = .acquireClear l) :
      Move .other { v.setPc c (.acquireHold l) with waitingOn := update v.waitingOn c none }
  | hold (l : LockId) (hc : v.pc c = .acquireHold l) :
      Move (.hold l) { v.setPc c .user with
        holder := update v.holder l (some c)
        owns := update v.owns c (insert l (v.owns c)) }
  | release (l : LockId) (hc : v.pc c = .user) (hl : v.holder l = some c) :
      Move .other { v.setPc c (.releaseRestore l) with owns := update v.owns c ((v.owns c).erase l) }
  | restore (l : LockId) (hc : v.pc c = .releaseRestore l) :
      Move (.restore l) { v.setPc c (.releaseClear l) with priority := update v.priority c (v.base c) }
  | drop (l : LockId) (hc : v.pc c = .releaseClear l) :
      Move .other { v.setPc c (.releaseUp l) with holder := update v.holder l none }
  | wake (l : LockId) (hc : v.pc c = .releaseUp l) : Move .other (v.setPc c (.inUp (.lock l)))
  | free (l : LockId) (hc : v.pc c = .releaseUp l ∨ v.pc c = .inUp (.lock l)) :
      Move .other ((v.setValue l (v.value l + 1)).setPc c .user)
  | setPriority (p : Int) (hp : i32Min ≤ p) (hc : v.pc c = .user) :
      Move (.setPriority p) { v.setPc c (.setBase p) with priority := update v.priority c p }
  | setBase (p : Int) (hc : v.pc c = .setBase p) :
      Move .other { v.setPc c .checkYield with base := update v.base c p }
  | create (q : Int) (hq : i32Min ≤ q) (p : Pc) (hc : v.pc c = .user) (hp : p = .user ∨ p = .yielding) :
      Move .other { v.setPc c p with
        priority := update v.priority v.nextTid q
        base := update v.base v.nextTid q
        nextTid := v.nextTid + 1 }

def Bounded : Prop :=
  ∀ t, i32Min ≤ v.priority t ∧ i32Min ≤ v.base t ∧ ∀ p, v.pc t = .setBase p → i32Min ≤ p

def Inside (t : Tid) (l : LockId) : Prop := l ∈ v.owns t ∨ (v.pc t).inside = some l

/-- A lock is free and nobody is inside, or exactly one thread is inside. The holder is set for a part of
the time. -/
structure Inv : Prop where
  token : ∀ l, (v.value l = 1 ∧ ∀ t, ¬ v.Inside t l) ∨
    (v.value l = 0 ∧ ∃ t, v.Inside t l ∧ ∀ u, v.Inside u l → u = t)
  holder : ∀ l t, v.holder l = some t ↔ l ∈ v.owns t ∨ (v.pc t).holding = some l
  owns : ∀ t l, (v.pc t).lock = some l → l ∉ v.owns t
  recorded : ∀ t l, v.waitingOn t = some l → (v.pc t).waits = some l ∨ v.pc t = .acquireClear l
  unborn : ∀ t, v.nextTid ≤ t → v.pc t = .user ∧ v.owns t = ∅

end Locks

open Pc

section Preservation

variable {v w : Locks} {c t u : Tid} {l : LockId} {x : Stmt}

namespace Pc

variable {p : Pc}

theorem lock_of_inside (h : p.inside = some l) : p.lock = some l := by
  cases p <;> simp_all [inside, lock]
  all_goals next m => cases m <;> simp_all

theorem inside_of_holding (h : p.holding = some l) : p.inside = some l := by
  cases p <;> simp_all [inside, holding]

theorem inside_of_waits (h : p.waits = some l) : p.inside = none ∧ p.holding = none ∧ p.lock = some l := by
  cases p <;> simp_all [inside, holding, lock]
  all_goals next m => cases m <;> simp_all

theorem inside_of_lock_none (h : p.lock = none) :
    p.inside = none ∧ p.holding = none ∧ p.waits = none ∧ ∀ l, p ≠ .acquireClear l := by
  cases p <;> simp_all [inside, holding, lock]
  all_goals next m => cases m <;> simp_all

@[simp] theorem inside_user : inside .user = none := rfl
@[simp] theorem holding_user : holding .user = none := rfl
@[simp] theorem lock_user : lock .user = none := rfl
@[simp] theorem waits_user : waits .user = none := rfl

end Pc

namespace Locks

section

variable (h : v.Inv)

include h

theorem Inv.inside_of_holder (hl : v.holder l = some t) : v.Inside t l :=
  ((h.holder l t).mp hl).imp_right inside_of_holding

theorem Inv.inside_unique (ht : v.Inside t l) (hu : v.Inside u l) : t = u := by
  obtain ⟨_, hn⟩ | ⟨_, s, _, hs⟩ := h.token l
  · exact absurd ht (hn t)
  · rw [hs t ht, hs u hu]

theorem Inv.value_of_inside (ht : v.Inside t l) : v.value l = 0 := by
  obtain ⟨_, hn⟩ | ⟨hv, _⟩ := h.token l
  · exact absurd ht (hn t)
  · exact hv

theorem Inv.holder_of_owns (ht : l ∈ v.owns t) : v.holder l = some t :=
  (h.holder l t).mpr (.inl ht)

theorem Inv.waitingOn_eq_none (hw : (v.pc c).waits = none) (hn : ∀ l, v.pc c ≠ .acquireClear l) :
    v.waitingOn c = none := by
  cases hc : v.waitingOn c with
  | none => rfl
  | some l =>
    obtain e | e := h.recorded c l hc
    · cases hw.symm.trans e
    · exact absurd e (hn l)

variable {p : Pc}

theorem Inv.recorded_of_ne (hpc : w.pc = update v.pc c p)
    (hw : ∀ t, t ≠ c → w.waitingOn t = v.waitingOn t)
    (hc : ∀ l, w.waitingOn c = some l → p.waits = some l ∨ p = .acquireClear l) (t : Tid) (l : LockId)
    (ht : w.waitingOn t = some l) : (w.pc t).waits = some l ∨ w.pc t = .acquireClear l := by
  rw [hpc]
  by_cases htc : t = c
  · subst htc
    simpa using hc l ht
  · rw [hw t htc] at ht
    simpa [htc] using h.recorded t l ht

theorem Inv.recorded_of_none (hpc : w.pc = update v.pc c p)
    (hw : w.waitingOn = v.waitingOn) (hwaits : (v.pc c).waits = none) (hn : ∀ l, v.pc c ≠ .acquireClear l) :
    ∀ t l, w.waitingOn t = some l → (w.pc t).waits = some l ∨ w.pc t = .acquireClear l := by
  refine h.recorded_of_ne hpc (fun t _ ↦ by rw [hw]) ?_
  intro l hl
  rw [hw, h.waitingOn_eq_none hwaits hn] at hl
  cases hl

theorem Inv.unborn_of_ne (hc : c < v.nextTid) (hpc : ∀ t, t ≠ c → w.pc t = v.pc t)
    (hown : ∀ t, t ≠ c → w.owns t = v.owns t) (hnext : v.nextTid ≤ w.nextTid) (t : Tid) (ht : w.nextTid ≤ t) :
    w.pc t = .user ∧ w.owns t = ∅ := by
  have htc : t ≠ c := (hc.trans_le (hnext.trans ht)).ne'
  rw [hpc t htc, hown t htc]
  exact h.unborn t (hnext.trans ht)

theorem Inv.moved (hpc : ∀ t, t ≠ c → w.pc t = v.pc t)
    (hin : (w.pc c).inside = (v.pc c).inside) (hhold : (w.pc c).holding = (v.pc c).holding)
    (hown : w.owns = v.owns) (hholder : w.holder = v.holder) (hval : w.value = v.value)
    (hlock : ∀ l, (w.pc c).lock = some l → l ∉ v.owns c)
    (hrec : ∀ t l, w.waitingOn t = some l → (w.pc t).waits = some l ∨ w.pc t = .acquireClear l)
    (hc : c < v.nextTid) (hnext : v.nextTid ≤ w.nextTid) : w.Inv := by
  have hins : ∀ t, (w.pc t).inside = (v.pc t).inside := by
    intro t
    by_cases ht : t = c
    · rw [ht, hin]
    · rw [hpc t ht]
  have hholds : ∀ t, (w.pc t).holding = (v.pc t).holding := by
    intro t
    by_cases ht : t = c
    · rw [ht, hhold]
    · rw [hpc t ht]
  refine ⟨?_, ?_, ?_, hrec, ?_⟩
  · simpa only [Inside, hins, hown, hval] using h.token
  · simpa only [hholds, hown, hholder] using h.holder
  · intro t l hl
    rw [hown]
    by_cases ht : t = c
    · subst ht
      exact hlock l hl
    · exact h.owns t l (hpc t ht ▸ hl)
  · exact h.unborn_of_ne hc hpc (fun _ _ ↦ by rw [hown]) hnext

theorem Inv.taken (hp : p.inside = some l ∧ p.holding = none) (hv : v.value l ≠ 0)
    (hin : (v.pc c).inside = none) (hrec : v.waitingOn c = none ∨ p = .acquireClear l)
    (hwait : ∀ l', v.waitingOn c = some l' → l' = l) (hc : c < v.nextTid) :
    ((v.setValue l (v.value l - 1)).setPc c p).Inv := by
  have hfree : v.value l = 1 ∧ ∀ t, ¬ v.Inside t l := by
    obtain hf | ⟨h0, _⟩ := h.token l
    · exact hf
    · exact absurd h0 hv
  have hother : ∀ t l', t ≠ c ∨ l' ≠ l →
      (((v.setValue l (v.value l - 1)).setPc c p).Inside t l' ↔ v.Inside t l') := by
    intro t l' ht
    by_cases htc : t = c
    · subst htc
      have hl : l ≠ l' := fun e ↦ (ht.resolve_left (by simp)) e.symm
      simp [Inside, setPc, setValue, hp.1, hin, hl]
    · simp [Inside, setPc, setValue, htc]
  refine ⟨?_, ?_, ?_, ?_, ?_⟩
  · intro l'
    by_cases hl : l' = l
    · subst hl
      refine .inr ⟨by simp [setPc, setValue, hfree.1], c, .inr (by simp [setPc, hp.1]), ?_⟩
      intro u hu
      by_contra huc
      exact hfree.2 u ((hother u l' (.inl huc)).mp hu)
    · have hval : ((v.setValue l (v.value l - 1)).setPc c p).value l' = v.value l' := by
        simp [setPc, setValue, hl]
      simpa only [hother _ l' (.inr hl), hval] using h.token l'
  · intro l' t
    have h' := h.holder l' t
    by_cases htc : t = c
    · subst htc
      have : (v.pc t).holding ≠ some l' := fun e ↦ by simp [inside_of_holding e] at hin
      simpa [setPc, setValue, hp.2, this] using h'
    · simpa [setPc, setValue, htc] using h'
  · intro t l' hl'
    by_cases htc : t = c
    · subst htc
      have : l' = l := by simpa [setPc, lock_of_inside hp.1] using hl'.symm
      subst this
      exact fun ho ↦ hfree.2 t (.inl ho)
    · exact h.owns t l' (by simpa [setPc, setValue, htc] using hl')
  · refine h.recorded_of_ne rfl (fun _ _ ↦ rfl) fun l' hl' ↦ ?_
    have hw : v.waitingOn c = some l' := hl'
    obtain hr | hr := hrec
    · simp [hr] at hw
    · rw [hwait l' hw]
      exact .inr hr
  · exact h.unborn_of_ne hc (fun _ ht ↦ update_of_ne ht ..) (fun _ _ ↦ rfl) le_rfl

theorem Inv.hold (hpc : v.pc c = .acquireHold l) (hc : c < v.nextTid) :
    Inv { v.setPc c .user with
      holder := update v.holder l (some c)
      owns := update v.owns c (insert l (v.owns c)) } := by
  have hin : v.Inside c l := .inr (by simp [hpc, inside])
  have hsame : ∀ t l', Inside { v.setPc c .user with
      holder := update v.holder l (some c)
      owns := update v.owns c (insert l (v.owns c)) } t l' ↔ v.Inside t l' := by
    intro t l'
    by_cases htc : t = c
    · subst htc
      simp [Inside, setPc, hpc, inside, or_comm, eq_comm]
    · simp [Inside, setPc, htc]
  refine ⟨?_, ?_, ?_, ?_, ?_⟩
  · simp only [hsame]
    exact h.token
  · intro l' t
    by_cases hl : l' = l
    · subst hl
      by_cases htc : t = c
      · simp [htc]
      · have hn : ¬ v.Inside t l' := fun ht ↦ htc (h.inside_unique ht hin)
        have hnh : (v.pc t).holding ≠ some l' := fun e ↦ hn (.inr (inside_of_holding e))
        have hno : l' ∉ v.owns t := fun e ↦ hn (.inl e)
        simp [setPc, htc, Ne.symm htc, hno, hnh]
    · have h' := h.holder l' t
      by_cases htc : t = c
      · subst htc
        simpa [setPc, hl, hpc, holding] using h'
      · simpa [setPc, hl, htc] using h'
  · intro t l' hl'
    by_cases htc : t = c
    · simp [setPc, htc] at hl'
    · simpa [htc] using h.owns t l' (by simpa [setPc, htc] using hl')
  · exact h.recorded_of_none rfl rfl (by simp [hpc]) (by simp [hpc])
  · exact h.unborn_of_ne hc (fun _ ht ↦ update_of_ne ht ..) (fun _ ht ↦ by simp [ht]) le_rfl

theorem Inv.release (hpc : v.pc c = .user) (hl : v.holder l = some c) (hc : c < v.nextTid) :
    Inv { v.setPc c (.releaseRestore l) with owns := update v.owns c ((v.owns c).erase l) } := by
  have hown : l ∈ v.owns c := by simpa [hpc] using (h.holder l c).mp hl
  have hsame : ∀ t l', Inside { v.setPc c (.releaseRestore l) with
      owns := update v.owns c ((v.owns c).erase l) } t l' ↔ v.Inside t l' := by
    intro t l'
    by_cases htc : t = c
    · subst htc
      by_cases hll : l' = l
      · subst hll
        simp [Inside, setPc, hown, inside]
      · simp [Inside, setPc, hpc, inside, hll, Ne.symm hll]
    · simp [Inside, setPc, htc]
  refine ⟨?_, ?_, ?_, ?_, ?_⟩
  · simp only [hsame]
    exact h.token
  · intro l' t
    have h' := h.holder l' t
    by_cases htc : t = c
    · subst htc
      by_cases hll : l' = l
      · subst hll
        simpa [setPc, holding] using hl
      · simpa [setPc, hpc, holding, hll, Ne.symm hll] using h'
    · simpa [setPc, htc] using h'
  · intro t l' hl'
    by_cases htc : t = c
    · subst htc
      simp only [setPc, update_self, lock, Option.some.injEq] at hl'
      simp [← hl']
    · simpa [htc] using h.owns t l' (by simpa [setPc, htc] using hl')
  · exact h.recorded_of_none rfl rfl (by simp [hpc]) (by simp [hpc])
  · exact h.unborn_of_ne hc (fun _ ht ↦ update_of_ne ht ..) (fun _ ht ↦ by simp [ht]) le_rfl

theorem Inv.drop (hpc : v.pc c = .releaseClear l) (hc : c < v.nextTid) :
    Inv { v.setPc c (.releaseUp l) with holder := update v.holder l none } := by
  have hin : v.Inside c l := .inr (by simp [hpc, inside])
  have hno : l ∉ v.owns c := h.owns c l (by simp [hpc, lock])
  have hsame : ∀ t l', Inside { v.setPc c (.releaseUp l) with holder := update v.holder l none } t l' ↔
      v.Inside t l' := by
    intro t l'
    by_cases htc : t = c
    · subst htc
      simp [Inside, setPc, hpc, inside]
    · simp [Inside, setPc, htc]
  refine ⟨?_, ?_, ?_, ?_, ?_⟩
  · simp only [hsame]
    exact h.token
  · intro l' t
    by_cases hl : l' = l
    · subst hl
      by_cases htc : t = c
      · subst htc
        simp [setPc, hno, holding]
      · have hn : ¬ v.Inside t l' := fun ht ↦ htc (h.inside_unique ht hin)
        have hnh : (v.pc t).holding ≠ some l' := fun e ↦ hn (.inr (inside_of_holding e))
        have hno : l' ∉ v.owns t := fun e ↦ hn (.inl e)
        simp [setPc, htc, hno, hnh]
    · have h' := h.holder l' t
      by_cases htc : t = c
      · subst htc
        simpa [setPc, hl, hpc, holding, Ne.symm hl] using h'
      · simpa [setPc, hl, htc] using h'
  · intro t l' hl'
    by_cases htc : t = c
    · subst htc
      simp only [setPc, update_self, lock, Option.some.injEq] at hl'
      rwa [← hl']
    · exact h.owns t l' (by simpa [setPc, htc] using hl')
  · exact h.recorded_of_none rfl rfl (by simp [hpc]) (by simp [hpc])
  · exact h.unborn_of_ne hc (fun _ ht ↦ update_of_ne ht ..) (fun _ _ ↦ rfl) le_rfl

theorem Inv.freed (hin : (v.pc c).inside = some l) (hhold : (v.pc c).holding = none)
    (hwait : (v.pc c).waits = none) (hclear : ∀ l, v.pc c ≠ .acquireClear l) (hc : c < v.nextTid) :
    ((v.setValue l (v.value l + 1)).setPc c .user).Inv := by
  have hno : l ∉ v.owns c := h.owns c l (lock_of_inside hin)
  have hzero : v.value l = 0 := h.value_of_inside (.inr hin)
  have hother : ∀ t l', t ≠ c ∨ l' ≠ l →
      (((v.setValue l (v.value l + 1)).setPc c .user).Inside t l' ↔ v.Inside t l') := by
    intro t l' ht
    by_cases htc : t = c
    · subst htc
      have hl : l ≠ l' := fun e ↦ (ht.resolve_left (by simp)) e.symm
      simp [Inside, setPc, setValue, hin, hl]
    · simp [Inside, setPc, setValue, htc]
  refine ⟨?_, ?_, ?_, ?_, ?_⟩
  · intro l'
    by_cases hl : l' = l
    · subst hl
      refine .inl ⟨by simp [setPc, setValue, hzero], ?_⟩
      intro t ht
      by_cases htc : t = c
      · subst htc
        simp [Inside, setPc, setValue, hno] at ht
      · exact htc (h.inside_unique ((hother t l' (.inl htc)).mp ht) (.inr hin))
    · have hval : ((v.setValue l (v.value l + 1)).setPc c .user).value l' = v.value l' := by
        simp [setPc, setValue, hl]
      simpa only [hother _ l' (.inr hl), hval] using h.token l'
  · intro l' t
    have h' := h.holder l' t
    by_cases htc : t = c
    · subst htc
      simpa [setPc, setValue, hhold] using h'
    · simpa [setPc, setValue, htc] using h'
  · intro t l' hl'
    by_cases htc : t = c
    · simp [setPc, htc] at hl'
    · exact h.owns t l' (by simpa [setPc, setValue, htc] using hl')
  · exact h.recorded_of_none rfl rfl hwait hclear
  · exact h.unborn_of_ne hc (fun _ ht ↦ update_of_ne ht ..) (fun _ _ ↦ rfl) le_rfl

end

@[simp] theorem setPc_pc (p : Pc) : (v.setPc c p).pc = update v.pc c p := rfl
@[simp] theorem setPc_holder (p : Pc) : (v.setPc c p).holder = v.holder := rfl

@[simp] theorem donate_pc : (v.donate c l).pc = update v.pc c (.acquireDown l) := by
  unfold donate
  split <;> rfl

@[simp] theorem donate_owns : (v.donate c l).owns = v.owns := by
  unfold donate
  split <;> rfl

@[simp] theorem donate_holder : (v.donate c l).holder = v.holder := by
  unfold donate
  split <;> rfl

@[simp] theorem donate_value : (v.donate c l).value = v.value := by
  unfold donate
  split <;> rfl

@[simp] theorem donate_base : (v.donate c l).base = v.base := by
  unfold donate
  split <;> rfl

@[simp] theorem donate_nextTid : (v.donate c l).nextTid = v.nextTid := by
  unfold donate
  split <;> rfl

theorem donate_waitingOn_of_ne (h : t ≠ c) : (v.donate c l).waitingOn t = v.waitingOn t := by
  unfold donate
  split
  · rfl
  · simp [h]

theorem donate_waitingOn_self (h : v.waitingOn c = none ∨ v.waitingOn c = some l) :
    (v.donate c l).waitingOn c = none ∨ (v.donate c l).waitingOn c = some l := by
  unfold donate
  split
  · exact h
  · simp

theorem Move.nextTid_le (hm : v.Move c x w) : v.nextTid ≤ w.nextTid := by
  cases hm with
  | donate => simp
  | create => exact (Int.lt_succ _).le
  | _ => exact le_rfl

theorem Inv.move (h : v.Inv) (hc : c < v.nextTid) (hm : v.Move c x w) : w.Inv := by
  have hne : ∀ (p : Pc) (t : Tid), t ≠ c → update v.pc c p t = v.pc t := fun p t ht ↦ update_of_ne ht ..
  cases hm with
  | stay => exact h
  | quiet p hcp hp =>
    obtain ⟨hi, hh, hw, hn⟩ := inside_of_lock_none hcp.1
    obtain ⟨hi', hh', _, _⟩ := inside_of_lock_none hp.1
    exact h.moved (hne p) (by simp [hi, hi']) (by simp [hh, hh']) rfl rfl rfl (by simp [hp.1])
      (h.recorded_of_none (p := p) rfl rfl hw hn) hc le_rfl
  | acquire l hpc hl =>
    have hno : l ∉ v.owns c := fun e ↦ hl (h.holder_of_owns e)
    refine h.moved (hne _) (by simp [hpc, inside]) (by simp [hpc, holding]) rfl rfl rfl ?_
      (h.recorded_of_none (p := .acquireDonate l) rfl rfl (by simp [hpc]) (by simp [hpc])) hc le_rfl
    intro l' hl'
    simp only [setPc_pc, update_self, lock, Option.some.injEq] at hl'
    exact hl' ▸ hno
  | donate l hpc =>
    have hnone := h.waitingOn_eq_none (c := c) (by simp [hpc]) (by simp [hpc])
    have hrec := h.recorded_of_ne (w := v.donate c l) (p := .acquireDown l) donate_pc
      fun _ ht ↦ donate_waitingOn_of_ne ht
    refine h.moved (c := c) (by simp +contextual) (by simp [hpc, inside]) (by simp [hpc, holding])
      donate_owns donate_holder donate_value ?_ (hrec ?_) hc donate_nextTid.ge
    · intro l' hl'
      exact h.owns c l' (by simpa [hpc, lock] using hl')
    · intro l' hl'
      obtain e | e := donate_waitingOn_self (l := l) (.inl hnone)
      · simp [e] at hl'
      · exact .inl (by simpa using e.symm.trans hl')
  | wait l hpc _ =>
    obtain ⟨hi, hh, hlock⟩ := inside_of_waits hpc
    obtain ⟨hi', hh', hlock'⟩ := inside_of_waits (p := .inDown (.lock l)) rfl
    refine h.moved (hne _) (by simp [hi, hi']) (by simp [hh, hh']) rfl rfl rfl ?_
      (h.recorded_of_ne rfl (fun _ _ ↦ rfl) ?_) hc le_rfl
    · intro l' hl'
      rw [setPc_pc, update_self, hlock', ← hlock] at hl'
      exact h.owns c l' hl'
    · intro l' hl'
      obtain e | e := h.recorded c l' hl'
      · exact .inl (by simpa using hpc.symm.trans e)
      · simp [e] at hpc
  | take l hpc hv =>
    obtain ⟨hi, hh, _⟩ := inside_of_waits hpc
    refine h.taken ⟨rfl, rfl⟩ hv hi (.inr rfl) ?_ hc
    intro l' hl'
    obtain e | e := h.recorded c l' hl'
    · exact Option.some.inj (e.symm.trans hpc)
    · simp [e] at hpc
  | tryTake l hpc hv =>
    have hnone := h.waitingOn_eq_none (c := c) (by simp [hpc]) (by simp [hpc])
    exact h.taken ⟨rfl, rfl⟩ hv (by simp [hpc]) (.inl hnone) (by simp [hnone]) hc
  | clear l hpc =>
    refine h.moved (hne _) (by simp [hpc, inside]) (by simp [hpc, holding]) rfl rfl rfl ?_
      (h.recorded_of_ne rfl (fun _ ht ↦ update_of_ne ht ..) (by simp)) hc le_rfl
    intro l' hl'
    exact h.owns c l' (by simpa [hpc, lock] using hl')
  | hold l hpc => exact h.hold hpc hc
  | release l hpc hl => exact h.release hpc hl hc
  | restore l hpc | wake l hpc =>
    refine h.moved (hne _) (by simp [hpc, inside]) (by simp [hpc, holding]) rfl rfl rfl ?_
      (h.recorded_of_none rfl rfl (by simp [hpc]) (by simp [hpc])) hc le_rfl
    intro l' hl'
    exact h.owns c l' (by simpa [hpc, lock] using hl')
  | drop l hpc => exact h.drop hpc hc
  | free l hpc =>
    refine h.freed ?_ ?_ ?_ ?_ hc <;> obtain e | e := hpc <;> simp [e, inside, holding]
  | setPriority p _ hpc | setBase p hpc =>
    exact h.moved (hne _) (by simp [hpc, inside]) (by simp [hpc, holding]) rfl rfl rfl
      (by simp [lock]) (h.recorded_of_none rfl rfl (by simp [hpc]) (by simp [hpc])) hc le_rfl
  | create q _ p hpc hp =>
    have hnone : p.inside = none ∧ p.holding = none ∧ p.lock = none := by
      obtain rfl | rfl := hp <;> exact ⟨rfl, rfl, rfl⟩
    exact h.moved (hne p) (by simp [hpc, hnone]) (by simp [hpc, hnone]) rfl rfl rfl (by simp [hnone])
      (h.recorded_of_none rfl rfl (by simp [hpc]) (by simp [hpc])) hc (by simp)

end Locks

theorem donatePriority_cases (waitingOn : Tid → Option LockId) (holder : LockId → Option Tid) (p : Int)
    (n : Nat) (target : Option Tid) (pri : Tid → Int) (t : Tid) :
    donatePriority waitingOn holder p n target pri t = pri t ∨
      donatePriority waitingOn holder p n target pri t = p ∧ pri t < p := by
  induction n generalizing target pri with
  | zero => exact .inl rfl
  | succ n ih =>
    cases target with
    | none => exact .inl rfl
    | some h =>
      rw [donatePriority]
      split
      · next hlt =>
        have hup : update pri h p t = pri t ∨ update pri h p t = p ∧ pri t < p := by
          by_cases hth : t = h
          · subst hth
            exact .inr ⟨update_self .., hlt⟩
          · exact .inl (update_of_ne hth ..)
        cases waitingOn h with
        | none => exact hup
        | some l =>
          obtain e | ⟨e, he⟩ := ih (holder l) (update pri h p)
          · simpa only [e] using hup
          · refine .inr ⟨e, ?_⟩
            obtain e' | ⟨_, h'⟩ := hup
            · rwa [← e']
            · exact h'
      · exact .inl rfl

namespace Locks

theorem donate_priority_cases (t : Tid) : (v.donate c l).priority t = v.priority t ∨
    (v.donate c l).priority t = v.priority c ∧ v.priority t < v.priority c := by
  unfold donate
  split
  · exact .inl rfl
  · exact donatePriority_cases ..

theorem Bounded.move (h : v.Bounded) (hm : v.Move c x w) : w.Bounded := by
  have hset : ∀ (p : Pc) (t : Tid), (∀ q, p = .setBase q → i32Min ≤ q) →
      ∀ q, update v.pc c p t = .setBase q → i32Min ≤ q := by
    intro p t hp q hq
    by_cases htc : t = c
    · exact hp q (by simpa [htc] using hq)
    · exact (h t).2.2 q (by simpa [htc] using hq)
  have hupd : ∀ (f : Tid → Int) (u t : Tid) (q : Int), (∀ t, i32Min ≤ f t) → i32Min ≤ q →
      i32Min ≤ update f u q t := by
    intro f u t q hf hq
    by_cases htu : t = u
    · simpa [htu] using hq
    · simpa [htu] using hf t
  have hpri : ∀ t, i32Min ≤ v.priority t := fun t ↦ (h t).1
  have hbase : ∀ t, i32Min ≤ v.base t := fun t ↦ (h t).2.1
  cases hm with
  | stay => exact h
  | quiet p _ hp => exact fun t ↦ ⟨hpri t, hbase t, hset p t (fun q hq ↦ absurd hq (hp.2 q))⟩
  | donate l _ =>
    intro t
    refine ⟨?_, by simpa using hbase t, by simpa using hset _ t (by simp)⟩
    obtain e | ⟨e, _⟩ := donate_priority_cases (v := v) t
    · exact e ▸ hpri t
    · exact e ▸ hpri c
  | restore l _ => exact fun t ↦ ⟨hupd _ _ _ _ hpri (hbase c), hbase t, hset _ t (by simp)⟩
  | setPriority p hp _ =>
    refine fun t ↦ ⟨hupd _ _ _ _ hpri hp, hbase t, hset _ t ?_⟩
    rintro q ⟨⟩
    exact hp
  | setBase p hpc => exact fun t ↦ ⟨hpri t, hupd _ _ _ _ hbase ((h c).2.2 p hpc), hset _ t (by simp)⟩
  | create q hq p _ hp =>
    refine fun t ↦ ⟨hupd _ _ _ _ hpri hq, hupd _ _ _ _ hbase hq, hset p t ?_⟩
    rintro r rfl
    simp at hp
  | _ => exact fun t ↦ ⟨hpri t, hbase t, hset _ t (by simp)⟩

end Locks

end Preservation

end Rxv6.Sync
