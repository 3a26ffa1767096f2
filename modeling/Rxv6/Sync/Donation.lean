import Rxv6.Lib.Inheritance
import Rxv6.Sync.Kernel

namespace Rxv6.Sync

open Function Rxv6.Thread Rxv6.Lib.Runs Rxv6.Lib.Inheritance

open Inherited

namespace Locks

/-- The base priority, which `set_priority` writes after the priority. -/
def ownPriority (v : Locks) (t : Tid) : Int :=
  match v.pc t with
  | .setBase p => p
  | _ => v.base t

def Waits (v : Locks) (t : Tid) (l : LockId) : Prop := (v.pc t).waits = some l

def Feeds (v : Locks) (u t : Tid) : Prop := ∃ l, v.Waits u l ∧ v.holder l = some t ∧ v.pc t ≠ .releaseClear l

def Donated (v : Locks) : Prop := Inherited v.Feeds v.ownPriority v.priority

/-- The holder of the lock has a priority of at least `p`, or is not to be raised any more. -/
def Reached (v : Locks) (p : Int) (l : LockId) : Prop :=
  ∀ h ∈ v.holder l, p ≤ v.priority h ∨ v.pc h = .releaseClear l

/-- A donation of `p` through the lock `l` that looks at `n` threads raises all that it has to raise and no
other. The chain goes on at a thread that waits with a record of it. -/
def Covered (v : Locks) (p : Int) : Nat → LockId → Prop
  | 0, l => v.Reached p l
  | n + 1, l => ∀ h ∈ v.holder l, p ≤ v.priority h ∨ v.pc h ≠ .releaseClear l ∧
      ∀ l' ∈ (v.pc h).waits,
        (v.waitingOn h = some l' → Covered v p n l') ∧ (v.waitingOn h ≠ some l' → v.Reached p l')

/-- When a statement keeps the donations in order: a donation has to be covered, the new holder of a lock
is not below a waiter, and neither `release` nor `set_priority` takes away what a waiter for another lock
still gives. -/
def Keeps (v : Locks) (c : Tid) : Stmt → Prop
  | .donate l => v.Covered (v.priority c) 8 l
  | .hold l => ∀ u, v.Waits u l → v.priority u ≤ v.priority c
  | .restore l => ∀ u, ∀ l' ∈ (v.pc u).waits, l' ≠ l → v.holder l' = some c → v.priority u ≤ v.base c
  | .setPriority p => ∀ u, ∀ l ∈ (v.pc u).waits, v.holder l = some c → v.priority u ≤ p
  | .other => True

variable {v w : Locks} {c t u : Tid} {l : LockId} {x : Stmt} {p : Int} {n : Nat}

theorem Feeds.unique (h : v.Feeds u t) {s : Tid} (h' : v.Feeds u s) : s = t := by
  obtain ⟨l, hl, ht, _⟩ := h
  obtain ⟨l', hl', hs, _⟩ := h'
  obtain rfl : l = l' := Option.some.inj (hl.symm.trans hl')
  exact Option.some.inj (hs.symm.trans ht)

theorem Feeds.holder (h : v.Feeds u t) (hu : v.Waits u l) :
    v.holder l = some t ∧ v.pc t ≠ .releaseClear l := by
  obtain ⟨l', hl', ht⟩ := h
  obtain rfl : l = l' := Option.some.inj (hu.symm.trans hl')
  exact ht

theorem Reached.feeds (h : v.Reached p l) (hu : v.Waits u l) (hf : v.Feeds u t) : p ≤ v.priority t := by
  obtain ⟨hh, hn⟩ := hf.holder hu
  exact (h t hh).resolve_right hn

theorem Reached.congr (h : v.Reached p l) (hh : w.holder = v.holder)
    (hs : ∀ t, p ≤ w.priority t ∨ w.pc t = v.pc t ∧ v.priority t ≤ w.priority t) : w.Reached p l := by
  intro t ht
  rw [hh] at ht
  obtain hp | ⟨hpc, hle⟩ := hs t
  · exact .inl hp
  · rw [hpc]
    exact (h t ht).imp_left fun h' ↦ h'.trans hle

theorem Covered.congr (h : v.Covered p n l) (hh : w.holder = v.holder)
    (hs : ∀ t, p ≤ w.priority t ∨
      (w.pc t = v.pc t ∧ v.priority t ≤ w.priority t) ∧ w.waitingOn t = v.waitingOn t) : w.Covered p n l := by
  have hs' : ∀ t, p ≤ w.priority t ∨ w.pc t = v.pc t ∧ v.priority t ≤ w.priority t :=
    fun t ↦ (hs t).imp_right And.left
  induction n generalizing l with
  | zero => exact Reached.congr h hh hs'
  | succ n ih =>
    intro t ht
    rw [hh] at ht
    obtain hp | ⟨⟨hpc, hle⟩, hw⟩ := hs t
    · exact .inl hp
    · refine (h t ht).imp (fun h' ↦ h'.trans hle) ?_
      rintro ⟨hn, hl⟩
      rw [hpc, hw]
      exact ⟨hn, fun l' hl' ↦ ⟨fun e ↦ ih ((hl l' hl').1 e), fun e ↦ ((hl l' hl').2 e).congr hh hs'⟩⟩

theorem donatePriority_none (waitingOn : Tid → Option LockId) (holder : LockId → Option Tid)
    (pri : Tid → Int) : donatePriority waitingOn holder p n none pri = pri := by
  cases n <;> rfl

theorem Raising.donatePriority
    (hrec : ∀ t l, v.waitingOn t = some l → v.Waits t l ∨ v.pc t = .acquireClear l)
    (hclear : ∀ t l, v.pc t = .acquireClear l → v.holder l = none) {f : Tid → Int}
    (hr : Raising v.Feeds v.ownPriority f u p) (hu : v.Waits u l)
    (hcov : { v with priority := f }.Covered p n l) :
    Inherited v.Feeds v.ownPriority (donatePriority v.waitingOn v.holder p n (v.holder l) f) := by
  induction n generalizing l u f with
  | zero => exact hr.done fun t ht ↦ Reached.feeds hcov hu ht
  | succ n ih =>
    cases hl : v.holder l with
    | none =>
      refine hr.done fun t ht ↦ ?_
      rw [(ht.holder hu).1] at hl
      cases hl
    | some t =>
      rw [donatePriority]
      split
      · next hlt =>
        obtain ⟨hn, hnext⟩ := (hcov t hl).resolve_left (not_le.mpr hlt)
        have hut : v.Feeds u t := ⟨l, hu, hl, hn⟩
        have hr' := hr.next hut (fun s hs ↦ hut.unique hs) hlt
        have hmono : ∀ s, p ≤ update f t p s ∨ v.pc s = v.pc s ∧ f s ≤ update f t p s := by
          intro s
          by_cases hst : s = t
          · exact .inl (by simp [hst])
          · exact .inr ⟨rfl, by simp [hst]⟩
        -- whatever the raised thread waits for without a record of it must have been reached already
        have hstop : (∀ l', v.waitingOn t ≠ some l') → Inherited v.Feeds v.ownPriority (update f t p) := by
          intro hnone
          refine hr'.done fun s hs ↦ ?_
          have hs' := hs
          obtain ⟨l', hl', _⟩ := hs'
          have hreach := (hnext l' hl').2 (hnone l')
          exact Reached.feeds (v := { v with priority := update f t p })
            (hreach.congr rfl hmono) hl' hs
        cases hw : v.waitingOn t with
        | none => exact hstop (by simp [hw])
        | some l' =>
          obtain hwt | hct := hrec t l' hw
          · refine ih hr' hwt (((hnext l' hwt).1 hw).congr rfl ?_)
            exact fun s ↦ (hmono s).imp_right fun h ↦ ⟨h, rfl⟩
          · simp only [hclear t l' hct, donatePriority_none]
            refine hr'.done fun s hs ↦ ?_
            obtain ⟨l'', hl'', _⟩ := hs
            simp [Waits, hct] at hl''
      · next hlt =>
        refine hr.done fun s hs ↦ ?_
        have hs' := (hs.holder hu).1
        rw [hl] at hs'
        cases hs'
        exact not_lt.mp hlt

theorem ownPriority_of_not_setBase (h : ∀ q, v.pc t ≠ .setBase q) : v.ownPriority t = v.base t := by
  unfold ownPriority
  split
  · next q hq => exact absurd hq (h q)
  · rfl

theorem ownPriority_congr (hpc : w.pc t = v.pc t) (hb : w.base t = v.base t) :
    w.ownPriority t = v.ownPriority t := by
  simp only [ownPriority, hpc, hb]

theorem Donated.moved (h : v.Donated) {q : Pc} (hpc : w.pc = update v.pc c q) (hholder : w.holder = v.holder)
    (hbase : w.base = v.base) (hpri : w.priority = v.priority) (hwaits : q.waits = (v.pc c).waits)
    (hold : ∀ l, v.holder l = some c → v.pc c ≠ .releaseClear l ∧ q ≠ .releaseClear l)
    (hset : ∀ r, v.pc c ≠ .setBase r ∧ q ≠ .setBase r) : w.Donated := by
  have hown : w.ownPriority = v.ownPriority := by
    funext t
    by_cases htc : t = c
    · subst htc
      rw [ownPriority_of_not_setBase fun r ↦ (hset r).1, ownPriority_of_not_setBase, hbase]
      intro r
      simpa [hpc] using (hset r).2
    · exact ownPriority_congr (by simp [hpc, htc]) (by rw [hbase])
  have hwait : ∀ u l, w.Waits u l ↔ v.Waits u l := by
    intro u l
    by_cases huc : u = c
    · subst huc
      rw [Waits, Waits, hpc, update_self, hwaits]
    · simp [Waits, hpc, huc]
  unfold Donated
  rw [hown, hpri]
  refine congr h fun u t ↦ exists_congr fun l ↦ ?_
  rw [hwait, hholder]
  refine and_congr_right fun _ ↦ and_congr_right fun ht ↦ ?_
  by_cases htc : t = c
  · subst htc
    simp [hpc, (hold l ht).1, (hold l ht).2]
  · simp [hpc, htc]

theorem not_feeds (h : (v.pc c).waits = none) (t : Tid) : ¬ v.Feeds c t := by
  rintro ⟨l, hl, _⟩
  rw [Waits, h] at hl
  cases hl

theorem Inv.holder_eq_none (h : v.Inv) (hin : (v.pc c).inside = some l) (hhold : (v.pc c).holding = none) :
    v.holder l = none := by
  cases hl : v.holder l with
  | none => rfl
  | some t =>
    obtain rfl : t = c := h.inside_unique (h.inside_of_holder hl) (.inr hin)
    have hno := h.owns t l (Pc.lock_of_inside hin)
    rw [h.holder, hhold] at hl
    simp [hno] at hl

theorem Inv.holder_of_value (h : v.Inv) (hv : v.value l ≠ 0) : v.holder l = none := by
  cases hl : v.holder l with
  | none => rfl
  | some t => exact absurd (h.value_of_inside (h.inside_of_holder hl)) hv

theorem donate_priority : (v.donate c l).priority =
    donatePriority (v.donate c l).waitingOn v.holder (v.priority c) 8 (v.holder l) v.priority := by
  unfold donate
  cases h : v.holder l with
  | none => exact (donatePriority_none ..).symm
  | some t => rfl

section

variable (h : v.Donated)

include h

theorem Donated.donate (hw : (v.donate c l).Inv) (hpc : v.pc c = .acquireDonate l)
    (hcov : v.Covered (v.priority c) 8 l) : (v.donate c l).Donated := by
  have hpc' : ∀ t, t ≠ c → (v.donate c l).pc t = v.pc t := fun t ht ↦ by simp [ht]
  have hown : (v.donate c l).ownPriority = v.ownPriority := by
    funext t
    by_cases htc : t = c
    · subst htc
      rw [ownPriority_of_not_setBase (by simp), ownPriority_of_not_setBase (by simp [hpc]), donate_base]
    · exact ownPriority_congr (hpc' t htc) (by simp)
  have hclear : ∀ t l', (v.donate c l).pc t = .releaseClear l' ↔ v.pc t = .releaseClear l' := by
    intro t l'
    by_cases htc : t = c
    · subst htc
      simp [hpc]
    · rw [hpc' t htc]
  have hr : Raising (v.donate c l).Feeds (v.donate c l).ownPriority v.priority c (v.priority c) := by
    rw [hown]
    refine raising h ?_ (not_feeds (by simp [hpc]))
    intro u t huc
    refine exists_congr fun l' ↦ ?_
    simp only [Waits, hpc' u huc, ne_eq, hclear, donate_holder]
  have hcov' : { v.donate c l with priority := v.priority }.Covered (v.priority c) 8 l := by
    refine hcov.congr (by simp) fun t ↦ ?_
    by_cases htc : t = c
    · exact .inl (by rw [htc])
    · exact .inr ⟨⟨hpc' t htc, le_rfl⟩, donate_waitingOn_of_ne htc⟩
  have hdone := Raising.donatePriority hw.recorded
    (fun t l' ht ↦ hw.holder_eq_none (by rw [ht]; rfl) (by rw [ht]; rfl)) hr (by simp [Waits]) hcov'
  rw [donate_holder, ← donate_priority] at hdone
  exact hdone

theorem Donated.take (hi : v.Inv) (hpc : (v.pc c).waits = some l) (hv : v.value l ≠ 0) :
    ((v.setValue l (v.value l - 1)).setPc c (.acquireClear l)).Donated := by
  have hnone := hi.holder_of_value hv
  have hnot : ∀ t, ¬ v.Feeds c t := by
    intro t ht
    rw [(ht.holder hpc).1] at hnone
    cases hnone
  have hset : ∀ q, v.pc c ≠ .setBase q := by
    rintro q hq
    rw [hq] at hpc
    cases hpc
  have hrel : ∀ l', v.pc c ≠ .releaseClear l' := by
    rintro l' hq
    rw [hq] at hpc
    cases hpc
  have hown : ((v.setValue l (v.value l - 1)).setPc c (.acquireClear l)).ownPriority = v.ownPriority := by
    funext t
    by_cases htc : t = c
    · subst htc
      rw [ownPriority_of_not_setBase (by simp), ownPriority_of_not_setBase hset]
      rfl
    · exact ownPriority_congr (by simp [setValue, htc]) rfl
  unfold Donated
  rw [hown]
  refine congr h fun u t ↦ ?_
  by_cases huc : u = c
  · subst huc
    exact iff_of_false (not_feeds (by simp) t) (hnot t)
  · refine exists_congr fun l' ↦ ?_
    by_cases htc : t = c
    · subst htc
      simp [Waits, setValue, huc, hrel]
    · simp [Waits, setValue, huc, htc]

theorem Donated.hold (hi : v.Inv) (hpc : v.pc c = .acquireHold l)
    (hok : ∀ u, v.Waits u l → v.priority u ≤ v.priority c) :
    Donated { v.setPc c .user with
      holder := update v.holder l (some c)
      owns := update v.owns c (insert l (v.owns c)) } := by
  have hnone : v.holder l = none := hi.holder_eq_none (by rw [hpc]; rfl) (by rw [hpc]; rfl)
  have hmoved : (v.setPc c .user).Donated :=
    h.moved rfl rfl rfl rfl (by simp [hpc]) (by simp [hpc]) (by simp [hpc])
  refine add hmoved ?_ ?_
  · rintro u t ⟨l', hl', ht, hn⟩
    refine ⟨l', hl', ?_, hn⟩
    have hne : l' ≠ l := by
      rintro rfl
      rw [setPc_holder, hnone] at ht
      cases ht
    simpa [hne] using ht
  · rintro u t ⟨l', hl', ht, hn⟩
    by_cases hll : l' = l
    · subst hll
      obtain rfl : c = t := by simpa using ht
      right
      apply hok u
      by_cases huc : u = c
      · subst huc
        simp [Waits] at hl'
      · simpa [Waits, huc] using hl'
    · exact .inl ⟨l', hl', by simpa [hll] using ht, hn⟩

theorem Donated.restore (hpc : v.pc c = .releaseRestore l)
    (hok : ∀ u, ∀ l' ∈ (v.pc u).waits, l' ≠ l → v.holder l' = some c → v.priority u ≤ v.base c) :
    Donated { v.setPc c (.releaseClear l) with priority := update v.priority c (v.base c) } := by
  refine set h (not_feeds (by simp [hpc])) ?_ ?_ ?_ ?_
  · intro u t htc
    refine exists_congr fun l' ↦ ?_
    by_cases huc : u = c
    · subst huc
      simp [Waits, hpc]
    · simp [Waits, huc, htc]
  · rintro u ⟨l', hl', ht, hn⟩
    have huc : u ≠ c := by
      rintro rfl
      simp [Waits] at hl'
    refine ⟨huc, hok u l' ?_ ?_ ht⟩
    · simpa [Waits, huc] using hl'
    · rintro rfl
      simp at hn
  · rw [ownPriority_of_not_setBase (by simp)]
    rfl
  · intro t htc
    exact ownPriority_congr (by simp [htc]) rfl

theorem Donated.setPriority (hpc : v.pc c = .user)
    (hok : ∀ u, ∀ l ∈ (v.pc u).waits, v.holder l = some c → v.priority u ≤ p) :
    Donated { v.setPc c (.setBase p) with priority := update v.priority c p } := by
  refine set h (not_feeds (by simp [hpc])) ?_ ?_ ?_ ?_
  · intro u t htc
    refine exists_congr fun l' ↦ ?_
    by_cases huc : u = c
    · subst huc
      simp [Waits, hpc]
    · simp [Waits, huc, htc]
  · rintro u ⟨l', hl', ht, _⟩
    have huc : u ≠ c := by
      rintro rfl
      simp [Waits] at hl'
    refine ⟨huc, hok u l' ?_ ht⟩
    simpa [Waits, huc] using hl'
  · simp [ownPriority]
  · intro t htc
    exact ownPriority_congr (by simp [htc]) rfl

theorem Donated.setBase (hpc : v.pc c = .setBase p) :
    Donated { v.setPc c .checkYield with base := update v.base c p } := by
  have hown : ownPriority { v.setPc c .checkYield with base := update v.base c p } = v.ownPriority := by
    funext t
    by_cases htc : t = c
    · subst htc
      simp [ownPriority, hpc]
    · exact ownPriority_congr (by simp [htc]) (by simp [htc])
  unfold Donated
  rw [hown]
  refine congr h fun u t ↦ exists_congr fun l' ↦ ?_
  by_cases huc : u = c
  · subst huc
    simp [Waits, hpc]
  · by_cases htc : t = c
    · subst htc
      simp [Waits, huc, hpc]
    · simp [Waits, huc, htc]

theorem Donated.drop (hi : v.Inv) (hpc : v.pc c = .releaseClear l) :
    Donated { v.setPc c (.releaseUp l) with holder := update v.holder l none } := by
  have hheld : v.holder l = some c := (hi.holder l c).mpr (.inr (by rw [hpc]; rfl))
  have hown : ownPriority { v.setPc c (.releaseUp l) with holder := update v.holder l none } =
      v.ownPriority := by
    funext t
    by_cases htc : t = c
    · subst htc
      rw [ownPriority_of_not_setBase (by simp), ownPriority_of_not_setBase (by simp [hpc])]
      rfl
    · exact ownPriority_congr (by simp [htc]) rfl
  unfold Donated
  rw [hown]
  refine congr h fun u t ↦ exists_congr fun l' ↦ ?_
  by_cases hll : l' = l
  · subst hll
    refine iff_of_false (by simp) ?_
    rintro ⟨_, ht, hn⟩
    obtain rfl : c = t := Option.some.inj (hheld.symm.trans ht)
    exact hn hpc
  · by_cases huc : u = c
    · subst huc
      simp [Waits, hpc]
    · by_cases htc : t = c
      · subst htc
        simp [Waits, huc, hpc, hll, Ne.symm hll]
      · simp [Waits, huc, htc, hll]

theorem Donated.create (hi : v.Inv) {q : Int} {r : Pc} (hpc : v.pc c = .user)
    (hr : r = .user ∨ r = .yielding) (hc : c < v.nextTid) :
    Donated { v.setPc c r with
      priority := update v.priority v.nextTid q
      base := update v.base v.nextTid q
      nextTid := v.nextTid + 1 } := by
  obtain ⟨hnpc, hnown⟩ := hi.unborn v.nextTid le_rfl
  have hnc : v.nextTid ≠ c := hc.ne'
  have hmoved : (v.setPc c r).Donated := by
    refine h.moved rfl rfl rfl rfl ?_ ?_ ?_ <;> obtain rfl | rfl := hr <;> simp [hpc]
  have hnhold : ∀ l, v.holder l ≠ some v.nextTid := by
    intro l hl
    rw [hi.holder, hnpc, hnown] at hl
    simp at hl
  refine set hmoved (not_feeds (by simp [hnc, hnpc])) (fun _ _ _ ↦ Iff.rfl) ?_ ?_ ?_
  · rintro u ⟨l, _, hl, _⟩
    exact absurd hl (hnhold l)
  · rw [ownPriority_of_not_setBase (by simp [hnc, hnpc])]
    simp
  · intro t ht
    exact ownPriority_congr rfl (by simp [ht, setPc])

theorem Donated.move (hi : v.Inv) (hc : c < v.nextTid) (hok : v.Keeps c x)
    (hm : v.Move c x w) : w.Donated := by
  have hw : w.Inv := hi.move hc hm
  cases hm with
  | stay => exact h
  | quiet q hcp hp =>
    have hrel : ∀ (r : Pc) (l : LockId), r.lock = none → r ≠ .releaseClear l := by
      rintro r l hr rfl
      cases hr
    have hwaits := (Pc.inside_of_lock_none hcp.1).2.2.1
    have hwaits' := (Pc.inside_of_lock_none hp.1).2.2.1
    exact h.moved rfl rfl rfl rfl (by rw [hwaits, hwaits'])
      (fun l _ ↦ ⟨hrel _ l hcp.1, hrel _ l hp.1⟩) (fun r ↦ ⟨hcp.2 r, hp.2 r⟩)
  | acquire l hpc _ | tryTake l hpc _ | clear l hpc | release l hpc _ | wake l hpc =>
    exact h.moved rfl rfl rfl rfl (by simp [hpc]) (by simp [hpc])
      (by simp [hpc])
  | donate l hpc => exact h.donate hw hpc hok
  | wait l hpc _ =>
    refine h.moved rfl rfl rfl rfl hpc.symm ?_ ?_
    · intro l' _
      refine ⟨fun e ↦ ?_, by simp⟩
      rw [e] at hpc
      cases hpc
    · intro r
      refine ⟨fun e ↦ ?_, by simp⟩
      rw [e] at hpc
      cases hpc
  | take l hpc hv => exact h.take hi hpc hv
  | hold l hpc => exact h.hold hi hpc hok
  | restore l hpc => exact h.restore hpc hok
  | drop l hpc => exact h.drop hi hpc
  | free l hpc =>
    refine h.moved rfl rfl rfl rfl ?_ ?_ ?_ <;> obtain e | e := hpc <;> simp [e]
  | setPriority p _ hpc => exact h.setPriority hpc hok
  | setBase p hpc => exact h.setBase hpc
  | create q _ r hpc hr => exact h.create hi hpc hr hc

end

theorem Move.pc_of_ne (hm : v.Move c x w) (ht : t ≠ c) : w.pc t = v.pc t := by
  cases hm with
  | stay => rfl
  | donate => simp [ht]
  | _ => exact update_of_ne ht ..

instance : Decidable (v.Reached p l) := inferInstanceAs (Decidable (∀ h ∈ v.holder l, _ ∨ _))

def decCovered (v : Locks) (p : Int) : (n : Nat) → (l : LockId) → Decidable (v.Covered p n l)
  | 0, l => inferInstanceAs (Decidable (v.Reached p l))
  | n + 1, l =>
    haveI := decCovered v p n
    inferInstanceAs (Decidable (∀ h ∈ v.holder l, _ ∨ _ ∧ ∀ l' ∈ (v.pc h).waits, _ ∧ _))

instance : Decidable (v.Covered p n l) := decCovered v p n l

/-- `Keeps` when only the threads of a list do anything. -/
def KeepsAmong (v : Locks) (ts : List Tid) (c : Tid) : Stmt → Prop
  | .donate l => v.Covered (v.priority c) 8 l
  | .hold l => ∀ u ∈ ts, (v.pc u).waits = some l → v.priority u ≤ v.priority c
  | .restore l => ∀ u ∈ ts, ∀ l' ∈ (v.pc u).waits, l' ≠ l → v.holder l' = some c → v.priority u ≤ v.base c
  | .setPriority p => ∀ u ∈ ts, ∀ l ∈ (v.pc u).waits, v.holder l = some c → v.priority u ≤ p
  | .other => True

instance (ts : List Tid) : Decidable (v.KeepsAmong ts c x) :=
  match x with
  | .donate l => inferInstanceAs (Decidable (v.Covered (v.priority c) 8 l))
  | .hold _ => inferInstanceAs (Decidable (∀ u ∈ ts, _))
  | .restore _ => inferInstanceAs (Decidable (∀ u ∈ ts, ∀ l' ∈ (v.pc u).waits, _))
  | .setPriority _ => inferInstanceAs (Decidable (∀ u ∈ ts, ∀ l ∈ (v.pc u).waits, _))
  | .other => .isTrue trivial

theorem KeepsAmong.keeps {ts : List Tid} (h : v.KeepsAmong ts c x) (hts : ∀ u, u ∉ ts → v.pc u = .user) :
    v.Keeps c x := by
  have hin : ∀ u l, (v.pc u).waits = some l → u ∈ ts := by
    intro u l hl
    by_contra hu
    simp [hts u hu] at hl
  cases x with
  | donate l => exact h
  | hold l => exact fun u hu ↦ h u (hin u l hu) hu
  | restore l => exact fun u l' hl' ↦ h u (hin u l' hl') l' hl'
  | setPriority p => exact fun u l hl ↦ h u (hin u l hl) l hl
  | other => trivial

end Locks

namespace Kernel

variable {k k₀ : Kernel} {x : Act} {ts : List Tid}

def Keeps (k : Kernel) (x : Act) : Prop := k.locks.Keeps k.sched.current (k.stmt x)

/-- No thread is between the restoring of its priority and the end of its holding in `release`, or between
the two assignments of `set_priority`. -/
def Resting (k : Kernel) : Prop := ∀ t, (∀ l, k.pc t ≠ .releaseClear l) ∧ ∀ p, k.pc t ≠ .setBase p

/-- The first thread waits in `acquire` for a lock that the second holds. -/
def WaitsFor (k : Kernel) (u t : Tid) : Prop := ∃ l, (k.pc u).waits = some l ∧ k.holder l = some t

/-- The base priority of a thread and the priorities of all threads that wait for it, directly or through
a chain of locks. -/
def donors (k : Kernel) (t : Tid) : Set Int :=
  insert (k.originalPriority t) (k.sched.priority '' {u | Relation.TransGen k.WaitsFor u t})

theorem Boot.donated (h : Boot k) : k.locks.Donated := by
  have hno : ∀ u t, ¬ k.locks.Feeds u t := fun u t ↦ Locks.not_feeds (by simp [locks, h.pc]) t
  have hown : ∀ t, k.locks.ownPriority t = k.sched.priority t := by
    intro t
    rw [Locks.ownPriority_of_not_setBase (by simp [locks, h.pc])]
    exact (h.priority t).2
  exact ⟨fun t ↦ (hown t).le, fun u t hf ↦ absurd hf (hno u t), fun t ↦ .inl (hown t).symm⟩

theorem donated_of_run (h₀ : Boot k₀) (hrun : Run step Keeps k₀ k) : k.locks.Donated := by
  have hall : (k.Born ∧ k.locks.Inv) ∧ k.locks.Donated := by
    refine hrun.invariant (fun k ↦ (k.Born ∧ k.locks.Inv) ∧ k.locks.Donated) ?_
      ⟨⟨h₀.born, h₀.locks_inv⟩, h₀.donated⟩
    rintro k x k' ⟨⟨hb, hi⟩, hd⟩ hok hs
    have hm := step_move hs
    exact ⟨⟨step_born hb hs, hi.move hb.current hm⟩, hd.move hi hb.current hok hm⟩
  exact hall.2

/-- As long as every step keeps the donations in order, the priority of every thread is the greatest of
its base priority and the priorities of those that wait for it, and `get_priority` returns it. -/
theorem priority_is_donated (h₀ : Boot k₀) (hrun : Run step Keeps k₀ k) (hrest : k.Resting) :
    (∀ t, IsGreatest (k.donors t) (k.sched.priority t)) ∧
      IsGreatest (k.donors k.sched.current) k.getPriority := by
  have hd := donated_of_run h₀ hrun
  have hall : ∀ t, IsGreatest (k.donors t) (k.sched.priority t) := by
    intro t
    have hfeeds : k.locks.Feeds = k.WaitsFor := by
      funext u s
      exact propext (exists_congr fun l ↦ and_congr_right fun _ ↦ and_iff_left ((hrest s).1 l))
    have hown : k.locks.ownPriority t = k.originalPriority t :=
      Locks.ownPriority_of_not_setBase (hrest t).2
    have hg := Inherited.isGreatest hd t
    rw [hfeeds, hown] at hg
    exact hg
  exact ⟨hall, hall _⟩

theorem pc_of_run (h₀ : Boot k₀) (hrun : Run step (fun k _ ↦ k.sched.current ∈ ts) k₀ k) (t : Tid)
    (ht : t ∉ ts) : k.pc t = .user := by
  refine hrun.invariant (fun k ↦ k.pc t = .user) ?_ (h₀.pc t)
  intro a x b ha hc hs
  have hne : t ≠ a.sched.current := by
    rintro rfl
    exact ht hc
  exact ((step_move hs).pc_of_ne hne).trans ha

def Among (ts : List Tid) (k : Kernel) (x : Act) : Prop :=
  k.sched.current ∈ ts ∧ k.locks.KeepsAmong ts k.sched.current (k.stmt x)

instance (k : Kernel) (x : Act) : Decidable (Among ts k x) := inferInstanceAs (Decidable (_ ∧ _))

theorem run_keeps (h₀ : Boot k₀) (hrun : Run step (Among ts) k₀ k) : Run step Keeps k₀ k := by
  induction hrun with
  | refl => exact .refl _
  | snoc hrun hok hs ih =>
    refine .snoc ih (hok.2.keeps ?_) hs
    exact pc_of_run h₀ (hrun.mono fun _ _ h ↦ h.1)

/-- The rest of `create` when the new thread takes the CPU, and an `acquire` by it that blocks. -/
def blocksOn (p : Int) (held : List Act) (l : LockId) : List Act :=
  [.create p, .next, .resume] ++ held ++ [.acquire l, .next, .next, .resume]

def nested : List Act := acquireFree 0 ++ blocksOn 40 (acquireFree 1) 0 ++ blocksOn 50 [] 1

theorem resting_of_run (h₀ : Boot k₀) (hrun : Run step (fun k _ ↦ k.sched.current ∈ ts) k₀ k)
    (hts : ∀ t ∈ ts, k.pc t = .user ∨ (k.pc t).waits ≠ none) : k.Resting := by
  intro t
  have hpc : k.pc t = .user ∨ (k.pc t).waits ≠ none := by
    by_cases ht : t ∈ ts
    · exact hts t ht
    · exact .inl (pc_of_run h₀ hrun t ht)
  refine ⟨fun l hl ↦ ?_, fun p hp ↦ ?_⟩
  · simp [hl] at hpc
  · simp [hp] at hpc

theorem priority_is_donated_nested : ∃ k, Run step Keeps boot k ∧ k.Resting ∧ k.sched.current = 1 ∧
    k.originalPriority 1 = 31 ∧ k.WaitsFor 4 3 ∧ k.WaitsFor 3 1 ∧ IsGreatest (k.donors 1) 50 := by
  have hrun : ∃ k ∈ execWhile step (Among [1, 3, 4]) boot nested, (k.sched.current = 1 ∧
      k.originalPriority 1 = 31 ∧ k.getPriority = 50) ∧ ((k.pc 4).waits = some 1 ∧ k.holder 1 = some 3) ∧
        ((k.pc 3).waits = some 0 ∧ k.holder 0 = some 1) ∧
          ∀ t ∈ [1, 3, 4], k.pc t = .user ∨ (k.pc t).waits ≠ none := by
    decide +kernel
  obtain ⟨k, hk, ⟨hc, hb, hp⟩, h43, h31, hts⟩ := hrun
  have hamong := Run.of_execWhile hk
  have hrest := resting_of_run boot_ok (hamong.mono fun _ _ h ↦ h.1) hts
  have hlaw := (priority_is_donated boot_ok (run_keeps boot_ok hamong) hrest).2
  rw [hc, hp] at hlaw
  exact ⟨k, run_keeps boot_ok hamong, hrest, hc, hb, ⟨1, h43⟩, ⟨0, h31⟩, hlaw⟩

/-- The main thread holds two locks for which threads of priorities 34 and 36 wait, and gives the second
one back. -/
def releasesOne : List Act :=
  acquireFree 0 ++ acquireFree 1 ++ blocksOn 34 [] 0 ++ blocksOn 36 [] 1 ++
    [.release 1, .next, .next, .next, .resume, .resume]

/-- All operations are over, thread 3 still waits for a lock of the main thread, and its donation is gone. -/
theorem release_loses_donation : ∃ k, exec step boot releasesOne = some k ∧ k.Resting ∧ k.AtUser ∧
    k.sched.current = 1 ∧ k.WaitsFor 3 1 ∧ k.sched.priority 3 = 34 ∧ k.getPriority = 31 ∧
      ¬ IsGreatest (k.donors 1) k.getPriority := by
  have hrun : ∃ k ∈ execWhile step (fun k _ ↦ k.sched.current ∈ [1, 3, 4]) boot releasesOne,
      (k.AtUser ∧ k.sched.current = 1) ∧ ((k.pc 3).waits = some 0 ∧ k.holder 0 = some 1) ∧
        (k.sched.priority 3 = 34 ∧ k.getPriority = 31) ∧
          ∀ t ∈ [1, 3, 4], k.pc t = .user ∨ (k.pc t).waits ≠ none := by
    decide +kernel
  obtain ⟨k, hk, ⟨hu, hc⟩, h31, ⟨h3, hp⟩, hts⟩ := hrun
  have hw : k.WaitsFor 3 1 := ⟨0, h31⟩
  refine ⟨k, exec_of_execWhile hk, resting_of_run boot_ok (Run.of_execWhile hk) hts, hu, hc, hw, h3, hp, ?_⟩
  intro hg
  have hle := hg.2 (.inr ⟨3, .single hw, h3⟩)
  omega

end Kernel

end Rxv6.Sync
