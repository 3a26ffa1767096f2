import Rxv6.Vm.Ownership
import Rxv6.Vm.FrameIndex

namespace Rxv6.Vm

open Function Rxv6.Thread Rxv6.Lib.Bitmap List Option

theorem Core.saveVictim_eq_none {c : Core} {e : FrameEntry} {d : Bool} :
    c.saveVictim e d = none ↔ d = true ∧ firstClear c.swapBitmap 0 = none := by
  rw [saveVictim, needSwap_eq]
  cases d with
  | true => simp [swapOut]
  | false =>
    simp only [Bool.false_eq_true, if_false]
    split <;> simp

/-- A frame that may be taken: it is not pinned, its owner has a page directory, and it is clean or
there is a free swap slot. -/
structure View.Evictable (v : View) (e : FrameEntry) : Prop where
  pinned : e.pinned = false
  attached : v.attached e.ownerTid = true
  saved : v.isDirty e.ownerTid (e.upage / pgsize) = false ∨ (firstClear v.swapBitmap 0).isSome

open Pagedir Nat

namespace Memory

variable {m : Memory} {e x : FrameEntry} {t : Tid} {n j : Nat}

def accessed (m : Memory) (t : Tid) (n : Nat) : Bool :=
  (m.pagedir t).any (·.isAccessed (n * pgsize))

def underHand (m : Memory) : Option FrameEntry := m.frameTable[m.clockHand % m.frameTable.length]?

def Clears (e : FrameEntry) (t : Tid) (n : Nat) : Prop :=
  e.pinned = false ∧ t = e.ownerTid ∧ n = e.upage / pgsize

variable {pd : Pagedir} {o : Option Pte} {m' : Memory} {i : Nat}

theorem isAccessed_eq (hpd : m.pagedir t = some pd) (va : Nat) :
    pd.isAccessed va = m.accessed t (va / pgsize) := by
  rw [accessed, hpd, any_some, isAccessed, isAccessed,
    entry_congr (mul_pgsize_div (va / pgsize)).symm]

theorem isAccessed_store (pd : Pagedir) (va : Nat) (ho : o.any (·.accessed) = false) (n : Nat) :
    (pd.store va o).isAccessed (n * pgsize) = true ↔ pd.isAccessed (n * pgsize) = true ∧ n ≠ va / pgsize := by
  rw [isAccessed, entry_store]
  by_cases hn : n = va / pgsize
  · subst hn
    cases ht : pd.hasTable va with
    | true => simp [ho]
    | false =>
      have hnone : pd (pdeIdx (va / pgsize * pgsize)) = none := by
        rw [hasTable_congr (mul_pgsize_div (va / pgsize)).symm] at ht
        simpa [hasTable] using ht
      simp [entry, hnone]
  · rw [if_neg (fun h ↦ hn h.1.symm)]
    simp [isAccessed, hn]

theorem accessed_store (hpd : m.pagedir x.ownerTid = some pd)
    (ho : o.any (·.accessed) = false)
    (hm' : m'.pagedir = update m.pagedir x.ownerTid (some (pd.store x.upage o))) (t : Tid) (n : Nat) :
    m'.accessed t n = true ↔ m.accessed t n = true ∧ ¬ (t = x.ownerTid ∧ n = x.upage / pgsize) := by
  rw [accessed, accessed, hm']
  by_cases ht : t = x.ownerTid
  · subst ht
    rw [update_self, hpd, any_some, isAccessed_store pd x.upage ho]
    simp
  · simp [ht]

section

variable (he : m.underHand = some e)
include he

theorem evictStep_isNone : m.evictStep.1 = none ↔
    ¬ (m.view.Evictable e ∧ m.accessed e.ownerTid (e.upage / pgsize) = false) := by
  rw [underHand] at he
  simp only [evictStep, he]
  by_cases hpin : e.pinned = true
  · rw [if_pos hpin]
    exact iff_of_true rfl fun h ↦ by simp [h.1.pinned] at hpin
  rw [if_neg hpin]
  cases hpd : m.pagedir e.ownerTid with
  | none =>
    refine iff_of_true rfl fun h ↦ ?_
    have := h.1.attached
    simp [view, hpd] at this
  | some pd =>
    simp only
    rw [isAccessed_eq hpd]
    by_cases hacc : m.accessed e.ownerTid (e.upage / pgsize) = true
    · rw [if_pos hacc]
      exact iff_of_true rfl fun h ↦ by simp [h.2] at hacc
    · rw [if_neg hacc]
      have hatt : m.view.attached e.ownerTid = true := by simp [view, hpd]
      cases hsave : m.saveVictim e _ with
      | none =>
        obtain ⟨hdirty, hslot⟩ := Core.saveVictim_eq_none.1 hsave
        rw [isDirty_eq hpd] at hdirty
        refine iff_of_true rfl fun h ↦ ?_
        rcases h.1.saved with hs | hs
        · rw [hs] at hdirty
          cases hdirty
        · rw [show firstClear m.view.swapBitmap 0 = none from hslot] at hs
          cases hs
      | some c =>
        refine iff_of_false (by simp) fun h ↦ h ⟨⟨by simpa using hpin, hatt, ?_⟩, by simpa using hacc⟩
        by_contra hcon
        rw [not_or, Bool.not_eq_false, not_isSome_iff_eq_none] at hcon
        have hnone : m.saveVictim e (m.view.isDirty e.ownerTid (e.upage / pgsize)) = none :=
          Core.saveVictim_eq_none.2 hcon
        rw [isDirty_eq hpd, hnone] at hsave
        cases hsave

theorem evictStep_none (h : m.evictStep.1 = none) :
    m.evictStep.2.view = m.view ∧ m.evictStep.2.clockHand = (m.clockHand + 1) % 2 ^ 32 ∧
      ∀ t n, m.evictStep.2.accessed t n = true ↔ m.accessed t n = true ∧ ¬ Clears e t n := by
  have hview : m.evictStep.2.view = m.view := by
    rcases evictStep_cases m with ⟨-, hv⟩ | ⟨x, hx, -⟩
    · exact hv
    · rw [h] at hx
      cases hx
  refine ⟨hview, ?_⟩
  rw [underHand] at he
  simp only [evictStep, he] at h ⊢
  by_cases hpin : e.pinned = true
  · rw [if_pos hpin]
    exact ⟨rfl, fun t n ↦ by simp [Clears, hpin, accessed]⟩
  rw [if_neg hpin] at h ⊢
  cases hpd : m.pagedir e.ownerTid with
  | none =>
    refine ⟨rfl, fun t n ↦ ⟨fun ht ↦ ⟨ht, ?_⟩, fun ht ↦ ht.1⟩⟩
    rintro ⟨-, rfl, -⟩
    simp [accessed, hpd] at ht
  | some pd =>
    simp only [hpd] at h ⊢
    rw [isAccessed_eq hpd] at h ⊢
    by_cases hacc : m.accessed e.ownerTid (e.upage / pgsize) = true
    · rw [if_pos hacc]
      refine ⟨rfl, fun t n ↦ ?_⟩
      have ho : ((pd.entry e.upage).map fun e ↦ { e with accessed := false }).any (·.accessed) = false := by
        cases pd.entry e.upage <;> rfl
      have hpin' : e.pinned = false := by simpa using hpin
      simp only [Clears, hpin', true_and]
      refine accessed_store hpd ho ?_ t n
      simp [updatePagedir, hpd, clearAccessed]
    · rw [if_neg hacc] at h ⊢
      cases hsave : m.saveVictim e _ with
      | none =>
        refine ⟨rfl, fun t n ↦ ⟨fun ht ↦ ⟨ht, ?_⟩, fun ht ↦ ht.1⟩⟩
        rintro ⟨-, rfl, rfl⟩
        exact hacc ht
      | some c =>
        rw [hsave] at h
        cases h

theorem evictStep_some (h : m.evictStep.1 = some x) : x = e ∧
    ∀ t n, m.evictStep.2.accessed t n = true → m.accessed t n = true := by
  rw [underHand] at he
  simp only [evictStep, he] at h ⊢
  by_cases hpin : e.pinned = true
  · rw [if_pos hpin] at h
    cases h
  rw [if_neg hpin] at h ⊢
  cases hpd : m.pagedir e.ownerTid with
  | none =>
    simp only [hpd] at h
    cases h
  | some pd =>
    simp only [hpd] at h ⊢
    by_cases hacc : pd.isAccessed e.upage = true
    · rw [if_pos hacc] at h
      cases h
    · rw [if_neg hacc] at h ⊢
      cases hsave : m.saveVictim e _ with
      | none =>
        rw [hsave] at h
        cases h
      | some c =>
        rw [hsave] at h
        refine ⟨(some.inj h).symm, fun t n ht ↦ ((accessed_store (o := none) hpd rfl ?_ t n).1 ht).1⟩
        simp [updatePagedir, withCore, hpd, clearPage]

end

def turns (m : Memory) (j : Nat) : Memory := (fun m : Memory ↦ m.evictStep.2)^[j] m

theorem turns_succ (m : Memory) (j : Nat) : m.turns (j + 1) = (m.turns j).evictStep.2 :=
  iterate_succ_apply' ..

theorem evictLoop_eq (k : Nat) (m : Memory) :
    (evictLoop k m = (none, m.turns k) ∧ ∀ j < k, (m.turns j).evictStep.1 = none) ∨
      ∃ j < k, evictLoop k m = (m.turns j).evictStep ∧ (m.turns j).evictStep.1 ≠ none ∧
        ∀ i < j, (m.turns i).evictStep.1 = none := by
  induction k generalizing m with
  | zero => exact .inl ⟨rfl, fun j hj ↦ absurd hj (not_lt_zero j)⟩
  | succ k ih =>
    rcases hstep : m.evictStep with ⟨_ | x, m'⟩
    · have hloop : evictLoop (k + 1) m = evictLoop k m.evictStep.2 := by rw [evictLoop, hstep]
      have hfirst : (m.turns 0).evictStep.1 = none := congrArg Prod.fst hstep
      rw [hloop]
      rcases ih m.evictStep.2 with ⟨heq, hnone⟩ | ⟨j, hj, heq, hsome, hnone⟩
      · refine .inl ⟨heq, fun j hj ↦ ?_⟩
        cases j with
        | zero => exact hfirst
        | succ j => exact hnone j (by omega)
      · refine .inr ⟨j + 1, by omega, heq, hsome, fun i hi ↦ ?_⟩
        cases i with
        | zero => exact hfirst
        | succ i => exact hnone i (by omega)
    · have hfirst : (m.turns 0).evictStep = (some x, m') := hstep
      refine .inr ⟨0, zero_lt_succ k, ?_, by simp [hfirst], fun i hi ↦ absurd hi (not_lt_zero i)⟩
      rw [evictLoop, hstep, hfirst]

/-- One of the first `j` turns is at an unpinned frame of the page. -/
def Cleared (m : Memory) (j : Nat) (t : Tid) (n : Nat) : Prop :=
  ∃ i < j, ∃ e, m.frameTable[(m.clockHand + i) % m.frameTable.length]? = some e ∧ Clears e t n

/-- What `j` turns without a victim leave: the same view, and clear bits where the hand has been. -/
structure Passed (m : Memory) (j : Nat) (m' : Memory) : Prop where
  view : m'.view = m.view
  hand : m'.clockHand = (m.clockHand + j) % 2 ^ 32
  accessed : ∀ t n, m'.accessed t n = true ↔ m.accessed t n = true ∧ ¬ m.Cleared j t n

theorem Passed.frameTable (h : m.Passed j m') : m'.frameTable = m.frameTable :=
  congrArg (fun v : View ↦ v.frameTable) h.view

theorem Passed.underHand (h : m.Passed j m') (hj : m.clockHand + j < 2 ^ 32) :
    m'.underHand = m.frameTable[(m.clockHand + j) % m.frameTable.length]? := by
  rw [Memory.underHand, h.frameTable, h.hand, mod_eq_of_lt hj]

theorem exists_frame (hne : m.frameTable ≠ []) (i : Nat) :
    ∃ e, m.frameTable[i % m.frameTable.length]? = some e :=
  ⟨_, getElem?_eq_getElem (mod_lt i (length_pos_of_ne_nil hne))⟩

theorem passed_turns (hne : m.frameTable ≠ []) (hlt : m.clockHand < 2 ^ 32) (hj : m.clockHand + j ≤ 2 ^ 32)
    (h : ∀ i < j, (m.turns i).evictStep.1 = none) : m.Passed j (m.turns j) := by
  induction j with
  | zero =>
    refine ⟨rfl, (mod_eq_of_lt hlt).symm, fun t n ↦ ⟨fun ht ↦ ⟨ht, ?_⟩, fun ht ↦ ht.1⟩⟩
    rintro ⟨i, hi, -⟩
    exact absurd hi (not_lt_zero i)
  | succ j ih =>
    have hp := ih (by omega) fun i hi ↦ h i (by omega)
    obtain ⟨e, he⟩ := m.exists_frame hne _
    have hunder := (hp.underHand (by omega)).trans he
    obtain ⟨hv, hh, ha⟩ := evictStep_none hunder (h j (lt_succ_self j))
    rw [turns_succ]
    refine ⟨hv.trans hp.view, ?_, fun t n ↦ ?_⟩
    · rw [hh, hp.hand, mod_eq_of_lt (show m.clockHand + j < 2 ^ 32 by omega), add_assoc]
    · rw [ha, hp.accessed, and_assoc, and_congr_right_iff, ← not_or]
      intro _
      refine not_congr ⟨?_, ?_⟩
      · rintro (⟨i, hi, hc⟩ | hc)
        · exact ⟨i, by omega, hc⟩
        · exact ⟨j, lt_succ_self j, e, he, hc⟩
      · rintro ⟨i, hi, x, hx, hc⟩
        by_cases hij : i = j
        · subst hij
          cases he.symm.trans hx
          exact .inr hc
        · exact .inl ⟨i, by omega, x, hx, hc⟩

theorem exists_turn {len : Nat} (hand : Nat) (hi : i < len) : ∃ s < len, (hand + s) % len = i := by
  have hmod := mod_lt hand (show 0 < len by omega)
  have hsplit := div_add_mod hand len
  by_cases hle : hand % len ≤ i
  · refine ⟨i - hand % len, by omega, ?_⟩
    rw [show hand + (i - hand % len) = i + len * (hand / len) by omega, add_mul_mod_self_left,
      mod_eq_of_lt hi]
  · refine ⟨i + len - hand % len, by omega, ?_⟩
    rw [show hand + (i + len - hand % len) = i + len * (hand / len + 1) by rw [mul_succ]; omega,
      add_mul_mod_self_left, mod_eq_of_lt hi]

section Rotation

variable (hhand : m.clockHand + 2 * m.frameTable.length ≤ 2 ^ 32)

include hhand

theorem evictFrame_turn {m' : Memory} (h : m.evictFrame = (some x, m')) :
    ∃ j < 2 * m.frameTable.length, (m.turns j).evictStep = (some x, m') ∧ m.Passed j (m.turns j) ∧
      m.frameTable[(m.clockHand + j) % m.frameTable.length]? = some x ∧ m.view.Evictable x ∧
      (m.turns j).accessed x.ownerTid (x.upage / pgsize) = false ∧
      ∀ i < j, (m.turns i).evictStep.1 = none := by
  rcases m.evictLoop_eq _ with ⟨heq, -⟩ | ⟨j, hj, heq, hsome, hnone⟩
  · rw [← evictFrame, h] at heq
    cases heq
  · rw [← evictFrame, h] at heq
    have hne : m.frameTable ≠ [] := fun hnil ↦ by simp [hnil] at hj
    have hp := passed_turns hne (by omega) (by omega) hnone
    obtain ⟨e, he⟩ := m.exists_frame hne _
    have hunder := (hp.underHand (by omega)).trans he
    have hx : x = e := (evictStep_some hunder (congrArg Prod.fst heq.symm)).1
    subst hx
    rw [Ne, evictStep_isNone hunder, not_not, hp.view] at hsome
    exact ⟨j, hj, heq.symm, hp, he, hsome.1, hsome.2, hnone⟩

theorem evictFrame_isSome : m.evictFrame.1.isSome ↔ ∃ e ∈ m.frameTable, m.view.Evictable e := by
  constructor
  · intro h
    obtain ⟨x, hx⟩ := isSome_iff_exists.1 h
    obtain ⟨j, -, -, -, hmem, he, -⟩ := evictFrame_turn hhand (Prod.ext hx rfl)
    exact ⟨x, mem_of_getElem? hmem, he⟩
  · rintro ⟨e, hmem, he⟩
    by_contra hcon
    rw [not_isSome_iff_eq_none] at hcon
    rcases m.evictLoop_eq (2 * m.frameTable.length) with ⟨-, hnone⟩ | ⟨j, hj, heq, hsome, -⟩
    · have hne : m.frameTable ≠ [] := ne_nil_of_mem hmem
      obtain ⟨i, hi, rfl⟩ := getElem_of_mem hmem
      obtain ⟨s, hs, hturn⟩ := exists_turn m.clockHand hi
      -- in the second rotation the bit is clear because of the first one
      have hp := passed_turns (j := s + m.frameTable.length) hne (by omega) (by omega) fun k hk ↦
        hnone k (by omega)
      have hunder : (m.turns (s + m.frameTable.length)).underHand = some m.frameTable[i] := by
        rw [hp.underHand (by omega), ← add_assoc, add_mod_right, hturn, getElem?_eq_getElem hi]
      have hturns := hnone (s + m.frameTable.length) (by omega)
      rw [evictStep_isNone hunder, hp.view] at hturns
      refine hturns ⟨he, ?_⟩
      rw [← Bool.not_eq_true, hp.accessed]
      refine fun h ↦ h.2 ⟨s, by omega, m.frameTable[i], ?_, he.pinned, rfl, rfl⟩
      rw [hturn, getElem?_eq_getElem hi]
    · exact hsome (heq ▸ hcon)

end Rotation

/-- At turn `j` the hand is at the frame `e`, which may be taken and has its bit clear. -/
def Ripe (m : Memory) (j : Nat) (e : FrameEntry) : Prop :=
  m.frameTable[(m.clockHand + j) % m.frameTable.length]? = some e ∧ m.view.Evictable e ∧
    (m.accessed e.ownerTid (e.upage / pgsize) = true → m.Cleared j e.ownerTid (e.upage / pgsize))

/-- The first ripe frame that the hand comes to. -/
def Victim (m : Memory) (j : Nat) (x : FrameEntry) : Prop := m.Ripe j x ∧ ∀ i < j, ∀ e, ¬ m.Ripe i e

theorem Victim.eq {k : Nat} {y : FrameEntry} (h : m.Victim j x) (h' : m.Victim k y) : j = k ∧ x = y := by
  have hjk : j = k := by
    rcases Nat.lt_trichotomy j k with hlt | heq | hgt
    · exact absurd h.1 (h'.2 j hlt x)
    · exact heq
    · exact absurd h'.1 (h.2 k hgt y)
  subst hjk
  exact ⟨rfl, some.inj (h.1.1.symm.trans h'.1.1)⟩

structure Spared (m m' : Memory) (e : FrameEntry) : Prop where
  mapping : ∀ p, m.view.mapping e.ownerTid (e.upage / pgsize) = some p → p.kpage = e.kpage →
    m'.view.mapping e.ownerTid (e.upage / pgsize) = some p
  accessed : m'.accessed e.ownerTid (e.upage / pgsize) = true → m.accessed e.ownerTid (e.upage / pgsize) = true

/-- The bit of the frame was set, the hand passed the frame and cleared it, and it was taken later. -/
def SecondChance (m : Memory) (i : Nat) (x : FrameEntry) (m' : Memory) : Prop :=
  ∃ s j, s < j ∧ (m.clockHand + s) % m.frameTable.length = i ∧ (m.clockHand + j) % m.frameTable.length = i ∧
    (m.turns s).accessed x.ownerTid (x.upage / pgsize) = true ∧
    (m.turns (s + 1)).accessed x.ownerTid (x.upage / pgsize) = false ∧
    (m.turns j).evictStep = (some x, m') ∧ ∀ k < j, (m.turns k).evictStep.1 = none

/-- The clock finds a victim exactly when there is one, gives an accessed frame its second chance, and leaves
the other frames alone. -/
structure Complete (m : Memory) : Prop where
  isSome : m.evictFrame.1.isSome ↔ ∃ e ∈ m.frameTable, m.view.Evictable e
  none : ∀ m', m.evictFrame = (none, m') →
    m'.frameTable = m.frameTable ∧ m'.view.mapping = m.view.mapping ∧ ∀ e ∈ m.frameTable, Spared m m' e
  some : ∀ x m', m.evictFrame = (some x, m') → m.view.Evictable x ∧
    (∀ t n, ¬ (t = x.ownerTid ∧ n = x.upage / pgsize) → m'.view.mapping t n = m.view.mapping t n) ∧
    ∃ i, m.frameTable[i]? = some x ∧ m'.frameTable = m.frameTable.eraseIdx i ∧
      (∀ e ∈ m'.frameTable, Spared m m' e) ∧
      (m.accessed x.ownerTid (x.upage / pgsize) = true → SecondChance m i x m')

/-- No other entry for the page of the victim has the frame that the page is mapped to, and if the bit of the
page is set, the hand comes to the victim before the other unpinned entries for the page. -/
def VictimAlone (m : Memory) : Prop :=
  ∀ j x, m.Victim j x →
    (∀ k e p, m.frameTable[k]? = some e → e.ownerTid = x.ownerTid → e.upage / pgsize = x.upage / pgsize →
      m.view.mapping x.ownerTid (x.upage / pgsize) = some p → p.kpage = e.kpage →
      k = (m.clockHand + j) % m.frameTable.length) ∧
    (m.accessed x.ownerTid (x.upage / pgsize) = true →
      ∃ s < j, (m.clockHand + s) % m.frameTable.length = (m.clockHand + j) % m.frameTable.length ∧
        ¬ m.Cleared s x.ownerTid (x.upage / pgsize))

section Victims

variable (hhand : m.clockHand + 2 * m.frameTable.length ≤ 2 ^ 32)
include hhand

theorem passed_before (hj : j < 2 * m.frameTable.length) (hnone : ∀ i < j, (m.turns i).evictStep.1 = none) :
    ∀ i ≤ j, m.Passed i (m.turns i) := by
  have hne : m.frameTable ≠ [] := fun hnil ↦ by simp [hnil] at hj
  exact fun i hi ↦ passed_turns hne (by omega) (by omega) fun k hk ↦ hnone k (by omega)

theorem victim_of_evictFrame (h : m.evictFrame = (some x, m')) : ∃ j < 2 * m.frameTable.length, m.Victim j x ∧
    (m.turns j).evictStep = (some x, m') ∧ (∀ i < j, (m.turns i).evictStep.1 = none) ∧
    m'.frameTable = m.frameTable.eraseIdx ((m.clockHand + j) % m.frameTable.length) := by
  obtain ⟨j, hj, hstep, hp, hx, he, hclear, hnone⟩ := evictFrame_turn hhand h
  refine ⟨j, hj, ⟨⟨hx, he, fun hset ↦ ?_⟩, fun i hi e hripe ↦ ?_⟩, hstep, hnone, ?_⟩
  · by_contra hcon
    rw [(hp.accessed _ _).2 ⟨hset, hcon⟩] at hclear
    cases hclear
  · obtain ⟨hei, heve, hbit⟩ := hripe
    have hpi := passed_before hhand hj hnone i hi.le
    have hunder := (hpi.underHand (by omega)).trans hei
    refine (evictStep_isNone hunder).1 (hnone i hi) ⟨hpi.view ▸ heve, ?_⟩
    rw [← Bool.not_eq_true, hpi.accessed]
    exact fun hset ↦ hset.2 (hbit hset.1)
  · rcases (m.turns j).evictStep_frameTable with ⟨hnone, -⟩ | ⟨e, -, -, htable⟩
    · rw [hstep] at hnone
      cases hnone
    · rwa [hstep, hp.frameTable, hp.hand,
        Nat.mod_eq_of_lt (show m.clockHand + j < 2 ^ 32 by omega)] at htable

/-- The first turn at an unpinned frame of the page is a turn at the victim. -/
theorem secondChance_iff (hj : j < 2 * m.frameTable.length) (hv : m.Victim j x)
    (hstep : (m.turns j).evictStep = (some x, m')) (hnone : ∀ i < j, (m.turns i).evictStep.1 = none)
    (hset : m.accessed x.ownerTid (x.upage / pgsize) = true) {i : Nat}
    (hi : m.frameTable[i]? = some x) :
    SecondChance m i x m' ↔ i = (m.clockHand + j) % m.frameTable.length ∧
      ∃ s < j, (m.clockHand + s) % m.frameTable.length = (m.clockHand + j) % m.frameTable.length ∧
        ¬ m.Cleared s x.ownerTid (x.upage / pgsize) := by
  have hpassed := passed_before hhand hj hnone
  constructor
  · rintro ⟨s, k, hsk, hs, hk, hbit, -, hstep', hnone'⟩
    have hkj : k = j := by
      rcases Nat.lt_trichotomy k j with hlt | heq | hgt
      · have := hnone k hlt
        rw [hstep'] at this
        cases this
      · exact heq
      · have := hnone' j hgt
        rw [hstep] at this
        cases this
    subst hkj
    exact ⟨hk.symm, s, hsk, hs.trans hk.symm, (((hpassed s hsk.le).accessed _ _).1 hbit).2⟩
  · rintro ⟨rfl, s, hsj, hs, hclear⟩
    refine ⟨s, j, hsj, hs, rfl, ((hpassed s hsj.le).accessed _ _).2 ⟨hset, hclear⟩, ?_, hstep, hnone⟩
    rw [← Bool.not_eq_true, (hpassed (s + 1) hsj).accessed]
    exact fun h ↦ h.2 ⟨s, lt_succ_self s, x, hs ▸ hi, hv.1.2.1.pinned, rfl, rfl⟩

end Victims

/-- The clock is complete exactly when the victim is alone for its page. -/
theorem clock_complete (hhand : m.clockHand + 2 * m.frameTable.length ≤ 2 ^ 32) :
    m.Complete ↔ m.VictimAlone := by
  constructor
  · intro hc j x hv
    have hsome : m.evictFrame.1.isSome := hc.isSome.2 ⟨x, mem_of_getElem? hv.1.1, hv.1.2.1⟩
    obtain ⟨y, hy⟩ := isSome_iff_exists.1 hsome
    have hev : m.evictFrame = (some y, m.evictFrame.2) := Prod.ext hy rfl
    obtain ⟨k, hk, hv', hstep, hnone, htable⟩ := victim_of_evictFrame hhand hev
    obtain ⟨rfl, rfl⟩ := hv.eq hv'
    obtain ⟨-, -, i, hi, -, hspared, hchance⟩ := hc.some x _ hev
    refine ⟨fun k e p hek ho hu hp hkp ↦ ?_, fun hset ↦ ?_⟩
    · by_contra hne
      have hmem : e ∈ m.evictFrame.2.frameTable := by
        rw [htable, mem_eraseIdx_iff_getElem?]
        exact ⟨k, hne, hek⟩
      have hkept := (hspared e hmem).mapping p (by rw [ho, hu]; exact hp) hkp
      rw [(evictFrame_some hev).frame.2.2.2, View.unmap, ho, hu] at hkept
      simp at hkept
    · exact ((secondChance_iff hhand hk hv hstep hnone hset hi).1 (hchance hset)).2
  · intro halone
    refine ⟨evictFrame_isSome hhand, fun m' h ↦ ?_, fun x m' h ↦ ?_⟩
    · have hview := evictFrame_none h
      refine ⟨congrArg (fun v : View ↦ v.frameTable) hview, congrArg (fun v : View ↦ v.mapping) hview,
        fun e he ↦ ⟨fun p hp _ ↦ ?_, fun hacc ↦ ?_⟩⟩
      · rwa [hview]
      · rcases m.evictLoop_eq _ with ⟨heq, hnone⟩ | ⟨j, hj, heq, hsome, -⟩
        · rw [← evictFrame, h] at heq
          have hne : m.frameTable ≠ [] := ne_nil_of_mem he
          have hp := passed_turns hne (by have := length_pos_of_ne_nil hne; omega) hhand hnone
          rw [(Prod.mk.inj heq).2] at hacc
          exact ((hp.accessed _ _).1 hacc).1
        · rw [← evictFrame, h] at heq
          exact absurd (congrArg Prod.fst heq).symm hsome
    · obtain ⟨j, hj, hv, hstep, hnone, htable⟩ := victim_of_evictFrame hhand h
      obtain ⟨honly, hfirst⟩ := halone j x hv
      have hp := passed_before hhand hj hnone j le_rfl
      have hunder := (hp.underHand (by omega)).trans hv.1.1
      have hframe : ∀ t n, ¬ (t = x.ownerTid ∧ n = x.upage / pgsize) →
          m'.view.mapping t n = m.view.mapping t n := by
        intro t n hne
        rw [(evictFrame_some h).frame.2.2.2, View.unmap]
        by_cases ho : t = x.ownerTid
        · have hu : n ≠ x.upage / pgsize := fun hu ↦ hne ⟨ho, hu⟩
          simp only [ho, update_self, update_of_ne hu]
        · simp only [update_of_ne ho]
      refine ⟨hv.1.2.1, hframe, (m.clockHand + j) % m.frameTable.length, hv.1.1, htable, fun e hmem ↦
        ⟨fun p hp hkp ↦ ?_, fun hacc ↦ ?_⟩, fun hset ↦ ?_⟩
      · rw [htable, mem_eraseIdx_iff_getElem?] at hmem
        obtain ⟨k, hk, hek⟩ := hmem
        rw [hframe _ _ fun hsame ↦ hk (honly k e p hek hsame.1 hsame.2 (hsame.1 ▸ hsame.2 ▸ hp) hkp)]
        exact hp
      · have hturn : (m.turns j).accessed e.ownerTid (e.upage / pgsize) = true := by
          refine (evictStep_some hunder (congrArg Prod.fst hstep)).2 _ _ ?_
          rw [hstep]
          exact hacc
        exact ((hp.accessed _ _).1 hturn).1
      · exact (secondChance_iff hhand hj hv hstep hnone hset hv.1.1).2 ⟨rfl, hfirst hset⟩

def singleFrame : Memory :=
  { Indexed.blankMemory with
    frameTable := [⟨5, 4096, 1, false⟩]
    pagedir := fun _ ↦ some ((Pagedir.empty.addTable 4096).store 4096 (some ⟨5, true, false, false⟩)) }

theorem clock_complete_singleFrame : singleFrame.VictimAlone ∧ singleFrame.Complete := by
  have halone : singleFrame.VictimAlone := by
    rintro j x ⟨⟨hx, -⟩, -⟩
    have hlen : singleFrame.frameTable.length = 1 := rfl
    rw [hlen, mod_one] at hx ⊢
    obtain rfl : _ = x := some.inj hx
    refine ⟨fun k e p hk _ _ _ _ ↦ ?_, fun hset ↦ ?_⟩
    · have := (List.getElem?_eq_some_iff.1 hk).1
      omega
    · exact absurd hset (by decide)
  exact ⟨halone, (clock_complete (by decide)).2 halone⟩

def aliased : Memory :=
  { Indexed.blankMemory with
    frameTable := [⟨5, 4096, 1, false⟩, ⟨6, 4096, 1, false⟩]
    pagedir := fun _ ↦ some ((Pagedir.empty.addTable 4096).store 4096 (some ⟨6, true, false, false⟩)) }

/-- The first frame is the victim, and the page loses its frame, which stays in the table. -/
theorem eviction_unmaps_other_frame :
    aliased.evictFrame.1 = some ⟨5, 4096, 1, false⟩ ∧
      aliased.evictFrame.2.frameTable = [⟨6, 4096, 1, false⟩] ∧
      aliased.view.mapping 1 1 = some ⟨6, true, false⟩ ∧ aliased.evictFrame.2.view.mapping 1 1 = none ∧
      ¬ Spared aliased aliased.evictFrame.2 ⟨6, 4096, 1, false⟩ := by
  have hbefore : aliased.view.mapping 1 1 = some ⟨6, true, false⟩ := rfl
  have hafter : aliased.evictFrame.2.view.mapping 1 1 = none := rfl
  refine ⟨rfl, rfl, hbefore, hafter, fun h ↦ ?_⟩
  have hmap : aliased.evictFrame.2.view.mapping 1 1 = some ⟨6, true, false⟩ := h.mapping _ hbefore rfl
  cases hmap

end Memory

end Rxv6.Vm
