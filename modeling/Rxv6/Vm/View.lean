import Rxv6.Vm.Frame

namespace Rxv6.Vm

open Function Rxv6.Thread Option

structure Mapping where
  kpage : Nat
  writable : Bool
  dirty : Bool

def Pte.mapping (e : Pte) : Mapping := ⟨e.kpage, e.writable, e.dirty⟩

/-- What the paging code means: the state without the clock and the accessed bits, with the page
directories flattened to one entry for each page number. -/
@[ext]
structure View extends Core where
  attached : Tid → Bool
  table : Tid → Nat → Bool
  mapping : Tid → Nat → Option Mapping

namespace Memory

def view (m : Memory) : View where
  toCore := m.toCore
  attached tid := (m.pagedir tid).isSome
  table tid n := (m.pagedir tid).any (·.hasTable (n * pgsize))
  mapping tid n := ((m.pagedir tid).bind (·.entry (n * pgsize))).map Pte.mapping

end Memory

theorem mul_pgsize_div (n : Nat) : n * pgsize / pgsize = n := Nat.mul_div_cancel n (by decide)

theorem pgRoundDown_mul (n : Nat) : pgRoundDown (n * pgsize) = n * pgsize := by
  rw [pgRoundDown, mul_pgsize_div]

theorem pgRoundDown_eq_iff {va n : Nat} : pgRoundDown va = n * pgsize ↔ va / pgsize = n := by
  exact Nat.mul_left_inj (by decide)

namespace View

def unmap (v : View) (tid : Tid) (n : Nat) : View :=
  { v with mapping := update v.mapping tid (update (v.mapping tid) n none) }

def isDirty (v : View) (tid : Tid) (n : Nat) : Bool := (v.mapping tid n).any (·.dirty)

/-- The frame of `e` is taken: its page is saved and unmapped, the entry leaves the table. -/
structure Evicts (v : View) (e : FrameEntry) (v' : View) : Prop where
  pinned : e.pinned = false
  attached : v.attached e.ownerTid = true
  taken : ∃ hand c, v.frameTable[hand]? = some e ∧
    v.saveVictim e (v.isDirty e.ownerTid (e.upage / pgsize)) = some c ∧
    v' = { v.unmap e.ownerTid (e.upage / pgsize) with
      toCore := { c with frameTable := c.frameTable.eraseIdx hand } }

structure Maps (v : View) (tid : Tid) (n k : Nat) (w : Bool) (v' : View) : Prop where
  core : ∃ kp, v'.toCore = { v.toCore with kernelPool := kp }
  attached : v'.attached = v.attached
  mapping : v'.mapping = update v.mapping tid (update (v.mapping tid) n (some ⟨k, w, false⟩))
  table : ∀ t i, v.table t i = true → v'.table t i = true
  tableSelf : v'.table tid n = true

inductive Allocs (v : View) (upage : Nat) (tid : Tid) : Option FrameEntry → Nat → View → Prop
  | fresh {k : Nat} {c : Core} : v.getUserPage = some (k, c) →
      Allocs v upage tid none k { v with toCore := c.registerFrame k upage tid }
  | evicted {e : FrameEntry} {v₁ : View} : v.getUserPage = none → v.Evicts e v₁ →
      Allocs v upage tid (some e) e.kpage { v₁ with
        toCore := { v₁.toCore with
          mem := update v₁.mem e.kpage zeroPage }.registerFrame e.kpage upage tid }

end View

open Pagedir

namespace Memory

variable {m m' : Memory} {tid : Tid} {va : Nat}

theorem entry_store (pd : Pagedir) (va : Nat) (e : Option Pte) (n : Nat) :
    (pd.store va e).entry (n * pgsize) =
      if va / pgsize = n ∧ pd.hasTable va = true then e else pd.entry (n * pgsize) := by
  have hn : n * pgsize / pgsize = n := mul_pgsize_div n
  by_cases h : va / pgsize = n
  · cases ht : pd.hasTable va with
    | true => simp [h, entry_store_self ht (h.trans hn.symm)]
    | false =>
      have hnone : pd (pdeIdx va) = none := by simpa [hasTable] using ht
      have hstore : pd.store va e = pd := by simp [store, hnone]
      simp [hstore]
  · simp [h, entry_store_ne (fun he ↦ h (he.trans hn))]

variable {pd : Pagedir}

theorem view_setPagedir (hpd : m.pagedir tid = some pd) (pd' : Pagedir)
    {f : Nat → Option Mapping} {g : Nat → Bool} (hf : ∀ n, (pd'.entry (n * pgsize)).map Pte.mapping = f n)
    (hg : ∀ n, pd'.hasTable (n * pgsize) = g n) :
    { m with pagedir := update m.pagedir tid (some pd') }.view =
      { m.view with table := update m.view.table tid g, mapping := update m.view.mapping tid f } := by
  ext1 <;> try rfl
  all_goals
    funext t
    by_cases ht : t = tid
    swap
    · simp [view, update_of_ne ht]
    subst ht
  · simp [view, hpd]
  · funext n
    simp [view, hg]
  · funext n
    simp [view, hf]

theorem view_mapping (hpd : m.pagedir tid = some pd) (n : Nat) :
    m.view.mapping tid n = (pd.entry (n * pgsize)).map Pte.mapping := by
  simp [view, hpd]

theorem getPage_view (m : Memory) (tid : Tid) (addr : Nat) :
    (m.pagedir tid).bind (·.getPage addr) = (m.view.mapping tid (addr / pgsize)).map (·.kpage) := by
  cases hpd : m.pagedir tid with
  | none => simp [view, hpd]
  | some pd =>
    rw [view_mapping hpd, bind_some, getPage, map_map,
      entry_congr (mul_pgsize_div _).symm]
    rfl

section

variable (hpd : m.pagedir tid = some pd)

include hpd

theorem view_table (n : Nat) : m.view.table tid n = pd.hasTable (n * pgsize) := by
  simp [view, hpd]

theorem updatePagedir_eq (f : Pagedir → Pagedir) :
    m.updatePagedir tid f = { m with pagedir := update m.pagedir tid (some (f pd)) } := by
  simp [updatePagedir, hpd]

theorem view_clearAccessed : (m.updatePagedir tid (·.clearAccessed va)).view = m.view := by
  rw [updatePagedir_eq hpd, view_setPagedir hpd,
    update_eq_self, update_eq_self]
  · intro n
    rw [view_mapping hpd, clearAccessed, entry_store]
    split
    · next h =>
      rw [entry_congr (h.1.trans (mul_pgsize_div n).symm), map_map]
      rfl
    · rfl
  · intro n
    rw [view_table hpd]
    simp [clearAccessed]

theorem view_clearPage (va : Nat) :
    (m.updatePagedir tid (·.clearPage va)).view = m.view.unmap tid (va / pgsize) := by
  rw [updatePagedir_eq hpd, View.unmap,
    view_setPagedir hpd,
    update_eq_self]
  · intro n
    rw [clearPage, entry_store]
    by_cases h : n = va / pgsize
    · subst h
      cases ht : pd.hasTable va with
      | true => simp
      | false =>
        have hnone : pd (pdeIdx (va / pgsize * pgsize)) = none := by
          rw [hasTable_congr (mul_pgsize_div (va / pgsize)).symm] at ht
          simpa [hasTable] using ht
        simp [entry, hnone]
    · rw [update_of_ne h, view_mapping hpd]
      simp [Ne.symm h]
  · intro n
    rw [view_table hpd]
    simp [clearPage]

theorem isDirty_eq : pd.isDirty va = m.view.isDirty tid (va / pgsize) := by
  rw [View.isDirty, view_mapping hpd, isDirty,
    entry_congr (mul_pgsize_div (va / pgsize)).symm, any_map]
  rfl

end

end Memory

namespace Memory

variable {m m' : Memory} {tid : Tid} {va : Nat} {e : FrameEntry}

theorem evictStep_cases (m : Memory) :
    (m.evictStep.1 = none ∧ m.evictStep.2.view = m.view) ∨
    ∃ e, m.evictStep.1 = some e ∧ m.view.Evicts e m.evictStep.2.view := by
  unfold evictStep
  simp only
  split
  · exact .inl ⟨rfl, rfl⟩
  · next e he =>
    split
    · exact .inl ⟨rfl, rfl⟩
    · next hpin =>
      split
      · exact .inl ⟨rfl, rfl⟩
      · next pd hpd =>
        split
        · exact .inl ⟨rfl, view_clearAccessed hpd⟩
        · split
          · exact .inl ⟨rfl, rfl⟩
          · next c hc =>
            refine .inr ⟨e, rfl, by simpa using hpin, ?_, _, c, he, ?_, ?_⟩
            · simp [view, hpd]
            · rw [← isDirty_eq hpd]
              exact hc
            · exact congrArg (fun v : View ↦
                  { v with frameTable := c.frameTable.eraseIdx (m.clockHand % m.frameTable.length) })
                (view_clearPage (m := { m with clockHand := (m.clockHand + 1) % 2 ^ 32 }.withCore c)
                  hpd e.upage)

theorem evictLoop_cases (n : Nat) (m : Memory) :
    ((evictLoop n m).1 = none ∧ (evictLoop n m).2.view = m.view) ∨
    ∃ e, (evictLoop n m).1 = some e ∧ m.view.Evicts e (evictLoop n m).2.view := by
  induction n generalizing m with
  | zero => exact .inl ⟨rfl, rfl⟩
  | succ n ih =>
    rcases evictStep_cases m with ⟨hnone, hv⟩ | ⟨e, hsome, hev⟩
    · have hloop : evictLoop (n + 1) m = evictLoop n m.evictStep.2 := by
        rw [evictLoop]
        split
        · next he => simp [he] at hnone
        · next he => simp [he]
      rw [hloop, ← hv]
      exact ih _
    · have hloop : evictLoop (n + 1) m = m.evictStep := by
        rw [evictLoop]
        split
        · next he => exact he.symm
        · next he => simp [he] at hsome
      rw [hloop]
      exact .inr ⟨e, hsome, hev⟩

theorem evictFrame_none (h : m.evictFrame = (none, m')) : m'.view = m.view := by
  rcases evictLoop_cases _ m with ⟨-, hv⟩ | ⟨e, hsome, -⟩
  · rwa [← evictFrame, h] at hv
  · rw [← evictFrame, h] at hsome
    cases hsome

theorem evictFrame_some (h : m.evictFrame = (some e, m')) : m.view.Evicts e m'.view := by
  rcases evictLoop_cases _ m with ⟨hnone, -⟩ | ⟨x, hsome, hev⟩
  · rw [← evictFrame, h] at hnone
    cases hnone
  · rw [← evictFrame, h] at hsome hev
    obtain rfl := some.inj hsome
    exact hev

/-- The frame that the next `alloc_frame` takes away from its page. -/
def victim (m : Memory) : Option FrameEntry := if m.getUserPage.isSome then none else m.evictFrame.1

variable {upage k : Nat} {w : Bool}

theorem allocFrame_some (h : m.allocFrame upage tid = (some k, m')) :
    m.view.Allocs upage tid m.victim k m'.view := by
  unfold allocFrame at h
  split at h
  · next k' c hget =>
    obtain ⟨rfl, rfl⟩ : k' = k ∧ m.withCore _ = m' := by simpa using h
    have hvictim : m.victim = none := by simp [victim, hget]
    rw [hvictim]
    exact .fresh hget
  · next hget =>
    split at h
    · next e m₁ hev =>
      obtain ⟨rfl, rfl⟩ := h
      have hvictim : m.victim = some e := by simp [victim, hget, hev]
      rw [hvictim]
      exact .evicted hget (evictFrame_some hev)
    · simp at h

theorem allocFrame_none (h : m.allocFrame upage tid = (none, m')) : m'.view = m.view := by
  unfold allocFrame at h
  split at h
  · simp at h
  · split at h
    · simp at h
    · next m₁ hev =>
      obtain rfl : m₁ = m' := by simpa using h
      exact evictFrame_none hev

theorem setPage_some {kp kp' : Nat} {pd pd' : Pagedir}
    (h : setPage kp pd upage k w = some (pd', kp')) (n : Nat) :
    (pd'.entry (n * pgsize) =
      if upage / pgsize = n then some ⟨k, w, false, false⟩ else pd.entry (n * pgsize)) ∧
    (pd.hasTable (n * pgsize) = true → pd'.hasTable (n * pgsize) = true) ∧
    (upage / pgsize = n → pd'.hasTable (n * pgsize) = true) := by
  unfold setPage at h
  split at h
  · next ht =>
    obtain ⟨rfl, -⟩ := h
    refine ⟨by simp [entry_store, ht], by simp, ?_⟩
    intro hn
    rw [hasTable_store, hasTable_congr ((mul_pgsize_div n).trans hn.symm), ht]
  · next ht =>
    split at h
    · cases h
    · obtain ⟨rfl, -⟩ := h
      have hself : (pd.addTable upage).hasTable upage = true := hasTable_addTable_self
      refine ⟨?_, ?_, ?_⟩
      · rw [entry_store, hself, entry_addTable (by simpa using ht)]
        simp
      · intro h
        rw [hasTable_store]
        exact hasTable_addTable h
      · intro hn
        rw [hasTable_store, hasTable_congr ((mul_pgsize_div n).trans hn.symm), hself]

theorem mapPage_some (h : m.mapPage tid upage k w = some m') :
    m.view.Maps tid (upage / pgsize) k w m'.view := by
  simp only [mapPage, bind_eq_some_iff, map_eq_some_iff] at h
  obtain ⟨pd, hpd, ⟨pd', kp⟩, hset, rfl⟩ := h
  have hv := view_setPagedir hpd pd'
    (f := update (m.view.mapping tid) (upage / pgsize) (some ⟨k, w, false⟩))
    ?_ (fun _ ↦ rfl)
  · refine ⟨⟨kp, rfl⟩, (congrArg View.attached hv :), (congrArg View.mapping hv), ?_, ?_⟩
    · intro t n ht
      refine (congrArg (fun v : View ↦ v.table t n) hv).trans ?_
      by_cases htid : t = tid
      · subst htid
        rw [view_table hpd] at ht
        simpa using (setPage_some hset n).2.1 ht
      · simpa [update_of_ne htid] using ht
    · refine (congrArg (fun v : View ↦ v.table tid _) hv).trans ?_
      simpa using (setPage_some hset _).2.2 rfl
  · intro n
    rw [(setPage_some hset n).1]
    by_cases hn : n = upage / pgsize
    · subst hn
      simp [Pte.mapping]
    · rw [update_of_ne hn, view_mapping hpd, if_neg (Ne.symm hn)]

theorem mapPage_isSome :
    (m.mapPage tid upage k w).isSome ↔ m.view.attached tid = true ∧
      (m.view.table tid (upage / pgsize) = true ∨ 0 < m.kernelPool) := by
  cases hpd : m.pagedir tid with
  | none => simp [mapPage, view, hpd]
  | some pd =>
    rw [view_table hpd, hasTable_congr (mul_pgsize_div _)]
    by_cases ht : pd.hasTable upage = true
    · simp [mapPage, setPage, view, hpd, ht]
    · by_cases hk : m.kernelPool = 0
      · simp [mapPage, setPage, hpd, ht, hk]
      · simp [mapPage, setPage, view, hpd, ht, hk]
        omega

def frameAvailable (m : Memory) : Bool := m.getUserPage.isSome || m.evictFrame.1.isSome

def Loses (m : Memory) (tid : Tid) (n : Nat) : Prop :=
  ∃ e, m.victim = some e ∧ e.ownerTid = tid ∧ e.upage / pgsize = n

end Memory

theorem View.Evicts.frame {v v' : View} {e : FrameEntry} (h : v.Evicts e v') :
    v'.attached = v.attached ∧ v'.table = v.table ∧ v'.kernelPool = v.kernelPool ∧
    v'.mapping = (v.unmap e.ownerTid (e.upage / pgsize)).mapping := by
  obtain ⟨hand, c, -, hc, rfl⟩ := h.taken
  refine ⟨rfl, rfl, ?_, rfl⟩
  unfold Core.saveVictim at hc
  split at hc
  · simp only [Core.swapOut, map_map, map_eq_some_iff] at hc
    obtain ⟨slot, -, rfl⟩ := hc
    split <;> rfl
  · split at hc
    · obtain rfl := some.inj hc
      rfl
    · obtain rfl := some.inj hc
      rfl

namespace Memory

variable {m : Memory} {tid : Tid} {e : FrameEntry}

theorem allocFrame_frame (m : Memory) (upage : Nat) (tid : Tid) :
    (m.allocFrame upage tid).1.isSome = m.frameAvailable ∧
    (m.allocFrame upage tid).2.view.attached = m.view.attached ∧
    (m.allocFrame upage tid).2.view.table = m.view.table ∧
    (m.allocFrame upage tid).2.kernelPool = m.kernelPool ∧
    ∀ t n, (m.Loses t n → (m.allocFrame upage tid).2.view.mapping t n = none) ∧
      (¬ m.Loses t n → (m.allocFrame upage tid).2.view.mapping t n = m.view.mapping t n) := by
  cases hget : m.getUserPage with
  | some r =>
    obtain ⟨k, c⟩ := r
    have hc : c.kernelPool = m.kernelPool := by
      simp only [Core.getUserPage, map_eq_some_iff] at hget
      obtain ⟨_, -, -, rfl⟩ := hget
      rfl
    have hlose : ∀ t n, ¬ m.Loses t n := by
      rintro t n ⟨e, he, -⟩
      simp [victim, hget] at he
    simp only [allocFrame, hget, frameAvailable]
    exact ⟨rfl, rfl, rfl, hc, fun t n ↦ ⟨fun h ↦ absurd h (hlose t n), fun _ ↦ rfl⟩⟩
  | none =>
    rcases hev : m.evictFrame with ⟨_ | e, m₁⟩
    · have hv := evictFrame_none hev
      have hlose : ∀ t n, ¬ m.Loses t n := by
        rintro t n ⟨e, he, -⟩
        simp [victim, hev] at he
      simp only [allocFrame, hget, hev, frameAvailable]
      exact ⟨rfl, congrArg View.attached hv, congrArg View.table hv,
        congrArg (fun v : View ↦ v.kernelPool) hv, fun t n ↦
          ⟨fun h ↦ absurd h (hlose t n), fun _ ↦ congrArg (fun v : View ↦ v.mapping t n) hv⟩⟩
    · obtain ⟨ha, ht, hk, hm⟩ := (evictFrame_some hev).frame
      have hlose : ∀ t n, m.Loses t n ↔ t = e.ownerTid ∧ n = e.upage / pgsize := by
        simp [Loses, victim, hget, hev, eq_comm]
      have hmap : ∀ t n, m₁.view.mapping t n =
          if t = e.ownerTid ∧ n = e.upage / pgsize then none else m.view.mapping t n := by
        intro t n
        rw [hm, View.unmap]
        by_cases ht : t = e.ownerTid
        · subst ht
          by_cases hn : n = e.upage / pgsize
          · simp [hn]
          · simp [hn]
        · simp [ht]
      simp only [allocFrame, hget, hev, frameAvailable]
      refine ⟨rfl, ha, ht, hk, fun t n ↦ ⟨fun h ↦ ?_, fun h ↦ ?_⟩⟩
      · exact (hmap t n).trans (if_pos ((hlose t n).mp h))
      · exact (hmap t n).trans (if_neg fun hc ↦ h ((hlose t n).mpr hc))

/-- Whether `load_page` can map page `n`: the entry is not said to be in memory already, and a
frame and a page table can be had. -/
def CanLoad (m : Memory) (e : SptEntry) (tid : Tid) (n : Nat) : Prop :=
  e.location ≠ .inMemory ∧ m.frameAvailable = true ∧ (m.view.table tid n = true ∨ 0 < m.kernelPool)

theorem fillFrame_kernelPool (c : Core) (e : SptEntry) (k : Nat) :
    (c.fillFrame e k).kernelPool = c.kernelPool := by
  unfold Core.fillFrame
  split <;> rfl

theorem loadPage_frame {m : Memory} (e : SptEntry) (page : Nat) {tid : Tid}
    (hatt : m.view.attached tid = true) (hpage : m.view.mapping tid (page / pgsize) = none) :
    (m.loadPage e page tid).2.view.attached = m.view.attached ∧
    (m.CanLoad e tid (page / pgsize) → ∃ k, (m.loadPage e page tid).2.view.mapping tid (page / pgsize) =
      some ⟨k, e.writable, false⟩) ∧
    (¬ m.CanLoad e tid (page / pgsize) → (m.loadPage e page tid).2.view.mapping tid (page / pgsize) = none) ∧
    ∀ n, n ≠ page / pgsize → (e.location ≠ .inMemory → m.Loses tid n →
        (m.loadPage e page tid).2.view.mapping tid n = none) ∧
      (e.location = .inMemory ∨ ¬ m.Loses tid n →
        (m.loadPage e page tid).2.view.mapping tid n = m.view.mapping tid n) := by
  by_cases hloc : e.location = .inMemory
  · simp [loadPage, hloc, CanLoad, hpage]
  · obtain ⟨hsome, ha, ht, hk, hmap⟩ := allocFrame_frame m page tid
    have hnone : (m.allocFrame page tid).2.view.mapping tid (page / pgsize) = none := by
      by_cases hl : m.Loses tid (page / pgsize)
      · exact (hmap _ _).1 hl
      · exact ((hmap _ _).2 hl).trans hpage
    rcases hal : m.allocFrame page tid with ⟨_ | k, m₁⟩
    · rw [hal] at hsome ha hmap hnone
      have hav : m.frameAvailable = false := hsome.symm
      have hload : m.loadPage e page tid = (false, m₁) := by simp [loadPage, hloc, hal]
      rw [hload]
      refine ⟨ha, fun hc ↦ ?_, fun _ ↦ hnone, fun n _ ↦ ⟨fun _ ↦ (hmap _ _).1, fun hn ↦ ?_⟩⟩
      · rw [hc.2.1] at hav
        cases hav
      · exact (hmap _ _).2 (hn.resolve_left hloc)
    · rw [hal] at hsome ha ht hk hmap hnone
      have hav : m.frameAvailable = true := hsome.symm
      have hcan : ((m₁.withCore (m₁.fillFrame e k)).mapPage tid page k e.writable).isSome ↔
          m.CanLoad e tid (page / pgsize) := by
        rw [mapPage_isSome]
        have hk' : (m₁.withCore (m₁.fillFrame e k)).kernelPool = m.kernelPool :=
          (fillFrame_kernelPool _ e k).trans hk
        have ha' : (m₁.withCore (m₁.fillFrame e k)).view.attached = m.view.attached := ha
        have ht' : (m₁.withCore (m₁.fillFrame e k)).view.table = m.view.table := ht
        rw [hk', ha', ht', CanLoad]
        simp [hatt, hloc, hav]
      cases hmp : (m₁.withCore (m₁.fillFrame e k)).mapPage tid page k e.writable with
      | none =>
        have hload : (m.loadPage e page tid).2.view.mapping = m₁.view.mapping := by
          simp [loadPage, hloc, hal, hmp]
          rfl
        have hatt' : (m.loadPage e page tid).2.view.attached = m.view.attached := by
          rw [← ha]
          simp [loadPage, hloc, hal, hmp]
          rfl
        rw [hmp] at hcan
        rw [hload]
        refine ⟨hatt', fun hc ↦ ?_, fun _ ↦ hnone, fun n _ ↦ ⟨fun _ ↦ (hmap _ _).1, fun hn ↦ ?_⟩⟩
        · exact absurd (hcan.mpr hc) (by simp)
        · exact (hmap _ _).2 (hn.resolve_left hloc)
      | some m₂ =>
        have hmaps := mapPage_some hmp
        have hload : (m.loadPage e page tid).2.view.mapping = m₂.view.mapping := by
          simp [loadPage, hloc, hal, hmp]
          rfl
        have hatt' : (m.loadPage e page tid).2.view.attached = m.view.attached := by
          rw [← ha]
          refine trans ?_ hmaps.attached
          simp [loadPage, hloc, hal, hmp]
          rfl
        rw [hmp] at hcan
        rw [hload, hmaps.mapping]
        refine ⟨hatt', fun _ ↦ ⟨k, by simp⟩, fun hc ↦ absurd (hcan.mp rfl) hc, fun n hn ↦ ?_⟩
        simp only [update_self, update_of_ne hn]
        exact ⟨fun _ ↦ (hmap _ _).1, fun h ↦ (hmap _ _).2 (h.resolve_left hloc)⟩

end Memory

end Rxv6.Vm
