import Rxv6.Vm.View

namespace Rxv6.Vm

open Function Rxv6.Thread Rxv6.Lib.Bitmap List Option

open Rxv6.Vm.Core

theorem Core.needSwap_eq (x : Option SptEntry) (d : Bool) : Core.needSwap x d = d := by
  cases x with
  | none => rfl
  | some x => cases d <;> simp [needSwap]

variable {c : Core} {e : FrameEntry} {t : Tid} {v : View}

variable {c' : Core} {d : Bool} {v' : View} {k upage : Nat}

theorem Core.saveVictim_cases (h : c.saveVictim e d = some c') :
    (d = true ∧ ∃ slot t, firstClear c.swapBitmap 0 = some slot ∧ c.spt e.ownerTid = some t ∧
      c' = { c with
        swapBitmap := c.swapBitmap.set slot true
        swapDisk := update c.swapDisk slot (c.mem e.kpage)
        spt := update c.spt e.ownerTid (some (t.setLocation e.upage (.inSwap slot))) }) ∨
    (d = true ∧ ∃ slot, firstClear c.swapBitmap 0 = some slot ∧ c.spt e.ownerTid = none ∧
      c' = { c with
        swapBitmap := c.swapBitmap.set slot true
        swapDisk := update c.swapDisk slot (c.mem e.kpage)
        swapMap := update c.swapMap e.ownerTid
          (update (c.swapMap e.ownerTid) e.upage (some slot)) }) ∨
    (d = false ∧ ∃ x, c.findSpt e.ownerTid e.upage = some x ∧
      c' = c.setLocation e.ownerTid e.upage (Core.cleanLocation x)) ∨
    (d = false ∧ c.findSpt e.ownerTid e.upage = none ∧ c' = c) := by
  rw [saveVictim, needSwap_eq] at h
  cases d with
  | true =>
    simp only [if_true, swapOut, Option.map_map, map_eq_some_iff] at h
    obtain ⟨slot, hslot, rfl⟩ := h
    cases hspt : c.spt e.ownerTid with
    | some t => exact .inl ⟨rfl, slot, t, hslot, rfl, by simp [setLocation, hspt]⟩
    | none => exact .inr (.inl ⟨rfl, slot, hslot, rfl, rfl⟩)
  | false =>
    simp only [Bool.false_eq_true, if_false] at h
    cases hx : c.findSpt e.ownerTid e.upage with
    | some x =>
      simp only [hx, some.injEq] at h
      exact .inr (.inr (.inl ⟨rfl, x, rfl, h.symm⟩))
    | none =>
      simp only [hx, some.injEq] at h
      exact .inr (.inr (.inr ⟨rfl, rfl, h.symm⟩))

/-- Saving a victim touches only its own entry, its row of `SWAP_MAP` and one free swap slot. -/
structure Core.Saves (c : Core) (e : FrameEntry) (c' : Core) : Prop where
  userPool : c'.userPool = c.userPool
  mem : c'.mem = c.mem
  frameTable : c'.frameTable = c.frameTable
  files : c'.files = c.files
  spt : ∀ t, t ≠ e.ownerTid → c'.spt t = c.spt t
  swapMap : ∀ t, t ≠ e.ownerTid → c'.swapMap t = c.swapMap t
  page : ∀ n, n ≠ e.upage / pgsize → c'.findSpt e.ownerTid (n * pgsize) = c.findSpt e.ownerTid (n * pgsize) ∧
    c'.swapMap e.ownerTid (n * pgsize) = c.swapMap e.ownerTid (n * pgsize)
  slot : ∀ slot, test c.swapBitmap slot = true →
    c'.swapDisk slot = c.swapDisk slot ∧ test c'.swapBitmap slot = true

theorem Core.findSpt_setLocation {tid : Tid} {va va' : Nat} {l : PageLocation} :
    (c.setLocation tid va l).findSpt t va' =
      if t = tid ∧ pgRoundDown va = pgRoundDown va' then
        (c.findSpt t va').map ({ · with location := l })
      else c.findSpt t va' := by
  by_cases ht : t = tid
  · subst ht
    cases hs : c.spt t with
    | none => simp [findSpt, setLocation, hs]
    | some s =>
      simp only [findSpt, setLocation, hs, update_self, map_some, bind_some,
        Spt.find_setLocation, true_and]
  · simp [findSpt, setLocation, ht]

theorem Core.swapOut_slot {s : Nat} (h : firstClear c.swapBitmap 0 = some s) (d : PageData)
    (slot : Nat) (hslot : test c.swapBitmap slot = true) :
    update c.swapDisk s d slot = c.swapDisk slot ∧ test (c.swapBitmap.set s true) slot = true := by
  have hne : slot ≠ s := by
    intro he
    rw [he, (firstClear_some h).2.2] at hslot
    cases hslot
  exact ⟨update_of_ne hne _ _, by rwa [test_set_ne hne.symm]⟩

theorem Core.saveVictim_saves (h : c.saveVictim e d = some c') : c.Saves e c' := by
  have hround : ∀ n, n ≠ e.upage / pgsize → pgRoundDown e.upage ≠ pgRoundDown (n * pgsize) := by
    intro n hn he
    rw [pgRoundDown_mul, pgRoundDown_eq_iff] at he
    exact hn he.symm
  have hloc : ∀ l, c.Saves e (c.setLocation e.ownerTid e.upage l) := by
    intro l
    refine ⟨rfl, rfl, rfl, rfl, fun t ht ↦ update_of_ne ht _ _, fun t _ ↦ rfl,
      fun n hn ↦ ⟨?_, rfl⟩, fun slot hslot ↦ ⟨rfl, hslot⟩⟩
    rw [findSpt_setLocation, if_neg fun h ↦ hround n hn h.2]
  rcases saveVictim_cases h with ⟨-, slot, t, hslot, ht, rfl⟩ | ⟨-, slot, hslot, ht, rfl⟩ |
    ⟨-, x, -, rfl⟩ | ⟨-, -, rfl⟩
  · have hs := hloc (.inSwap slot)
    refine ⟨rfl, rfl, rfl, rfl, fun t ht ↦ update_of_ne ht _ _, fun t _ ↦ rfl,
      fun n hn ↦ ⟨?_, rfl⟩, swapOut_slot hslot _⟩
    have := (hs.page n hn).1
    simpa [findSpt, setLocation, ht] using this
  · refine ⟨rfl, rfl, rfl, rfl, fun t _ ↦ rfl, fun t ht ↦ update_of_ne ht _ _,
      fun n hn ↦ ⟨rfl, ?_⟩, swapOut_slot hslot _⟩
    have hne : n * pgsize ≠ e.upage := fun he ↦ hn (by rw [← he, mul_pgsize_div])
    simp [hne]
  · exact hloc _
  · exact ⟨rfl, rfl, rfl, rfl, fun t _ ↦ rfl, fun t _ ↦ rfl, fun n _ ↦ ⟨rfl, rfl⟩,
      fun slot hslot ↦ ⟨rfl, hslot⟩⟩

structure Wf (v : View) : Prop where
  nodup : (v.frameTable.map (·.kpage)).Nodup
  used : ∀ e ∈ v.frameTable, test v.userPool e.kpage = true
  frame : ∀ t n x, v.mapping t n = some x →
    ∃ e ∈ v.frameTable, e.kpage = x.kpage ∧ e.ownerTid = t ∧ e.upage = n * pgsize

theorem eraseIdx_frames {l : List FrameEntry} (hl : (l.map (·.kpage)).Nodup) {i : Nat}
    (he : l[i]? = some e) :
    (∀ x, x ∈ l.eraseIdx i ↔ x ∈ l ∧ x.kpage ≠ e.kpage) ∧
    ((l.eraseIdx i).map (·.kpage)).Nodup := by
  refine ⟨fun x ↦ ?_, hl.sublist ((eraseIdx_sublist l i).map _)⟩
  rw [mem_eraseIdx_iff_getElem?]
  constructor
  · rintro ⟨j, hj, hx⟩
    refine ⟨mem_of_getElem? hx, fun hk ↦ hj ?_⟩
    have hlt : j < (l.map (·.kpage)).length := by
      rw [length_map]
      exact (List.getElem?_eq_some_iff.mp hx).1
    refine (getElem?_inj hlt hl).mp ?_
    simp [hx, he, hk]
  · rintro ⟨hx, hk⟩
    obtain ⟨j, hj⟩ := mem_iff_getElem?.mp hx
    refine ⟨j, ?_, hj⟩
    rintro rfl
    rw [he, some.injEq] at hj
    exact hk (by rw [hj])

structure Evicted (v : View) (e : FrameEntry) (v' : View) : Prop where
  wf : Wf v'
  mem_frames : ∀ x, x ∈ v'.frameTable ↔ x ∈ v.frameTable ∧ x.kpage ≠ e.kpage
  loose : ∀ t n x, v'.mapping t n = some x → x.kpage ≠ e.kpage
  mapping : ∀ t n, v'.mapping t n = if t = e.ownerTid ∧ n = e.upage / pgsize then none else v.mapping t n
  core : ∃ c, v.saveVictim e (v.isDirty e.ownerTid (e.upage / pgsize)) = some c ∧
    v'.toCore = { c with frameTable := v'.frameTable }

theorem View.Evicts.evicted (h : v.Evicts e v') (hw : Wf v) : e ∈ v.frameTable ∧ Evicted v e v' := by
  obtain ⟨hand, c, he, hc, rfl⟩ := h.taken
  have hsaves := saveVictim_saves hc
  have hmap : ∀ t n, (v.unmap e.ownerTid (e.upage / pgsize)).mapping t n =
      if t = e.ownerTid ∧ n = e.upage / pgsize then none else v.mapping t n := by
    intro t n
    by_cases ht : t = e.ownerTid
    · subst ht
      by_cases hn : n = e.upage / pgsize <;> simp [unmap, hn]
    · simp [unmap, ht]
  obtain ⟨hmem, hnodup⟩ := eraseIdx_frames hw.nodup he
  rw [← hsaves.frameTable] at hmem hnodup
  have hmem' : ∀ x, x ∈ c.frameTable.eraseIdx hand ↔ x ∈ v.frameTable ∧ x.kpage ≠ e.kpage := by
    rw [← hsaves.frameTable]
    exact hmem
  have hloose : ∀ t n x, (v.unmap e.ownerTid (e.upage / pgsize)).mapping t n = some x →
      v.mapping t n = some x ∧ x.kpage ≠ e.kpage := by
    intro t n x hx
    rw [hmap] at hx
    split at hx
    · cases hx
    · next hne =>
      refine ⟨hx, fun hk ↦ hne ?_⟩
      obtain ⟨f, hf, hfk, hft, hfu⟩ := hw.frame t n x hx
      have : f = e := inj_on_of_nodup_map hw.nodup hf (mem_of_getElem? he) (hfk.trans hk)
      subst this
      exact ⟨hft.symm, by rw [hfu, mul_pgsize_div]⟩
  refine ⟨mem_of_getElem? he, ⟨hnodup, ?_, ?_⟩, hmem', fun t n x hx ↦ (hloose t n x hx).2, hmap, c, hc, rfl⟩
  · intro x hx
    have := hw.used x ((hmem' x).mp hx).1
    rwa [← hsaves.userPool] at this
  · intro t n x hx
    obtain ⟨hx', hk⟩ := hloose t n x hx
    obtain ⟨f, hf, hfk, hft, hfu⟩ := hw.frame t n x hx'
    exact ⟨f, (hmem' f).mpr ⟨hf, by rwa [hfk]⟩, hfk, hft, hfu⟩

/-- A new frame `k` is in the table for page `upage` of `t`, and no page is mapped to it. -/
structure Allocated (v : View) (upage : Nat) (t : Tid) (k : Nat) (v' : View) : Prop where
  wf : Wf v'
  mem_frames : ∀ x, x ∈ v'.frameTable ↔ x ∈ v.frameTable ∧ x.kpage ≠ k ∨ x = ⟨k, upage, t, false⟩
  loose : ∀ t n x, v'.mapping t n = some x → x.kpage ≠ k
  mem : v'.mem = update v.mem k zeroPage
  attached : v'.attached = v.attached

theorem Wf.register (hw : Wf v) {pool : List Bool}
    {mem : Nat → PageData} (hk : ∀ e ∈ v.frameTable, e.kpage ≠ k) (hpool : test pool k = true)
    (hsame : ∀ i, test v.userPool i = true → test pool i = true) :
    Wf { v with
      toCore := { v.toCore with userPool := pool, mem := mem }.registerFrame k upage t } where
  nodup := by
    simp only [registerFrame, map_append, map_cons, map_nil]
    refine nodup_append.mpr ⟨hw.nodup, by simp, ?_⟩
    intro a ha b hb
    obtain ⟨e, he, rfl⟩ := mem_map.mp ha
    simp only [mem_singleton] at hb
    exact hb ▸ hk e he
  used e he := by
    simp only [registerFrame, mem_append, mem_singleton] at he
    rcases he with he | rfl
    · exact hsame _ (hw.used e he)
    · exact hpool
  frame t n x hx := by
    obtain ⟨f, hf, h⟩ := hw.frame t n x hx
    exact ⟨f, mem_append_left _ hf, h⟩

theorem View.Allocs.allocated {o : Option FrameEntry}
    (h : v.Allocs upage t o k v') (hw : Wf v) : Allocated v upage t k v' := by
  cases h with
  | fresh hget =>
    simp only [getUserPage, map_eq_some_iff] at hget
    obtain ⟨k, hclear, rfl, rfl⟩ := hget
    obtain ⟨hlt, -, hfree⟩ := firstClear_some hclear
    have hne : ∀ e ∈ v.frameTable, e.kpage ≠ k := by
      rintro e he rfl
      rw [hw.used e he] at hfree
      cases hfree
    refine ⟨hw.register hne (test_set_self hlt) fun i hi ↦ ?_, fun x ↦ ?_, fun t n x hx ↦ ?_, rfl, rfl⟩
    · by_cases hik : k = i
      · exact hik ▸ test_set_self hlt
      · rwa [test_set_ne hik]
    · simp only [registerFrame, mem_append, mem_singleton]
      exact or_congr_left ⟨fun hx ↦ ⟨hx, hne x hx⟩, And.left⟩
    · obtain ⟨f, hf, hfk, -⟩ := hw.frame t n x hx
      exact hfk ▸ hne f hf
  | evicted hget hev =>
    next e v₁ =>
    obtain ⟨he, hevd⟩ := hev.evicted hw
    obtain ⟨c, hc, hcore⟩ := hevd.core
    have hsaves := saveVictim_saves hc
    have hmem₁ : v₁.mem = v.mem := by
      have := congrArg mem hcore
      exact this.trans hsaves.mem
    have hpool₁ : v₁.userPool = v.userPool := by
      have := congrArg userPool hcore
      exact this.trans hsaves.userPool
    have hne : ∀ x ∈ v₁.frameTable, x.kpage ≠ e.kpage := fun x hx ↦ ((hevd.mem_frames x).mp hx).2
    refine ⟨hevd.wf.register hne ?_ fun i hi ↦ hi, fun x ↦ ?_, hevd.loose, ?_, hev.frame.1⟩
    · rw [hpool₁]
      exact hw.used e he
    · simp only [registerFrame, mem_append, mem_singleton, hevd.mem_frames]
    · simp only [registerFrame, hmem₁]

end Rxv6.Vm
