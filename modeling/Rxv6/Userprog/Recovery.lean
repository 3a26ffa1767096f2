import Rxv6.Userprog.Exception

namespace Rxv6.Userprog.Recovery

open Function Rxv6.Thread Rxv6.Vm Rxv6.Lib.Bitmap Rxv6.Userprog.Exception Option

@[irreducible] def userPages : Nat := physBase / pgsize

theorem userPages_eq : userPages = 768 * 1024 := by
  rw [userPages]
  rfl

def StackPage (n : Nat) : Prop := physBase - userStackMax ≤ n * pgsize ∧ n * pgsize < physBase

instance (n : Nat) : Decidable (StackPage n) := inferInstanceAs (Decidable (_ ∧ _))

def SameAt (n : Nat) (a b : Meaning) : Prop :=
  ∀ addr esp, addr / pgsize = n → a.read addr esp = b.read addr esp

variable {n : Nat} {a b c : Meaning} {d d' : PageData}

theorem SameAt.refl (n : Nat) (a : Meaning) : SameAt n a a := fun _ _ _ ↦ rfl

theorem SameAt.symm (h : SameAt n a b) : SameAt n b a := fun addr esp hn ↦ (h addr esp hn).symm

theorem SameAt.trans (h : SameAt n a b) (h' : SameAt n b c) : SameAt n a c :=
  fun addr esp hn ↦ (h addr esp hn).trans (h' addr esp hn)

theorem addr_div (n : Nat) (i : Fin pgsize) : (n * pgsize + i) / pgsize = n := by
  rw [mul_comm, Nat.mul_add_div (by decide), Nat.div_eq_of_lt i.isLt, add_zero]

theorem offset_addr (n : Nat) (i : Fin pgsize) : offset (n * pgsize + i) = i := by
  apply Fin.ext
  simp [offset, Nat.mod_eq_of_lt i.isLt]

theorem not_growsStack (addr : Nat) : ¬ growsStack addr (addr + 33) := by
  rintro ⟨-, hlt, hle⟩
  have hb : physBase = 0xC0000000 := rfl
  omega

theorem growsStack_of_stackPage (hn : StackPage n) (i : Fin pgsize) :
    growsStack (n * pgsize + i) 32 := by
  obtain ⟨hlo, hhi⟩ := hn
  have hb : physBase = 786432 * pgsize := rfl
  have hlt : n < 786432 := by
    exact Nat.lt_of_mul_lt_mul_right hhi
  have hle : (n + 1) * pgsize ≤ 786432 * pgsize := Nat.mul_le_mul_right _ (Nat.succ_le_of_lt hlt)
  refine ⟨by omega, ?_, by simp⟩
  rw [add_mul] at hle
  omega

theorem stackPage_of_growsStack {addr esp : Nat} (h : growsStack addr esp) (hn : addr / pgsize = n) :
    StackPage n := by
  obtain ⟨hlo, hhi, -⟩ := h
  have hb : physBase - userStackMax = 784384 * pgsize := rfl
  have hle : n * pgsize ≤ addr := hn ▸ Nat.div_mul_le_self addr pgsize
  refine ⟨?_, by omega⟩
  rw [hb] at ⊢
  have hdiv : 784384 ≤ n := hn ▸ (Nat.le_div_iff_mul_le (by decide)).mpr hlo
  exact Nat.mul_le_mul_right _ hdiv

open Meaning

theorem sameAt_bytes : SameAt n (.bytes d) (.bytes d') ↔ d = d' := by
  constructor
  · intro h
    funext i
    have hi := h _ 0 (addr_div n i)
    simpa [Meaning.read, fill, offset_addr] using hi
  · rintro rfl
    exact SameAt.refl n _

theorem not_sameAt_hang : ¬ SameAt n .hang (.bytes d) := by
  intro h
  have h₀ := h (n * pgsize) 0 (mul_pgsize_div n)
  simp [Meaning.read, fill] at h₀

theorem not_sameAt_absent_none : ¬ SameAt n (.absent none) (.bytes d) := by
  intro h
  have h₀ := h (n * pgsize) (n * pgsize + 33) (mul_pgsize_div n)
  simp [Meaning.read, fill, not_growsStack] at h₀

theorem sameAt_absent_some :
    SameAt n (.absent (some d)) (.bytes d') ↔ d = d' ∧ (StackPage n → d' = zeroPage) := by
  constructor
  · intro h
    have hd : d = d' := by
      funext i
      have hi := h _ (n * pgsize + i + 33) (addr_div n i)
      simpa [Meaning.read, fill, offset_addr, not_growsStack] using hi
    refine ⟨hd, fun hn ↦ ?_⟩
    funext i
    have hi := h _ 32 (addr_div n i)
    simpa [Meaning.read, fill, offset_addr, growsStack_of_stackPage hn, eq_comm] using hi
  · rintro ⟨rfl, hzero⟩ addr esp hn
    by_cases hg : growsStack addr esp
    · simp [Meaning.read, fill, hzero (stackPage_of_growsStack hg hn)]
    · simp [Meaning.read, fill, hg]

theorem sameAt_absent_iff {o o' : Option PageData} :
    SameAt n (.absent o) (.absent o') ↔ o = o' := by
  constructor
  · intro h
    have hread : ∀ i : Fin pgsize, (absent o).read (n * pgsize + i) (n * pgsize + i + 33) =
        (absent o').read (n * pgsize + i) (n * pgsize + i + 33) :=
      fun i ↦ h _ _ (addr_div n i)
    simp only [Meaning.read, fill, not_growsStack, offset_addr] at hread
    cases o with
    | none =>
      cases o' with
      | none => rfl
      | some d' => exact absurd (hread ⟨0, by decide⟩) (by simp)
    | some d =>
      cases o' with
      | none => exact absurd (hread ⟨0, by decide⟩) (by simp)
      | some d' =>
        congr
        funext i
        simpa using hread i
  · rintro rfl
    exact SameAt.refl n _

def heldSlot (c : Core) (tid : Tid) (n : Nat) : Option Nat :=
  match c.findSpt tid (n * pgsize) with
  | some e =>
    match e.location with
    | .inSwap slot => some slot
    | _ => none
  | none => c.swapMap tid (n * pgsize)

def SlotsUsed (v : View) (tid : Tid) : Prop :=
  ∀ n slot, n < userPages → v.mapping tid n = none → heldSlot v.toCore tid n = some slot →
    test v.swapBitmap slot = true

def cleanData (c : Core) (e : SptEntry) : PageData :=
  pageData c { e with location := Core.cleanLocation e }

/-- What the eviction of a frame saves is what the page holds: a dirty page with an entry goes to
swap, a clean one must be the same as its file or zero, and a page without an entry comes back only
through `SWAP_MAP`, where stack growth may hide it. -/
def Recoverable (v : View) (e : FrameEntry) : Prop :=
  match v.findSpt e.ownerTid e.upage with
  | some x => v.isDirty e.ownerTid (e.upage / pgsize) = true ∨ cleanData v.toCore x = v.mem e.kpage
  | none =>
    v.spt e.ownerTid = none ∧ v.isDirty e.ownerTid (e.upage / pgsize) = true ∧
      (StackPage (e.upage / pgsize) → v.mem e.kpage = zeroPage)

variable {v v' : View} {e : FrameEntry} {tid : Tid}

structure Kept (v v' : View) (tid : Tid) (n : Nat) : Prop where
  mapping : v'.mapping tid n = v.mapping tid n
  mem : ∀ x, v.mapping tid n = some x → v'.mem x.kpage = v.mem x.kpage
  entry : v'.findSpt tid (n * pgsize) = v.findSpt tid (n * pgsize)
  swapMap : v'.swapMap tid (n * pgsize) = v.swapMap tid (n * pgsize)
  files : v'.files = v.files
  slot : ∀ slot, test v.swapBitmap slot = true →
    v'.swapDisk slot = v.swapDisk slot ∧ test v'.swapBitmap slot = true

variable {x : SptEntry}

open Core

theorem pageData_kept (hf : v'.files = v.files)
    (hs : ∀ slot, x.location = .inSwap slot → v'.swapDisk slot = v.swapDisk slot) :
    pageData v'.toCore x = pageData v.toCore x := by
  unfold pageData fileData
  cases hl : x.location with
  | inSwap slot => exact hs slot hl
  | inMemory => rfl
  | onDisk => simp only [hf]
  | zero => rfl

theorem Kept.heldSlot_eq (h : Kept v v' tid n) :
    heldSlot v'.toCore tid n = heldSlot v.toCore tid n := by
  unfold heldSlot
  rw [h.entry, h.swapMap]

theorem Kept.unmapped (h : Kept v v' tid n)
    (hs : ∀ slot, heldSlot v.toCore tid n = some slot → test v.swapBitmap slot = true) :
    Meaning.unmapped v'.toCore tid n = Meaning.unmapped v.toCore tid n := by
  unfold heldSlot at hs
  unfold Meaning.unmapped
  rw [h.entry, h.swapMap]
  cases hx : v.findSpt tid (n * pgsize) with
  | some x =>
    have hdata : pageData v'.toCore x = pageData v.toCore x := by
      apply pageData_kept h.files
      intro slot hl
      exact (h.slot slot (hs slot (by simp [hx, hl]))).1
    simp [ofEntry, hdata]
  | none =>
    cases hm : v.swapMap tid (n * pgsize) with
    | none => rfl
    | some slot => simp [(h.slot slot (hs slot (by simp [hx, hm]))).1]

theorem Kept.meaning (h : Kept v v' tid n)
    (hs : v.mapping tid n = none →
      ∀ slot, heldSlot v.toCore tid n = some slot → test v.swapBitmap slot = true) :
    meaning v' tid n = meaning v tid n := by
  unfold Exception.meaning
  rw [h.mapping]
  cases hx : v.mapping tid n with
  | some x => simp [h.mem x hx]
  | none => exact h.unmapped (hs hx)

theorem evicts_kept (h : v.Evicts e v') (hw : Wf v) (hne : ¬ (tid = e.ownerTid ∧ n = e.upage / pgsize)) :
    Kept v v' tid n := by
  obtain ⟨-, hev⟩ := h.evicted hw
  obtain ⟨c, hc, hcore⟩ := hev.core
  have hs := saveVictim_saves hc
  have hspt : v'.spt = c.spt := (congrArg spt hcore :)
  have hmap : v'.swapMap = c.swapMap := (congrArg swapMap hcore :)
  have hpage : c.findSpt tid (n * pgsize) = v.findSpt tid (n * pgsize) ∧
      c.swapMap tid (n * pgsize) = v.swapMap tid (n * pgsize) := by
    by_cases ht : tid = e.ownerTid
    · subst ht
      exact hs.page n fun hn ↦ hne ⟨rfl, hn⟩
    · rw [hs.swapMap tid ht, findSpt, hs.spt tid ht]
      exact ⟨rfl, rfl⟩
  refine ⟨by rw [hev.mapping, if_neg hne], fun x _ ↦ ?_, ?_, ?_, ?_, fun slot hslot ↦ ?_⟩
  · exact congrFun ((congrArg mem hcore).trans hs.mem) x.kpage
  · rw [← hpage.1, findSpt, hspt, ← findSpt]
  · rw [hmap, hpage.2]
  · exact (congrArg files hcore).trans hs.files
  · have hdisk : v'.swapDisk = c.swapDisk := (congrArg swapDisk hcore :)
    have hbits : v'.swapBitmap = c.swapBitmap := (congrArg swapBitmap hcore :)
    rw [hdisk, hbits]
    exact hs.slot slot hslot

theorem allocs_kept {upage k : Nat} {t : Tid} {o : Option FrameEntry} (h : v.Allocs upage t o k v')
    (hw : Wf v) (hne : ∀ e, o = some e → ¬ (tid = e.ownerTid ∧ n = e.upage / pgsize)) :
    Kept v v' tid n := by
  have hal := h.allocated hw
  cases h with
  | fresh hget =>
    simp only [getUserPage, map_eq_some_iff] at hget
    obtain ⟨k, -, rfl, rfl⟩ := hget
    exact ⟨rfl, fun x hx ↦ update_of_ne (hal.loose tid n x hx) _ _, rfl, rfl, rfl,
      fun slot hslot ↦ ⟨rfl, hslot⟩⟩
  | evicted hget hev =>
    have hk := evicts_kept hev hw (hne _ rfl)
    exact ⟨hk.mapping, fun x hx ↦ (update_of_ne (hal.loose tid n x (hk.mapping.trans hx)) _ _).trans
      (hk.mem x hx), hk.entry, hk.swapMap, hk.files, hk.slot⟩

theorem cleanLocation_ne (x : SptEntry) : Core.cleanLocation x ≠ .inMemory := by
  unfold cleanLocation
  cases x.pageType <;> simp
  split <;> simp

theorem cleanData_congr {c c' : Core} (hf : c'.files = c.files) (x : SptEntry) :
    cleanData c' x = cleanData c x := by
  unfold cleanData pageData cleanLocation fileData
  by_cases hr : 0 < x.readBytes <;> cases x.pageType <;> simp [hf, hr]

theorem unmapped_of_find {c : Core} (h : c.findSpt tid (n * pgsize) = some x)
    (hl : x.location ≠ .inMemory) : Meaning.unmapped c tid n = .bytes (pageData c x) := by
  simp [unmapped, h, ofEntry, hl]

theorem unmapped_of_absent {c : Core} (h : c.findSpt tid (n * pgsize) = none) :
    Meaning.unmapped c tid n = .absent ((c.swapMap tid (n * pgsize)).map c.swapDisk) := by
  simp [unmapped, h]

section

variable (h : v.Evicts e v') (hw : Wf v) (hn : e.upage = n * pgsize)
include h hw hn

theorem evicts_page :
    (∃ x slot, v.findSpt e.ownerTid e.upage = some x ∧ v.isDirty e.ownerTid n = true ∧
      v'.findSpt e.ownerTid (n * pgsize) = some { x with location := .inSwap slot } ∧
      v'.swapDisk slot = v.mem e.kpage ∧ test v'.swapBitmap slot = true) ∨
    (∃ x, v.findSpt e.ownerTid e.upage = some x ∧ v.isDirty e.ownerTid n = false ∧
      v'.findSpt e.ownerTid (n * pgsize) = some { x with location := Core.cleanLocation x } ∧
      v'.files = v.files) ∨
    (v.findSpt e.ownerTid e.upage = none ∧ v.spt e.ownerTid = none ∧ v.isDirty e.ownerTid n = true ∧
      v'.findSpt e.ownerTid (n * pgsize) = none ∧ ∃ slot,
      v'.swapMap e.ownerTid (n * pgsize) = some slot ∧ v'.swapDisk slot = v.mem e.kpage ∧
      test v'.swapBitmap slot = true) ∨
    (v.findSpt e.ownerTid e.upage = none ∧ ¬ (v.spt e.ownerTid = none ∧ v.isDirty e.ownerTid n = true) ∧
      v'.findSpt e.ownerTid (n * pgsize) = none ∧
      v'.swapMap e.ownerTid (n * pgsize) = v.swapMap e.ownerTid e.upage) := by
  obtain ⟨-, hev⟩ := h.evicted hw
  obtain ⟨c, hc, hcore⟩ := hev.core
  have hspt : v'.spt = c.spt := (congrArg spt hcore :)
  have hmap : v'.swapMap = c.swapMap := (congrArg swapMap hcore :)
  have hdisk : v'.swapDisk = c.swapDisk := (congrArg swapDisk hcore :)
  have hbits : v'.swapBitmap = c.swapBitmap := (congrArg swapBitmap hcore :)
  have hfiles : v'.files = c.files := (congrArg files hcore :)
  have hdiv : e.upage / pgsize = n := by rw [hn, mul_pgsize_div]
  rw [findSpt.eq_1 v'.toCore, hspt, hmap, hdisk, hbits, hfiles, ← hn]
  rw [hdiv] at hc
  rcases saveVictim_cases hc with ⟨hd, slot, t, hslot, ht, rfl⟩ | ⟨hd, slot, hslot, ht, rfl⟩ |
    ⟨hd, x, hx, rfl⟩ | ⟨hd, hx, rfl⟩
  · have hused := test_set_self (v := true) (firstClear_some hslot).1
    cases hx : t.find e.upage with
    | some x =>
      refine .inl ⟨x, slot, by simp [findSpt, ht, hx], hd, ?_, update_self _ _ _, hused⟩
      simp [Spt.find_setLocation, hx]
    | none =>
      refine .inr (.inr (.inr ⟨by simp [findSpt, ht, hx], by simp [ht], ?_, rfl⟩))
      simp [Spt.find_setLocation, hx]
  · have hused := test_set_self (v := true) (firstClear_some hslot).1
    have hx : v.findSpt e.ownerTid e.upage = none := by simp [findSpt, ht]
    refine .inr (.inr (.inl ⟨hx, ht, hd, by simp [ht], slot, ?_, update_self _ _ _, hused⟩))
    simp
  · refine .inr (.inl ⟨x, hx, hd, ?_, rfl⟩)
    rw [← findSpt.eq_1 _, findSpt_setLocation, if_pos ⟨rfl, rfl⟩, hx]
    rfl
  · exact .inr (.inr (.inr ⟨hx, by simp [hd], hx, rfl⟩))

theorem recoverable_sameAt
    (hr : Recoverable v e) :
    SameAt n (Meaning.unmapped v'.toCore e.ownerTid n) (.bytes (v.mem e.kpage)) := by
  have hdiv : e.upage / pgsize = n := by rw [hn, mul_pgsize_div]
  unfold Recoverable at hr
  rw [hdiv] at hr
  rcases evicts_page h hw hn with ⟨x, slot, -, -, hx', hdata, -⟩ | ⟨x, hx, hd, hx', hf⟩ |
    ⟨hx, -, -, hx', slot, hslot, hdata, -⟩ | ⟨hx, hs, -⟩
  · rw [unmapped_of_find hx' (by simp), sameAt_bytes]
    exact hdata
  · simp only [hx, hd, Bool.false_eq_true, false_or] at hr
    rw [unmapped_of_find hx' (cleanLocation_ne x), sameAt_bytes, ← hr]
    exact cleanData_congr hf x
  · simp only [hx] at hr
    rw [unmapped_of_absent hx', hslot, map_some, sameAt_absent_some, hdata]
    exact ⟨rfl, hr.2.2⟩
  · simp only [hx] at hr
    exact absurd ⟨hr.1, hr.2.1⟩ hs

theorem recoverable_of_sameAt
    (hmap : v.swapMap e.ownerTid e.upage = none)
    (hsame : SameAt n (Meaning.unmapped v'.toCore e.ownerTid n) (.bytes (v.mem e.kpage))) :
    Recoverable v e := by
  have hdiv : e.upage / pgsize = n := by rw [hn, mul_pgsize_div]
  unfold Recoverable
  rw [hdiv]
  rcases evicts_page h hw hn with ⟨x, slot, hx, hd, -⟩ | ⟨x, hx, hd, hx', hf⟩ |
    ⟨hx, hs, hd, hx', slot, hslot, hdata, -⟩ | ⟨hx, -, hx', hmap'⟩
  · simp [hx, hd]
  · rw [unmapped_of_find hx' (cleanLocation_ne x), sameAt_bytes] at hsame
    simp only [hx, ← hsame]
    exact .inr (cleanData_congr hf x).symm
  · rw [unmapped_of_absent hx', hslot, map_some, sameAt_absent_some] at hsame
    simp only [hx]
    exact ⟨hs, hd, hsame.2⟩
  · rw [unmapped_of_absent hx', hmap', hmap] at hsame
    exact absurd hsame not_sameAt_absent_none

end

theorem heldSlot_of_find {c : Core} {slot : Nat}
    (h : c.findSpt tid (n * pgsize) = some { x with location := .inSwap slot }) :
    heldSlot c tid n = some slot := by
  simp [heldSlot, h]

theorem heldSlot_of_clean {c : Core}
    (h : c.findSpt tid (n * pgsize) = some { x with location := Core.cleanLocation x }) :
    heldSlot c tid n = none := by
  simp only [heldSlot, h]
  unfold cleanLocation
  by_cases hr : 0 < x.readBytes <;> cases x.pageType <;> simp [hr]

theorem heldSlot_of_absent {c : Core} (h : c.findSpt tid (n * pgsize) = none) :
    heldSlot c tid n = c.swapMap tid (n * pgsize) := by
  simp [heldSlot, h]

section

variable (h : v.Evicts e v') (hw : Wf v) (hn : e.upage = n * pgsize)
include h hw hn

theorem evicts_slotUsed
    (hrow : Recoverable v e ∨ v.swapMap e.ownerTid e.upage = none) (slot : Nat)
    (hs : heldSlot v'.toCore e.ownerTid n = some slot) : test v'.swapBitmap slot = true := by
  have hdiv : e.upage / pgsize = n := by rw [hn, mul_pgsize_div]
  rcases evicts_page h hw hn with ⟨x, slot', -, -, hx', -, hused⟩ | ⟨x, -, -, hx', -⟩ |
    ⟨-, -, -, hx', slot', hslot, -, hused⟩ | ⟨hx, hnot, hx', hmap⟩
  · rw [heldSlot_of_find hx', some.injEq] at hs
    exact hs ▸ hused
  · rw [heldSlot_of_clean hx'] at hs
    cases hs
  · rw [heldSlot_of_absent hx', hslot, some.injEq] at hs
    exact hs ▸ hused
  · rw [heldSlot_of_absent hx', hmap] at hs
    rcases hrow with hr | hnone
    · rw [Recoverable, hdiv] at hr
      simp only [hx] at hr
      exact absurd ⟨hr.1, hr.2.1⟩ hnot
    · rw [hnone] at hs
      cases hs

theorem recoverable_heldSlot
    (hr : Recoverable v e) :
    heldSlot v'.toCore e.ownerTid n = none ↔ v.isDirty e.ownerTid n = false := by
  have hdiv : e.upage / pgsize = n := by rw [hn, mul_pgsize_div]
  rcases evicts_page h hw hn with ⟨x, slot, -, hd, hx', -, -⟩ | ⟨x, -, hd, hx', -⟩ |
    ⟨-, -, hd, hx', slot, hslot, -, -⟩ | ⟨hx, hnot, -⟩
  · simp [heldSlot_of_find hx', hd]
  · simp [heldSlot_of_clean hx', hd]
  · simp [heldSlot_of_absent hx', hslot, hd]
  · rw [Recoverable, hdiv] at hr
    simp only [hx] at hr
    exact absurd ⟨hr.1, hr.2.1⟩ hnot

theorem sameAt_evicted_iff
    (hrow : Recoverable v e ∨ v.swapMap e.ownerTid e.upage = none) :
    SameAt n (Meaning.unmapped v'.toCore e.ownerTid n) (.bytes (v.mem e.kpage)) ↔ Recoverable v e :=
  ⟨fun hsame ↦ hrow.elim id fun hmap ↦ recoverable_of_sameAt h hw hn hmap hsame, recoverable_sameAt h hw hn⟩

end

end Rxv6.Userprog.Recovery
