import Rxv6.Mem.Malloc

namespace Rxv6.Mem

open Rxv6.Lib.Ram Rxv6.Lib.FreeList Rxv6.Lib.Runs List Option
open Rxv6.Vm (pgsize physBase)

structure Alloc where
  ptr : Nat
  layout : Layout
  deriving DecidableEq

namespace Alloc

def block (a : Alloc) : Block := ⟨a.ptr, a.layout.blockSize⟩

def range (p : Palloc) (a : Alloc) : Range :=
  ⟨false, (a.ptr - p.kernelPool.base) / pgsize, a.layout.pageCnt⟩

def Has (a : Alloc) (x : Nat) : Prop := a.ptr ≤ x ∧ x < a.ptr + a.layout.size

end Alloc

/-- The kernel allocator with its heap, the small and the large objects that are live, and the pages that
the rest of the kernel has. -/
structure Heap where
  malloc : Malloc
  heap : Range
  small : List Alloc
  large : List Alloc
  others : List Range

open Malloc

namespace Heap

def init (s : Pages) : Option Heap :=
  match Malloc.init s.palloc with
  | some (m, a) =>
    some ⟨m, ⟨false, (a - m.palloc.kernelPool.base) / pgsize, Malloc.heapInitPages⟩, [], [], s.live⟩
  | none => none

variable (h : Heap)

def mem : Bytes := h.malloc.palloc.mem

def live : List Alloc := h.small ++ h.large

def ranges : List Range := h.large.map (Alloc.range h.malloc.palloc) ++ h.others

def pages : Pages := ⟨h.malloc.palloc, h.heap :: h.ranges⟩

def region : Block := ⟨h.pages.addr h.heap, h.heap.cnt * pgsize⟩

/-- The calls of the allocator, the calls of the page allocator from elsewhere, and the writes of those who
hold the memory. -/
inductive Act
  | alloc (l : Layout)
  | dealloc (a : Alloc)
  | get (flags : PallocFlags) (pageCnt : Nat)
  | free (r : Range)
  | write (m : Bytes)

def remem (m : Bytes) : Heap := { h with malloc := { h.malloc with palloc := { h.malloc.palloc with mem := m } } }

def add (m : Malloc) (a : Alloc) : Heap :=
  if a.ptr = 0 then { h with malloc := m }
  else if a.layout.Large then { h with malloc := m, large := a :: h.large }
  else { h with malloc := m, small := a :: h.small }

def step : Act → Option Heap
  | .alloc l => (h.malloc.alloc l).map fun r ↦ h.add r.2 ⟨r.1, l⟩
  | .dealloc a =>
    let m := h.malloc.dealloc a.ptr a.layout
    some (if a.layout.Large then { h with malloc := m, large := h.large.erase a }
      else { h with malloc := m, small := h.small.erase a })
  | .get flags cnt =>
    match h.malloc.palloc.getMultiple flags cnt with
    | (.pages a, p) =>
      some { h with
        malloc := { h.malloc with palloc := p }
        others := ⟨flags.user, (a - (p.pool flags.user).base) / pgsize, cnt⟩ :: h.others }
    | (.null, p) => some { h with malloc := { h.malloc with palloc := p } }
    | (.panic, _) => none
  | .free r =>
    some { h with
      malloc := { h.malloc with palloc := h.malloc.palloc.freeMultiple (h.pages.addr r) r.cnt }
      others := h.others.erase r }
  | .write m => some (h.remem m)

/-- Alignments are at most a page, what is freed is live, and only the memory of live objects and of the
other pages is written. -/
def Honest : Act → Prop
  | .alloc l => l.log ≤ 12
  | .dealloc a => a ∈ h.live
  | .get _ _ => True
  | .free r => r ∈ h.others
  | .write m => ∀ x, (∀ a ∈ h.live, ¬ a.Has x) → (∀ r ∈ h.others, ¬ h.pages.Covers r x) → m x = h.mem x

structure Inv (free : List Block) : Prop where
  pages : h.pages.Inv
  placed : h.pages.Placed
  large : ∀ a ∈ h.large, a.layout.Large ∧ a.layout.log ≤ 12 ∧ h.pages.addr (a.range h.malloc.palloc) = a.ptr
  small : ∀ a ∈ h.small, ¬ a.layout.Large ∧ a.layout.blockAlign ∣ a.ptr
  tidy : Tidy h.region h.mem h.malloc.freeList free (h.small.map Alloc.block)

variable {h} {h' : Heap} {free : List Block} {x : Nat} {m : Bytes} {r : Range} {b : Block} {s : Pages}

namespace Inv

theorem covers_heap : h.pages.Covers h.heap x ↔ h.region.addr ≤ x ∧ x < h.region.stop := Iff.rfl

theorem not_region (hi : Inv h free) (hr : r ∈ h.ranges) (hx : h.pages.Covers r x) :
    ¬ (h.region.addr ≤ x ∧ x < h.region.stop) :=
  fun hin ↦ (pairwise_cons.mp hi.pages.covers_apart).1 r hr x hin hx

theorem region_of_block (hi : Inv h free) (hb : b ∈ free ++ h.small.map Alloc.block)
    (hx : b.addr ≤ x ∧ x < b.stop) : h.region.addr ≤ x ∧ x < h.region.stop := by
  have hin := hi.tidy.within hb
  exact ⟨hin.1.trans hx.1, hx.2.trans_le hin.2⟩

theorem honest_write (hm : ∀ x, ¬ (h.region.addr ≤ x ∧ x < h.region.stop) → m x = h.mem x) :
    h.pages.Honest (.write m) :=
  fun x hx ↦ hm x fun hin ↦ hx h.heap mem_cons_self hin

theorem tidy_congr (hi : Inv h free) (hm : ∀ x, h.region.addr ≤ x ∧ x < h.region.stop → m x = h.mem x) :
    Tidy h.region m h.malloc.freeList free (h.small.map Alloc.block) :=
  hi.tidy.congr fun _ hb _ hx hx' ↦ hm _ (hi.region_of_block (mem_append_left _ hb) ⟨hx, hx'⟩)

variable {a : Alloc} {l : Layout}

theorem has_block (hx : a.Has x) : a.block.addr ≤ x ∧ x < a.block.stop := by
  have hsize : a.layout.size ≤ a.layout.blockSize := (le_max_left _ _).trans Layout.size_le_blockSize
  refine ⟨hx.1, hx.2.trans_le ?_⟩
  exact Nat.add_le_add_left hsize _

theorem has_range (hi : Inv h free) (ha : a ∈ h.large) (hx : a.Has x) :
    h.pages.Covers (a.range h.malloc.palloc) x := by
  have hsize := has_block hx
  have hpages : a.layout.blockSize ≤ a.layout.pageCnt * pgsize := Layout.blockSize_le_pages
  rw [Pages.Covers, (hi.large a ha).2.2]
  exact ⟨hx.1, hsize.2.trans_le (Nat.add_le_add_left hpages _)⟩

theorem range_mem (ha : a ∈ h.large) : a.range h.malloc.palloc ∈ h.ranges :=
  mem_append_left _ (mem_map_of_mem ha)

section

variable (hi : Inv h free)

include hi

theorem write (hm : h.Honest (.write m)) : Inv (h.remem m) free := by
  refine ⟨hi.pages.written fun x hx ↦ ?_, hi.placed, hi.large, hi.small, hi.tidy.congr fun b hb x hx hx' ↦ ?_⟩
  · refine hm x (fun a ha hax ↦ ?_) fun r hr ↦ hx r (mem_cons_of_mem _ (mem_append_right _ hr))
    rcases mem_append.mp ha with ha | ha
    · have hblock : a.block ∈ free ++ h.small.map Alloc.block :=
        mem_append_right _ (mem_map_of_mem ha)
      exact hx h.heap mem_cons_self (hi.region_of_block hblock (has_block hax))
    · exact hx _ (mem_cons_of_mem _ (range_mem ha)) (hi.has_range ha hax)
  · have hin := hi.region_of_block (mem_append_left _ hb) ⟨hx, hx'⟩
    refine hm x (fun a ha hax ↦ ?_) fun r hr hc ↦ hi.not_region (mem_append_right _ hr) hc hin
    rcases mem_append.mp ha with ha | ha
    · have hap := (pairwise_append.mp hi.tidy.packed.apart).2.2 b hb a.block (mem_map_of_mem ha)
      have hax' := has_block hax
      simp only [Block.Apart, Block.stop] at hap hax'
      omega
    · exact hi.not_region (range_mem ha) (hi.has_range ha hax) hin

theorem alloc_small (hl : ¬ l.Large) :
    (∃ l₁ b l₂ m, free = l₁ ++ b :: l₂ ∧ (∀ c ∈ l₁, ¬ needed l.blockSize l.blockAlign c.addr ≤ c.size) ∧
        needed l.blockSize l.blockAlign b.addr ≤ b.size ∧
        h.malloc.alloc l = some (alignUp b.addr l.blockAlign, m) ∧ alignUp b.addr l.blockAlign ≠ 0 ∧
        Inv (h.add m ⟨alignUp b.addr l.blockAlign, l⟩)
          (l₁ ++ (leftover b (needed l.blockSize l.blockAlign b.addr) ++ l₂))) ∨
      ((∀ c ∈ free, ¬ needed l.blockSize l.blockAlign c.addr ≤ c.size) ∧
        h.malloc.alloc l = some (0, h.malloc)) := by
  rw [alloc, if_neg hl]
  rcases hi.tidy.allocSmall_cases hl with ⟨l₁, b, l₂, m', head', hfree, hno, hfit, hsmall, ht, hframe⟩ | ⟨hno, hsmall⟩
  · rw [show h.malloc.palloc.mem = h.mem from rfl, hsmall]
    have hb : b ∈ free := by simp [hfree]
    obtain ⟨hle, -, hdvd⟩ := hi.tidy.alignUp_spec hl hb
    have hne : alignUp b.addr l.blockAlign ≠ 0 := by
      have := hi.tidy.addr_pos
      have := (hi.tidy.within (mem_append_left _ hb)).1
      omega
    refine .inl ⟨l₁, b, l₂, _, hfree, hno, hfit, rfl, hne, ?_⟩
    rw [add, if_neg hne, if_neg hl]
    refine ⟨hi.pages.written (honest_write fun x hx ↦ hframe x fun c hc hxc ↦ ?_), hi.placed, hi.large,
      ?_, ht⟩
    · exact hx (hi.region_of_block (mem_append_left _ hc) hxc)
    · rintro a (- | ⟨-, ha⟩)
      · exact ⟨hl, hdvd⟩
      · exact hi.small a ha
  · refine .inr ⟨hno, ?_⟩
    rw [show h.malloc.palloc.mem = h.mem from rfl, hsmall]
    rfl

theorem alloc_large (hl : l.Large) (hlog : l.log ≤ 12) :
    (∃ idx m, h.malloc.alloc l = some (h.pages.addr ⟨false, idx, l.pageCnt⟩, m) ∧
        h.pages.addr ⟨false, idx, l.pageCnt⟩ ≠ 0 ∧ h.pages.FreeRun false l.pageCnt idx ∧
        Inv (h.add m ⟨h.pages.addr ⟨false, idx, l.pageCnt⟩, l⟩) free) ∨
      ((∀ k, ¬ h.pages.FreeRun false l.pageCnt k) ∧ h.malloc.alloc l = some (0, h.malloc)) := by
  rw [alloc, if_pos hl]
  rcases hi.pages.get_cases ⟨false, true, false⟩ l.pageCnt with ⟨idx, m, hget, hrun, -, hinv, hframe⟩ | ⟨hno, hget⟩
  · rw [show h.malloc.palloc = h.pages.palloc from rfl, hget]
    have hrange := hinv.addr_ne_zero mem_cons_self
    have hne : h.pages.addr ⟨false, idx, l.pageCnt⟩ ≠ 0 := hrange
    refine .inl ⟨idx, _, rfl, hne, hrun, ?_⟩
    rw [add, if_neg hne, if_pos hl]
    have hr : Alloc.range h.malloc.palloc ⟨h.pages.addr ⟨false, idx, l.pageCnt⟩, l⟩ = ⟨false, idx, l.pageCnt⟩ := by
      rw [Alloc.range]
      congr 1
      exact Pages.addr_idx ⟨false, idx, l.pageCnt⟩
    refine ⟨?_, hi.placed, ?_, hi.small, hi.tidy_congr fun x hx ↦ hframe x ?_ ?_⟩
    · have hperm : (⟨false, idx, l.pageCnt⟩ :: h.pages.live).Perm
          (h.heap :: (⟨false, idx, l.pageCnt⟩ :: h.ranges)) := Perm.swap _ _ _
      have hpages := hinv.perm hperm
      rw [← hr] at hpages
      exact hpages
    · rintro a (- | ⟨-, ha⟩)
      · exact ⟨hl, hlog, congrArg h.pages.addr hr⟩
      · exact hi.large a ha
    · exact hi.pages.covers_not_holds mem_cons_self (covers_heap.mpr hx) false
    · intro hc
      exact (pairwise_cons.mp hinv.covers_apart).1 h.heap mem_cons_self x hc (covers_heap.mpr hx)
  · refine .inr ⟨hno, ?_⟩
    rw [show h.malloc.palloc = h.pages.palloc from rfl, hget]
    simp only [Bool.false_eq_true, and_false]
    rfl

theorem free_range {l : List Range} (hp : h.ranges.Perm (r :: l)) :
    ∃ m, h.malloc.palloc.freeMultiple (h.pages.addr r) r.cnt = { h.malloc.palloc with mem := m } ∧
      Pages.Inv ⟨{ h.malloc.palloc with mem := m }, h.heap :: l⟩ ∧
      Tidy h.region m h.malloc.freeList free (h.small.map Alloc.block) := by
  have hr : r ∈ h.pages.live := mem_cons_of_mem _ (hp.mem_iff.mpr mem_cons_self)
  have hinv := hi.pages.freed hr
  have hfree := hi.pages.freeMultiple hr
  have hperm : (h.pages.live.erase r).Perm (h.heap :: l) := by
    have hlive : h.pages.live.Perm (r :: h.heap :: l) := (hp.cons h.heap).trans (Perm.swap _ _ _)
    exact ((perm_cons_erase hr).symm.trans hlive).cons_inv
  rw [hfree] at hinv
  refine ⟨_, hfree, hinv.perm hperm, hi.tidy_congr fun x hx ↦ ?_⟩
  exact Bitmap.setMultiple_other (hi.pages.range r hr).2
    (hi.pages.covers_not_holds mem_cons_self (covers_heap.mpr hx) r.user)

theorem dealloc_large (ha : a ∈ h.large) :
    Inv { h with malloc := h.malloc.dealloc a.ptr a.layout, large := h.large.erase a } free := by
  obtain ⟨hl, -, haddr⟩ := hi.large a ha
  have hp : h.ranges.Perm (a.range h.malloc.palloc ::
      ((h.large.erase a).map (Alloc.range h.malloc.palloc) ++ h.others)) :=
    ((perm_cons_erase ha).map _).append_right h.others
  obtain ⟨m, hfree, hinv, ht⟩ := hi.free_range hp
  have hne : a.ptr ≠ 0 := by
    rw [← haddr]
    exact hi.pages.addr_ne_zero (mem_cons_of_mem _ (range_mem ha))
  rw [haddr] at hfree
  rw [dealloc, if_neg hne, if_pos hl, show a.layout.pageCnt = (a.range h.malloc.palloc).cnt from rfl,
    hfree]
  exact ⟨hinv, hi.placed, fun b hb ↦ hi.large b (mem_of_mem_erase hb), hi.small, ht⟩

theorem dealloc_small (ha : a ∈ h.small) :
    Inv { h with malloc := h.malloc.dealloc a.ptr a.layout, small := h.small.erase a } (a.block :: free) := by
  have hl := (hi.small a ha).1
  have hperm : (h.small.map Alloc.block).Perm (a.block :: (h.small.erase a).map Alloc.block) :=
    (perm_cons_erase ha).map _
  have hblock : a.block ∈ free ++ h.small.map Alloc.block := mem_append_right _ (mem_map_of_mem ha)
  have hin := hi.tidy.within hblock
  have hne : a.ptr ≠ 0 := by
    have := hi.tidy.addr_pos
    have : h.region.addr ≤ a.ptr := hin.1
    omega
  have h8 := (hi.tidy.block _ hblock).1
  rw [dealloc, if_neg hne, if_neg hl]
  refine ⟨hi.pages.written (honest_write fun x hx ↦ ?_), hi.placed, hi.large,
    fun b hb ↦ hi.small b (mem_of_mem_erase hb), (hi.tidy.perm_used hperm).freed⟩
  have hout : ¬ (a.ptr ≤ x ∧ x < a.ptr + 8) := by
    intro hin'
    refine hx (hi.region_of_block hblock ⟨hin'.1, hin'.2.trans_le ?_⟩)
    exact Nat.add_le_add_left h8 _
  exact (store32_agree (n := 1) (by omega) x le_rfl (by omega)).trans
    (store32_agree (n := 1) (by omega) x le_rfl (by omega))

theorem get {flags : PallocFlags} {cnt : Nat} (hs : h.step (.get flags cnt) = some h') : Inv h' free := by
  simp only [step] at hs
  rcases hi.pages.get_cases flags cnt with ⟨idx, m, hget, -, -, hinv, hframe⟩ | ⟨-, hget⟩
  · rw [show h.malloc.palloc = h.pages.palloc from rfl, hget] at hs
    cases hs
    have hidx : (h.pages.addr ⟨flags.user, idx, cnt⟩ - (h.pages.pool flags.user).base) / pgsize = idx :=
      Pages.addr_idx ⟨flags.user, idx, cnt⟩
    have hperm : (⟨flags.user, idx, cnt⟩ :: h.pages.live).Perm
        (h.heap :: (h.large.map (Alloc.range h.malloc.palloc) ++ (⟨flags.user, idx, cnt⟩ :: h.others))) :=
      (Perm.swap _ _ _).trans (perm_middle.symm.cons h.heap)
    have hpages := hinv.perm hperm
    refine ⟨?_, hi.placed, hi.large, hi.small, hi.tidy_congr fun x hx ↦ hframe x ?_ fun hc ↦ ?_⟩
    · rw [← hidx] at hpages
      exact hpages
    · exact hi.pages.covers_not_holds mem_cons_self (covers_heap.mpr hx) flags.user
    · exact (pairwise_cons.mp hinv.covers_apart).1 h.heap mem_cons_self x hc (covers_heap.mpr hx)
  · rw [show h.malloc.palloc = h.pages.palloc from rfl, hget] at hs
    by_cases hpanic : cnt ≠ 0 ∧ flags.assert = true
    · simp [hpanic] at hs
    · rw [if_neg hpanic] at hs
      cases hs
      exact hi

theorem step {x : Act} (hx : h.Honest x) (hs : h.step x = some h') : ∃ free', Inv h' free' := by
  cases x with
  | alloc l =>
    simp only [Heap.step] at hs
    by_cases hl : l.Large
    · rcases hi.alloc_large hl hx with ⟨idx, m, halloc, -, -, hinv⟩ | ⟨-, halloc⟩
      · rw [halloc] at hs
        exact ⟨free, some.inj hs ▸ hinv⟩
      · rw [halloc] at hs
        exact ⟨free, some.inj hs ▸ hi⟩
    · rcases hi.alloc_small hl with ⟨l₁, b, l₂, m, -, -, -, halloc, -, hinv⟩ | ⟨-, halloc⟩
      · rw [halloc] at hs
        cases hs
        exact ⟨_, hinv⟩
      · rw [halloc] at hs
        exact ⟨free, some.inj hs ▸ hi⟩
  | dealloc a =>
    simp only [Heap.step] at hs
    rcases mem_append.mp hx with ha | ha
    · rw [if_neg (hi.small a ha).1] at hs
      exact ⟨_, some.inj hs ▸ hi.dealloc_small ha⟩
    · rw [if_pos (hi.large a ha).1] at hs
      exact ⟨free, some.inj hs ▸ hi.dealloc_large ha⟩
  | get flags cnt => exact ⟨free, hi.get hs⟩
  | free r =>
    have hp : h.ranges.Perm (r :: (h.large.map (Alloc.range h.malloc.palloc) ++ h.others.erase r)) :=
      ((perm_cons_erase hx).append_left _).trans perm_middle
    obtain ⟨m, hfree, hinv, ht⟩ := hi.free_range hp
    simp only [Heap.step, hfree] at hs
    cases hs
    exact ⟨free, hinv, hi.placed, hi.large, hi.small, ht⟩
  | write m => exact ⟨free, some.inj hs ▸ hi.write hx⟩

end

theorem init (hs : s.Inv) (hp : s.Placed) (h₀ : Heap.init s = some h) :
    Inv h [h.region] ∧ h.region.size = Malloc.heapInitPages * pgsize ∧ h.small = [] ∧ h.large = [] := by
  simp only [Heap.init, Malloc.init] at h₀
  rcases hs.get_cases ⟨true, true, false⟩ heapInitPages with ⟨idx, m, hget, hfree, -, hinv, -⟩ | ⟨-, hget⟩
  · rw [hget] at h₀
    simp only at h₀
    obtain ⟨start, hstart⟩ : ∃ a, a = s.addr ⟨false, idx, heapInitPages⟩ := ⟨_, rfl⟩
    have hidx : (start - (s.pool false).base) / pgsize = idx :=
      hstart ▸ Pages.addr_idx ⟨false, idx, heapInitPages⟩
    have haddr : start = (s.pool false).base + idx * pgsize := hstart
    have hne : start ≠ 0 := hstart ▸ hinv.addr_ne_zero mem_cons_self
    obtain ⟨hdvd, hstop⟩ := hp false
    have hend : start + 256 * 4096 + 4096 ≤ 2 ^ 32 ∧ 4 ∣ start := by
      have hmul := Nat.mul_le_mul_right pgsize hfree.2.1
      simp only [heapInitPages, pgsize] at *
      omega
    rw [← hstart] at h₀
    obtain ⟨m₂, hm₂⟩ : ∃ m₂, m₂ = store32 (store32 m start (heapInitPages * pgsize)) (start + 4) 0 :=
      ⟨_, rfl⟩
    rw [← hm₂] at h₀
    have hwrite : Pages.Inv ⟨{ s.palloc with mem := m₂ }, ⟨false, idx, heapInitPages⟩ :: s.live⟩ := by
      refine hinv.written fun x hx ↦ ?_
      have hout : ¬ (start ≤ x ∧ x < start + 8) := by
        intro hin
        refine hx _ mem_cons_self ?_
        change s.addr ⟨false, idx, heapInitPages⟩ ≤ x ∧
          x < s.addr ⟨false, idx, heapInitPages⟩ + heapInitPages * pgsize
        rw [← hstart]
        simp only [heapInitPages, pgsize]
        omega
      rw [hm₂]
      exact (store32_agree (n := 1) (by omega) x le_rfl (by omega)).trans
        (store32_agree (n := 1) (by omega) x le_rfl (by omega))
    cases h₀
    refine ⟨⟨?_, hp, by simp, by simp, ?_⟩, rfl, rfl, rfl⟩
    · rw [← hidx] at hwrite
      exact hwrite
    · have hregion : region ⟨⟨{ s.palloc with mem := m₂ }, start⟩,
          ⟨false, (start - (s.pool false).base) / pgsize, heapInitPages⟩, [], [], s.live⟩ =
          ⟨start, heapInitPages * pgsize⟩ := by
        rw [hidx, haddr]
        rfl
      have hsingle := Tidy.single (m := m) (n := heapInitPages * pgsize)
        (pos_of_ne_zero hne) hend.1 (by decide) hend.2 (by decide)
      rw [← hm₂] at hsingle
      exact hregion ▸ hsingle
  · rw [hget] at h₀
    cases h₀

section

variable (hi : Inv h free)
include hi

theorem alloc_isSome (hlog : l.log ≤ 12) : (h.malloc.alloc l).isSome := by
  by_cases hl : l.Large
  · rcases hi.alloc_large hl hlog with ⟨idx, m, halloc, -⟩ | ⟨-, halloc⟩ <;> rw [halloc] <;> rfl
  · rcases hi.alloc_small hl with ⟨l₁, b, l₂, m, -, -, -, halloc, -⟩ | ⟨-, halloc⟩ <;> rw [halloc] <;> rfl

theorem ptr_aligned (ha : a ∈ h.live) : a.ptr ≠ 0 ∧ a.layout.align ∣ a.ptr := by
  rcases mem_append.mp ha with ha | ha
  · have hin := hi.tidy.within (mem_append_right free (mem_map_of_mem ha))
    have hle : h.region.addr ≤ a.ptr := hin.1
    have hpos := hi.tidy.addr_pos
    exact ⟨by omega, Layout.align_dvd_blockAlign.trans (hi.small a ha).2⟩
  · obtain ⟨-, hlog, haddr⟩ := hi.large a ha
    rw [← haddr]
    refine ⟨hi.pages.addr_ne_zero (mem_cons_of_mem _ (range_mem ha)), ?_⟩
    have hpage : a.layout.align ∣ pgsize := pow_dvd_pow 2 hlog
    exact hpage.trans ((hi.placed false).1.add (dvd_mul_left _ _))

theorem live_apart : h.live.Pairwise fun a a' ↦ ∀ x, a.Has x → ¬ a'.Has x := by
  refine pairwise_append.mpr ⟨?_, ?_, fun a ha a' ha' x hx hx' ↦ ?_⟩
  · have hap := (pairwise_append.mp hi.tidy.packed.apart).2.1
    refine (pairwise_map.mp hap).imp fun {a a'} hap x hx hx' ↦ ?_
    have hb := has_block hx
    have hb' := has_block hx'
    simp only [Block.Apart] at hap hb hb'
    omega
  · have hap := (pairwise_append.mp (pairwise_cons.mp hi.pages.covers_apart).2).1
    refine (pairwise_map.mp hap).imp_of_mem fun {a a'} ha ha' hap x hx hx' ↦ ?_
    exact hap x (hi.has_range ha hx) (hi.has_range ha' hx')
  · have hblock : a.block ∈ free ++ h.small.map Alloc.block := mem_append_right _ (mem_map_of_mem ha)
    exact hi.not_region (range_mem ha') (hi.has_range ha' hx') (hi.region_of_block hblock (has_block hx))

theorem live_not_free (ha : a ∈ h.live) (hb : b ∈ free)
    (hx : a.Has x) : ¬ (b.addr ≤ x ∧ x < b.stop) := by
  intro hbx
  rcases mem_append.mp ha with ha | ha
  · have hap := (pairwise_append.mp hi.tidy.packed.apart).2.2 b hb a.block (mem_map_of_mem ha)
    have hax := has_block hx
    simp only [Block.Apart] at hap hax hbx
    omega
  · exact hi.not_region (range_mem ha) (hi.has_range ha hx) (hi.region_of_block (mem_append_left _ hb) hbx)

end

end Inv

theorem inv_of_run {ramPages kernelEnd userPageLimit : Nat} {h₀ : Heap} (hram : ramPages ≤ 16384)
    (hend : kernelEnd ≤ ramEnd ramPages)
    (boot : Run Pages.step Pages.Honest ⟨Mem.init ramPages kernelEnd userPageLimit m, []⟩ s)
    (hinit : init s = some h₀) (run : Run step Honest h₀ h) : ∃ free, Inv h free := by
  have hs : s.Inv := boot.invariant Pages.Inv (fun _ _ _ h hx hs ↦ h.step hx hs) (.init ..)
  refine run.invariant (fun h ↦ ∃ free, Inv h free) (fun t x t' ht hx hs ↦ ?_)
    ⟨_, (Inv.init hs (Pages.placed_of_run hram hend boot) hinit).1⟩
  obtain ⟨free, hi⟩ := ht
  exact hi.step hx hs

/-- The kernel heap over every run: live objects are aligned, lie in the heap or in pages of their own, and
have no byte in common with each other or with a free block; and the free list is finite and its blocks
are apart. -/
theorem heap_safe {ramPages kernelEnd userPageLimit : Nat} {s : Pages} {h₀ : Heap} (hram : ramPages ≤ 16384)
    (hend : kernelEnd ≤ ramEnd ramPages)
    (boot : Run Pages.step Pages.Honest ⟨Mem.init ramPages kernelEnd userPageLimit m, []⟩ s)
    (hinit : init s = some h₀) (run : Run step Honest h₀ h) :
    (∀ l : Layout, l.log ≤ 12 → (h.malloc.alloc l).isSome) ∧
      (∀ a ∈ h.live, a.ptr ≠ 0 ∧ a.layout.align ∣ a.ptr) ∧
      (∀ a ∈ h.live, ∀ x, a.Has x →
        if a.layout.Large then
          a.range h.malloc.palloc ∈ h.pages.live ∧ h.pages.Covers (a.range h.malloc.palloc) x
        else h.region.addr ≤ x ∧ x < h.region.stop) ∧
      (h.live.Pairwise fun a a' ↦ ∀ x, a.Has x → ¬ a'.Has x) ∧
      ∃ free, Chain h.mem h.malloc.freeList free ∧ free.Pairwise Block.Apart ∧
        ∀ b ∈ free, 8 ≤ b.size ∧ b.Within h.region ∧ ∀ a ∈ h.live, ∀ x, a.Has x → ¬ (b.addr ≤ x ∧ x < b.stop) := by
  obtain ⟨free, hi⟩ := inv_of_run hram hend boot hinit run
  refine ⟨fun l hlog ↦ hi.alloc_isSome hlog, fun a ha ↦ hi.ptr_aligned ha, fun a ha x hx ↦ ?_, hi.live_apart,
    free, hi.tidy.chain, (pairwise_append.mp hi.tidy.packed.apart).1, fun b hb ↦ ?_⟩
  · rcases mem_append.mp ha with ha | ha
    · rw [if_neg (hi.small a ha).1]
      exact hi.region_of_block (mem_append_right _ (mem_map_of_mem ha)) (Inv.has_block hx)
    · rw [if_pos (hi.large a ha).1]
      exact ⟨mem_cons_of_mem _ (Inv.range_mem ha), hi.has_range ha hx⟩
  · exact ⟨(hi.tidy.block b (mem_append_left _ hb)).1, hi.tidy.within (mem_append_left _ hb),
      fun a ha x hx ↦ hi.live_not_free ha hb hx⟩

def blank : Pages := ⟨Mem.init 1024 physBase 0 fun _ ↦ 0, []⟩

def smallAndLarge : Option Heap :=
  (init blank).bind fun h ↦ (h.step (.alloc ⟨24, 3, by decide⟩)).bind (·.step (.alloc ⟨5000, 0, by decide⟩))

theorem heap_safe_smallAndLarge :
    ∃ h, smallAndLarge = some h ∧ h.live.length = 2 ∧ h.live.Pairwise fun a a' ↦ ∀ x, a.Has x → ¬ a'.Has x := by
  have hlive : smallAndLarge.map (fun h ↦ h.live.length) = some 2 := by decide +kernel
  obtain ⟨h, hh, hlen⟩ := map_eq_some_iff.mp hlive
  obtain ⟨h₀, hinit, hrest⟩ := bind_eq_some_iff.mp hh
  obtain ⟨h₁, h01, h12⟩ := bind_eq_some_iff.mp hrest
  have h₁log : h₀.Honest (.alloc ⟨24, 3, by decide⟩) := show 3 ≤ 12 by decide
  have h₂log : h₁.Honest (.alloc ⟨5000, 0, by decide⟩) := show 0 ≤ 12 by decide
  have run : Run step Honest h₀ h := .snoc (.one h₁log h01) h₂log h12
  have hblank : Run Pages.step Pages.Honest ⟨Mem.init 1024 physBase 0 fun _ ↦ 0, []⟩ blank := .refl _
  have hsafe := heap_safe (by decide) (by decide) hblank hinit run
  exact ⟨h, hh, hlen, hsafe.2.2.2.1⟩

end Heap

end Rxv6.Mem
