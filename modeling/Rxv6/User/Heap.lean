import Rxv6.User.Allocator

namespace Rxv6.User

open Rxv6.Lib Rxv6.Lib.Ram Rxv6.Lib.FreeList Rxv6.Lib.Runs List Option
open Rxv6.Mem (Layout walkFuel)

structure Live where
  block : Block
  layout : Layout
  deriving DecidableEq

namespace Live

def ptr (a : Live) : Nat := a.block.addr + headerSize

def Has (a : Live) (x : Nat) : Prop := a.ptr ≤ x ∧ x < a.ptr + a.layout.size

end Live

structure Heap where
  allocator : FreeListAllocator
  start : Nat
  brk : Nat
  live : List Live

open Block FreeListAllocator

namespace Heap

variable (h : Heap)

def mem : Memory := h.allocator.mem

/-- What has been obtained from `sbrk`. -/
def region : Block := ⟨h.start, h.brk - h.start⟩

def used : List Block := h.live.map Live.block

inductive Act
  | alloc (l : Layout) (base : Int)
  | dealloc (a : Live)
  | write (m : Memory)

/-- The block of a pointer that `alloc` returns has its size in its header. -/
def add (r : Nat × Nat × FreeListAllocator) (l : Layout) : Heap :=
  if r.1 = 0 then { h with allocator := r.2.2, brk := h.brk + r.2.1 }
  else
    let addr := r.1 - headerSize
    { h with
      allocator := r.2.2
      brk := h.brk + r.2.1
      live := ⟨⟨addr, load32 r.2.2.mem addr⟩, l⟩ :: h.live }

def step : Act → Option Heap
  | .alloc l base => (h.allocator.alloc l base).map fun r ↦ h.add r l
  | .dealloc a => (h.allocator.dealloc a.ptr).map fun s ↦ { h with allocator := s, live := h.live.erase a }
  | .write m => some { h with allocator := { h.allocator with mem := m } }

/-- The total fits in `i32`; `sbrk` fails or returns the break, as an `i32`; what is freed is in use, and
only what is in use is written. -/
def Honest : Act → Prop
  | .alloc l base => totalSize l < 2 ^ 31 ∧ (base < 0 ∨ base = h.brk ∧ h.brk < 2 ^ 31)
  | .dealloc a => a ∈ h.live
  | .write m => ∀ x, (∀ a ∈ h.live, ¬ a.Has x) → m x = h.mem x

structure Inv (free : List Block) : Prop where
  start_pos : 0 < h.start
  start_le : h.start ≤ h.brk
  brk_le : h.brk ≤ 2 ^ 32
  chain : Chain h.mem h.allocator.head free
  arranged : Arranged h.region minBlock free h.used
  header : ∀ a ∈ h.live, load32 h.mem a.block.addr = a.block.size ∧ headerSize + a.layout.size ≤ a.block.size
  total : total free + total h.used = h.brk - h.start

def OnGrid (free : List Block) : Prop := headerSize ∣ h.brk ∧ Grid headerSize (free ++ h.used)

variable {h} {h' : Heap} {free : List Block} {l : Layout} {m : Memory} {base : Int} {a : Live}

theorem totalSize_ge (l : Layout) : headerSize + l.size ≤ totalSize l ∧ minBlock ≤ totalSize l := by
  have hfits := l.fits
  have halign : l.align + l.size ≤ 2 ^ 31 := by
    rw [Layout.align]
    omega
  have hle : max (headerSize + max l.align headerSize - 1 + l.size) minBlock ≤
      alignUp (max (headerSize + max l.align headerSize - 1 + l.size) minBlock) (2 ^ 3) :=
    le_alignUp (by omega) (by simp only [headerSize, minBlock]; omega)
  simp only [totalSize]
  rw [show headerSize = 2 ^ 3 from rfl] at *
  omega

theorem dvd_totalSize (l : Layout) : headerSize ∣ totalSize l := by
  have hfits := l.fits
  have hpos := Nat.two_pow_pos l.log
  refine dvd_alignUp (k := 3) (by decide) ?_
  simp only [Layout.align, headerSize, minBlock]
  omega

namespace Inv

theorem region_stop (hi : Inv h free) : h.region.stop = h.brk := Nat.add_sub_cancel' hi.start_le

theorem size (hi : Inv h free) {b : Block} (hb : b ∈ free ++ h.used) : 16 ≤ b.size := hi.arranged.size b hb

theorem length_lt (hi : Inv h free) : free.length < walkFuel := by
  have hlen := length_mul_le_total fun b hb ↦ hi.size (mem_append_left _ hb)
  have := hi.total
  have := hi.brk_le
  simp only [walkFuel]
  omega

theorem used_mem (ha : a ∈ h.live) : a.block ∈ free ++ h.used :=
  mem_append_right _ (mem_map_of_mem ha)

theorem header_congr (hi : Inv h free)
    (hm : ∀ x, x < h.region.stop → (∀ c ∈ free, ¬ (c.addr ≤ x ∧ x < c.stop)) → m x = h.mem x) :
    ∀ a ∈ h.live, load32 m a.block.addr = a.block.size ∧ headerSize + a.layout.size ≤ a.block.size := by
  intro a ha
  obtain ⟨hload, hfit⟩ := hi.header a ha
  refine ⟨?_, hfit⟩
  rw [← hload]
  refine load32_congr fun x hx hx' ↦ hm x ?_ fun c hc hcx ↦ ?_
  · have hin := (hi.arranged.packed.within _ (used_mem ha)).2
    have := hi.size (used_mem ha)
    simp only [stop] at *
    omega
  · have hap := (pairwise_append.mp hi.arranged.packed.apart).2.2 c hc a.block (mem_map_of_mem ha)
    have := hi.size (used_mem ha)
    simp only [Apart, stop] at *
    omega

theorem write (hi : Inv h free) (hm : h.Honest (.write m)) :
    Inv { h with allocator := { h.allocator with mem := m } } free := by
  refine ⟨hi.start_pos, hi.start_le, hi.brk_le, hi.chain.congr fun b hb x hx hx' ↦ hm x fun a ha hax ↦ ?_,
    hi.arranged, fun a ha ↦ ⟨?_, (hi.header a ha).2⟩, hi.total⟩
  · have hap := (pairwise_append.mp hi.arranged.packed.apart).2.2 b hb a.block (mem_map_of_mem ha)
    have := hi.size (mem_append_left _ hb)
    have := (hi.header a ha).2
    simp only [Apart, stop, Live.Has, Live.ptr] at *
    omega
  · refine (load32_congr fun x hx hx' ↦ hm x fun c hc hcx ↦ ?_).trans (hi.header a ha).1
    have hfit := (hi.header c hc).2
    have ha16 := hi.size (used_mem ha)
    by_cases hac : a.block = c.block
    · rw [hac] at hx'
      simp only [Live.Has, Live.ptr, headerSize] at hcx
      omega
    · have hap := hi.arranged.packed.apart.forall (used_mem ha) (used_mem hc) hac
      simp only [Apart, stop, Live.Has, Live.ptr] at *
      omega

theorem handed (hi : Inv h free) {addr size g : Nat} {s : FreeListAllocator} {free' : List Block}
    (hbrk : h.brk + g ≤ 2 ^ 32) (hchain : Chain s.mem s.head free')
    (harr : Arranged ⟨h.start, h.brk + g - h.start⟩ minBlock free' (⟨addr, size⟩ :: h.used))
    (hload : load32 s.mem addr = size) (hfit : headerSize + l.size ≤ size)
    (hheader : ∀ a ∈ h.live, load32 s.mem a.block.addr = a.block.size ∧
      headerSize + a.layout.size ≤ a.block.size)
    (htotal : FreeList.total free' + size + FreeList.total h.used = h.brk + g - h.start)
    (hgrid : h.OnGrid free → headerSize ∣ h.brk + g ∧ Grid headerSize (free' ++ ⟨addr, size⟩ :: h.used)) :
    Inv (h.add (addr + headerSize, g, s) l) free' ∧
      (h.OnGrid free → (h.add (addr + headerSize, g, s) l).OnGrid free') := by
  have hne : addr + headerSize ≠ 0 := by simp [headerSize]
  rw [add, if_neg hne]
  simp only [Nat.add_sub_cancel, hload]
  refine ⟨⟨hi.start_pos, hi.start_le.trans (Nat.le_add_right _ _), hbrk, hchain, harr, ?_, ?_⟩, hgrid⟩
  · rintro a (- | ⟨-, ha⟩)
    · exact ⟨hload, hfit⟩
    · exact hheader a ha
  · simp only [used, map_cons, total_cons] at *
    omega

section Taken

variable {l₁ l₂ : List Block} {b : Block}

theorem perm_free (hfree : free = l₁ ++ b :: l₂) : (free ++ h.used).Perm (b :: (l₁ ++ l₂ ++ h.used)) := by
  rw [hfree, append_assoc, append_assoc]
  exact perm_middle

theorem free_block (hi : Inv h free) (hfree : free = l₁ ++ b :: l₂) :
    h.start ≤ b.addr ∧ b.addr + b.size ≤ h.brk ∧ 16 ≤ b.size ∧
      ∀ c ∈ l₁ ++ l₂ ++ h.used, 16 ≤ c.size ∧ (b.addr + b.size ≤ c.addr ∨ c.addr + c.size ≤ b.addr) := by
  have hperm := perm_free (h := h) hfree
  have hpack := hi.arranged.packed.perm hperm
  have hin := hpack.within b mem_cons_self
  rw [Within, hi.region_stop] at hin
  exact ⟨hin.1, hin.2, hi.size (hperm.mem_iff.mpr mem_cons_self), fun c hc ↦
    ⟨hi.size (hperm.mem_iff.mpr (mem_cons_of_mem _ hc)), hpack.head c hc⟩⟩

theorem split (hi : Inv h free) {n : Nat} (hfree : free = l₁ ++ b :: l₂)
    (hn : minBlock ≤ n) (hfit : headerSize + l.size ≤ n) (hrest : minBlock ≤ b.size - n)
    (hdvd : headerSize ∣ n) :
    let m := store32 (store32 h.mem b.addr (b.size - n)) (b.addr + (b.size - n)) n
    let h' := h.add (b.addr + (b.size - n) + headerSize, 0, ⟨store32 m (b.addr + (b.size - n) + 4) 0,
      h.allocator.head⟩) l
    Inv h' (l₁ ++ ⟨b.addr, b.size - n⟩ :: l₂) ∧ (h.OnGrid free → h'.OnGrid (l₁ ++ ⟨b.addr, b.size - n⟩ :: l₂)) := by
  obtain ⟨hlo, hhi, -, hother⟩ := hi.free_block hfree
  have hbrk := hi.brk_le
  have hmin : minBlock = 16 := rfl
  have hsorted := hi.arranged.sorted
  have htotal := hi.total
  have hchain := hi.chain
  rw [hfree] at hsorted htotal hchain
  obtain ⟨hs₁, hs₂, hs₁₂⟩ := pairwise_append.mp hsorted
  obtain ⟨hbl, hs₂⟩ := pairwise_cons.mp hs₂
  have hcut : Packed h.region (⟨b.addr, b.size - n⟩ :: ⟨b.addr + (b.size - n), n⟩ :: (l₁ ++ l₂ ++ h.used)) :=
    (hi.arranged.packed.perm (perm_free hfree)).split (by simp only [Within, stop]; omega)
      (by simp only [Within, stop]; omega) (by simp only [Apart, stop]; omega)
  have hperm : (⟨b.addr, b.size - n⟩ :: ⟨b.addr + (b.size - n), n⟩ :: (l₁ ++ l₂ ++ h.used)).Perm
      ((l₁ ++ ⟨b.addr, b.size - n⟩ :: l₂) ++ (⟨b.addr + (b.size - n), n⟩ :: h.used)) := by
    rw [perm_iff_count]
    simp only [count_append, count_cons]
    omega
  have hsize : Chain (store32 h.mem b.addr (b.size - n)) h.allocator.head (l₁ ++ ⟨b.addr, b.size - n⟩ :: l₂) := by
    refine hchain.store_size (by omega) fun c hc ↦ ?_
    have := hother c (mem_append_left _ hc)
    omega
  refine hi.handed (by omega) (hsize.of_header (fun x hx ↦ store_header_frame hx)
    fun c hc ↦ ?_) ⟨?_, hcut.perm hperm, fun c hc ↦ ?_⟩ ?_ hfit (hi.header_congr fun x hx hxfree ↦ ?_) ?_
    fun hg ↦ ⟨hg.1, fun c hc ↦ ?_⟩
  · rcases mem_append.mp hc with hc | hc
    · have := hother c (by simp [hc])
      omega
    · rcases mem_cons.mp hc with rfl | hc
      · simp only
        omega
      · have := hother c (by simp [hc])
        omega
  · refine pairwise_append.mpr ⟨hs₁, pairwise_cons.mpr ⟨fun c hc ↦ ?_, hs₂⟩, fun c hc d hd ↦ ?_⟩
    · have := hbl c hc
      simp only [stop] at *
      omega
    · rcases mem_cons.mp hd with rfl | hd
      · exact hs₁₂ c hc b mem_cons_self
      · exact hs₁₂ c hc d (mem_cons_of_mem _ hd)
  · have hc := hperm.mem_iff.mpr hc
    rcases mem_cons.mp hc with rfl | hc
    · exact hrest
    · rcases mem_cons.mp hc with rfl | hc
      · exact hn
      · exact (hother c hc).1
  · rw [load32_store32_of_apart (by omega), load32_store32 (by omega)]
  · have hxb := hxfree b (by simp [hfree])
    simp only [stop] at hxb
    exact (store_header_frame (by omega)).trans (store_size_frame (by omega))
  · simp only [total_append, total_cons] at *
    omega
  · obtain ⟨haddr, hsize⟩ := hg.2 b (by simp [hfree])
    rcases mem_cons.mp (hperm.mem_iff.mpr hc) with rfl | hc
    · exact ⟨haddr, Nat.dvd_sub hsize hdvd⟩
    · rcases mem_cons.mp hc with rfl | hc
      · exact ⟨dvd_add haddr (Nat.dvd_sub hsize hdvd), hdvd⟩
      · exact hg.2 c ((perm_free hfree).mem_iff.mpr (mem_cons_of_mem _ hc))

theorem whole (hi : Inv h free) (hfree : free = l₁ ++ b :: l₂) (hfit : headerSize + l.size ≤ b.size) :
    let r := relink h.mem h.allocator.head (last 0 l₁) (load32 h.mem (b.addr + 4))
    let h' := h.add (b.addr + headerSize, 0, ⟨store32 r.1 (b.addr + 4) 0, r.2⟩) l
    Inv h' (l₁ ++ l₂) ∧ (h.OnGrid free → h'.OnGrid (l₁ ++ l₂)) := by
  obtain ⟨hlo, hhi, hb16, hother⟩ := hi.free_block hfree
  have hbrk := hi.brk_le
  have hsorted := hi.arranged.sorted
  have htotal := hi.total
  have hchain := hi.chain
  have hpack := hi.arranged.packed
  rw [hfree] at hsorted htotal hchain hpack
  have hsub : (l₁ ++ l₂).Sublist (l₁ ++ b :: l₂) := (sublist_cons_self b l₂).append_left l₁
  obtain ⟨hrest, hframe⟩ := hchain.remove hpack.left (by rw [hi.region_stop]; exact hbrk) fun c hc ↦
    (by decide : 8 ≤ 16).trans (hi.size (mem_append_left _ (hfree ▸ hc)))
  have hperm : (b :: (l₁ ++ l₂ ++ h.used)).Perm ((l₁ ++ l₂) ++ (b :: h.used)) := perm_middle.symm
  have hall := (perm_free hfree).trans hperm
  refine hi.handed (by omega) (hrest.of_header (fun x hx ↦ store_next_frame hx) fun c hc ↦ ?_)
    ⟨hsorted.sublist hsub, hi.arranged.packed.perm hall, fun c hc ↦ hi.size (hall.mem_iff.mpr hc)⟩ ?_ hfit
    (hi.header_congr fun x hx hxfree ↦ ?_) ?_ fun hg ↦ ⟨hg.1, fun c hc ↦ hg.2 c (hall.mem_iff.mpr hc)⟩
  · have := hother c (mem_append_left _ hc)
    omega
  · rw [load32_store32_of_apart (by omega), ← hchain.node.2.1]
    refine load32_congr fun x hx hx' ↦ hframe x fun c hc hcx ↦ ?_
    have := hother c (by simp [hc])
    simp only [stop] at hcx
    omega
  · have hxb := hxfree b (by simp [hfree])
    simp only [stop] at hxb
    exact (store_next_frame (by omega)).trans (hframe x fun c hc ↦ hxfree c (by simp [hfree, hc]))
  · simp only [total_append, total_cons] at *
    omega

end Taken

section Grown

variable (hbrk : h.brk < 2 ^ 31) {n grow : Nat} (hgrow : grow < 2 ^ 31)

theorem fresh (hi : Inv h free) (hmin : minBlock ≤ grow) :
    Arranged ⟨h.start, h.brk + grow - h.start⟩ minBlock free (⟨h.brk, grow⟩ :: h.used) := by
  have hle := hi.start_le
  have hregion : h.region.Within ⟨h.start, h.brk + grow - h.start⟩ := by
    simp only [Within, stop, region]
    omega
  have hbehind : ∀ c ∈ free ++ h.used, (⟨h.brk, grow⟩ : Block).Apart c := by
    intro c hc
    have hin := (hi.arranged.packed.within c hc).2
    rw [hi.region_stop] at hin
    exact .inr hin
  have hpack : Packed ⟨h.start, h.brk + grow - h.start⟩ (⟨h.brk, grow⟩ :: (free ++ h.used)) := by
    refine (hi.arranged.packed.grow hregion).cons ?_ hbehind
    simp only [Within, stop]
    omega
  refine ⟨hi.arranged.sorted, hpack.perm perm_middle.symm, fun c hc ↦ ?_⟩
  rcases mem_cons.mp (perm_middle.mem_iff.mp hc) with rfl | hc
  · exact hmin
  · exact hi.size hc

theorem below_brk (hi : Inv h free) {c : Block} (hc : c ∈ free) : c.addr + 8 ≤ h.brk := by
  have hin := (hi.arranged.packed.within c (mem_append_left _ hc)).2
  have := hi.size (mem_append_left _ hc)
  rw [hi.region_stop] at hin
  simp only [stop] at hin
  omega

include hbrk hgrow

theorem grown (hi : Inv h free) (hmin : minBlock ≤ grow) (hfit : headerSize + l.size ≤ grow)
    (hdvd : headerSize ∣ grow) :
    let h' := h.add (h.brk + headerSize, grow,
      ⟨store32 (store32 h.mem h.brk grow) (h.brk + 4) 0, h.allocator.head⟩) l
    Inv h' free ∧ (h.OnGrid free → h'.OnGrid free) := by
  have hle := hi.start_le
  have htotal := hi.total
  refine hi.handed (by omega) (hi.chain.of_header (fun x hx ↦ store_header_frame hx)
    fun c hc ↦ .inl (hi.below_brk hc)) (hi.fresh hmin) ?_ hfit (hi.header_congr fun x hx _ ↦ ?_) (by omega)
    fun hg ↦ ⟨dvd_add hg.1 hdvd, fun c hc ↦ ?_⟩
  · rw [load32_store32_of_apart (by omega), load32_store32 (by omega)]
  · rw [hi.region_stop] at hx
    exact store_header_frame (by omega)
  · rcases mem_cons.mp (perm_middle.mem_iff.mp hc) with rfl | hc
    · exact ⟨hg.1, hdvd⟩
    · exact hg.2 c hc

theorem grown_split (hi : Inv h free) (hn : minBlock ≤ n) (hfit : headerSize + l.size ≤ n)
    (hrest : minBlock ≤ grow - n) (hdvd : headerSize ∣ n) (hdvd' : headerSize ∣ grow) :
    let m := store32 (store32 h.mem h.brk grow) (h.brk + 4) 0
    let m := store32 (store32 m (h.brk + n) (grow - n)) (h.brk + n + 4) 0
    ∃ s free', FreeListAllocator.freeListInsert ⟨m, h.allocator.head⟩ (h.brk + n) = some s ∧
      let h' := h.add (h.brk + headerSize, grow, ⟨store32 s.mem h.brk n, s.head⟩) l
      Inv h' free' ∧ (h.OnGrid free → h'.OnGrid free') := by
  intro m₁ m₂
  have hle := hi.start_le
  have hpos := hi.start_pos
  have htotal := hi.total
  have hmin : minBlock = 16 := rfl
  have hgrown : minBlock ≤ grow := by omega
  have hfresh := hi.fresh hgrown
  have hperm : (⟨h.brk + n, grow - n⟩ :: ⟨h.brk, n⟩ :: (free ++ h.used)).Perm
      (free ++ (⟨h.brk + n, grow - n⟩ :: ⟨h.brk, n⟩ :: h.used)) := by
    rw [perm_iff_count]
    simp only [count_append, count_cons]
    omega
  have harr : Arranged ⟨h.start, h.brk + grow - h.start⟩ minBlock free
      (⟨h.brk + n, grow - n⟩ :: ⟨h.brk, n⟩ :: h.used) := by
    refine ⟨hfresh.sorted, Packed.perm ((hfresh.packed.perm perm_middle).split ?_ ?_ ?_) hperm, fun c hc ↦ ?_⟩
    · simp only [Within, stop]
      omega
    · simp only [Within, stop]
      omega
    · simp only [Apart, stop]
      omega
    · rcases mem_cons.mp (hperm.mem_iff.mpr hc) with rfl | hc
      · exact hrest
      · rcases mem_cons.mp hc with rfl | hc
        · exact hn
        · exact hi.size hc
  have hframe : ∀ x, x < h.brk → m₂ x = h.mem x := fun x hx ↦
    (store_header_frame (by omega)).trans (store_header_frame (by omega))
  have hchain : Chain m₂ h.allocator.head free := by
    refine hi.chain.congr fun c hc x hx hx' ↦ hframe x ?_
    have := hi.below_brk hc
    omega
  have hload : load32 m₂ (h.brk + n) = grow - n := by
    rw [load32_store32_of_apart (by omega), load32_store32 (by omega)]
  have hregion : (⟨h.start, h.brk + grow - h.start⟩ : Block).stop ≤ 2 ^ 32 := by
    simp only [stop]
    omega
  obtain ⟨m', head', free', hins, hchain', harr', htotal', hgrid', hframe'⟩ :=
    freeListInsert_spec hpos hregion harr hchain hload hi.length_lt
  refine ⟨⟨m', head'⟩, free', hins, ?_⟩
  refine hi.handed (by omega) (hchain'.of_header (fun x hx ↦ store_size_frame hx) fun c hc ↦ ?_)
    harr' (load32_store32 (by omega)) hfit (hi.header_congr fun x hx hxfree ↦ ?_) ?_
    fun hg ↦ ⟨dvd_add hg.1 hdvd', ?_⟩
  · have hap := (pairwise_append.mp harr'.packed.apart).2.2 c hc ⟨h.brk, n⟩ mem_cons_self
    have := harr'.size c (mem_append_left _ hc)
    simp only [Apart, stop] at hap
    omega
  · rw [hi.region_stop] at hx
    refine (store_size_frame (by omega)).trans ((hframe' x fun c hc hcx ↦ ?_).trans (hframe x hx))
    rcases mem_cons.mp hc with rfl | hc
    · simp only at hcx
      omega
    · refine hxfree c hc ⟨hcx.1, ?_⟩
      have := hi.size (mem_append_left _ hc)
      simp only [stop]
      omega
  · simp only at htotal'
    omega
  · obtain ⟨hfree, hused⟩ := forall_mem_append.mp hg.2
    have hrest : headerSize ∣ h.brk + n ∧ headerSize ∣ grow - n := ⟨dvd_add hg.1 hdvd, Nat.dvd_sub hdvd' hdvd⟩
    exact forall_mem_append.mpr ⟨hgrid' _ (forall_mem_cons.mpr ⟨hrest, hfree⟩),
      forall_mem_cons.mpr ⟨⟨hg.1, hdvd⟩, hused⟩⟩

end Grown

theorem alloc (hi : Inv h free) (hx : h.Honest (.alloc l base)) :
    ∃ r free', h.allocator.alloc l base = some r ∧
      (Inv (h.add r l) free' ∧ (h.OnGrid free → (h.add r l).OnGrid free')) ∧
      (base < 0 → (∀ b ∈ free, b.size < totalSize l) → r = (0, 0, h.allocator)) := by
  obtain ⟨hfit, hmin⟩ := totalSize_ge l
  have hdvd := dvd_totalSize l
  obtain ⟨l₁, l₂, hfree, hno, hyes, hwalk⟩ :=
    walk_spec (fun _ n ↦ totalSize l ≤ n) 0 hi.chain hi.length_lt
  simp only [FreeListAllocator.alloc]
  rw [show h.allocator.mem = h.mem from rfl, hwalk]
  simp only [bind_some]
  cases l₂ with
  | nil =>
    rcases hx.2 with hneg | ⟨rfl, hbrk⟩
    · rw [if_pos hneg]
      exact ⟨_, free, rfl, ⟨hi, id⟩, fun _ _ ↦ rfl⟩
    · have hgrow : max (totalSize l) 4096 < 2 ^ 31 := by
        have := hx.1
        omega
      have hnonneg : ¬ (h.brk : Int) < 0 := by omega
      have hdvd' : headerSize ∣ max (totalSize l) 4096 := by
        rcases max_choice (totalSize l) 4096 with h | h <;> rw [h]
        · exact hdvd
        · decide
      rw [Int.toNat_natCast]
      by_cases hrest : totalSize l < max (totalSize l) 4096 ∧ minBlock ≤ max (totalSize l) 4096 - totalSize l
      · rw [if_pos hrest]
        obtain ⟨s, free', hins, hinv⟩ := hi.grown_split hbrk hgrow hmin hfit hrest.2 hdvd hdvd'
        rw [hins]
        exact ⟨_, free', rfl, hinv, fun hneg ↦ absurd hneg hnonneg⟩
      · rw [if_neg hrest]
        have hinv := hi.grown hbrk hgrow (hmin.trans (le_max_left _ _)) (hfit.trans (le_max_left _ _)) hdvd'
        exact ⟨_, free, rfl, hinv, fun hneg ↦ absurd hneg hnonneg⟩
  | cons b l₂ =>
    have hb : b ∈ free := by simp [hfree]
    have hne : b.addr ≠ 0 := (hfree ▸ hi.chain).node.1
    have hload : load32 h.mem b.addr = b.size := (hfree ▸ hi.chain).node.2.1
    have hlarge : totalSize l ≤ b.size := by simpa using hyes b rfl
    simp only [first, ne_eq, hne, hload]
    by_cases hrest : minBlock ≤ b.size - totalSize l
    · rw [if_pos hrest]
      exact ⟨_, _, rfl, hi.split hfree hmin hfit hrest hdvd, fun _ hsmall ↦ absurd (hsmall b hb) (not_lt.mpr hlarge)⟩
    · rw [if_neg hrest]
      exact ⟨_, _, rfl, hi.whole hfree (hfit.trans hlarge), fun _ hsmall ↦
        absurd (hsmall b hb) (not_lt.mpr hlarge)⟩

theorem dealloc (hi : Inv h free) (ha : a ∈ h.live) :
    ∃ s free', h.allocator.dealloc a.ptr = some s ∧
      (Inv { h with allocator := s, live := h.live.erase a } free' ∧
        (h.OnGrid free → OnGrid { h with allocator := s, live := h.live.erase a } free')) := by
  have hperm := perm_cons_erase ha
  have hused : h.used.Perm (a.block :: (h.live.erase a).map Live.block) := hperm.map _
  have hpos : 0 < h.region.addr := hi.start_pos
  obtain ⟨m', head', free', hins, hchain, harr, htotal, hgrid, hframe⟩ :=
    freeListInsert_spec hpos (by rw [hi.region_stop]; exact hi.brk_le)
      (hi.arranged.perm hused) hi.chain (hi.header a ha).1 hi.length_lt
  refine ⟨⟨m', head'⟩, free', ?_, ⟨hi.start_pos, hi.start_le, hi.brk_le, hchain, harr, fun c hc ↦ ?_, ?_⟩,
    fun hg ↦ ⟨hg.1, ?_⟩⟩
  · exact hins
  · have hmem := mem_of_mem_erase hc
    refine ⟨(load32_congr fun x hx hx' ↦ hframe x fun d hd hdx ↦ ?_).trans (hi.header c hmem).1,
      (hi.header c hmem).2⟩
    have hall : (free ++ h.used).Perm ((a.block :: free) ++ (h.live.erase a).map Live.block) :=
      (hused.append_left free).trans perm_middle
    have hap := (pairwise_append.mp (hi.arranged.packed.perm hall).apart).2.2 d hd c.block
      (mem_map_of_mem hc)
    have := hi.size (hall.mem_iff.mpr (mem_append_left _ hd))
    have := hi.size (used_mem hmem)
    simp only [Apart, stop] at hap
    omega
  · have hsum := hi.total
    have hpermTotal := total_perm hused
    simp only [total_cons] at hpermTotal
    change FreeList.total free' + FreeList.total ((h.live.erase a).map Live.block) = h.brk - h.start
    omega
  · obtain ⟨hfree, hblocks⟩ := forall_mem_append.mp hg.2
    obtain ⟨hblock, hrest⟩ := forall_mem_cons.mp fun c hc ↦ hblocks c (hused.mem_iff.mpr hc)
    exact forall_mem_append.mpr ⟨hgrid _ (forall_mem_cons.mpr ⟨hblock, hfree⟩), hrest⟩

theorem step (hi : Inv h free) {x : Act} (hx : h.Honest x) (hs : h.step x = some h') :
    ∃ free', Inv h' free' ∧ (h.OnGrid free → h'.OnGrid free') := by
  cases x with
  | alloc l base =>
    obtain ⟨r, free', halloc, hinv, -⟩ := hi.alloc hx
    simp only [Heap.step, halloc, map_some, some.injEq] at hs
    exact ⟨free', hs ▸ hinv⟩
  | dealloc a =>
    obtain ⟨s, free', hdealloc, hinv⟩ := hi.dealloc hx
    simp only [Heap.step, hdealloc, map_some, some.injEq] at hs
    exact ⟨free', hs ▸ hinv⟩
  | write m => exact ⟨free, some.inj hs ▸ ⟨hi.write hx, id⟩⟩

end Inv

/-- A process that has not allocated anything: the break is where `sbrk` starts. -/
def fresh (m : Memory) (start : Nat) : Heap := ⟨⟨m, 0⟩, start, start, []⟩

theorem Inv.init (m : Memory) {start : Nat} (hpos : 0 < start) (hstart : start < 2 ^ 32) :
    Inv (Heap.fresh m start) [] :=
  ⟨hpos, le_rfl, hstart.le, rfl, ⟨Pairwise.nil, ⟨by simp [used, Heap.fresh], Pairwise.nil⟩,
    by simp [used, Heap.fresh]⟩, by simp [Heap.fresh], by simp [used, Heap.fresh]⟩

/-- The allocator of user programs over every run: the calls return; the blocks in use and the free
blocks do not overlap; the free list is sorted and merged; no byte from `sbrk` is lost; and a request for
which there is no block and no memory changes nothing. -/
theorem allocator_exact {start : Nat} (hpos : 0 < start) (hstart : start < 2 ^ 32)
    (run : Run Heap.step Honest (Heap.fresh m start) h) :
    ∃ free, Chain h.mem h.allocator.head free ∧ Sorted free ∧ (free ++ h.used).Pairwise Block.Apart ∧
      (∀ b ∈ free ++ h.used, b.Within h.region) ∧
      total free + total h.used = h.brk - h.start ∧
      (∀ a ∈ h.live, load32 h.mem a.block.addr = a.block.size ∧ headerSize + a.layout.size ≤ a.block.size) ∧
      (∀ x, h.Honest x → (h.step x).isSome) ∧
      ∀ l base, totalSize l < 2 ^ 31 → base < 0 → (∀ b ∈ free, b.size < totalSize l) →
        h.allocator.alloc l base = some (0, 0, h.allocator) := by
  obtain ⟨free, hi⟩ : ∃ free, Inv h free := by
    refine run.invariant (fun h ↦ ∃ free, Inv h free) (fun t x t' ht hx hs ↦ ?_) ⟨[], .init m hpos hstart⟩
    obtain ⟨free, hi⟩ := ht
    exact (hi.step hx hs).imp fun _ ↦ And.left
  refine ⟨free, hi.chain, hi.arranged.sorted, hi.arranged.packed.apart, hi.arranged.packed.within, hi.total,
    hi.header, fun x hx ↦ ?_, fun l base hl hneg hsmall ↦ ?_⟩
  · cases x with
    | alloc l base =>
      obtain ⟨r, free', halloc, -⟩ := hi.alloc hx
      simp only [Heap.step, halloc, map_some, isSome_some]
    | dealloc a =>
      obtain ⟨s, free', hdealloc, -⟩ := hi.dealloc hx
      simp only [Heap.step, hdealloc, map_some, isSome_some]
    | write m => rfl
  · have hx : h.Honest (.alloc l base) := ⟨hl, .inl hneg⟩
    obtain ⟨r, free', halloc, -, hsame⟩ := hi.alloc hx
    rw [halloc, hsame hneg hsmall]

/-- A block from `sbrk`, and one from what was left of it. -/
def twoBlocks : Option Heap :=
  ((Heap.fresh (fun _ ↦ 0) 0x8050000).step (.alloc ⟨40, 3, by decide⟩ 0x8050000)).bind
    (·.step (.alloc ⟨100, 2, by decide⟩ (-1)))

theorem allocator_exact_twoBlocks :
    ∃ h, twoBlocks = some h ∧ h.live.length = 2 ∧
      ∃ free, Chain h.mem h.allocator.head free ∧ total free + total h.used = 4096 := by
  have hlive : twoBlocks.map (fun h ↦ (h.live.length, h.brk - h.start)) = some (2, 4096) := by decide +kernel
  obtain ⟨h, hh, hlen⟩ := map_eq_some_iff.mp hlive
  obtain ⟨h₁, h01, h12⟩ := bind_eq_some_iff.mp hh
  have h₁ok : (Heap.fresh (fun _ ↦ 0) 0x8050000).Honest (.alloc ⟨40, 3, by decide⟩ 0x8050000) :=
    ⟨by decide, .inr ⟨rfl, by decide⟩⟩
  have h₂ok : h₁.Honest (.alloc ⟨100, 2, by decide⟩ (-1)) := ⟨by decide, .inl (by decide)⟩
  obtain ⟨free, hchain, -, -, -, htotal, -⟩ :=
    allocator_exact (by decide) (by decide) (.snoc (.one h₁ok h01) h₂ok h12)
  obtain ⟨hlen, hbytes⟩ := Prod.mk.inj hlen
  exact ⟨h, hh, hlen, free, hchain, htotal.trans hbytes⟩

/-- The argument of `sbrk`: `grow as i32`. -/
def sbrkArg (l : Layout) : Int := Int.bmod (max (totalSize l) 4096 : Nat) 4294967296

theorem sbrkArg_eq (h : totalSize l < 2 ^ 31) : sbrkArg l = (max (totalSize l) 4096 : Nat) := by
  unfold sbrkArg
  rw [Int.bmod_eq_of_le] <;> omega

/-- A call returns null, or a pointer at a multiple of the alignment to bytes from `sbrk` of which no block
in use has any, if the alignment is at most the size of a header. -/
theorem alloc_aligned {start : Nat} (hpos : 0 < start) (hstart : start < 2 ^ 32) (hgrid : headerSize ∣ start)
    (run : Run Heap.step Honest (Heap.fresh m start) h) (halign : l.align ≤ headerSize)
    (hx : h.Honest (.alloc l base)) :
    sbrkArg l = (max (totalSize l) 4096 : Nat) ∧ ∃ r, h.allocator.alloc l base = some r ∧
      (r.1 = 0 ∨ l.align ∣ r.1 ∧ h.start ≤ r.1 ∧ r.1 + l.size ≤ h.brk + r.2.1 ∧
        ∀ a ∈ h.live, r.1 + l.size ≤ a.block.addr ∨ a.block.stop ≤ r.1) := by
  obtain ⟨free, hi, hg⟩ : ∃ free, Inv h free ∧ h.OnGrid free := by
    refine run.invariant (fun h ↦ ∃ free, Inv h free ∧ h.OnGrid free) (fun t x t' ht hx hs ↦ ?_)
      ⟨[], .init m hpos hstart, hgrid, by simp [Grid, used, Heap.fresh]⟩
    obtain ⟨free, hi, hg⟩ := ht
    exact (hi.step hx hs).imp fun _ h ↦ ⟨h.1, h.2 hg⟩
  obtain ⟨⟨p, g, s⟩, free', halloc, ⟨hinv, hgrid'⟩, -⟩ := hi.alloc hx
  refine ⟨sbrkArg_eq hx.1, (p, g, s), halloc, or_iff_not_imp_left.mpr fun hp ↦ ?_⟩
  have hadd : h.add (p, g, s) l = ⟨s, h.start, h.brk + g,
      ⟨⟨p - headerSize, load32 s.mem (p - headerSize)⟩, l⟩ :: h.live⟩ := if_neg hp
  rw [hadd] at hinv hgrid'
  have hfit := (hinv.header _ mem_cons_self).2
  have hin := hinv.arranged.packed.within _ (mem_append_right _ mem_cons_self)
  rw [Block.Within, hinv.region_stop] at hin
  obtain ⟨hlow, hhigh⟩ := hin
  have hdvd := ((hgrid' hg).2 _ (mem_append_right _ mem_cons_self)).1
  simp only [region, Block.stop] at hfit hlow hhigh
  have hstart := hinv.start_pos
  have hsub : p - headerSize + headerSize = p := Nat.sub_add_cancel (by simp only at hstart; omega)
  have hlog : l.log ≤ 3 := (Nat.pow_le_pow_iff_right (by decide)).mp halign
  have hpow : 2 ^ l.log ∣ 2 ^ 3 := Nat.pow_dvd_pow 2 hlog
  refine ⟨?_, by omega, by simp only; omega, fun a ha ↦ ?_⟩
  · rw [← hsub]
    exact hpow.trans (Nat.dvd_add hdvd dvd_rfl)
  · have hap := (pairwise_append.mp hinv.arranged.packed.apart).2.1
    have hapart := (pairwise_cons.mp hap).1 _ (mem_map_of_mem ha)
    simp only [Block.Apart, Block.stop] at hapart ⊢
    omega

theorem alloc_aligned_first : ∃ r, (Heap.fresh (fun _ ↦ 0) 0x8050000).allocator.alloc ⟨40, 3, by decide⟩ 0x8050000 =
    some r ∧ r.1 = 0x8050008 ∧ Layout.align ⟨40, 3, by decide⟩ ∣ r.1 := by
  have hx : (Heap.fresh (fun _ ↦ 0) 0x8050000).Honest (.alloc ⟨40, 3, by decide⟩ 0x8050000) :=
    ⟨by decide, .inr ⟨rfl, by decide⟩⟩
  obtain ⟨-, r, hr, hptr⟩ := alloc_aligned (by decide) (by decide) (by decide) (.refl _) (by decide) hx
  have hfirst : ((Heap.fresh (fun _ ↦ 0) 0x8050000).allocator.alloc ⟨40, 3, by decide⟩ 0x8050000).map Prod.fst =
    some 0x8050008 := by decide +kernel
  rw [hr] at hfirst
  have hp : r.1 = 0x8050008 := Option.some.inj hfirst
  exact ⟨r, hr, hp, hptr.elim (fun h ↦ absurd (hp.symm.trans h) (by decide)) And.left⟩

/-- The first pointer of a process is not at a multiple of sixteen, and the largest request asks for a
negative amount. -/
theorem alloc_misaligned :
    ((Heap.fresh (fun _ ↦ 0) 0x8050000).allocator.alloc ⟨8, 4, by decide⟩ 0x8050000).map (·.1 % 16) = some 8 ∧
      sbrkArg ⟨2147483647, 0, by decide⟩ = -2147483632 := by
  decide +kernel

end Heap

end Rxv6.User
