import Rxv6.Mem.Heap

namespace Rxv6.Mem

open Rxv6.Lib.Ram Rxv6.Lib.FreeList Rxv6.Lib.Runs
open Rxv6.Vm (pgsize physBase)

/-- The most that a small request needs: its size and what comes before it are together less than a page,
and both are multiples of four. -/
def largestNeed : Nat := pgsize - 4

theorem Tidy.needed_le {region b : Block} {m : Bytes} {head : Nat} {free used : List Block} {l : Layout}
    (h : Tidy region m head free used) (hl : ¬ l.Large) (hb : b ∈ free) :
    needed l.blockSize l.blockAlign b.addr ≤ largestNeed := by
  obtain ⟨hle, hlt, hdvd⟩ := h.alignUp_spec hl hb
  obtain ⟨-, hb4, -⟩ := h.block b (List.mem_append_left _ hb)
  have hsmall := not_le.mp hl
  have halign := Layout.blockAlign_lt hl
  have hsize := Layout.blockAlign_dvd_blockSize (l := l)
  have hfour := Layout.four_dvd_blockAlign (l := l)
  have hpage : l.blockAlign ∣ pgsize := by
    rw [Layout.blockAlign_eq] at halign ⊢
    have hpow : 2 ^ max l.log 2 < 2 ^ 12 := halign
    exact pow_dvd_pow 2 ((Nat.pow_lt_pow_iff_right (by decide)).mp hpow).le
  -- The size ends at least one alignment before the page does.
  have hroom : l.blockSize + l.blockAlign ≤ pgsize := by
    obtain ⟨c, hc⟩ := hpage
    obtain ⟨d, hd⟩ := hsize
    have hcd : d < c := by
      by_contra hge
      have := Nat.mul_le_mul_left l.blockAlign (not_lt.mp hge)
      omega
    have := Nat.mul_le_mul_left l.blockAlign (Nat.succ_le_of_lt hcd)
    rw [Nat.mul_succ] at this
    omega
  have hdata := hfour.trans hdvd
  simp only [needed, largestNeed] at *
  omega

open Pages

namespace Heap

variable (h : Heap)

/-- The request is for pages, or the first block that fits it needs no padding, has nothing or enough for
a block behind it, and after it there is still a block of `largestNeed` bytes, free or in use. -/
def Lossless (l : Layout) : Prop :=
  l.Large ∨ ∀ l₁ b l₂, Chain h.mem h.malloc.freeList (l₁ ++ b :: l₂) →
    (∀ c ∈ l₁, ¬ needed l.blockSize l.blockAlign c.addr ≤ c.size) →
    needed l.blockSize l.blockAlign b.addr ≤ b.size →
    alignUp b.addr l.blockAlign = b.addr ∧ (b.size = l.blockSize ∨ l.blockSize + 8 ≤ b.size) ∧
      ∃ c ∈ (l₁ ++ (leftover b l.blockSize ++ l₂)) ++ (⟨b.addr, l.blockSize⟩ :: h.small.map Alloc.block),
        largestNeed ≤ c.size

def Thrifty : Act → Prop
  | .alloc l => l.log ≤ 12 ∧ h.Lossless l
  | .dealloc a => a ∈ h.live
  | .get _ _ => False
  | .free _ => False
  | .write m => h.Honest (.write m)

structure Whole (free : List Block) : Prop where
  inv : Inv h free
  total : total free + total (h.small.map Alloc.block) = h.region.size
  room : ∃ c ∈ free ++ h.small.map Alloc.block, largestNeed ≤ c.size

structure Kept (h' : Heap) : Prop where
  heap : h'.heap = h.heap
  others : h'.others = h.others
  pool : ∀ u, h'.malloc.palloc.pool u = h.malloc.palloc.pool u

variable {h} {h' : Heap} {free : List Block} {l : Layout} {x : Act}

theorem Kept.trans {h'' : Heap} (hk : Kept h h') (hk' : Kept h' h'') : Kept h h'' :=
  ⟨hk'.heap.trans hk.heap, hk'.others.trans hk.others, fun u ↦ (hk'.pool u).trans (hk.pool u)⟩

theorem Kept.region (hk : Kept h h') : h'.region = h.region := by
  simp only [Heap.region, addr, pages, Pages.pool, hk.heap, hk.pool]

theorem alloc_pool {s m : Malloc} {p : Nat} (hs : s.alloc l = some (p, m)) (u : Bool) :
    m.palloc.pool u = s.palloc.pool u := by
  unfold Malloc.alloc at hs
  split at hs
  · have hpool := getMultiple_pool (u := u) s.palloc ⟨false, true, false⟩ l.pageCnt
    split at hs
    · next hget =>
      rw [hget] at hpool
      cases hs
      exact hpool
    · next hget =>
      rw [hget] at hpool
      cases hs
      exact hpool
  · obtain ⟨r, -, hr⟩ := Option.map_eq_some_iff.mp hs
    cases hr
    rfl

theorem dealloc_pool (s : Malloc) (p : Nat) (l : Layout) (u : Bool) :
    (s.dealloc p l).palloc.pool u = s.palloc.pool u := by
  unfold Malloc.dealloc
  split
  · rfl
  · split
    · exact freeMultiple_pool _ _ _
    · rfl

theorem kept_add {m : Malloc} (hm : ∀ u, m.palloc.pool u = h.malloc.palloc.pool u) (a : Alloc) :
    Kept h (h.add m a) := by
  unfold add
  split
  · exact ⟨rfl, rfl, hm⟩
  · split <;> exact ⟨rfl, rfl, hm⟩

theorem step_kept (hx : h.Thrifty x) (hs : h.step x = some h') : Kept h h' := by
  cases x with
  | alloc l =>
    obtain ⟨r, hr, he⟩ := Option.map_eq_some_iff.mp hs
    exact he ▸ kept_add (alloc_pool hr) _
  | dealloc a =>
    simp only [step] at hs
    split at hs <;> cases hs <;> exact ⟨rfl, rfl, dealloc_pool _ _ _⟩
  | get => exact absurd hx id
  | free => exact absurd hx id
  | write m =>
    cases hs
    exact ⟨rfl, rfl, fun _ ↦ rfl⟩

theorem total_leftover {b : Block} {n : Nat} (hn : b.size = n ∨ n + 8 ≤ b.size) :
    total (leftover b n) + n = b.size := by
  unfold leftover
  split
  · simp only [total_cons, total_nil]
    omega
  · simp only [total_nil]
    omega

theorem Whole.alloc (hw : Whole h free) (hx : h.Thrifty (.alloc l)) (hs : h.step (.alloc l) = some h') :
    ∃ free', Whole h' free' := by
  have hregion := (step_kept hx hs).region
  simp only [step] at hs
  by_cases hl : l.Large
  · rcases hw.inv.alloc_large hl hx.1 with ⟨idx, m, halloc, hne, -, hinv⟩ | ⟨-, halloc⟩
    · rw [halloc] at hs
      simp only [Option.map_some, Option.some.injEq] at hs
      have hsmall : h'.small = h.small := by
        rw [← hs, add, if_neg hne, if_pos hl]
      exact ⟨free, hs ▸ hinv, by rw [hsmall, hregion]; exact hw.total, by rw [hsmall]; exact hw.room⟩
    · rw [halloc] at hs
      exact ⟨free, Option.some.inj hs ▸ hw⟩
  · rcases hw.inv.alloc_small hl with ⟨l₁, b, l₂, m, rfl, hno, hfit, halloc, hne, hinv⟩ | ⟨-, halloc⟩
    · obtain ⟨hpad, hrest, hroom⟩ := hx.2.resolve_left hl l₁ b l₂ hw.inv.tidy.chain hno hfit
      have hneed : needed l.blockSize l.blockAlign b.addr = l.blockSize := by
        rw [needed, hpad, Nat.sub_self, add_zero]
      rw [hneed, hpad] at hinv
      rw [hpad] at halloc hne
      rw [halloc] at hs
      simp only [Option.map_some, Option.some.injEq] at hs
      have hsmall : h'.small = ⟨b.addr, l⟩ :: h.small := by
        rw [← hs, add, if_neg hne, if_neg hl]
      refine ⟨_, hs ▸ hinv, ?_, by rw [hsmall]; exact hroom⟩
      have htotal := hw.total
      have hleft := total_leftover hrest
      rw [hsmall, hregion]
      simp only [List.map_cons, total_append, total_cons, Alloc.block] at *
      omega
    · rw [halloc] at hs
      exact ⟨free, Option.some.inj hs ▸ hw⟩

theorem Whole.dealloc (hw : Whole h free) {a : Alloc} (hx : a ∈ h.live) (hs : h.step (.dealloc a) = some h') :
    ∃ free', Whole h' free' := by
  have hregion := (step_kept (x := .dealloc a) hx hs).region
  simp only [step] at hs
  rcases List.mem_append.mp hx with ha | ha
  · rw [if_neg (hw.inv.small a ha).1] at hs
    have hperm := (List.perm_cons_erase ha).map Alloc.block
    have hall : (free ++ h.small.map Alloc.block).Perm
        ((a.block :: free) ++ (h.small.erase a).map Alloc.block) :=
      (hperm.append_left free).trans List.perm_middle
    cases hs
    refine ⟨_, hw.inv.dealloc_small ha, ?_, ?_⟩
    · rw [hregion, ← hw.total, ← total_append, ← total_append, total_perm hall]
    · obtain ⟨c, hc, hbig⟩ := hw.room
      exact ⟨c, hall.mem_iff.mp hc, hbig⟩
  · rw [if_pos (hw.inv.large a ha).1] at hs
    cases hs
    exact ⟨free, hw.inv.dealloc_large ha, hregion ▸ hw.total, hw.room⟩

theorem Whole.step (hw : Whole h free) (hx : h.Thrifty x) (hs : h.step x = some h') :
    ∃ free', Whole h' free' := by
  cases x with
  | alloc l => exact hw.alloc hx hs
  | dealloc a => exact hw.dealloc hx hs
  | get => exact absurd hx id
  | free => exact absurd hx id
  | write m =>
    cases hs
    exact ⟨free, hw.inv.write hx, hw.total, hw.room⟩

def Succeeds (h : Heap) (l : Layout) : Prop := ∃ p m, h.malloc.alloc l = some (p, m) ∧ p ≠ 0

theorem Whole.succeeds_small (hw : Whole h free) (hfreed : h.small = []) (hl : ¬ l.Large) : h.Succeeds l := by
  obtain ⟨c, hc, hbig⟩ := hw.room
  rw [hfreed, List.map_nil, List.append_nil] at hc
  rcases hw.inv.alloc_small hl with ⟨l₁, b, l₂, m, -, -, -, halloc, hne, -⟩ | ⟨hno, -⟩
  · exact ⟨_, m, halloc, hne⟩
  · exact absurd ((hw.inv.tidy.needed_le hl hc).trans hbig) (hno c hc)

theorem Inv.succeeds_large (hi : Inv h free) (hl : l.Large) (hlog : l.log ≤ 12) :
    h.Succeeds l ↔ ∃ k, h.pages.FreeRun false l.pageCnt k := by
  rcases hi.alloc_large hl hlog with ⟨idx, m, halloc, hne, hrun, -⟩ | ⟨hno, halloc⟩
  · exact iff_of_true ⟨_, m, halloc, hne⟩ ⟨idx, hrun⟩
  · refine iff_of_false ?_ fun hk ↦ hk.elim hno
    rintro ⟨p, m, hp, hne⟩
    cases halloc.symm.trans hp
    exact hne rfl

theorem Kept.freeRun (hk : Kept h h') (hlarge : h.large = []) (hlarge' : h'.large = []) {u : Bool} {n k : Nat} :
    h'.pages.FreeRun u n k ↔ h.pages.FreeRun u n k := by
  simp only [FreeRun, Taken, size, Pages.pool, pages, ranges, hlarge, hlarge', hk.heap,
    hk.others, hk.pool, List.map_nil]

/-- When all objects have been freed, then the whole heap is on the free list, and what the first heap
could serve is served again. -/
theorem heap_reclaimed {ramPages kernelEnd userPageLimit : Nat} {m : Bytes} {s : Pages} {h₀ : Heap}
    (hram : ramPages ≤ 16384) (hend : kernelEnd ≤ ramEnd ramPages)
    (boot : Run Pages.step Pages.Honest ⟨Mem.init ramPages kernelEnd userPageLimit m, []⟩ s)
    (hinit : init s = some h₀) (run : Run step Thrifty h₀ h) (hfreed : h.live = []) :
    (∃ free, Chain h.mem h.malloc.freeList free ∧ total free = Malloc.heapInitPages * pgsize) ∧
      ∀ l : Layout, l.log ≤ 12 → h₀.Succeeds l → h.Succeeds l := by
  have hs : s.Inv := boot.invariant Pages.Inv (fun _ _ _ h hx hs ↦ h.step hx hs) (.init ..)
  obtain ⟨hinv, hsize, hsmall₀, hlarge₀⟩ := Inv.init hs (Pages.placed_of_run hram hend boot) hinit
  have hwhole : Whole h₀ [h₀.region] := by
    refine ⟨hinv, by simp [hsmall₀], h₀.region, by simp, ?_⟩
    rw [hsize]
    decide
  obtain ⟨⟨free, hw⟩, hk⟩ : (∃ free, Whole h free) ∧ Kept h₀ h := by
    refine run.invariant (fun h ↦ (∃ free, Whole h free) ∧ Kept h₀ h) (fun t x t' ht hx hs ↦ ?_)
      ⟨⟨_, hwhole⟩, rfl, rfl, fun _ ↦ rfl⟩
    obtain ⟨⟨free, hw⟩, hk⟩ := ht
    exact ⟨hw.step hx hs, hk.trans (step_kept hx hs)⟩
  obtain ⟨hsmall, hlarge⟩ := List.append_eq_nil_iff.mp hfreed
  refine ⟨⟨free, hw.inv.tidy.chain, ?_⟩, fun l hlog hl₀ ↦ ?_⟩
  · have htotal := hw.total
    rw [hsmall, hk.region, hsize] at htotal
    exact htotal
  · by_cases hl : l.Large
    · obtain ⟨k, hrun⟩ := (hinv.succeeds_large hl hlog).mp hl₀
      exact (hw.inv.succeeds_large hl hlog).mpr ⟨k, (hk.freeRun hlarge₀ hlarge).mpr hrun⟩
    · exact hw.succeeds_small hsmall hl

def oneObject : Option Heap :=
  (init blank).bind fun h ↦ (h.step (.alloc ⟨8, 2, by decide⟩)).bind
    (·.step (.dealloc ⟨physBase + 0x1000, 8, 2, by decide⟩))

theorem heap_reclaimed_oneObject :
    ∃ h, oneObject = some h ∧
      ∃ free, Chain h.mem h.malloc.freeList free ∧ total free = Malloc.heapInitPages * pgsize := by
  have hstart : (init blank).map (fun h ↦ decide (h.small = [] ∧
      Chain h.mem h.malloc.freeList [⟨physBase + 0x1000, 0x100000⟩])) = some true := by decide +kernel
  have hmid : ((init blank).bind (·.step (.alloc ⟨8, 2, by decide⟩))).map (fun h ↦ decide
      (⟨physBase + 0x1000, 8, 2, by decide⟩ ∈ h.live)) = some true := by decide +kernel
  have hfinal : oneObject.map (fun h ↦ decide (h.live = [])) = some true := by decide +kernel
  obtain ⟨h, hh, hlive⟩ := Option.map_eq_some_iff.mp hfinal
  obtain ⟨h₀, hinit, hrest⟩ := Option.bind_eq_some_iff.mp hh
  obtain ⟨h₁, h01, h12⟩ := Option.bind_eq_some_iff.mp hrest
  rw [hinit] at hstart hmid
  obtain ⟨hsmall, hchain⟩ := of_decide_eq_true (Option.some.inj hstart)
  rw [Option.bind_some, h01] at hmid
  have hmem := of_decide_eq_true (Option.some.inj hmid)
  have hloss : h₀.Lossless ⟨8, 2, by decide⟩ := by
    refine .inr fun l₁ b l₂ hc _ _ ↦ ?_
    have hone := hchain.unique hc
    obtain ⟨rfl, hb⟩ : l₁ = [] ∧ b :: l₂ = [⟨physBase + 0x1000, 0x100000⟩] := by
      cases l₁ with
      | nil => exact ⟨rfl, hone.symm⟩
      | cons c l₁ => simp at hone
    cases hb
    rw [hsmall]
    refine ⟨by decide +kernel, by decide +kernel, ⟨physBase + 0x1008, 0xffff8⟩, ?_, by decide⟩
    decide +kernel
  have h₁ok : h₀.Thrifty (.alloc ⟨8, 2, by decide⟩) := ⟨show 2 ≤ 12 by decide, hloss⟩
  have h₂ok : h₁.Thrifty (.dealloc ⟨physBase + 0x1000, 8, 2, by decide⟩) := hmem
  have run : Run step Thrifty h₀ h := .snoc (.one h₁ok h01) h₂ok h12
  have hblank : Run Pages.step Pages.Honest ⟨Mem.init 1024 physBase 0 fun _ ↦ 0, []⟩ blank := .refl _
  have hre := heap_reclaimed (by decide) (by decide) hblank hinit run (of_decide_eq_true hlive)
  exact ⟨h, hh, hre.1⟩

def Calls (h : Heap) : Act → Prop
  | .alloc l => l.log ≤ 12
  | .dealloc a => a ∈ h.live
  | _ => False

instance (h : Heap) (x : Act) : Decidable (h.Calls x) := by
  cases x <;> unfold Calls <;> infer_instance

theorem Calls.honest (hx : h.Calls x) : h.Honest x := by
  cases x with
  | alloc l => exact hx
  | dealloc a => exact hx
  | get => trivial
  | free => exact absurd hx id
  | write => exact absurd hx id

def padded : Option Heap :=
  (init blank).bind fun h ↦ execWhile step Calls h [.alloc ⟨8, 2, by decide⟩, .alloc ⟨64, 6, by decide⟩,
    .dealloc ⟨physBase + 0x1000, 8, 2, by decide⟩, .dealloc ⟨physBase + 0x1040, 64, 6, by decide⟩]

/-- The 56 bytes before the aligned object are gone. -/
theorem padding_is_lost :
    ∃ h₀ h free, init blank = some h₀ ∧ Run step Honest h₀ h ∧ h.live = [] ∧
      Chain h.mem h.malloc.freeList free ∧ total free + 56 = Malloc.heapInitPages * pgsize := by
  let free : List Block :=
    [⟨physBase + 0x1040, 64⟩, ⟨physBase + 0x1000, 8⟩, ⟨physBase + 0x1080, 0xfff80⟩]
  have heval : padded.map (fun h ↦ decide (h.live = [] ∧ Chain h.mem h.malloc.freeList free)) = some true := by
    decide +kernel
  obtain ⟨h, hh, hfree⟩ := Option.map_eq_some_iff.mp heval
  obtain ⟨hlive, hchain⟩ := of_decide_eq_true hfree
  obtain ⟨h₀, hinit, hexec⟩ := Option.bind_eq_some_iff.mp hh
  exact ⟨h₀, h, free, hinit, (Run.of_execWhile hexec).mono fun _ _ hx ↦ Calls.honest hx, hlive, hchain, by decide⟩

end Heap

end Rxv6.Mem
