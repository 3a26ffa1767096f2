import Rxv6.Mem.Malloc

namespace Rxv6.User

open Rxv6.Lib.Ram Rxv6.Lib.FreeList List
open Rxv6.Mem (Layout walkFuel)

def headerSize : Nat := 8

def minBlock : Nat := headerSize + 8

def totalSize (l : Layout) : Nat :=
  let align := max l.align headerSize
  alignUp (max (headerSize + align - 1 + l.size) minBlock) headerSize

/-- `FreeListAllocator` and the memory of the process. -/
structure FreeListAllocator where
  mem : Memory
  head : Nat

namespace FreeListAllocator

variable (s : FreeListAllocator)

/-- `free_list_insert`. It is `none` if the walk does not end. -/
def freeListInsert (block : Nat) : Option FreeListAllocator :=
  let blockEnd := block + load32 s.mem block
  (walk s.mem (fun addr _ ↦ ¬ addr < block) walkFuel 0 s.head).map fun r ↦
    let prev := r.1
    let cur := r.2
    let m :=
      if cur ≠ 0 ∧ blockEnd = cur then
        let m := store32 s.mem block (load32 s.mem block + load32 s.mem cur)
        store32 m (block + 4) (load32 m (cur + 4))
      else store32 s.mem (block + 4) cur
    if prev ≠ 0 then
      let m :=
        if prev + load32 m prev = block then
          let m := store32 m prev (load32 m prev + load32 m block)
          store32 m (prev + 4) (load32 m (block + 4))
        else store32 m (prev + 4) block
      ⟨m, s.head⟩
    else ⟨m, block⟩

/-- `alloc`, where `base` is what `sbrk` returns if it is called: the pointer, or null, and the bytes that
have been obtained from `sbrk`. -/
def alloc (l : Layout) (base : Int) : Option (Nat × Nat × FreeListAllocator) :=
  let total := totalSize l
  (walk s.mem (fun _ n ↦ total ≤ n) walkFuel 0 s.head).bind fun r ↦
    let prev := r.1
    let cur := r.2
    if cur ≠ 0 then
      let remainder := load32 s.mem cur - total
      if minBlock ≤ remainder then
        let m := store32 s.mem cur remainder
        let newBlock := cur + remainder
        let m := store32 m newBlock total
        some (newBlock + headerSize, 0, ⟨store32 m (newBlock + 4) 0, s.head⟩)
      else
        let r := relink s.mem s.head prev (load32 s.mem (cur + 4))
        some (cur + headerSize, 0, ⟨store32 r.1 (cur + 4) 0, r.2⟩)
    else
      let grow := max total 4096
      if base < 0 then some (0, 0, s)
      else
        let block := base.toNat
        let m := store32 s.mem block grow
        let m := store32 m (block + 4) 0
        if total < grow ∧ minBlock ≤ grow - total then
          let remainderBlock := block + total
          let m := store32 m remainderBlock (grow - total)
          let m := store32 m (remainderBlock + 4) 0
          (freeListInsert ⟨m, s.head⟩ remainderBlock).map fun s ↦
            (block + headerSize, grow, ⟨store32 s.mem block total, s.head⟩)
        else some (block + headerSize, grow, ⟨m, s.head⟩)

def dealloc (ptr : Nat) : Option FreeListAllocator :=
  if ptr = 0 then some s else s.freeListInsert (ptr - headerSize)

end FreeListAllocator

namespace FreeListAllocator

variable {m : Memory} {head : Nat} {region b p : Block} {l l₁ l₂ k free rest : List Block}

section Insert

variable (hpos : 0 < region.addr) (hstop : region.stop ≤ 2 ^ 32)

include hstop

theorem chain_mergePrev {n : Nat} (hpack : Packed region (k ++ p :: ⟨b.addr, n⟩ :: l))
    (hsize : ∀ c ∈ k ++ p :: ⟨b.addr, n⟩ :: l, 8 ≤ c.size) (hchain : Chain m head (k ++ p :: l₂))
    (hnew : Chain m b.addr (⟨b.addr, n⟩ :: l)) :
    let m₁ :=
      if p.addr + load32 m p.addr = b.addr then
        let m := store32 m p.addr (load32 m p.addr + load32 m b.addr)
        store32 m (p.addr + 4) (load32 m (b.addr + 4))
      else store32 m (p.addr + 4) b.addr
    Chain m₁ head (k ++ mergeNext p (⟨b.addr, n⟩ :: l)) ∧
      ∀ x, ¬ (p.addr ≤ x ∧ x < p.addr + 8) → m₁ x = m x := by
  intro m₁
  obtain ⟨hne, hp, -⟩ := hchain.node
  obtain ⟨-, hbne, hbsize, hbnext⟩ := hnew
  have hheaders := hpack.headers hsize
  have hap : ∀ c ∈ k ++ ⟨b.addr, n⟩ :: l, c.addr + 8 ≤ p.addr ∨ p.addr + 8 ≤ c.addr := by
    have hperm : (k ++ p :: ⟨b.addr, n⟩ :: l).Perm (p :: (k ++ ⟨b.addr, n⟩ :: l)) := perm_middle
    have hpair := (hperm.pairwise_iff (fun h ↦ Or.symm h)).mp hheaders
    exact fun c hc ↦ ((pairwise_cons.mp hpair).1 c hc).symm
  have hlt : ∀ c ∈ k ++ p :: ⟨b.addr, n⟩ :: l, c.addr + c.size ≤ 2 ^ 32 := fun c hc ↦
    (hpack.within c hc).2.trans hstop
  have hb := hlt ⟨b.addr, n⟩ (by simp)
  have hn := hsize ⟨b.addr, n⟩ (by simp)
  have hpb := hap ⟨b.addr, n⟩ (by simp)
  simp only at hb hn hpb
  refine ⟨?_, fun x hx ↦ ?_⟩
  · by_cases htouch : p.stop = b.addr
    · have hm : m₁ = store32 (store32 m p.addr (p.size + n)) (p.addr + 4) (load32 m (b.addr + 4)) := by
        simp only [m₁]
        rw [if_pos (by rw [hp]; exact htouch), hp, hbsize, load32_store32_of_apart (by omega)]
      have hnext : load32 m (b.addr + 4) < 2 ^ 32 := by
        rw [hbnext.eq_first]
        refine first_lt (by omega) fun d hd ↦ ?_
        have hdstop := hlt d (by simp [hd])
        have hd8 := hsize d (by simp [hd])
        omega
      rw [mergeNext, if_pos htouch, hm]
      simp only [Block.stop] at htouch
      refine hchain.store_header (by omega) hnext hbnext fun c hc ↦ hap c ?_
      rcases mem_append.mp hc with hc | hc
      · exact mem_append_left _ hc
      · exact mem_append_right _ (mem_cons_of_mem _ hc)
    · have hm : m₁ = store32 m (p.addr + 4) b.addr := if_neg (by rw [hp]; exact htouch)
      rw [mergeNext, if_neg htouch, hm]
      exact hchain.store_next (by omega) ⟨rfl, hbne, hbsize, hbnext⟩ hap
  · simp only [m₁]
    split
    · exact store_header_frame hx
    · exact store_next_frame hx

include hpos

theorem chain_mergeNext (hpack : Packed region (b :: l)) (hsize : ∀ c ∈ b :: l, 8 ≤ c.size)
    (hchain : Chain m (first l) l) (hb : load32 m b.addr = b.size) :
    let m₁ :=
      if first l ≠ 0 ∧ b.addr + load32 m b.addr = first l then
        let m := store32 m b.addr (load32 m b.addr + load32 m (first l))
        store32 m (b.addr + 4) (load32 m (first l + 4))
      else store32 m (b.addr + 4) (first l)
    Chain m₁ b.addr (mergeNext b l) ∧ ∀ x, ¬ (b.addr ≤ x ∧ x < b.addr + 8) → m₁ x = m x := by
  intro m₁
  have hne : b.addr ≠ 0 := by
    have := (hpack.within b mem_cons_self).1
    omega
  have hheader : ∀ c ∈ l, c.addr + 8 ≤ b.addr ∨ b.addr + 8 ≤ c.addr := fun c hc ↦
    ((pairwise_cons.mp (hpack.headers hsize)).1 c hc).symm
  have hlt : ∀ c ∈ b :: l, c.stop ≤ 2 ^ 32 := fun c hc ↦ (hpack.within c hc).2.trans hstop
  have hframe : ∀ x, ¬ (b.addr ≤ x ∧ x < b.addr + 8) → m₁ x = m x := by
    intro x hx
    simp only [m₁]
    split
    · exact store_header_frame hx
    · exact store_next_frame hx
  refine ⟨?_, hframe⟩
  cases l with
  | nil =>
    have hm : m₁ = store32 m (b.addr + 4) 0 := if_neg (by simp [first])
    rw [hm]
    exact ⟨rfl, hne, by rw [load32_store32_of_apart (by omega), hb], load32_store32 (by omega)⟩
  | cons c l =>
    obtain ⟨-, hcne, hcsize, hcnext⟩ := hchain
    have hc := hheader c mem_cons_self
    have hcstop := hlt c (by simp)
    have hc8 := hsize c (by simp)
    have htail := hcnext.of_header hframe fun d hd ↦ hheader d (mem_cons_of_mem _ hd)
    simp only [Block.stop] at hcstop
    by_cases htouch : b.stop = c.addr
    · have hm : m₁ = store32 (store32 m b.addr (b.size + c.size)) (b.addr + 4) (load32 m (c.addr + 4)) := by
        have hcond : first (c :: l) ≠ 0 ∧ b.addr + load32 m b.addr = first (c :: l) := ⟨hcne, hb ▸ htouch⟩
        simp only [m₁]
        rw [if_pos hcond, hb, show first (c :: l) = c.addr from rfl, hcsize,
          load32_store32_of_apart (by omega)]
      have hnext : load32 m (c.addr + 4) < 2 ^ 32 := by
        rw [hcnext.eq_first]
        refine first_lt (by omega) fun d hd ↦ ?_
        have hdstop := hlt d (by simp [hd])
        have hd8 := hsize d (by simp [hd])
        simp only [Block.stop] at hdstop
        omega
      rw [mergeNext, if_pos htouch]
      simp only [Block.stop] at htouch
      refine ⟨rfl, hne, ?_, ?_⟩
      · rw [hm, load32_store32_of_apart (by simp only; omega)]
        exact load32_store32 (by omega)
      · have hload : load32 m₁ (b.addr + 4) = load32 m (c.addr + 4) := by
          rw [hm, load32_store32 hnext]
        rw [hload]
        exact htail
    · have hm : m₁ = store32 m (b.addr + 4) c.addr := by
        refine if_neg fun hcond ↦ htouch ?_
        rw [hb] at hcond
        exact hcond.2
      rw [mergeNext, if_neg htouch]
      refine ⟨rfl, hne, ?_, ?_⟩
      · rw [hm, load32_store32_of_apart (by omega), hb]
      · have hload : load32 m₁ (b.addr + 4) = c.addr := by
          rw [hm, load32_store32 (by omega)]
        rw [hload]
        exact Chain.of_header ⟨rfl, hcne, hcsize, hcnext⟩ hframe hheader

theorem freeListInsert_spec (harr : Arranged region minBlock free (b :: rest)) (hchain : Chain m head free)
    (hb : load32 m b.addr = b.size) (hlen : free.length < walkFuel) :
    ∃ m' head' free', freeListInsert ⟨m, head⟩ b.addr = some ⟨m', head'⟩ ∧ Chain m' head' free' ∧
      Arranged region minBlock free' rest ∧ total free' = b.size + total free ∧
      (∀ n, Grid n (b :: free) → Grid n free') ∧
      ∀ x, (∀ c ∈ b :: free, ¬ (c.addr ≤ x ∧ x < c.addr + 8)) → m' x = m x := by
  obtain ⟨l₁, l₂, rfl, hlow, hhigh, hwalk⟩ :=
    walk_spec (fun addr _ ↦ ¬ addr < b.addr) 0 hchain hlen
  have hsize : ∀ c ∈ b :: (l₁ ++ l₂), 16 ≤ c.size := fun c hc ↦
    harr.size c (perm_middle.mem_iff.mpr (mem_append_left _ hc))
  have hapart : ∀ c ∈ l₁ ++ l₂, b.Apart c := fun c hc ↦
    (harr.packed.perm perm_middle).head c (mem_append_left _ hc)
  obtain ⟨hs₁, hs₂, hs₁₂⟩ := pairwise_append.mp harr.sorted
  have hb16 := hsize b mem_cons_self
  -- The walk stops where the address of the block belongs.
  have hbefore : ∀ c ∈ l₁, c.stop ≤ b.addr := by
    intro c hc
    have hlt : c.addr < b.addr := by simpa using hlow c hc
    have hap := hapart c (mem_append_left _ hc)
    simp only [Block.Apart, Block.stop] at *
    omega
  have hafter : ∀ c ∈ l₂, b.stop ≤ c.addr := by
    cases l₂ with
    | nil => simp
    | cons d l₂ =>
      intro c hc
      have hge : b.addr ≤ d.addr := by simpa using hhigh d rfl
      have hap := hapart d (by simp)
      have hd := hsize d (by simp)
      have hdc := Sorted.head_le hs₂ c hc
      simp only [Block.Apart, Block.stop] at *
      omega
  have hperm : ((l₁ ++ l₂) ++ b :: rest).Perm (l₂ ++ b :: (l₁ ++ rest)) := by
    rw [perm_iff_count]
    intro c
    simp only [count_append, count_cons]
    omega
  have harr₂ : Arranged region minBlock (mergeNext b l₂) (l₁ ++ rest) :=
    Arranged.mergeNext ⟨hs₂, harr.packed.perm hperm, fun c hc ↦ harr.size c (hperm.mem_iff.mpr hc)⟩
      (by decide) hafter
  have hmid : Packed region ((b :: l₂) ++ (l₁ ++ rest)) := (harr.packed.perm hperm).perm perm_middle
  obtain ⟨hchain₁, hframe₁⟩ := chain_mergeNext hpos hstop hmid.left
    (fun c hc ↦ (by decide : 8 ≤ 16).trans (hsize c (by
      rcases mem_cons.mp hc with rfl | hc <;> simp [*]))) hchain.drop hb
  have hout₁ : ∀ c ∈ l₁, c.addr + 8 ≤ b.addr ∨ b.addr + 8 ≤ c.addr := fun c hc ↦ by
    have := hbefore c hc
    have := hsize c (by simp [hc])
    simp only [Block.stop] at *
    omega
  have hout₂ : ∀ c ∈ l₂, c.addr + 8 ≤ b.addr ∨ b.addr + 8 ≤ c.addr := fun c hc ↦ by
    have := hafter c hc
    simp only [Block.stop] at *
    omega
  simp only [freeListInsert, hwalk]
  rcases eq_nil_or_concat l₁ with rfl | ⟨k, p, rfl⟩
  · refine ⟨_, _, _, ?_, hchain₁, harr₂, total_mergeNext b l₂, fun _ ↦ Grid.mergeNext, fun x hx ↦ hframe₁ x (hx b mem_cons_self)⟩
    simp [last]
  · rw [concat_eq_append] at *
    obtain ⟨n, r, hr⟩ := mergeNext_eq b l₂
    have htotal := total_mergeNext b l₂
    have hp := hbefore p (by simp)
    have hsplit : (k ++ [p]) ++ l₂ = k ++ p :: l₂ := by simp
    have hold := hchain.of_header hframe₁ fun c hc ↦ (mem_append.mp hc).elim (hout₁ c) (hout₂ c)
    rw [hsplit] at hold
    rw [hr] at hchain₁ harr₂ htotal
    have hperm₂ : ((⟨b.addr, n⟩ :: r) ++ (k ++ [p] ++ rest)).Perm ((k ++ p :: ⟨b.addr, n⟩ :: r) ++ rest) := by
      rw [perm_iff_count]
      simp only [count_append, count_cons, count_nil]
      omega
    obtain ⟨hchain₂, hframe₂⟩ := chain_mergePrev hstop (harr₂.packed.perm hperm₂).left
      (fun c hc ↦ (by decide : 8 ≤ 16).trans
        (harr₂.size c (hperm₂.mem_iff.mpr (mem_append_left _ hc)))) hold hchain₁
    have harr₃ : Arranged region minBlock (mergeNext p (⟨b.addr, n⟩ :: r)) (k ++ rest) := by
      have hmove : (k ++ [p] ++ rest).Perm (p :: (k ++ rest)) := by
        rw [append_assoc]
        exact perm_middle
      refine (harr₂.perm hmove).mergeNext (by decide) fun c hc ↦ ?_
      exact hp.trans (harr₂.sorted.head_le c hc)
    obtain ⟨hk, -, hkp⟩ := pairwise_append.mp hs₁
    have harr₄ : Arranged region minBlock (k ++ mergeNext p (⟨b.addr, n⟩ :: r)) rest := by
      refine harr₃.append hk fun c hc d hd ↦ ?_
      obtain ⟨n', r', hr'⟩ := mergeNext_eq p _
      rw [hr'] at hd harr₃
      exact (hkp c hc p (by simp)).trans_le (harr₃.sorted.head_le d hd)
    have hne : p.addr ≠ 0 := hold.node.1
    have hgrid : ∀ u, Grid u (b :: (k ++ [p] ++ l₂)) → Grid u (k ++ mergeNext p (⟨b.addr, n⟩ :: r)) := by
      intro u hu
      have hlow : Grid u (mergeNext p (mergeNext b l₂)) := Grid.mergeNext (forall_mem_cons.mpr
        ⟨hu p (by simp), Grid.mergeNext fun c hc ↦ hu c (by simp at hc ⊢; tauto)⟩)
      exact forall_mem_append.mpr ⟨fun c hc ↦ hu c (by simp [hc]), hr ▸ hlow⟩
    refine ⟨_, _, _, ?_, hchain₂, harr₄, ?_, hgrid, fun x hx ↦ ?_⟩
    · rw [last_append]
      simp [hne]
    · rw [total_append, total_mergeNext, htotal]
      simp only [total_append, total_cons, total_nil]
      omega
    · exact (hframe₂ x (hx p (by simp))).trans (hframe₁ x (hx b mem_cons_self))

end Insert

end FreeListAllocator

end Rxv6.User
