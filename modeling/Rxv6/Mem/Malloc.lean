import Rxv6.Lib.FreeList
import Rxv6.Mem.PallocBounds

namespace Rxv6.Mem

open Rxv6.Lib.Ram Rxv6.Lib.FreeList
open Rxv6.Vm (pgsize)

/-- A size and an alignment, which is a power of two. Rounding the size up to the alignment does not
overflow `isize`. -/
structure Layout where
  size : Nat
  log : Nat
  fits : size + 2 ^ log ≤ 2 ^ 31
  deriving DecidableEq

namespace Layout

variable (l : Layout)

def align : Nat := 2 ^ l.log

/-- The alignment that the kernel allocator works with: at least that of a `FreeBlock`. -/
def blockAlign : Nat := max l.align 4

def blockSize : Nat := alignUp (max l.size 8) l.blockAlign

def Large : Prop := pgsize ≤ l.blockSize

instance : Decidable l.Large := inferInstanceAs (Decidable (_ ≤ _))

def pageCnt : Nat := (l.blockSize + pgsize - 1) / pgsize

end Layout

def walkFuel : Nat := 2 ^ 29

/-- The bytes that a block from `addr` on has to have: what comes before the aligned address is lost. -/
def needed (size align addr : Nat) : Nat := size + (alignUp addr align - addr)

/-- The part of `alloc` that searches the free list: the data, or null, and the memory and the list
after it. -/
def allocSmall (m : Bytes) (head size align : Nat) : Option (Nat × Bytes × Nat) :=
  (walk m (fun addr n ↦ needed size align addr ≤ n) walkFuel 0 head).map fun r ↦
    let prev := r.1
    let cur := r.2
    if cur = 0 then (0, m, head)
    else
      let remaining := load32 m cur - needed size align cur
      if 8 ≤ remaining then
        let newBlock := cur + needed size align cur
        let m := store32 m newBlock remaining
        let m := store32 m (newBlock + 4) (load32 m (cur + 4))
        let r := relink m head prev newBlock
        (alignUp cur align, r.1, r.2)
      else
        let r := relink m head prev (load32 m (cur + 4))
        (alignUp cur align, r.1, r.2)

/-- The kernel allocator: `FREE_LIST` and the page allocator, whose memory has the list. -/
structure Malloc where
  palloc : Palloc
  freeList : Nat

namespace Malloc

def heapInitPages : Nat := 256

/-- `malloc::init`: the allocator and the start of the heap. -/
def init (p : Palloc) : Option (Malloc × Nat) :=
  match p.getMultiple ⟨true, true, false⟩ heapInitPages with
  | (.pages a, p) =>
    let m := store32 p.mem a (heapInitPages * pgsize)
    some (⟨{ p with mem := store32 m (a + 4) 0 }, a⟩, a)
  | _ => none

variable (s : Malloc)

/-- `alloc`. It is `none` if the search in the free list does not end. -/
def alloc (l : Layout) : Option (Nat × Malloc) :=
  if l.Large then
    match s.palloc.getMultiple ⟨false, true, false⟩ l.pageCnt with
    | (.pages a, p) => some (a, { s with palloc := p })
    | (_, p) => some (0, { s with palloc := p })
  else
    (allocSmall s.palloc.mem s.freeList l.blockSize l.blockAlign).map fun r ↦
      (r.1, ⟨{ s.palloc with mem := r.2.1 }, r.2.2⟩)

def dealloc (ptr : Nat) (l : Layout) : Malloc :=
  if ptr = 0 then s
  else if l.Large then { s with palloc := s.palloc.freeMultiple ptr l.pageCnt }
  else
    let m := store32 s.palloc.mem ptr l.blockSize
    ⟨{ s.palloc with mem := store32 m (ptr + 4) s.freeList }, ptr⟩

end Malloc

namespace Layout

variable {l : Layout}

theorem blockAlign_eq : l.blockAlign = 2 ^ max l.log 2 := by
  rw [blockAlign, align]
  rcases le_total l.log 2 with h | h
  · rw [max_eq_right h, max_eq_right (Nat.pow_le_pow_right (by omega) h)]
  · rw [max_eq_left h, max_eq_left (Nat.pow_le_pow_right (by omega) h)]

theorem four_dvd_blockAlign : 4 ∣ l.blockAlign := by
  rw [blockAlign_eq]
  exact pow_dvd_pow 2 (le_max_right _ _)

theorem align_dvd_blockAlign : l.align ∣ l.blockAlign := by
  rw [blockAlign_eq]
  exact pow_dvd_pow 2 (le_max_left _ _)

theorem log_lt : max l.log 2 < 32 := by
  have hfits := l.fits
  have : l.log < 32 := by
    by_contra hge
    have := Nat.pow_le_pow_right (n := 2) (by omega) (not_lt.mp hge)
    omega
  omega

theorem size_add_align_le : max l.size 8 + 2 ^ max l.log 2 ≤ 2 ^ 32 := by
  have hfits := l.fits
  have hpos := Nat.two_pow_pos l.log
  rcases le_total l.log 2 with h | h
  · rw [max_eq_right h]
    omega
  · rw [max_eq_left h]
    omega

theorem size_le_blockSize : max l.size 8 ≤ l.blockSize := by
  rw [blockSize, blockAlign_eq]
  exact le_alignUp log_lt size_add_align_le

theorem blockAlign_dvd_blockSize : l.blockAlign ∣ l.blockSize := by
  rw [blockSize, blockAlign_eq]
  exact dvd_alignUp log_lt size_add_align_le

theorem blockSize_le_pages : l.blockSize ≤ l.pageCnt * pgsize := by
  rw [pageCnt]
  simp only [pgsize]
  omega

theorem blockAlign_lt (hl : ¬ l.Large) : l.blockAlign < pgsize := by
  have hpos : 0 < l.blockSize := lt_of_lt_of_le (by omega) size_le_blockSize
  exact lt_of_le_of_lt (Nat.le_of_dvd hpos blockAlign_dvd_blockSize) (not_le.mp hl)

end Layout

structure Tidy (region : Block) (m : Bytes) (head : Nat) (free used : List Block) : Prop where
  addr_pos : 0 < region.addr
  stop_le : region.stop + pgsize ≤ 2 ^ 32
  chain : Chain m head free
  packed : Packed region (free ++ used)
  block : ∀ b ∈ free ++ used, 8 ≤ b.size ∧ 4 ∣ b.addr ∧ 4 ∣ b.size
  total_le : total free + total used ≤ region.size

def leftover (b : Block) (n : Nat) : List Block :=
  if 8 ≤ b.size - n then [⟨b.addr + n, b.size - n⟩] else []

open Block Layout

namespace Tidy

variable {region b : Block} {m m' : Bytes} {head : Nat} {free used l₁ l₂ : List Block}

theorem within (h : Tidy region m head free used) (hb : b ∈ free ++ used) : b.Within region :=
  h.packed.within b hb

theorem length_lt (h : Tidy region m head free used) : free.length < walkFuel := by
  have hlen := length_mul_le_total fun b hb ↦ (h.block b (List.mem_append_left _ hb)).1
  have htotal := h.total_le
  have hstop := h.stop_le
  simp only [stop, pgsize, walkFuel] at *
  omega

theorem single {a n : Nat} (hpos : 0 < a) (hstop : a + n + pgsize ≤ 2 ^ 32) (hn : 8 ≤ n) (ha : 4 ∣ a)
    (hn4 : 4 ∣ n) : Tidy ⟨a, n⟩ (store32 (store32 m a n) (a + 4) 0) a [⟨a, n⟩] [] := by
  refine ⟨hpos, hstop, ⟨rfl, by simp only; omega, ?_, ?_⟩, ⟨?_, by simp⟩, ?_, by simp⟩
  · simp only
    rw [load32_store32_of_apart (by omega), load32_store32 (by omega)]
  · rw [load32_store32 (by omega)]
    rfl
  · simp only [List.append_nil, List.mem_singleton]
    rintro b rfl
    exact ⟨le_rfl, le_rfl⟩
  · simp only [List.append_nil, List.mem_singleton]
    rintro b rfl
    exact ⟨hn, ha, hn4⟩

theorem congr (h : Tidy region m head free used) (hm : ∀ b ∈ free, Agree m m' b.addr b.size) :
    Tidy region m' head free used :=
  { h with
    chain := h.chain.congr fun b hb ↦
      (hm b hb).sub le_rfl (Nat.add_le_add_left (h.block b (List.mem_append_left _ hb)).1 _) }

theorem perm_used (h : Tidy region m head free used) {used' : List Block} (hp : used.Perm used') :
    Tidy region m head free used' :=
  { h with
    packed := h.packed.perm (hp.append_left free)
    block := fun b hb ↦ h.block b ((hp.append_left free).mem_iff.mpr hb)
    total_le := total_perm hp ▸ h.total_le }

theorem perm_middle_append (l₁ l₂ used : List Block) (b : Block) :
    ((l₁ ++ b :: l₂) ++ used).Perm (b :: (l₁ ++ l₂ ++ used)) := by
  rw [List.append_assoc, List.append_assoc]
  exact List.perm_middle

theorem perm_leftover (l₁ l₂ used : List Block) (b d : Block) (n : Nat) :
    (leftover b n ++ d :: (l₁ ++ l₂ ++ used)).Perm ((l₁ ++ (leftover b n ++ l₂)) ++ (d :: used)) := by
  rw [List.perm_iff_count]
  simp only [List.count_append, List.count_cons]
  omega

theorem taken (h : Tidy region m head (l₁ ++ b :: l₂) used) {size data head' : Nat}
    (hdata : b.addr ≤ data) (hsize : 8 ≤ size) (hdvd : 4 ∣ data) (hdvd' : 4 ∣ size)
    (hfit : size + (data - b.addr) ≤ b.size)
    (hchain : Chain m' head' (l₁ ++ (leftover b (size + (data - b.addr)) ++ l₂))) :
    Tidy region m' head' (l₁ ++ (leftover b (size + (data - b.addr)) ++ l₂)) (⟨data, size⟩ :: used) := by
  have hpack := h.packed.perm (perm_middle_append l₁ l₂ used b)
  have hdin : (⟨data, size⟩ : Block).Within b := by
    simp only [Within, stop]
    omega
  obtain ⟨hb8, hb4, hb4'⟩ := h.block b (by simp)
  have hperm := perm_leftover l₁ l₂ used b ⟨data, size⟩ (size + (data - b.addr))
  refine ⟨h.addr_pos, h.stop_le, hchain, ?_, fun c hc ↦ ?_, ?_⟩
  · refine Packed.perm ?_ hperm
    unfold leftover
    split
    · refine hpack.split ?_ hdin ?_
      · simp only [Within, stop]
        omega
      · simp only [Apart, stop]
        omega
    · exact hpack.shrink hdin
  · rcases List.mem_append.mp (hperm.mem_iff.mpr hc) with hc | hc
    · unfold leftover at hc
      split at hc
      · rw [List.mem_singleton.mp hc]
        refine ⟨by assumption, ?_, ?_⟩ <;> simp only <;> omega
      · cases hc
    · rcases List.mem_cons.mp hc with rfl | hc
      · exact ⟨hsize, hdvd, hdvd'⟩
      · exact h.block c ((perm_middle_append l₁ l₂ used b).mem_iff.mpr (List.mem_cons_of_mem _ hc))
  · have htotal := h.total_le
    unfold leftover
    split <;> simp only [total_append, total_cons, total_nil] at * <;> omega

section

variable (h : Tidy region m head free used) {l : Layout} (hl : ¬ l.Large)
include h hl

theorem alignUp_spec (hb : b ∈ free) :
    b.addr ≤ alignUp b.addr l.blockAlign ∧ alignUp b.addr l.blockAlign < b.addr + l.blockAlign ∧
      l.blockAlign ∣ alignUp b.addr l.blockAlign := by
  have halign := blockAlign_lt hl
  have hbound : b.addr + 2 ^ max l.log 2 ≤ 2 ^ 32 := by
    have := h.within (List.mem_append_left _ hb)
    have := h.stop_le
    rw [← blockAlign_eq]
    simp only [Within, stop] at *
    omega
  rw [blockAlign_eq]
  exact ⟨le_alignUp log_lt hbound, alignUp_lt log_lt hbound, dvd_alignUp log_lt hbound⟩

theorem allocSmall_cases :
    (∃ l₁ b l₂ m' head', free = l₁ ++ b :: l₂ ∧
        (∀ c ∈ l₁, ¬ needed l.blockSize l.blockAlign c.addr ≤ c.size) ∧
        needed l.blockSize l.blockAlign b.addr ≤ b.size ∧
        allocSmall m head l.blockSize l.blockAlign = some (alignUp b.addr l.blockAlign, m', head') ∧
        Tidy region m' head' (l₁ ++ (leftover b (needed l.blockSize l.blockAlign b.addr) ++ l₂))
          (⟨alignUp b.addr l.blockAlign, l.blockSize⟩ :: used) ∧
        (∀ x, (∀ c ∈ free, ¬ (c.addr ≤ x ∧ x < c.stop)) → m' x = m x)) ∨
      ((∀ c ∈ free, ¬ needed l.blockSize l.blockAlign c.addr ≤ c.size) ∧
        allocSmall m head l.blockSize l.blockAlign = some (0, m, head)) := by
  obtain ⟨l₁, l₂, rfl, hno, hyes, hwalk⟩ :=
    walk_spec (fun addr n ↦ needed l.blockSize l.blockAlign addr ≤ n) 0 h.chain h.length_lt
  rw [allocSmall, hwalk]
  cases l₂ with
  | nil =>
    refine .inr ⟨fun c hc ↦ of_decide_eq_false (hno c (by simpa using hc)), ?_⟩
    rfl
  | cons b l₂ =>
    have hfit : needed l.blockSize l.blockAlign b.addr ≤ b.size := of_decide_eq_true (hyes b rfl)
    refine .inl ⟨l₁, b, l₂, ?_⟩
    obtain ⟨hne, hsize, -⟩ := h.chain.node
    obtain ⟨hle, -, hdvd⟩ := h.alignUp_spec hl (b := b) (by simp)
    have h8 : 8 ≤ l.blockSize := (le_max_right _ _).trans size_le_blockSize
    have hpack : Packed region (l₁ ++ b :: l₂) := h.packed.left
    have hstop : region.stop ≤ 2 ^ 32 := (Nat.le_add_right _ _).trans h.stop_le
    have hsizes : ∀ c ∈ l₁ ++ b :: l₂, 8 ≤ c.size := fun c hc ↦ (h.block c (List.mem_append_left _ hc)).1
    have htake : ∀ m' head',
        Chain m' head' (l₁ ++ (leftover b (needed l.blockSize l.blockAlign b.addr) ++ l₂)) →
        Tidy region m' head' (l₁ ++ (leftover b (needed l.blockSize l.blockAlign b.addr) ++ l₂))
          (⟨alignUp b.addr l.blockAlign, l.blockSize⟩ :: used) := fun m' head' hchain ↦
      h.taken hle h8 (four_dvd_blockAlign.trans hdvd)
        (four_dvd_blockAlign.trans blockAlign_dvd_blockSize) hfit hchain
    simp only [Option.map_some, first, if_neg hne, hsize]
    by_cases hrest : 8 ≤ b.size - needed l.blockSize l.blockAlign b.addr
    · rw [if_pos hrest]
      obtain ⟨hchain, hframe⟩ := h.chain.cutFront hpack hstop hsizes
        (n := needed l.blockSize l.blockAlign b.addr) (by simp only [needed]; omega) (by omega)
      refine ⟨_, _, trivial, fun c hc ↦ of_decide_eq_false (hno c hc), hfit, rfl, htake _ _ ?_, hframe⟩
      rw [leftover, if_pos hrest]
      exact hchain
    · rw [if_neg hrest]
      obtain ⟨hchain, hframe⟩ := h.chain.remove hpack hstop hsizes
      refine ⟨_, _, trivial, fun c hc ↦ of_decide_eq_false (hno c hc), hfit, rfl, htake _ _ ?_,
        fun x hx ↦ hframe x fun c hc ↦ hx c (List.mem_append_left _ hc)⟩
      rw [leftover, if_neg hrest]
      exact hchain

end

theorem freed (h : Tidy region m head free (b :: used)) :
    Tidy region (store32 (store32 m b.addr b.size) (b.addr + 4) head) b.addr (b :: free) used := by
  have hb := h.within (b := b) (by simp)
  obtain ⟨hb8, -⟩ := h.block b (by simp)
  have hperm : (free ++ b :: used).Perm (b :: free ++ used) := List.perm_middle
  have hpos := h.addr_pos
  have hstop := h.stop_le
  have hhead : head < 2 ^ 32 := by
    rw [h.chain.eq_first]
    refine first_lt (by omega) fun c hc ↦ ?_
    have hin := (h.within (List.mem_append_left _ hc)).2
    have := (h.block c (List.mem_append_left _ hc)).1
    simp only [stop] at *
    omega
  simp only [Within, stop] at hb hstop
  refine ⟨hpos, h.stop_le, ⟨rfl, by omega, ?_, ?_⟩, h.packed.perm hperm,
    fun c hc ↦ h.block c (hperm.mem_iff.mpr hc), ?_⟩
  · rw [load32_store32_of_apart (by omega), load32_store32 (by omega)]
  · rw [load32_store32 hhead]
    refine h.chain.congr fun c hc x hx hx' ↦ ?_
    have hap := (h.packed.perm hperm).head c (List.mem_append_left _ hc)
    have := (h.block c (List.mem_append_left _ hc)).1
    simp only [Apart, stop] at hap
    exact (store32_agree (by omega) x hx hx').trans
      (store32_agree (by omega) x hx hx')
  · have := h.total_le
    simp only [total_cons] at *
    omega

end Tidy

end Rxv6.Mem
