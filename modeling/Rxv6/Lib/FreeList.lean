import Rxv6.Lib.Ram

namespace Rxv6.Lib.FreeList

open Rxv6.Lib.Ram List

/-- A block of memory. While it is free its first word is its size and its second word the address of
the next free block. -/
@[ext]
structure Block where
  addr : Nat
  size : Nat
  deriving DecidableEq

namespace Block

def stop (b : Block) : Nat := b.addr + b.size

def Apart (b c : Block) : Prop := b.stop ≤ c.addr ∨ c.stop ≤ b.addr

instance : DecidableRel Apart := fun _ _ ↦ inferInstanceAs (Decidable (_ ∨ _))

theorem Apart.symm {b c : Block} (h : b.Apart c) : c.Apart b := Or.symm h

instance : Std.Symm Apart := ⟨fun _ _ h ↦ h.symm⟩

def Within (b c : Block) : Prop := c.addr ≤ b.addr ∧ b.stop ≤ c.stop

theorem Apart.within {b c d : Block} (h : b.Apart c) (hd : d.Within b) : d.Apart c := by
  simp only [Apart, Within] at *
  omega

end Block

section Header

variable {m : Memory} {a v w x : Nat} (hx : ¬ (a ≤ x ∧ x < a + 8))

include hx

theorem store_next_frame : store32 m (a + 4) w x = m x :=
  store32_agree (n := 1) (by omega) x le_rfl (by omega)

theorem store_size_frame : store32 m a v x = m x :=
  store32_agree (n := 1) (by omega) x le_rfl (by omega)

theorem store_header_frame : store32 (store32 m a v) (a + 4) w x = m x :=
  (store_next_frame hx).trans (store_size_frame hx)

end Header

structure Packed (region : Block) (l : List Block) : Prop where
  within : ∀ b ∈ l, b.Within region
  apart : l.Pairwise Block.Apart

open Block

namespace Packed

variable {region b c : Block} {l l' : List Block}

theorem perm (h : Packed region l) (hp : l.Perm l') : Packed region l' :=
  ⟨fun b hb ↦ h.within b (hp.mem_iff.mpr hb), (hp.pairwise_iff fun h ↦ h.symm).mp h.apart⟩

theorem head (h : Packed region (b :: l)) : ∀ c ∈ l, b.Apart c := (pairwise_cons.mp h.apart).1

theorem tail (h : Packed region (b :: l)) : Packed region l :=
  ⟨fun c hc ↦ h.within c (mem_cons_of_mem _ hc), (pairwise_cons.mp h.apart).2⟩

theorem left (h : Packed region (l ++ l')) : Packed region l :=
  ⟨fun b hb ↦ h.within b (mem_append_left _ hb), (pairwise_append.mp h.apart).1⟩

theorem cons (h : Packed region l) (hb : b.Within region) (hap : ∀ c ∈ l, b.Apart c) :
    Packed region (b :: l) := by
  refine ⟨fun c hc ↦ ?_, pairwise_cons.mpr ⟨hap, h.apart⟩⟩
  rcases mem_cons.mp hc with rfl | hc
  · exact hb
  · exact h.within c hc

theorem grow (h : Packed region l) {region' : Block} (hr : region.Within region') : Packed region' l :=
  ⟨fun b hb ↦ ⟨hr.1.trans (h.within b hb).1, (h.within b hb).2.trans hr.2⟩, h.apart⟩

theorem shrink (h : Packed region (b :: l)) (hc : c.Within b) : Packed region (c :: l) :=
  h.tail.cons ⟨(h.within b mem_cons_self).1.trans hc.1, hc.2.trans (h.within b mem_cons_self).2⟩
    fun d hd ↦ (h.head d hd).within hc

theorem split (h : Packed region (b :: l)) {d : Block} (hc : c.Within b) (hd : d.Within b)
    (hcd : c.Apart d) : Packed region (c :: d :: l) := by
  refine (h.shrink hd).cons ((h.shrink hc).within c mem_cons_self) fun e he ↦ ?_
  rcases mem_cons.mp he with rfl | he
  · exact hcd
  · exact (h.head e he).within hc

theorem merge (h : Packed region (b :: c :: l)) (hbc : b.stop = c.addr) (hpos : ∀ d ∈ l, 0 < d.size) :
    Packed region (⟨b.addr, b.size + c.size⟩ :: l) := by
  have hb := h.within b mem_cons_self
  have hc := h.within c (by simp)
  have hstop : (⟨b.addr, b.size + c.size⟩ : Block).stop = c.stop := by
    simp only [stop] at *
    omega
  refine h.tail.tail.cons ⟨hb.1, hstop ▸ hc.2⟩ fun d hd ↦ ?_
  have hbd := h.head d (mem_cons_of_mem _ hd)
  have hcd := h.tail.head d hd
  have hd := hpos d hd
  simp only [Apart, stop] at *
  omega

theorem headers (h : Packed region l) (hs : ∀ b ∈ l, 8 ≤ b.size) :
    l.Pairwise fun b c ↦ b.addr + 8 ≤ c.addr ∨ c.addr + 8 ≤ b.addr := by
  refine h.apart.imp_of_mem fun {b c} hb hc hap ↦ ?_
  have := hs b hb
  have := hs c hc
  simp only [Apart, stop] at hap
  omega

end Packed

def total (l : List Block) : Nat := (l.map Block.size).sum

@[simp]
theorem total_nil : total [] = 0 := rfl

@[simp]
theorem total_cons (b : Block) (l : List Block) : total (b :: l) = b.size + total l := by
  simp [total]

@[simp]
theorem total_append (l l' : List Block) : total (l ++ l') = total l + total l' := by
  simp [total]

theorem total_perm {l l' : List Block} (h : l.Perm l') : total l = total l' := (h.map size).sum_eq

theorem length_mul_le_total {l : List Block} {n : Nat} (h : ∀ b ∈ l, n ≤ b.size) :
    l.length * n ≤ total l := by
  induction l with
  | nil => simp
  | cons b l ih =>
    have hb := h b mem_cons_self
    have hl := ih fun c hc ↦ h c (mem_cons_of_mem _ hc)
    rw [length_cons, add_mul, total_cons]
    omega

def Sorted (l : List Block) : Prop := l.Pairwise fun b c ↦ b.stop < c.addr

def mergeNext (b : Block) : List Block → List Block
  | [] => [b]
  | c :: l => if b.stop = c.addr then ⟨b.addr, b.size + c.size⟩ :: l else b :: c :: l

section MergeNext

variable {b : Block} {l rest : List Block}

theorem mergeNext_eq (b : Block) (l : List Block) : ∃ n k, mergeNext b l = ⟨b.addr, n⟩ :: k := by
  cases l with
  | nil => exact ⟨b.size, [], rfl⟩
  | cons c l =>
    rw [mergeNext]
    split
    · exact ⟨_, _, rfl⟩
    · exact ⟨b.size, _, rfl⟩

theorem total_mergeNext (b : Block) (l : List Block) : total (mergeNext b l) = b.size + total l := by
  cases l with
  | nil => rfl
  | cons c l =>
    rw [mergeNext]
    split <;> simp only [total_cons]
    omega

theorem mergeNext_size {n : Nat} (h : ∀ c ∈ b :: l, n ≤ c.size) : ∀ c ∈ mergeNext b l, n ≤ c.size := by
  cases l with
  | nil => exact h
  | cons c l =>
    have hb := h b mem_cons_self
    rw [mergeNext]
    split
    · intro d hd
      rcases mem_cons.mp hd with rfl | hd
      · exact hb.trans (Nat.le_add_right _ _)
      · exact h d (by simp [hd])
    · exact h

/-- The blocks start and end at multiples of `n`. -/
def Grid (n : Nat) (l : List Block) : Prop := ∀ b ∈ l, n ∣ b.addr ∧ n ∣ b.size

theorem Grid.mergeNext {n : Nat} (h : Grid n (b :: l)) : Grid n (mergeNext b l) := by
  cases l with
  | nil => exact h
  | cons c l =>
    rw [mergeNext]
    split
    · intro d hd
      rcases mem_cons.mp hd with rfl | hd
      · exact ⟨(h b (by simp)).1, dvd_add (h b (by simp)).2 (h c (by simp)).2⟩
      · exact h d (by simp [hd])
    · exact h

theorem Sorted.mergeNext (h : Sorted l) (hb : ∀ c ∈ l, b.stop ≤ c.addr) : Sorted (mergeNext b l) := by
  cases l with
  | nil => exact pairwise_singleton _ _
  | cons c l =>
    obtain ⟨hc, hl⟩ := pairwise_cons.mp h
    have hbc := hb c mem_cons_self
    rw [mergeNext]
    split
    · next htouch =>
      refine pairwise_cons.mpr ⟨fun d hd ↦ ?_, hl⟩
      have := hc d hd
      simp only [stop] at *
      omega
    · next htouch =>
      refine pairwise_cons.mpr ⟨fun d hd ↦ ?_, h⟩
      rcases mem_cons.mp hd with rfl | hd
      · omega
      · have := hc d hd
        simp only [stop] at *
        omega

theorem Packed.mergeNext {region : Block} (h : Packed region ((b :: l) ++ rest))
    (hpos : ∀ c ∈ l ++ rest, 0 < c.size) : Packed region (mergeNext b l ++ rest) := by
  cases l with
  | nil => exact h
  | cons c l =>
    rw [mergeNext]
    split
    · next htouch => exact h.merge htouch fun d hd ↦ hpos d (mem_cons_of_mem _ hd)
    · exact h

theorem Sorted.head_le (h : Sorted (b :: l)) : ∀ c ∈ b :: l, b.addr ≤ c.addr := by
  intro c hc
  rcases mem_cons.mp hc with rfl | hc
  · exact le_rfl
  · have := (pairwise_cons.mp h).1 c hc
    simp only [stop] at this
    omega

end MergeNext

/-- The blocks `l` go up in memory without touching, and do not overlap the others. -/
structure Arranged (region : Block) (n : Nat) (l rest : List Block) : Prop where
  sorted : Sorted l
  packed : Packed region (l ++ rest)
  size : ∀ b ∈ l ++ rest, n ≤ b.size

namespace Arranged

variable {region b : Block} {n : Nat} {l k rest : List Block}

theorem mergeNext (h : Arranged region n l (b :: rest)) (hn : 0 < n) (hb : ∀ c ∈ l, b.stop ≤ c.addr) :
    Arranged region n (mergeNext b l) rest := by
  have hperm : (l ++ b :: rest).Perm ((b :: l) ++ rest) := perm_middle
  have hsize : ∀ c ∈ (b :: l) ++ rest, n ≤ c.size := fun c hc ↦ h.size c (hperm.mem_iff.mpr hc)
  refine ⟨h.sorted.mergeNext hb, (h.packed.perm hperm).mergeNext fun c hc ↦ ?_, fun c hc ↦ ?_⟩
  · exact hn.trans_le (hsize c (mem_cons_of_mem _ hc))
  · rcases mem_append.mp hc with hc | hc
    · exact mergeNext_size (fun d hd ↦ hsize d (mem_append_left _ hd)) c hc
    · exact hsize c (mem_append_right _ hc)

theorem append (h : Arranged region n l (k ++ rest)) (hk : Sorted k) (hkl : ∀ b ∈ k, ∀ c ∈ l, b.stop < c.addr) :
    Arranged region n (k ++ l) rest := by
  have hperm : (l ++ (k ++ rest)).Perm ((k ++ l) ++ rest) := by
    rw [← append_assoc]
    exact perm_append_comm.append_right rest
  exact ⟨pairwise_append.mpr ⟨hk, h.sorted, hkl⟩, h.packed.perm hperm,
    fun c hc ↦ h.size c (hperm.mem_iff.mpr hc)⟩

theorem perm (h : Arranged region n l rest) {rest' : List Block} (hp : rest.Perm rest') :
    Arranged region n l rest' :=
  ⟨h.sorted, h.packed.perm (hp.append_left l), fun c hc ↦ h.size c ((hp.append_left l).mem_iff.mpr hc)⟩

end Arranged

/-- The list that starts at `p` and whose nodes are the blocks `l`, in this order. -/
def Chain (m : Memory) : Nat → List Block → Prop
  | p, [] => p = 0
  | p, b :: l => p = b.addr ∧ b.addr ≠ 0 ∧ load32 m b.addr = b.size ∧ Chain m (load32 m (b.addr + 4)) l

instance Chain.decidable (m : Memory) : ∀ p l, Decidable (Chain m p l)
  | p, [] => inferInstanceAs (Decidable (p = 0))
  | p, b :: l =>
    have := Chain.decidable m (load32 m (b.addr + 4)) l
    inferInstanceAs (Decidable (p = b.addr ∧ b.addr ≠ 0 ∧ load32 m b.addr = b.size ∧
      Chain m (load32 m (b.addr + 4)) l))

def first : List Block → Nat
  | [] => 0
  | b :: _ => b.addr

def last (prev : Nat) : List Block → Nat
  | [] => prev
  | b :: l => last b.addr l

/-- Walk down the list to the first block for which `stop` holds: the node before it and the node, which
is null at the end of the list. -/
def walk (m : Memory) (stop : Nat → Nat → Bool) : Nat → Nat → Nat → Option (Nat × Nat)
  | 0, _, _ => none
  | fuel + 1, prev, cur =>
    if cur = 0 then some (prev, 0)
    else if stop cur (load32 m cur) then some (prev, cur)
    else walk m stop fuel cur (load32 m (cur + 4))

/-- Set the pointer to what comes after `prev`: its second word, or the head of the list. -/
def relink (m : Memory) (head prev p : Nat) : Memory × Nat :=
  if prev = 0 then (m, p) else (store32 m (prev + 4) p, head)

section Chain

variable {m m' : Memory} {p q : Nat} {b : Block} {l l₁ l₂ l' : List Block}

theorem Chain.eq_first (h : Chain m p l) : p = first l := by
  cases l with
  | nil => exact h
  | cons b l => exact h.1

theorem Chain.unique (h : Chain m p l) (h' : Chain m p l') : l = l' := by
  induction l generalizing p l' with
  | nil =>
    cases l' with
    | nil => rfl
    | cons c l' => exact absurd (h'.1.symm.trans h) h'.2.1
  | cons b l ih =>
    cases l' with
    | nil => exact absurd (h.1.symm.trans h') h.2.1
    | cons c l' =>
      obtain ⟨hp, -, hsize, hnext⟩ := h
      obtain ⟨hp', -, hsize', hnext'⟩ := h'
      have haddr : b.addr = c.addr := hp.symm.trans hp'
      rw [← haddr] at hsize' hnext'
      rw [Block.ext haddr (hsize.symm.trans hsize'), ih hnext hnext']

theorem Chain.congr (h : Chain m p l) (hm : ∀ b ∈ l, Agree m m' b.addr 8) : Chain m' p l := by
  induction l generalizing p with
  | nil => exact h
  | cons b l ih =>
    obtain ⟨hp, hne, hsize, hnext⟩ := h
    have hb := hm b mem_cons_self
    refine ⟨hp, hne, ?_, ?_⟩
    · rw [load32_congr (hb.sub le_rfl (by omega)), hsize]
    · rw [load32_congr (hb.sub (by omega) (by omega))]
      exact ih hnext fun c hc ↦ hm c (mem_cons_of_mem _ hc)

theorem Chain.of_header {a : Nat} (h : Chain m p l) (hm : ∀ x, ¬ (a ≤ x ∧ x < a + 8) → m' x = m x)
    (hap : ∀ c ∈ l, c.addr + 8 ≤ a ∨ a + 8 ≤ c.addr) : Chain m' p l := by
  refine h.congr fun c hc x hx hx' ↦ hm x ?_
  have := hap c hc
  omega

theorem Chain.drop (h : Chain m p (l₁ ++ l₂)) : Chain m (first l₂) l₂ := by
  induction l₁ generalizing p with
  | nil =>
    obtain rfl := h.eq_first
    exact h
  | cons b l₁ ih => exact ih h.2.2.2

theorem Chain.node (h : Chain m p (l₁ ++ b :: l₂)) :
    b.addr ≠ 0 ∧ load32 m b.addr = b.size ∧ load32 m (b.addr + 4) = first l₂ ∧ Chain m (first l₂) l₂ := by
  obtain ⟨-, hne, hsize, hnext⟩ := h.drop
  have hfirst := hnext.eq_first
  exact ⟨hne, hsize, hfirst, hfirst ▸ hnext⟩

theorem walk_spec (stop : Nat → Nat → Bool) (prev : Nat) {fuel : Nat} (h : Chain m p l) (hfuel : l.length < fuel) :
    ∃ l₁ l₂, l = l₁ ++ l₂ ∧ (∀ b ∈ l₁, stop b.addr b.size = false) ∧
      (∀ b ∈ l₂.head?, stop b.addr b.size = true) ∧
      walk m stop fuel prev p = some (last prev l₁, first l₂) := by
  induction l generalizing p prev fuel with
  | nil =>
    obtain ⟨fuel, rfl⟩ : ∃ k, fuel = k + 1 := ⟨fuel - 1, by omega⟩
    exact ⟨[], [], rfl, by simp, by simp, by rw [walk, if_pos (show p = 0 from h)]; rfl⟩
  | cons b l ih =>
    obtain ⟨fuel, rfl⟩ : ∃ k, fuel = k + 1 := ⟨fuel - 1, by omega⟩
    obtain ⟨rfl, hne, hsize, hnext⟩ := h
    rw [walk, if_neg hne, hsize]
    by_cases hstop : stop b.addr b.size = true
    · exact ⟨[], b :: l, rfl, by simp, by simpa using hstop, by rw [if_pos hstop]; rfl⟩
    · obtain ⟨l₁, l₂, rfl, hno, hyes, hwalk⟩ := ih b.addr hnext (by simpa using hfuel)
      refine ⟨b :: l₁, l₂, rfl, fun c hc ↦ ?_, hyes, by rw [if_neg hstop, hwalk]; rfl⟩
      rcases mem_cons.mp hc with rfl | hc
      · exact Bool.eq_false_iff.mpr hstop
      · exact hno c hc

theorem last_append (prev : Nat) (l : List Block) (b : Block) : last prev (l ++ [b]) = b.addr := by
  induction l generalizing prev with
  | nil => rfl
  | cons c l ih => exact ih _

section

variable (h : Chain m p (l₁ ++ b :: l₂))
include h

theorem Chain.store_next (hq : q < 2 ^ 32) (hnew : Chain m q l')
    (hap : ∀ c ∈ l₁ ++ l', c.addr + 8 ≤ b.addr ∨ b.addr + 8 ≤ c.addr) :
    Chain (store32 m (b.addr + 4) q) p (l₁ ++ b :: l') := by
  induction l₁ generalizing p with
  | nil =>
    obtain ⟨hp, hne, hsize, -⟩ := h
    refine ⟨hp, hne, ?_, ?_⟩
    · rw [load32_store32_of_apart (by omega), hsize]
    · rw [load32_store32 hq]
      refine hnew.congr fun c hc ↦ store32_agree ?_
      have := hap c (mem_append_right _ hc)
      omega
  | cons c l₁ ih =>
    obtain ⟨hp, hne, hsize, hnext⟩ := h
    have hc := hap c mem_cons_self
    refine ⟨hp, hne, ?_, ?_⟩
    · rw [load32_store32_of_apart (by omega), hsize]
    · rw [load32_store32_of_apart (by omega)]
      exact ih hnext fun d hd ↦ hap d (mem_cons_of_mem _ hd)

theorem Chain.store_size {n : Nat} (hn : n < 2 ^ 32)
    (hap : ∀ c ∈ l₁ ++ l₂, c.addr + 8 ≤ b.addr ∨ b.addr + 8 ≤ c.addr) :
    Chain (store32 m b.addr n) p (l₁ ++ ⟨b.addr, n⟩ :: l₂) := by
  induction l₁ generalizing p with
  | nil =>
    obtain ⟨hp, hne, -, hnext⟩ := h
    refine ⟨hp, hne, load32_store32 hn, ?_⟩
    simp only
    rw [load32_store32_of_apart (by omega)]
    refine hnext.congr fun c hc ↦ store32_agree ?_
    have := hap c hc
    omega
  | cons c l₁ ih =>
    obtain ⟨hp, hne, hsize, hnext⟩ := h
    have hc := hap c mem_cons_self
    refine ⟨hp, hne, ?_, ?_⟩
    · rw [load32_store32_of_apart (by omega), hsize]
    · rw [load32_store32_of_apart (by omega)]
      exact ih hnext fun d hd ↦ hap d (mem_cons_of_mem _ hd)

theorem Chain.store_header {n : Nat} (hn : n < 2 ^ 32) (hq : q < 2 ^ 32)
    (hnew : Chain m q l') (hap : ∀ c ∈ l₁ ++ l', c.addr + 8 ≤ b.addr ∨ b.addr + 8 ≤ c.addr) :
    Chain (store32 (store32 m b.addr n) (b.addr + 4) q) p (l₁ ++ ⟨b.addr, n⟩ :: l') := by
  rw [store32_comm (by omega)]
  exact (h.store_next hq hnew hap).store_size hn hap

end

theorem Chain.relink (h : Chain m p (l₁ ++ l₂)) (hq : q < 2 ^ 32) (hnew : Chain m q l')
    (hap : (l₁ ++ l').Pairwise fun b c ↦ b.addr + 8 ≤ c.addr ∨ c.addr + 8 ≤ b.addr) :
    Chain (relink m p (last 0 l₁) q).1 (relink m p (last 0 l₁) q).2 (l₁ ++ l') := by
  rcases eq_nil_or_concat l₁ with rfl | ⟨k, b, rfl⟩
  · exact hnew
  · rw [concat_eq_append, append_assoc, singleton_append] at h hap
    have hne := h.node.1
    rw [concat_eq_append, last_append, relink, if_neg hne, append_assoc]
    refine h.store_next hq hnew fun c hc ↦ ?_
    rw [pairwise_append, pairwise_cons] at hap
    rcases mem_append.mp hc with hc | hc
    · exact hap.2.2 c hc b mem_cons_self
    · exact (hap.2.1.1 c hc).symm

theorem relink_agree {a n : Nat} (hap : ∀ b ∈ l₁, a + n ≤ b.addr ∨ b.addr + 8 ≤ a) :
    Agree m (FreeList.relink m p (last 0 l₁) q).1 a n := by
  rcases eq_nil_or_concat l₁ with rfl | ⟨k, b, rfl⟩
  · exact fun _ _ _ ↦ rfl
  · rw [concat_eq_append] at ⊢
    rw [last_append, relink]
    split
    · exact fun _ _ _ ↦ rfl
    · have := hap b (by simp)
      exact store32_agree (by omega)

theorem first_lt {n : Nat} (hn : 0 < n) (h : ∀ b ∈ l, b.addr < n) : first l < n := by
  cases l with
  | nil => exact hn
  | cons b l => exact h b mem_cons_self

section Packed

variable {region : Block} (hpack : Packed region (l₁ ++ b :: l₂)) (hstop : region.stop ≤ 2 ^ 32)
  (hsize : ∀ c ∈ l₁ ++ b :: l₂, 8 ≤ c.size)

include hpack hstop hsize

theorem first_lt_of_packed : first l₂ < 2 ^ 32 := by
  refine first_lt (by omega) fun c hc ↦ ?_
  have hmem : c ∈ l₁ ++ b :: l₂ := by simp [hc]
  have hin := (hpack.within c hmem).2
  have := hsize c hmem
  simp only [stop] at *
  omega

theorem Chain.remove (h : Chain m p (l₁ ++ b :: l₂)) :
    let r := FreeList.relink m p (last 0 l₁) (load32 m (b.addr + 4))
    Chain r.1 r.2 (l₁ ++ l₂) ∧ ∀ x, (∀ c ∈ l₁, ¬ (c.addr ≤ x ∧ x < c.stop)) → r.1 x = m x := by
  obtain ⟨-, -, hnext, hrest⟩ := h.node
  have hheaders := hpack.headers hsize
  refine ⟨?_, fun x hx ↦ ?_⟩
  · refine h.relink ?_ (hnext ▸ hrest) (hheaders.sublist ?_)
    · rw [hnext]
      exact first_lt_of_packed hpack hstop hsize
    · exact (sublist_cons_self b l₂).append_left l₁
  · refine relink_agree (n := 1) (fun c hc ↦ ?_) x le_rfl (by omega)
    have := hx c hc
    have := hsize c (mem_append_left _ hc)
    simp only [stop] at *
    omega

theorem Chain.cutFront (h : Chain m p (l₁ ++ b :: l₂)) {n : Nat} (hn : 8 ≤ n) (hrest : n + 8 ≤ b.size) :
    let m₁ := store32 m (b.addr + n) (b.size - n)
    let m₂ := store32 m₁ (b.addr + n + 4) (load32 m₁ (b.addr + 4))
    let r := FreeList.relink m₂ p (last 0 l₁) (b.addr + n)
    Chain r.1 r.2 (l₁ ++ ⟨b.addr + n, b.size - n⟩ :: l₂) ∧
      ∀ x, (∀ c ∈ l₁ ++ b :: l₂, ¬ (c.addr ≤ x ∧ x < c.stop)) → r.1 x = m x := by
  intro m₁ m₂ r
  have hb := hpack.within b (by simp)
  have hbound : b.addr + b.size ≤ 2 ^ 32 := hb.2.trans hstop
  obtain ⟨hne, -, hnext, htail⟩ := h.node
  have hapart : ∀ c ∈ l₁ ++ l₂, c.Apart b := by
    have hperm : (l₁ ++ b :: l₂).Perm (b :: (l₁ ++ l₂)) := perm_middle
    exact fun c hc ↦ ((hpack.perm hperm).head c hc).symm
  -- The header of the rest is inside `b` and behind its own header.
  have hother : ∀ a k, (a + k ≤ b.addr + n ∨ b.addr + b.size ≤ a) → Agree m m₂ a k := by
    intro a k ha x hx hx'
    have h₂ := store32_agree (m := m₁) (a := b.addr + n + 4) (v := load32 m₁ (b.addr + 4))
      (by omega) x hx hx'
    have h₁ := store32_agree (m := m) (a := b.addr + n) (v := b.size - n) (by omega) x hx hx'
    exact h₂.trans h₁
  have hkeep : ∀ c ∈ l₁ ++ l₂, Agree m m₂ c.addr 8 := by
    intro c hc
    have hap := hapart c hc
    simp only [Apart, stop] at hap
    exact hother _ _ (by omega)
  have hold : Chain m₂ p (l₁ ++ b :: l₂) := by
    refine h.congr fun c hc ↦ ?_
    rcases mem_append.mp hc with hc | hc
    · exact hkeep c (mem_append_left _ hc)
    · rcases mem_cons.mp hc with rfl | hc
      · exact hother _ _ (by omega)
      · exact hkeep c (mem_append_right _ hc)
  have hnew : Chain m₂ (b.addr + n) (⟨b.addr + n, b.size - n⟩ :: l₂) := by
    have hlink : load32 m₁ (b.addr + 4) = first l₂ := by
      rw [load32_store32_of_apart (by omega), hnext]
    refine ⟨rfl, by simp only; omega, ?_, ?_⟩
    · rw [load32_store32_of_apart (by simp only; omega), load32_store32 (by omega)]
    · rw [load32_store32 (by rw [hlink]; exact first_lt_of_packed hpack hstop hsize), hlink]
      exact htail.congr fun c hc ↦ hkeep c (mem_append_right _ hc)
  have hcut : Packed region (l₁ ++ ⟨b.addr + n, b.size - n⟩ :: l₂) := by
    have hwithin : (⟨b.addr + n, b.size - n⟩ : Block).Within b := by
      simp only [Within, stop]
      omega
    exact ((hpack.perm perm_middle).shrink hwithin).perm perm_middle.symm
  have hcutsize : ∀ c ∈ l₁ ++ ⟨b.addr + n, b.size - n⟩ :: l₂, 8 ≤ c.size := by
    intro c hc
    rcases mem_append.mp hc with hc | hc
    · exact hsize c (mem_append_left _ hc)
    · rcases mem_cons.mp hc with rfl | hc
      · simp only
        omega
      · exact hsize c (mem_append_right _ (mem_cons_of_mem _ hc))
  refine ⟨hold.relink (by omega) hnew (hcut.headers hcutsize), fun x hx ↦ ?_⟩
  have hrelink : r.1 x = m₂ x := by
    refine relink_agree (n := 1) (fun c hc ↦ ?_) x le_rfl (by omega)
    have := hx c (mem_append_left _ hc)
    have := hsize c (mem_append_left _ hc)
    simp only [stop] at *
    omega
  have hxb := hx b (by simp)
  simp only [stop] at hxb
  exact hrelink.trans (hother x 1 (by omega) x le_rfl (by omega))

end Packed

end Chain

end Rxv6.Lib.FreeList
