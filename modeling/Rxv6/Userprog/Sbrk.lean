import Rxv6.Userprog.LoaderImage

namespace Rxv6.Userprog.Sbrk

open Function Rxv6.Thread Rxv6.Vm Rxv6.Lib.Bitmap Rxv6.Userprog.Process Option
open Rxv6.Userprog.Loader (checked)

/-- One turn of the loop of `SYS_SBRK`, and whether a frame was to be had. The result of `set_page` is
ignored. -/
def growPage (m : Memory) (tid : Tid) (n : Nat) : Bool × Memory :=
  match (m.pagedir tid).bind (·.getPage (n * pgsize)) with
  | some _ => (true, m)
  | none =>
    match m.allocFrame (n * pgsize) tid with
    | (none, m) => (false, m)
    | (some k, m) => (true, (m.mapPage tid (n * pgsize) k true).getD m)

/-- The loop over the pages below `newBrk`, from page `n` on. -/
def grow (tid : Tid) (newBrk n : Nat) (m : Memory) : Bool × Memory :=
  if n * pgsize < newBrk then
    match growPage m tid n with
    | (false, m) => (false, m)
    | (true, m) => grow tid newBrk (n + 1) m
  else (true, m)
termination_by newBrk - n * pgsize
decreasing_by
  have : (n + 1) * pgsize = n * pgsize + 4096 := Nat.succ_mul n pgsize
  omega

/-- `old_brk + n`, or `old_brk.saturating_sub(-n)`. `none`: the sum or `-n` overflows, a panic. -/
def target (brk : Nat) (n : Int) : Option Nat :=
  if 0 ≤ n then checked (brk + n.toNat)
  else if n = -2 ^ 31 then none
  else some (brk - (-n).toNat)

def firstPage (brk : Nat) : Nat := if brk % pgsize = 0 then brk / pgsize else brk / pgsize + 1

def Zeroed (m : Memory) (tid : Tid) (a : Nat) : Prop :=
  ∃ x, m.view.mapping tid (a / pgsize) = some x ∧ x.writable = true ∧ m.mem x.kpage (Exception.offset a) = 0

/-- There is a frame for page `n`, from the pool or from another page, and room for its page table. The page
that loses its frame is not one of those that have been mapped for the region before. -/
structure PageGrows (m : Memory) (tid : Tid) (brk n : Nat) : Prop where
  frame : (firstClear m.userPool 0).isSome ∨ m.victim.isSome
  table : m.view.table tid n = true ∨ 0 < m.kernelPool
  victim : ∀ x ∈ m.victim, x.ownerTid = tid → brk / pgsize ≤ x.upage / pgsize → n ≤ x.upage / pgsize

/-- The loop from page `n` on: each page is mapped and zero in the region when the loop comes to it, or can be
given a frame then. -/
inductive Grows (tid : Tid) (brk newBrk : Nat) : Nat → Memory → Prop
  | done {n : Nat} {m : Memory} : ¬ n * pgsize < newBrk → Grows tid brk newBrk n m
  | page {n : Nat} {m : Memory} : n * pgsize < newBrk →
      (m.view.mapping tid n = none → PageGrows m tid brk n) →
      (m.view.mapping tid n ≠ none → ∀ a, brk ≤ a → a < newBrk → a / pgsize = n → Zeroed m tid a) →
      Grows tid brk newBrk (n + 1) (growPage m tid n).2 → Grows tid brk newBrk n m

/-- The first page from `n` on that needs a frame gets none. -/
def Refused (m : Memory) (tid : Tid) (newBrk n : Nat) : Prop :=
  ∃ q, n ≤ q ∧ q * pgsize < newBrk ∧ (∀ p, n ≤ p → p < q → m.view.mapping tid p ≠ none) ∧
    m.view.mapping tid q = none ∧ firstClear m.userPool 0 = none ∧ m.victim = none

section Turn

variable {m m' : Memory} {tid : Tid} {n k q : Nat} {b : Bool}

theorem growPage_mapped (h : m.view.mapping tid n ≠ none) : growPage m tid n = (true, m) := by
  obtain ⟨x, hx⟩ := ne_none_iff_exists'.1 h
  have hget : (m.pagedir tid).bind (·.getPage (n * pgsize)) = some x.kpage := by
    rw [Memory.getPage_view, mul_pgsize_div, hx]
    rfl
  simp only [growPage, hget]

/-- What `alloc_frame` and `set_page` leave when the page gets the frame `k`. -/
structure Grown (m : Memory) (tid : Tid) (n k : Nat) (m' : Memory) : Prop where
  frame : (firstClear m.userPool 0).isSome ∨ m.victim.isSome
  entry : ⟨k, n * pgsize, tid, false⟩ ∈ m'.frameTable
  mem : m'.mem = update m.mem k zeroPage
  attached : m'.view.attached tid = true
  self : m.view.table tid n = true ∨ 0 < m.kernelPool → m'.view.mapping tid n = some ⟨k, true, false⟩
  failed : ¬ (m.view.table tid n = true ∨ 0 < m.kernelPool) → m'.view.mapping tid n = none
  other : ∀ q, q ≠ n → (∀ x ∈ m.victim, ¬ (x.ownerTid = tid ∧ x.upage / pgsize = q)) →
    m'.view.mapping tid q = m.view.mapping tid q
  taken : ∀ q, q ≠ n → (∃ x ∈ m.victim, x.ownerTid = tid ∧ x.upage / pgsize = q) → m'.view.mapping tid q = none
  kept : ∀ q, q ≠ n → m.view.mapping tid q = none → m'.view.mapping tid q = none

theorem growPage_none (hnone : m.view.mapping tid n = none) (hfree : firstClear m.userPool 0 = none)
    (hvictim : m.victim = none) : ∃ m', growPage m tid n = (false, m') ∧ m'.view = m.view := by
  have hget : (m.pagedir tid).bind (·.getPage (n * pgsize)) = none := by
    rw [Memory.getPage_view, mul_pgsize_div, hnone]
    rfl
  rcases hal : m.allocFrame (n * pgsize) tid with ⟨_ | k, m₁⟩
  · exact ⟨m₁, by simp only [growPage, hget, hal], Memory.allocFrame_none hal⟩
  · have hallocs := Memory.allocFrame_some hal
    rw [hvictim] at hallocs
    generalize m₁.view = v at hallocs
    cases hallocs with
    | fresh hpool =>
      have hpool : (firstClear m.userPool 0).map _ = some _ := hpool
      rw [hfree] at hpool
      cases hpool

theorem allocFrame_cases (h : m.allocFrame (n * pgsize) tid = (some k, m')) (q : Nat) :
    ((firstClear m.userPool 0).isSome ∨ m.victim.isSome) ∧ ⟨k, n * pgsize, tid, false⟩ ∈ m'.frameTable ∧
      m'.mem = update m.mem k zeroPage ∧ m'.view.attached = m.view.attached ∧ m'.view.table = m.view.table ∧
      m'.kernelPool = m.kernelPool ∧
      ((∀ x ∈ m.victim, ¬ (x.ownerTid = tid ∧ x.upage / pgsize = q)) →
        m'.view.mapping tid q = m.view.mapping tid q) ∧
      ((∃ x ∈ m.victim, x.ownerTid = tid ∧ x.upage / pgsize = q) → m'.view.mapping tid q = none) := by
  have hallocs := Memory.allocFrame_some h
  generalize hv' : m'.view = v' at hallocs
  have hcore : m'.toCore = v'.toCore := by rw [← hv']; rfl
  have htable : m'.frameTable = v'.frameTable := congrArg Core.frameTable hcore
  have hmem : m'.mem = v'.mem := congrArg Core.mem hcore
  have hkernel : m'.kernelPool = v'.kernelPool := congrArg Core.kernelPool hcore
  rw [htable, hmem, hkernel]
  generalize hx : m.victim = o at hallocs
  cases hallocs with
  | fresh hpool =>
    simp only [Core.getUserPage, map_eq_some_iff] at hpool
    obtain ⟨k', hk', hk⟩ := hpool
    obtain ⟨rfl, rfl⟩ := Prod.mk.inj hk
    refine ⟨.inl ?_, by simp [Core.registerFrame], rfl, rfl, rfl, rfl, fun _ ↦ rfl, ?_⟩
    · rw [show m.userPool = m.view.userPool from rfl, hk']
      rfl
    · rintro ⟨x, ⟨⟩, -⟩
  | @evicted e v₁ hpool hev =>
    obtain ⟨hatt, htab, hker, hmap⟩ := hev.frame
    have hmem₁ : v₁.mem = m.mem := by
      obtain ⟨hand, c, -, hc, rfl⟩ := hev.taken
      exact (Core.saveVictim_saves hc).mem
    refine ⟨.inr rfl, by simp [Core.registerFrame], ?_, hatt, htab, hker, fun hother ↦ ?_, ?_⟩
    · exact congrArg (update · e.kpage zeroPage) hmem₁
    · change v₁.mapping tid q = _
      rw [hmap, View.unmap]
      have hne := hother e rfl
      by_cases ho : tid = e.ownerTid
      · have hq : q ≠ e.upage / pgsize := fun hq ↦ hne ⟨ho.symm, hq.symm⟩
        simp only [ho, update_self, update_of_ne hq]
      · simp only [update_of_ne ho]
    · rintro ⟨x, ⟨⟩, rfl, rfl⟩
      change v₁.mapping _ _ = none
      rw [hmap]
      simp only [View.unmap, update_self]

theorem growPage_unmapped (hatt : m.view.attached tid = true) (hnone : m.view.mapping tid n = none)
    (h : ¬ (firstClear m.userPool 0 = none ∧ m.victim = none)) :
    ∃ k m', growPage m tid n = (true, m') ∧ Grown m tid n k m' := by
  have hget : (m.pagedir tid).bind (·.getPage (n * pgsize)) = none := by
    rw [Memory.getPage_view, mul_pgsize_div, hnone]
    rfl
  rcases hal : m.allocFrame (n * pgsize) tid with ⟨_ | k, m₁⟩
  · refine absurd ⟨?_, ?_⟩ h
    · unfold Memory.allocFrame at hal
      split at hal
      · cases hal
      next hpool => simpa [Core.getUserPage] using hpool
    · unfold Memory.allocFrame at hal
      split at hal
      · cases hal
      next hpool =>
        split at hal
        · cases hal
        next hev => simp [Memory.victim, hpool, hev]
  · have hcases := allocFrame_cases hal
    obtain ⟨hframe, hentry, hmem, hatt₁, htab, hker, -, -⟩ := hcases 0
    have hkept : ∀ q, m.view.mapping tid q = none → m₁.view.mapping tid q = none := fun q hq ↦ by
      by_cases hv : ∃ x ∈ m.victim, x.ownerTid = tid ∧ x.upage / pgsize = q
      · exact (hcases q).2.2.2.2.2.2.2 hv
      · rw [(hcases q).2.2.2.2.2.2.1 fun x hx hsame ↦ hv ⟨x, hx, hsame⟩, hq]
    by_cases htable : m.view.table tid n = true ∨ 0 < m.kernelPool
    · have hsome : (m₁.mapPage tid (n * pgsize) k true).isSome := by
        rw [Memory.mapPage_isSome, mul_pgsize_div, hatt₁, htab, hker]
        exact ⟨hatt, htable⟩
      obtain ⟨m', hm'⟩ := isSome_iff_exists.1 hsome
      have hmaps := Memory.mapPage_some hm'
      rw [mul_pgsize_div] at hmaps
      obtain ⟨kp, hcore⟩ := hmaps.core
      have hmap : ∀ q, q ≠ n → m'.view.mapping tid q = m₁.view.mapping tid q := fun q hq ↦ by
        rw [hmaps.mapping, update_self, update_of_ne hq]
      refine ⟨k, m', by simp only [growPage, hget, hal, hm', getD_some], hframe, ?_, ?_, ?_, fun _ ↦ ?_,
        fun hno ↦ absurd htable hno, fun q hq hv ↦ ?_, fun q hq hv ↦ ?_, fun q hq hnone ↦ ?_⟩
      · have htable' : m'.frameTable = m₁.frameTable := (congrArg Core.frameTable hcore :)
        rwa [htable']
      · have hmem' : m'.mem = m₁.mem := (congrArg Core.mem hcore :)
        exact hmem'.trans hmem
      · rw [hmaps.attached, hatt₁, hatt]
      · rw [hmaps.mapping, update_self, update_self]
      · rw [hmap q hq, (hcases q).2.2.2.2.2.2.1 hv]
      · rw [hmap q hq, (hcases q).2.2.2.2.2.2.2 hv]
      · rw [hmap q hq, hkept q hnone]
    · have hfail : m₁.mapPage tid (n * pgsize) k true = none := by
        rw [← not_isSome_iff_eq_none, Memory.mapPage_isSome, mul_pgsize_div, htab, hker]
        exact fun hsome ↦ htable hsome.2
      refine ⟨k, m₁, by simp only [growPage, hget, hal, hfail, getD_none], hframe, hentry, hmem, by rw [hatt₁, hatt],
        fun hyes ↦ absurd hyes htable, fun _ ↦ hkept n hnone, fun q _ hv ↦ (hcases q).2.2.2.2.2.2.1 hv,
        fun q _ hv ↦ (hcases q).2.2.2.2.2.2.2 hv, fun q _ hnone ↦ hkept q hnone⟩

theorem Grown.zeroed (h : Grown m tid n k m') (htable : m.view.table tid n = true ∨ 0 < m.kernelPool) {a : Nat}
    (ha : a / pgsize = n ∨ Zeroed m tid a ∧ ∀ x ∈ m.victim, ¬ (x.ownerTid = tid ∧ x.upage / pgsize = a / pgsize)) :
    Zeroed m' tid a := by
  by_cases han : a / pgsize = n
  · refine ⟨⟨k, true, false⟩, by rw [han, h.self htable], rfl, ?_⟩
    rw [h.mem, update_self]
    rfl
  · obtain ⟨⟨x, hx, hw, hzero⟩, hother⟩ := ha.resolve_left han
    refine ⟨x, by rw [h.other _ han hother, hx], hw, ?_⟩
    rw [h.mem]
    by_cases hk : x.kpage = k
    · rw [hk, update_self]
      rfl
    · rw [update_of_ne hk]
      exact hzero

end Turn

section Loop

variable {m m' : Memory} {tid : Tid} {n brk newBrk : Nat}

/-- The pages before `n` are done and stay so. -/
theorem Grows.zeroed (h : Grows tid brk newBrk n m) (hatt : m.view.attached tid = true)
    (hdone : ∀ a, brk ≤ a → a < newBrk → a / pgsize < n → Zeroed m tid a) :
    ∃ m', grow tid newBrk n m = (true, m') ∧ ∀ a, brk ≤ a → a < newBrk → Zeroed m' tid a := by
  induction h with
  | @done n m hge =>
    rw [grow, if_neg hge]
    refine ⟨m, rfl, fun a hlow hhigh ↦ hdone a hlow hhigh ?_⟩
    rw [Nat.div_lt_iff_lt_mul (by decide)]
    omega
  | @page n m hlt hnew hold _ ih =>
    rw [grow, if_pos hlt]
    by_cases hmap : m.view.mapping tid n = none
    · have hp := hnew hmap
      obtain ⟨k, m₁, hgrow, hg⟩ := growPage_unmapped hatt hmap fun hno ↦ by
        rcases hp.frame with hf | hf
        · rw [hno.1] at hf
          cases hf
        · rw [hno.2] at hf
          cases hf
      rw [hgrow] at ih ⊢
      refine ih hg.attached fun a hlow hhigh ha ↦ hg.zeroed hp.table ?_
      by_cases han : a / pgsize = n
      · exact .inl han
      · refine .inr ⟨hdone a hlow hhigh (by omega), fun x hx hsame ↦ ?_⟩
        have := hp.victim x hx hsame.1 (by rw [hsame.2]; exact Nat.div_le_div_right hlow)
        omega
    · rw [growPage_mapped hmap] at ih ⊢
      refine ih hatt fun a hlow hhigh ha ↦ ?_
      by_cases han : a / pgsize = n
      · exact hold hmap a hlow hhigh han
      · exact hdone a hlow hhigh (by omega)

theorem Refused.grow (h : Refused m tid newBrk n) : ∃ m', grow tid newBrk n m = (false, m') ∧ m'.view = m.view := by
  obtain ⟨q, hle, hlt, hmapped, hnone, hfree, hvictim⟩ := h
  induction hk : q - n generalizing n with
  | zero =>
    obtain rfl : n = q := by omega
    obtain ⟨m', hgrow, hview⟩ := growPage_none hnone hfree hvictim
    refine ⟨m', ?_, hview⟩
    rw [Sbrk.grow, if_pos hlt, hgrow]
  | succ k ih =>
    have hbelow : n * pgsize < newBrk := lt_of_le_of_lt (Nat.mul_le_mul_right _ hle) hlt
    rw [Sbrk.grow, if_pos hbelow, growPage_mapped (hmapped n le_rfl (by omega))]
    exact ih (by omega) (fun p hp ↦ hmapped p (by omega)) (by omega)

end Loop

def Whole (low high q : Nat) : Prop := low ≤ q * pgsize ∧ (q + 1) * pgsize ≤ high

def Released (m : Memory) (tid : Tid) (q : Nat) : Prop :=
  m.view.mapping tid q = none ∧ ∀ e ∈ m.frameTable, e.ownerTid = tid → e.upage / pgsize ≠ q

/-- From the break up to `stop` nothing has been used: the rest of the page of the break is zero, and no page
after it is mapped or has a frame. -/
structure Untouched (m : Memory) (tid : Tid) (brk : Nat) (stop : Int) : Prop where
  first : ∀ a : Nat, brk ≤ a → a < stop → a / pgsize < firstPage brk → Zeroed m tid a
  pages : ∀ q : Nat, firstPage brk ≤ q → ((q * pgsize : Nat) : Int) < stop → Released m tid q

section Arm

variable {m : Memory} {tid : Tid} {segEnd brk newBrk : Nat} {n : Int}

end Arm

end Rxv6.Userprog.Sbrk
