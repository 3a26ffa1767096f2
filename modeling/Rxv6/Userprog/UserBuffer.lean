import Rxv6.Userprog.Syscall

namespace Rxv6.Userprog.Syscall

open Rxv6.Thread Rxv6.Vm Option

def Mapped (m : Memory) (tid : Tid) (store : Bool) (n : Nat) : Prop :=
  ∃ x, m.view.mapping tid n = some x ∧ (store = true → x.writable = true)

/-- The walk over `k` pages from page `n` on comes to a page below the stack area that is neither
mapped nor in the supplementary page table. -/
def Rejected (tid : Tid) : Nat → Nat → Memory → Prop
  | 0, _, _ => False
  | k + 1, n, m =>
    match m.view.mapping tid n with
    | some _ => Rejected tid k (n + 1) m
    | none =>
      match m.findSpt tid (n * pgsize) with
      | some e => Rejected tid k (n + 1) (m.loadPage e (n * pgsize) tid).2
      | none => n * pgsize < physBase - userStackMax

/-- Each of the `k` pages from page `n` on is mapped when the walk comes to it, or can be loaded
without taking the frame of a page from `first` to `n`. -/
def Served (tid : Tid) (store : Bool) (first : Nat) : Nat → Nat → Memory → Prop
  | 0, _, _ => True
  | k + 1, n, m =>
    match m.view.mapping tid n with
    | some x => (store = true → x.writable = true) ∧ Served tid store first k (n + 1) m
    | none =>
      match m.findSpt tid (n * pgsize) with
      | some e => m.CanLoad e tid n ∧ (store = true → e.writable = true) ∧
          (∀ q, first ≤ q → q < n → ¬ m.Loses tid q) ∧
          Served tid store first k (n + 1) (m.loadPage e (n * pgsize) tid).2
      | none => False

variable {checks : Bool} {m m' : Memory} {tid : Tid} {addr size stop : Nat}

variable {k n : Nat} {store : Bool}

theorem checkPages_succ (hstop : stop ≤ physBase) (hn : n * pgsize < stop) :
    checkPages checks tid stop (k + 1) (n * pgsize) m =
      match m.view.mapping tid n with
      | some _ => checkPages checks tid stop k ((n + 1) * pgsize) m
      | none =>
        match m.findSpt tid (n * pgsize) with
        | some e => checkPages checks tid stop k ((n + 1) * pgsize) (m.loadPage e (n * pgsize) tid).2
        | none => some (physBase - userStackMax ≤ n * pgsize, m) := by
  have hadd : addUsize checks (n * pgsize) pgsize = some ((n + 1) * pgsize) := by
    have hfit : n * pgsize + pgsize < 2 ^ 32 := by
      have hb : physBase = 0xC0000000 := rfl
      have hp : pgsize = 4096 := rfl
      omega
    simp only [addUsize, hfit, if_true, Nat.add_mul, Nat.one_mul]
  have hlt : n * pgsize < physBase := by omega
  rw [checkPages, if_pos hn, Memory.getPage_view, mul_pgsize_div]
  cases m.view.mapping tid n with
  | some x => simp [hadd]
  | none =>
    cases m.findSpt tid (n * pgsize) with
    | some e => simp [hadd]
    | none => simp [hlt]

theorem shift_pages (hk : ∀ i < k + 1, (n + i) * pgsize < stop) : ∀ i < k, (n + 1 + i) * pgsize < stop := by
  intro i hi
  have h := hk (i + 1) (by omega)
  rwa [show n + (i + 1) = n + 1 + i by omega] at h

theorem checkPages_shrinks (hstop : stop ≤ physBase) {b : Bool}
    (hatt : m.view.attached tid = true) (hk : ∀ i < k, (n + i) * pgsize < stop)
    (h : checkPages checks tid stop k (n * pgsize) m = some (b, m')) {q : Nat} (hq : q < n) :
    m'.view.mapping tid q = m.view.mapping tid q ∨ m'.view.mapping tid q = none := by
  induction k generalizing n m with
  | zero =>
    simp only [checkPages, Option.some.injEq, Prod.mk.injEq] at h
    exact .inl (h.2 ▸ rfl)
  | succ k ih =>
    rw [checkPages_succ hstop (by simpa using hk 0 (by omega))] at h
    cases hmap : m.view.mapping tid n with
    | some x =>
      simp only [hmap] at h
      exact ih hatt (shift_pages hk) h (by omega)
    | none =>
      cases hspt : m.findSpt tid (n * pgsize) with
      | none =>
        simp only [hmap, hspt, Option.some.injEq, Prod.mk.injEq] at h
        exact .inl (h.2 ▸ rfl)
      | some e =>
        simp only [hmap, hspt] at h
        obtain ⟨ha, -, -, hother⟩ := Memory.loadPage_frame e (n * pgsize) hatt (by rwa [mul_pgsize_div])
        rw [mul_pgsize_div] at hother
        obtain ⟨hlose, hkeep⟩ := hother q (by omega)
        rcases ih (by rwa [ha]) (shift_pages hk) h (by omega) with heq | hnone
        · rw [heq]
          by_cases hc : e.location = .inMemory ∨ ¬ m.Loses tid q
          · exact .inl (hkeep hc)
          · rw [not_or, not_not] at hc
            exact .inr (hlose hc.1 hc.2)
        · exact .inr hnone

theorem checkPages_rejects (checks : Bool) (tid : Tid) (m : Memory) (hstop : stop ≤ physBase)
    (hk : ∀ i < k, (n + i) * pgsize < stop) : ∃ b m',
      checkPages checks tid stop k (n * pgsize) m = some (b, m') ∧ (b = false ↔ Rejected tid k n m) := by
  induction k generalizing n m with
  | zero => exact ⟨true, m, rfl, by simp [Rejected]⟩
  | succ k ih =>
    rw [checkPages_succ hstop (by simpa using hk 0 (by omega)), Rejected]
    cases m.view.mapping tid n with
    | some x => exact ih _ (shift_pages hk)
    | none =>
      cases m.findSpt tid (n * pgsize) with
      | some e => exact ih _ (shift_pages hk)
      | none => exact ⟨_, m, rfl, by rw [decide_eq_false_iff_not, not_le]⟩

section

variable (hstop : stop ≤ physBase) {first : Nat} (hatt : m.view.attached tid = true)
  (hk : ∀ i < k, (n + i) * pgsize < stop)
include hstop hatt hk

theorem served_of_mapped (hn : first ≤ n)
    (h : checkPages checks tid stop k (n * pgsize) m = some (true, m'))
    (hall : ∀ q, first ≤ q → q < n + k → Mapped m' tid store q) : Served tid store first k n m := by
  induction k generalizing n m with
  | zero => trivial
  | succ k ih =>
    have hall' : ∀ q, first ≤ q → q < n + 1 + k → Mapped m' tid store q := fun q hf hq ↦
      hall q hf (by omega)
    rw [checkPages_succ hstop (by simpa using hk 0 (by omega))] at h
    obtain ⟨y, hy, hyw⟩ := hall n hn (by omega)
    rw [Served]
    cases hmap : m.view.mapping tid n with
    | some x =>
      simp only [hmap] at h
      rcases checkPages_shrinks hstop hatt (shift_pages hk) h (Nat.lt_succ_self n) with heq | hnone
      · rw [hy, hmap, Option.some.injEq] at heq
        exact ⟨heq ▸ hyw, ih hatt (shift_pages hk) (by omega) h hall'⟩
      · rw [hy] at hnone
        cases hnone
    | none =>
      cases hspt : m.findSpt tid (n * pgsize) with
      | none =>
        simp only [hmap, hspt, Option.some.injEq, Prod.mk.injEq] at h
        rw [← h.2, hmap] at hy
        cases hy
      | some e =>
        simp only [hmap, hspt] at h
        obtain ⟨ha, hcan, hcannot, hother⟩ := Memory.loadPage_frame e (n * pgsize) hatt
          (by rwa [mul_pgsize_div])
        rw [mul_pgsize_div] at hcan hcannot hother
        rw [← ha] at hatt
        have hkeep : ∀ q < n + 1, first ≤ q →
            (m.loadPage e (n * pgsize) tid).2.view.mapping tid q ≠ none := by
          intro q hq hf hnone
          obtain ⟨z, hz, -⟩ := hall q hf (by omega)
          rcases checkPages_shrinks hstop hatt (shift_pages hk) h hq with heq | hn'
          · rw [hz, hnone] at heq
            cases heq
          · rw [hz] at hn'
            cases hn'
        have hload : m.CanLoad e tid n := by
          by_contra hc
          exact hkeep n (by omega) hn (hcannot hc)
        refine ⟨hload, ?_, ?_, ih hatt (shift_pages hk) (by omega) h hall'⟩
        · obtain ⟨f, hf⟩ := hcan hload
          rcases checkPages_shrinks hstop hatt (shift_pages hk) h (Nat.lt_succ_self n) with heq | hnone
          · rw [hy, hf, Option.some.injEq] at heq
            simpa [heq] using hyw
          · rw [hy] at hnone
            cases hnone
        · intro q hf hq hlose
          exact hkeep q (by omega) hf ((hother q (by omega)).1 hload.1 hlose)

theorem mapped_of_served
    (h : checkPages checks tid stop k (n * pgsize) m = some (true, m'))
    (hseen : ∀ q, first ≤ q → q < n → Mapped m tid store q) (hserved : Served tid store first k n m) :
    ∀ q, first ≤ q → q < n + k → Mapped m' tid store q := by
  induction k generalizing n m with
  | zero =>
    simp only [checkPages, Option.some.injEq, Prod.mk.injEq] at h
    exact h.2 ▸ hseen
  | succ k ih =>
    rw [checkPages_succ hstop (by simpa using hk 0 (by omega))] at h
    rw [Served] at hserved
    rw [show n + (k + 1) = n + 1 + k by omega]
    cases hmap : m.view.mapping tid n with
    | some x =>
      simp only [hmap] at h hserved
      refine ih hatt (shift_pages hk) h ?_ hserved.2
      intro q hf hq
      rcases Nat.lt_succ_iff_lt_or_eq.mp hq with hlt | rfl
      · exact hseen q hf hlt
      · exact ⟨x, hmap, hserved.1⟩
    | none =>
      cases hspt : m.findSpt tid (n * pgsize) with
      | none => simp only [hmap, hspt] at hserved
      | some e =>
        simp only [hmap, hspt] at h hserved
        obtain ⟨hload, hw, hlose, hrest⟩ := hserved
        obtain ⟨ha, hcan, -, hother⟩ := Memory.loadPage_frame e (n * pgsize) hatt (by rwa [mul_pgsize_div])
        rw [mul_pgsize_div] at hcan hother
        refine ih (by rwa [ha]) (shift_pages hk) h ?_ hrest
        intro q hf hq
        rcases Nat.lt_succ_iff_lt_or_eq.mp hq with hlt | rfl
        · obtain ⟨z, hz, hzw⟩ := hseen q hf hlt
          exact ⟨z, ((hother q (by omega)).2 (.inr (hlose q hf hlt))).trans hz, hzw⟩
        · obtain ⟨f, hf'⟩ := hcan hload
          exact ⟨_, hf', hw⟩

end

def BufferReady (checks : Bool) (m : Memory) (tid : Tid) (addr size : Nat) (store : Bool) : Prop :=
  ∀ m', isValidUserPtr checks m tid addr size = some (true, m') →
    ∀ a, addr ≤ a → a < addr + size → a < physBase ∧ Mapped m' tid store (a / pgsize)

def Backed (checks : Bool) (m : Memory) (tid : Tid) (addr size : Nat) (store : Bool) : Prop :=
  ¬ (pgsize ≤ addr ∧ addr < physBase) ∨ (physBase < addr + size ∧ addr + size < 2 ^ 32) ∨
  (2 ^ 32 ≤ addr + size ∧ checks = true ∧ m.view.attached tid = true) ∨
  (addr + size ≤ physBase ∧ m.view.attached tid = true ∧
    (Rejected tid (pageCount (pgRoundDown addr) (addr + size)) (addr / pgsize) m ∨
      Served tid store (addr / pgsize) (pageCount (pgRoundDown addr) (addr + size)) (addr / pgsize) m))

theorem pages_of_buffer (hsize : 0 < size) {P : Nat → Prop} :
    (∀ a, addr ≤ a → a < addr + size → P (a / pgsize)) ↔
      ∀ q, addr / pgsize ≤ q → q < addr / pgsize + pageCount (pgRoundDown addr) (addr + size) → P q := by
  constructor
  · intro h q hlo hhi
    have hq : max addr (q * pgsize) / pgsize = q := by
      simp only [pgsize] at *
      omega
    rw [← hq]
    apply h
    · exact le_max_left _ _
    · simp only [pageCount, pgRoundDown, pgsize] at *
      omega
  · intro h a hlo hhi
    apply h <;> simp only [pageCount, pgRoundDown, pgsize] at * <;> omega

section

variable (hs : size ≤ physBase) (hlo : pgsize ≤ addr) (hhi : addr < physBase)
include hs hlo hhi

theorem isValidUserPtr_of_range
    (hle : addr + size ≤ physBase) (hatt : m.view.attached tid = true) :
    isValidUserPtr checks m tid addr size = checkPages checks tid (addr + size)
      (pageCount (pgRoundDown addr) (addr + size)) (addr / pgsize * pgsize) m := by
  obtain ⟨pd, hpd⟩ := isSome_iff_exists.mp hatt
  have hadd : addUsize checks addr size = some (addr + size) :=
    if_pos (by simp only [physBase] at hle; omega)
  rw [isValidUserPtr, if_neg ((range_test_iff hs).mpr ⟨hlo, hhi, .inl hle⟩)]
  simp only [hpd, hadd, bind_some, pgRoundDown]

theorem isValidUserPtr_detached
    (hsum : addr + size ≤ physBase ∨ 2 ^ 32 ≤ addr + size) (hatt : m.view.attached tid = false) :
    isValidUserPtr checks m tid addr size = some (true, m) := by
  have hpd : m.pagedir tid = none := by simpa [Memory.view] using hatt
  rw [isValidUserPtr, if_neg ((range_test_iff hs).mpr ⟨hlo, hhi, hsum⟩)]
  simp only [hpd]

theorem bufferReady_of_wrap (hwrap : 2 ^ 32 ≤ addr + size) :
    BufferReady checks m tid addr size store ↔ checks = true ∧ m.view.attached tid = true := by
  have hbad : isValidUserPtr checks m tid addr size = some (true, m) →
      ¬ BufferReady checks m tid addr size store := by
    intro h hready
    have := (hready m h physBase hhi.le (by simp only [physBase] at *; omega)).1
    omega
  cases hatt : m.view.attached tid with
  | false => simp [hbad (isValidUserPtr_detached hs hlo hhi (.inr hwrap) hatt)]
  | true =>
    cases checks with
    | false => simp [hbad (isValidUserPtr_of_wrap hlo hhi hs hwrap)]
    | true =>
      obtain ⟨pd, hpd⟩ := isSome_iff_exists.mp hatt
      have hadd : addUsize true addr size = none := by
        rw [addUsize, if_neg (by omega), if_pos rfl]
      have hpanic : isValidUserPtr true m tid addr size = none := by
        rw [isValidUserPtr, if_neg ((range_test_iff hs).mpr ⟨hlo, hhi, .inr hwrap⟩)]
        simp only [hpd, hadd, bind_none]
      simp [BufferReady, hpanic]

end

theorem bufferReady_of_range (hsize : 0 < size) (hs : size ≤ physBase)
    (hlo : pgsize ≤ addr) (hle : addr + size ≤ physBase) :
    BufferReady checks m tid addr size store ↔ m.view.attached tid = true ∧
      (Rejected tid (pageCount (pgRoundDown addr) (addr + size)) (addr / pgsize) m ∨
        Served tid store (addr / pgsize) (pageCount (pgRoundDown addr) (addr + size))
          (addr / pgsize) m) := by
  have hhi : addr < physBase := by omega
  cases hatt : m.view.attached tid with
  | false =>
    have hvalid : isValidUserPtr checks m tid addr size = some (true, m) :=
      isValidUserPtr_detached hs hlo hhi (.inl hle) hatt
    have hpd : m.pagedir tid = none := by simpa [Memory.view] using hatt
    have hready : ¬ BufferReady checks m tid addr size store := by
      intro h
      obtain ⟨-, x, hx, -⟩ := h m hvalid addr le_rfl (by omega)
      simp [Memory.view, hpd] at hx
    simp [hready]
  | true =>
    have hk : ∀ i < pageCount (pgRoundDown addr) (addr + size),
        (addr / pgsize + i) * pgsize < addr + size := by
      simp only [pageCount, pgRoundDown, pgsize] at *
      omega
    obtain ⟨b, m', hrun, hrej⟩ := checkPages_rejects checks tid m hle hk
    have hvalid : isValidUserPtr checks m tid addr size = some (b, m') :=
      (isValidUserPtr_of_range hs hlo hhi hle hatt).trans hrun
    cases b with
    | false => simp [BufferReady, hvalid, hrej.mp rfl]
    | true =>
      have hready : BufferReady checks m tid addr size store ↔
          ∀ a, addr ≤ a → a < addr + size → Mapped m' tid store (a / pgsize) := by
        simp only [BufferReady, hvalid, Option.some.injEq, Prod.mk.injEq, true_and, forall_eq']
        exact ⟨fun h a h₁ h₂ ↦ (h a h₁ h₂).2, fun h a h₁ h₂ ↦ ⟨by omega, h a h₁ h₂⟩⟩
      have hnot : ¬ Rejected tid (pageCount (pgRoundDown addr) (addr + size)) (addr / pgsize) m := by
        simpa using hrej
      rw [hready, pages_of_buffer hsize]
      simp only [true_and, hnot, false_or]
      constructor
      · exact served_of_mapped hle hatt hk le_rfl hrun
      · exact mapped_of_served hle hatt hk hrun (fun q h₁ h₂ ↦ absurd h₁ (by omega))

/-- The kernel's own accesses to a checked buffer are free of page faults exactly when the buffer
is backed. -/
theorem bufferReady_iff {store : Bool} (hsize : 0 < size) (hs : size ≤ physBase) :
    BufferReady checks m tid addr size store ↔ Backed checks m tid addr size store := by
  by_cases hrange : pgsize ≤ addr ∧ addr < physBase
  swap
  · have hfalse : isValidUserPtr checks m tid addr size = some (false, m) := by
      rw [isValidUserPtr, if_pos (.inl hrange)]
    simp [BufferReady, Backed, hfalse, hrange]
  obtain ⟨hlo, hhi⟩ := hrange
  rcases Nat.lt_or_ge (addr + size) (2 ^ 32) with hlt | hwrap
  · rcases Nat.lt_or_ge physBase (addr + size) with hgt | hle
    · have hmod : wrappingAdd addr size = addr + size := Nat.mod_eq_of_lt hlt
      have hfalse : isValidUserPtr checks m tid addr size = some (false, m) := by
        rw [isValidUserPtr, if_pos (.inr (by rwa [hmod]))]
      simp only [BufferReady, Backed, hfalse, hgt, hlt, Option.some.injEq, Prod.mk.injEq,
        Bool.false_eq_true, false_and, false_imp_iff, implies_true, and_self, true_or, or_true]
    · rw [bufferReady_of_range hsize hs hlo hle, Backed]
      have h₁ : ¬ physBase < addr + size := by omega
      have h₂ : ¬ 2 ^ 32 ≤ addr + size := by omega
      simp only [hlo, hhi, h₁, h₂, hle, not_true, false_or, false_and, true_and]
  · rw [bufferReady_of_wrap hs hlo hhi hwrap, Backed]
    have h₁ : ¬ addr + size < 2 ^ 32 := by omega
    have h₂ : ¬ addr + size ≤ physBase := by simp only [physBase] at *; omega
    simp only [hlo, hhi, hwrap, h₁, h₂, not_true, false_or, false_and, and_false, or_false,
      true_and]

/-- A process after `setup_stack`: only the top page of the stack is mapped. -/
def stackProcess : Memory :=
  { freshProcess 3 with
    userPool := [true, false]
    frameTable := [⟨0, physBase - pgsize, 3, false⟩]
    pagedir := fun t ↦ if t = 3 then
        some fun i ↦ if i = 767 then
            some fun j ↦ if j = 1023 then some ⟨0, true, false, false⟩ else none
          else none
      else none }

theorem bufferReady_iff_topPage : 0 < 16 ∧ 16 ≤ physBase ∧
    BufferReady true stackProcess 3 (physBase - 16) 16 true :=
  ⟨by decide, by decide, (bufferReady_iff (by decide) (by decide)).mpr
    (.inr (.inr (.inr ⟨by decide, rfl, .inr ⟨fun _ ↦ rfl, trivial⟩⟩)))⟩

/-- A buffer on the stack page below, which nothing has touched yet: the check says yes, and the
page is not there. -/
theorem untouched_stack_page_accepted :
    isValidUserPtr true stackProcess 3 (physBase - 2 * pgsize) 16 = some (true, stackProcess) ∧
    ¬ BufferReady true stackProcess 3 (physBase - 2 * pgsize) 16 true := by
  have hvalid : isValidUserPtr true stackProcess 3 (physBase - 2 * pgsize) 16 =
      some (true, stackProcess) := rfl
  refine ⟨hvalid, fun h ↦ ?_⟩
  obtain ⟨-, x, hx, -⟩ := h _ hvalid _ le_rfl (by decide)
  cases hx

end Rxv6.Userprog.Syscall
