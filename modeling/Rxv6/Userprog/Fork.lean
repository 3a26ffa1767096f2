import Rxv6.Userprog.Recovery

namespace Rxv6.Userprog.Fork

open Function Rxv6.Thread Rxv6.Vm Rxv6.Lib.Bitmap Rxv6.Userprog.Exception Rxv6.Userprog.Recovery List Option

def destroyTable (pt : PageTable) (c : Core) : Core :=
  let c := (List.range 1024).foldl (fun c j ↦
    match pt j with
    | some e => c.freeFrame e.kpage
    | none => c) c
  { c with kernelPool := c.kernelPool + 1 }

/-- `pagedir::destroy`: the frames, the tables and the directory itself are freed. -/
def destroy (pd : Pagedir) (c : Core) : Core :=
  let c := (List.range (pdeIdx physBase)).foldl (fun c i ↦
    match pd i with
    | some pt => destroyTable pt c
    | none => c) c
  { c with kernelPool := c.kernelPool + 1 }

/-- The state of `copy_user_pages`: the child's page directory is not attached to a thread yet. -/
structure Copy where
  memory : Memory
  childPd : Pagedir

/-- The body of the inner loop, for page number `n`. The frame is allocated before the page is read. -/
def copyPage (parent : Tid) (s : Copy) (n : Nat) : Except Copy Copy :=
  match (s.memory.pagedir parent).bind (·.entry (n * pgsize)) with
  | none => .ok s
  | some pte =>
    match s.memory.allocFrame (n * pgsize) (-1) with
    | (none, m) => .error { s with memory := m }
    | (some dst, m) =>
      let m := { m with mem := update m.mem dst (m.mem pte.kpage) }
      match setPage m.kernelPool s.childPd (n * pgsize) dst pte.writable with
      | none => .error { s with memory := m.withCore (m.freeFrame dst) }
      | some (pd, kp) => .ok ⟨{ m with kernelPool := kp }, pd⟩

def copyUserPages (parent : Tid) (s : Copy) : Except Copy Copy :=
  (List.range (pdeIdx physBase)).foldlM (fun s i ↦
    if ((s.memory.pagedir parent).bind (· i)).isNone then .ok s
    else (List.range 1024).foldlM (fun s j ↦ copyPage parent s (i * 1024 + j)) s) s

def cloneEntry (e : SptEntry) : SptEntry :=
  { e with
    location :=
      match e.location with
      | .inMemory => .inMemory
      | .inSwap _ => .inMemory
      | other => other }

def cloneSpt (t : Spt) : Spt := t.map cloneEntry fun _ ↦ rfl

/-- `fork`, with the tid that `thread::create` will give. The first component is the child's page
directory, or `none` when `fork` returns -1. -/
def fork (m : Memory) (parent child : Tid) : Option Pagedir × Memory :=
  match m.pagedir parent with
  | none => (none, m)
  | some _ =>
    if m.kernelPool = 0 then (none, m)
    else
      match copyUserPages parent ⟨{ m with kernelPool := m.kernelPool - 1 }, .empty⟩ with
      | .error s => (none, s.memory.withCore (destroy s.childPd s.memory.toCore))
      | .ok s =>
        -- the page of the new thread
        if s.memory.kernelPool = 0 then
          (none, s.memory.withCore (destroy s.childPd s.memory.toCore))
        else
          let m := { s.memory with kernelPool := s.memory.kernelPool - 1 }
          let m := m.withCore (m.fixOwnerTid (-1) child)
          match m.spt parent with
          | some t => (some s.childPd, { m with spt := update m.spt child (some (cloneSpt t)) })
          | none => (some s.childPd, m)

def forkChildEntry (m : Memory) (child : Tid) (pd : Pagedir) : Memory :=
  { m with pagedir := update m.pagedir child (some pd) }

/-- Every read in the child gives what it gave in the parent before the fork, and so does every
read in the parent. -/
def Duplicated (m m' : Memory) (parent child : Tid) : Prop :=
  ∀ addr esp, addr < physBase →
    readByte (withRoom m') child addr esp = readByte (withRoom m) parent addr esp ∧
    readByte (withRoom m') parent addr esp = readByte (withRoom m) parent addr esp

/-- The victim of an allocation that the copy makes when it has come to page `n` of the parent does
no harm: it can be read back, and the child has its copy already, or gets zeros for zeros, or finds
the page where the parent finds it. -/
def Harmless (v : View) (parent : Tid) (n : Nat) (e : FrameEntry) : Prop :=
  (∃ x, v.mapping parent (e.upage / pgsize) = some x ∧ x.kpage = e.kpage) ∧ Recoverable v e ∧
    (e.upage / pgsize < n ∨ (e.upage / pgsize = n ∧ v.mem e.kpage = zeroPage) ∨
      (n < e.upage / pgsize ∧ v.isDirty parent (e.upage / pgsize) = false))

def SafeCopy (parent : Tid) : List Nat → Copy → Prop
  | [], _ => True
  | n :: l, s =>
    (s.memory.view.mapping parent n ≠ none → ∀ e, s.memory.victim = some e → e.ownerTid = parent →
      e.upage / pgsize < userPages → Harmless s.memory.view parent n e) ∧
    ∀ s', copyPage parent s n = .ok s' → SafeCopy parent l s'

/-- No unmapped page of the parent is in swap, and the copy takes no frame of the parent that does
harm. -/
def SafeFork (m : Memory) (parent : Tid) : Prop :=
  (∀ n, n < userPages → m.view.mapping parent n = none → heldSlot m.toCore parent n = none) ∧
  SafeCopy parent (List.range userPages) ⟨{ m with kernelPool := m.kernelPool - 1 }, .empty⟩

/-- No `set_page` of the parent has failed halfway: its frames are mapped, its swapped pages own
their slots, and no row of `SWAP_MAP` is hidden by a mapped page. -/
structure Orderly (v : View) (parent : Tid) : Prop where
  mapped : ∀ e ∈ v.frameTable, e.ownerTid = parent →
    ∃ x, v.mapping parent (e.upage / pgsize) = some x ∧ x.kpage = e.kpage
  slots : SlotsUsed v parent
  rows : ∀ n x, v.mapping parent n = some x → v.swapMap parent (n * pgsize) = none

variable {parent child : Tid} {s s' : Copy} {n : Nat}

def copyPages (parent : Tid) (l : List Nat) (s : Copy) : Except Copy Copy :=
  l.foldlM (copyPage parent) s

variable {l : List Nat} {m m' : Memory} {v v' : View} {t : Tid}

theorem copyPages_cons (h : copyPages parent (n :: l) s = .ok s') :
    ∃ s₁, copyPage parent s n = .ok s₁ ∧ copyPages parent l s₁ = .ok s' := by
  rw [copyPages, foldlM_cons] at h
  cases hc : copyPage parent s n with
  | error e =>
    rw [hc] at h
    cases h
  | ok s₁ =>
    rw [hc] at h
    exact ⟨s₁, rfl, h⟩

open Memory

theorem copyPage_skip (h : s.memory.view.mapping parent n = none) : copyPage parent s n = .ok s := by
  have hentry : (s.memory.pagedir parent).bind (·.entry (n * pgsize)) = none := by
    simpa [view] using h
  simp [copyPage, hentry]

theorem copyPages_step {s₁ : Copy} (h : copyPage parent s n = .ok s₁) :
    copyPages parent (n :: l) s = copyPages parent l s₁ := by
  rw [copyPages, foldlM_cons, h]
  rfl

theorem copyPages_skip (h : ∀ n ∈ l, s.memory.view.mapping parent n = none) :
    copyPages parent l s = .ok s := by
  induction l with
  | nil => rfl
  | cons n l ih =>
    rw [copyPages_step (copyPage_skip (h n (by simp)))]
    exact ih fun i hi ↦ h i (by simp [hi])

theorem range_mul (a b : Nat) :
    List.range (a * b) = (List.range a).flatMap fun i ↦ (List.range b).map (i * b + ·) := by
  induction a with
  | zero => simp
  | succ a ih =>
    rw [add_mul, range_add, range_succ, ih]
    simp

theorem mapping_of_noTable {i j : Nat} (h : (m.pagedir parent).bind (· i) = none)
    (hj : j < 1024) : m.view.mapping parent (i * 1024 + j) = none := by
  have hidx : pdeIdx ((i * 1024 + j) * pgsize) = i := by
    simp only [pdeIdx, pgsize]
    omega
  cases hpd : m.pagedir parent with
  | none => simp [view, hpd]
  | some pd =>
    rw [hpd] at h
    have hnone : pd (pdeIdx ((i * 1024 + j) * pgsize)) = none := by rwa [hidx]
    simp [view_mapping hpd, Pagedir.entry, hnone]

theorem copyUserPages_eq (s : Copy) :
    copyUserPages parent s = copyPages parent (List.range userPages) s := by
  have hpages : pdeIdx physBase = 768 := rfl
  rw [userPages_eq, ← hpages, range_mul, copyUserPages]
  generalize range (pdeIdx physBase) = l
  induction l generalizing s with
  | nil => rfl
  | cons i l ih =>
    have hinner : (if ((s.memory.pagedir parent).bind (· i)).isNone then .ok s
        else (range 1024).foldlM (fun s j ↦ copyPage parent s (i * 1024 + j)) s) =
        copyPages parent ((range 1024).map (i * 1024 + ·)) s := by
      split
      · next hnone =>
        rw [copyPages_skip]
        intro n hn
        obtain ⟨j, hj, rfl⟩ := List.mem_map.mp hn
        exact mapping_of_noTable (by simpa using hnone) (mem_range.mp hj)
      · rw [copyPages, foldlM_map]
    rw [foldlM_cons, hinner, flatMap_cons, copyPages, copyPages, foldlM_append]
    congr
    funext s₁
    exact ih s₁

def childMap (pd : Pagedir) (n : Nat) : Option Mapping := (pd.entry (n * pgsize)).map Pte.mapping

/-- What the child will find at page `n` if the copy ends here. -/
def childMeaning (v : View) (parent : Tid) (f : Nat → Option Mapping) (n : Nat) : Meaning :=
  match f n with
  | some y => .bytes (v.mem y.kpage)
  | none =>
    match v.findSpt parent (n * pgsize) with
    | some e => .ofEntry v.toCore (cloneEntry e)
    | none => .absent none

inductive Copied (v : View) (parent : Tid) (f : Nat → Option Mapping) (n : Nat)
    (o : Option FrameEntry) : View → (Nat → Option Mapping) → Prop
  | mk {x : Mapping} {k kp : Nat} {v₁ : View} : v.mapping parent n = some x →
      v.Allocs (n * pgsize) (-1) o k v₁ →
      Copied v parent f n o
        { v₁ with mem := update v₁.mem k (v₁.mem x.kpage), kernelPool := kp }
        (update f n (some ⟨k, x.writable, false⟩))

theorem copyPage_ok (h : copyPage parent s n = .ok s') :
    (s.memory.view.mapping parent n = none ∧ s' = s) ∨
    Copied s.memory.view parent (childMap s.childPd) n s.memory.victim s'.memory.view
      (childMap s'.childPd) := by
  unfold copyPage at h
  split at h
  · next hentry =>
    cases h
    exact .inl ⟨(congrArg (Option.map Pte.mapping) hentry), rfl⟩
  · next pte hentry =>
    split at h
    · cases h
    · next k m₁ hal =>
      simp only at h
      split at h
      · cases h
      · next pd kp hset =>
        cases h
        have hx : s.memory.view.mapping parent n = some pte.mapping :=
          (congrArg (Option.map Pte.mapping) hentry)
        have hf : childMap pd = update (childMap s.childPd) n (some ⟨k, pte.writable, false⟩) := by
          funext i
          rw [childMap, (setPage_some hset i).1, mul_pgsize_div]
          by_cases hi : i = n
          · subst hi
            simp [Pte.mapping]
          · rw [if_neg (Ne.symm hi), update_of_ne hi]
            rfl
        rw [hf]
        exact .inr (.mk hx (allocFrame_some hal))

/-- What holds of the view and the child's pages when the copy has come to page `n`. -/
structure Copying (v₀ v : View) (parent : Tid) (f : Nat → Option Mapping) (n : Nat) : Prop where
  wf : Wf v
  attached : v.attached = v₀.attached
  child : ∀ i y, f i = some y → i < n ∧ ∃ e ∈ v.frameTable, e.kpage = y.kpage ∧ e.ownerTid = -1
  mapped : ∀ i x, v.mapping parent i = some x →
    v₀.mapping parent i = some x ∧ v.mem x.kpage = v₀.mem x.kpage ∧
    (i < n → ∃ y, f i = some y ∧ v.mem y.kpage = v.mem x.kpage)

/-- Page `i` reads as before the fork, in the parent and in the child. -/
structure Same (v₀ v : View) (parent : Tid) (f : Nat → Option Mapping) (i : Nat) : Prop where
  inParent : SameAt i (meaning v parent i) (meaning v₀ parent i)
  inChild : SameAt i (childMeaning v parent f i) (meaning v₀ parent i)

variable {upage k : Nat} {o : Option FrameEntry} {e : FrameEntry}

theorem allocs_victim
    (h : v.Allocs upage t o k v') (hw : Wf v) (he : e ∈ v.frameTable)
    (hk : e.kpage = k) : o = some e := by
  cases h with
  | fresh hget =>
    simp only [Core.getUserPage, map_eq_some_iff] at hget
    obtain ⟨k, hclear, rfl, rfl⟩ := hget
    have hfree := (firstClear_some hclear).2.2
    rw [← hk, hw.used e he] at hfree
    cases hfree
  | evicted hget hev =>
    rw [inj_on_of_nodup_map hw.nodup he (hev.evicted hw).1 hk]

theorem allocs_attached
    (h : v.Allocs upage t (some e) k v') : e.kpage = k ∧ v.attached e.ownerTid = true := by
  cases h with
  | evicted hget hev => exact ⟨rfl, hev.attached⟩

open Meaning

section Step

variable {v₀ v v' : View} {f f' : Nat → Option Mapping} {o : Option FrameEntry}

variable {e : FrameEntry} {i : Nat} {x : Mapping}

variable {v₁ : View} {upage k : Nat}

theorem childFrame_ne {t : Tid} (h : v.Allocs upage t o k v₁) (hw : Wf v)
    (hatt : v.attached (-1) = false) (he : e ∈ v.frameTable) (howner : e.ownerTid = -1) : e.kpage ≠ k := by
  intro hk
  have ho := allocs_victim h hw he hk
  subst ho
  have := (allocs_attached h).2
  rw [howner, hatt] at this
  cases this

theorem copied_kept (h : Copied v parent f n o v' f') (hw : Wf v)
    (hne : ∀ e, o = some e → ¬ (parent = e.ownerTid ∧ i = e.upage / pgsize)) :
    Kept v v' parent i := by
  cases h with
  | mk hx hal =>
    have hk := allocs_kept hal hw hne
    have hloose := (hal.allocated hw).loose parent i
    exact ⟨hk.mapping, fun x hx ↦ (update_of_ne (hloose x (hk.mapping.trans hx)) _ _).trans (hk.mem x hx),
      hk.entry, hk.swapMap, hk.files, hk.slot⟩

theorem allocs_unmapped {t : Tid}
    (h : v.Allocs upage t (some e) k v₁) (hw : Wf v) :
    v₁.mapping e.ownerTid (e.upage / pgsize) = none := by
  cases h with
  | evicted hget hev => simp [(hev.evicted hw).2.mapping]

section

variable (h : Copied v parent f n o v' f')
include h

theorem copied_mapped (hw : Wf v)
    (hx : v'.mapping parent i = some x) : Kept v v' parent i := by
  apply copied_kept h hw
  rintro e rfl ⟨rfl, rfl⟩
  cases h with
  | mk _ hal =>
    have hx' := hx
    rw [show _ = none from allocs_unmapped hal hw] at hx'
    cases hx'

theorem copied_childFrame (hw : Wf v)
    (hatt : v.attached (-1) = false) (he : e ∈ v.frameTable)
    (howner : e.ownerTid = -1) : e ∈ v'.frameTable ∧ v'.mem e.kpage = v.mem e.kpage := by
  cases h with
  | mk _ hal =>
    have hne := childFrame_ne hal hw hatt he howner
    have hal' := hal.allocated hw
    refine ⟨(hal'.mem_frames e).mpr (.inl ⟨he, hne⟩), (update_of_ne hne _ _).trans ?_⟩
    rw [hal'.mem, update_of_ne hne]

theorem copied_copying (hc : Copying v₀ v parent f n)
    (hatt : v₀.attached (-1) = false) : Copying v₀ v' parent f' (n + 1) := by
  have hw := hc.wf
  have hatt' : v.attached (-1) = false := by rw [hc.attached, hatt]
  have hkeep := fun e he ho ↦ copied_childFrame h hw hatt' (e := e) he ho
  have hmap := fun i x hx ↦ copied_mapped h hw (i := i) (x := x) hx
  cases h with
  | @mk x₀ k kp v₁ hx₀ hal =>
    have hal' := hal.allocated hw
    refine ⟨⟨hal'.wf.nodup, hal'.wf.used, hal'.wf.frame⟩, hal'.attached.trans hc.attached, ?_, ?_⟩
    · intro i y hy
      by_cases hi : i = n
      · subst hi
        rw [update_self, some.injEq] at hy
        exact ⟨Nat.lt_succ_self i, ⟨k, i * pgsize, -1, false⟩, (hal'.mem_frames _).mpr (.inr rfl),
          by rw [← hy], rfl⟩
      · rw [update_of_ne hi] at hy
        obtain ⟨hlt, e, he, hek, howner⟩ := hc.child i y hy
        exact ⟨Nat.lt_succ_of_lt hlt, e, (hkeep e he howner).1, hek, howner⟩
    · intro i x hx
      have hk := hmap i x hx
      have hxv : v.mapping parent i = some x := hk.mapping ▸ hx
      obtain ⟨hx₁, hmem, hcopy⟩ := hc.mapped i x hxv
      refine ⟨hx₁, (hk.mem x hxv).trans hmem, fun hi ↦ ?_⟩
      by_cases hin : i = n
      · subst hin
        obtain rfl : x₀ = x := some.inj (hx₀.symm.trans hxv)
        refine ⟨_, update_self _ _ _, ?_⟩
        have hne := hal'.loose parent i x₀ hx
        simp only [update_self, update_of_ne hne]
      · obtain ⟨y, hy, hdata⟩ := hcopy (by omega)
        obtain ⟨-, e, he, hek, howner⟩ := hc.child i y hy
        refine ⟨y, by rw [update_of_ne hin, hy], ?_⟩
        rw [hk.mem x hxv, ← hdata, ← hek]
        exact (hkeep e he howner).2

end

theorem cloneEntry_notInSwap (x : SptEntry) (slot : Nat) : (cloneEntry x).location ≠ .inSwap slot := by
  cases hl : x.location <;> simp [cloneEntry, hl]

theorem ofEntry_clone_kept (hf : v'.files = v.files) (x : SptEntry) :
    Meaning.ofEntry v'.toCore (cloneEntry x) = Meaning.ofEntry v.toCore (cloneEntry x) := by
  rw [ofEntry, ofEntry,
    pageData_kept hf fun slot hl ↦ absurd hl (cloneEntry_notInSwap x slot)]

theorem copied_other (h : Copied v parent f n o v' f') (hc : Copying v₀ v parent f n)
    (hatt : v₀.attached (-1) = false) (hk : Kept v v' parent i) (hnone : v.mapping parent i = none)
    (hs : ∀ slot, heldSlot v.toCore parent i = some slot → test v.swapBitmap slot = true) :
    Same v₀ v' parent f' i ↔ Same v₀ v parent f i := by
  have hatt' : v.attached (-1) = false := by rw [hc.attached, hatt]
  have hmeaning : meaning v' parent i = meaning v parent i := hk.meaning fun _ ↦ hs
  have hf : f' i = f i := by
    cases h with
    | mk hx _ =>
      apply update_of_ne
      rintro rfl
      rw [hnone] at hx
      cases hx
  have hchild : childMeaning v' parent f' i = childMeaning v parent f i := by
    unfold childMeaning
    rw [hf, hk.entry]
    cases hy : f i with
    | some y =>
      obtain ⟨-, e, he, hek, howner⟩ := hc.child i y hy
      have hmem := (copied_childFrame h hc.wf hatt' he howner).2
      rw [hek] at hmem
      simp [hmem]
    | none =>
      cases v.findSpt parent (i * pgsize) with
      | none => rfl
      | some x => exact ofEntry_clone_kept hk.files x
  constructor
  · rintro ⟨h₁, h₂⟩
    exact ⟨hmeaning ▸ h₁, hchild ▸ h₂⟩
  · rintro ⟨h₁, h₂⟩
    exact ⟨hmeaning ▸ h₁, hchild ▸ h₂⟩

theorem childMeaning_iff (hf : f i = none) (hnone : v.mapping parent i = none) :
    SameAt i (childMeaning v parent f i) (meaning v parent i) ↔ heldSlot v.toCore parent i = none := by
  unfold childMeaning meaning
  rw [hf, hnone]
  cases hx : v.findSpt parent (i * pgsize) with
  | none =>
    rw [unmapped_of_absent hx, heldSlot_of_absent hx]
    simp only [sameAt_absent_iff]
    cases v.swapMap parent (i * pgsize) <;> simp
  | some x =>
    simp only [unmapped, heldSlot, hx]
    cases hl : x.location with
    | inSwap slot =>
      have hhang : ofEntry v.toCore (cloneEntry x) = .hang := by
        simp [ofEntry, cloneEntry, hl]
      have hbytes : ofEntry v.toCore x = .bytes (pageData v.toCore x) := by
        simp [ofEntry, hl]
      rw [hhang, hbytes]
      simpa using not_sameAt_hang
    | inMemory | onDisk | zero =>
      have hclone : cloneEntry x = x := by
        cases x
        simp_all [cloneEntry]
      rw [hclone]
      simpa using SameAt.refl i _

theorem frame_of_mapped (hw : Wf v) (he : e ∈ v.frameTable)
    (hx : v.mapping e.ownerTid i = some x) (hk : x.kpage = e.kpage) : e.upage = i * pgsize := by
  obtain ⟨e', he', hk', -, hu⟩ := hw.frame _ _ x hx
  rw [← inj_on_of_nodup_map hw.nodup he' he (hk'.trans hk)]
  exact hu

theorem copied_evicts (h : Copied v parent f n (some e) v' f') :
    ∃ v₁, v.Evicts e v₁ ∧ v'.swapBitmap = v₁.swapBitmap ∧ v'.mapping = v₁.mapping ∧
      (∀ t i, heldSlot v'.toCore t i = heldSlot v₁.toCore t i) ∧
      ∀ t i, Meaning.unmapped v'.toCore t i = Meaning.unmapped v₁.toCore t i := by
  cases h with
  | mk hx hal =>
    cases hal with
    | @evicted e v₁ hget hev => exact ⟨v₁, hev, rfl, rfl, fun _ _ ↦ rfl, fun _ _ ↦ rfl⟩

theorem copied_victimMem (h : Copied v parent f n (some e) v' f')
    (hw : Wf v) (hx : v.mapping parent n = some x) (hk : x.kpage = e.kpage) :
    ∃ y, f' n = some y ∧ v'.mem y.kpage = zeroPage := by
  cases h with
  | @mk x₀ k kp v₁ hx₀ hal =>
    obtain rfl : x₀ = x := some.inj (hx₀.symm.trans hx)
    refine ⟨_, update_self _ _ _, ?_⟩
    simp only [update_self, hk, (allocs_attached hal).1, (hal.allocated hw).mem]

theorem copied_present (h : Copied v parent f n o v' f') : v.mapping parent n ≠ none := by
  cases h with
  | mk hx _ => simp [hx]

theorem copied_child_ne (h : Copied v parent f n o v' f') (hi : i ≠ n) : f' i = f i := by
  cases h with
  | mk _ _ => exact update_of_ne hi _ _

theorem copied_victim_iff (h : Copied v parent f n (some e) v' f')
    (hc : Copying v₀ v parent f n) (hatt : v₀.attached (-1) = false) (howner : e.ownerTid = parent)
    (hx : v.mapping parent (e.upage / pgsize) = some x) (hxk : x.kpage = e.kpage)
    (hrow : Recoverable v e ∨ v.swapMap e.ownerTid e.upage = none) :
    Same v₀ v' parent f' (e.upage / pgsize) ↔ Harmless v parent n e := by
  have hw := hc.wf
  have hatt' : v.attached (-1) = false := by rw [hc.attached, hatt]
  obtain ⟨v₁, hev, hbits, hmapping, hheld, hunm⟩ := copied_evicts h
  have he := (hev.evicted hw).1
  have hu : e.upage = e.upage / pgsize * pgsize := frame_of_mapped hw he (howner ▸ hx) hxk
  obtain ⟨hx₀, hmem, hcopy⟩ := hc.mapped _ x hx
  have hmean₀ : meaning v₀ parent (e.upage / pgsize) = .bytes (v.mem e.kpage) := by
    rw [meaning, hx₀, ← hxk, hmem]
  have hnone : v'.mapping parent (e.upage / pgsize) = none := by
    rw [hmapping, (hev.evicted hw).2.mapping, if_pos ⟨howner.symm, rfl⟩]
  have hmean : meaning v' parent (e.upage / pgsize) =
      unmapped v₁.toCore e.ownerTid (e.upage / pgsize) := by
    rw [meaning, hnone, howner, ← hunm]
  have hparent : SameAt (e.upage / pgsize) (meaning v' parent (e.upage / pgsize))
      (meaning v₀ parent (e.upage / pgsize)) ↔ Recoverable v e := by
    rw [hmean₀, hmean]
    exact sameAt_evicted_iff hev hw hu hrow
  have hchild : Recoverable v e → (SameAt (e.upage / pgsize) (childMeaning v' parent f' (e.upage / pgsize))
        (meaning v₀ parent (e.upage / pgsize)) ↔
      e.upage / pgsize < n ∨ (e.upage / pgsize = n ∧ v.mem e.kpage = zeroPage) ∨
        (n < e.upage / pgsize ∧ v.isDirty parent (e.upage / pgsize) = false)) := by
    intro hr
    rcases lt_trichotomy _ n with hlt | heq | hgt
    · obtain ⟨y, hy, hdata⟩ := hcopy hlt
      obtain ⟨-, e', he', hek', howner'⟩ := hc.child _ y hy
      have hdata' := (copied_childFrame h hw hatt' he' howner').2
      rw [hek', hdata, hxk] at hdata'
      have hcm : childMeaning v' parent f' (e.upage / pgsize) = .bytes (v.mem e.kpage) := by
        simp only [childMeaning, copied_child_ne h hlt.ne, hy, hdata']
      rw [hcm, hmean₀]
      simpa [hlt] using SameAt.refl _ _
    · obtain ⟨y, hy, hdata⟩ := copied_victimMem h hw (heq ▸ hx) hxk
      have hcm : childMeaning v' parent f' (e.upage / pgsize) = .bytes zeroPage := by
        simp only [childMeaning, heq, hy, hdata]
      rw [hcm, hmean₀, sameAt_bytes]
      constructor
      · intro hz
        exact .inr (.inl ⟨heq, hz.symm⟩)
      · rintro (hlt | ⟨-, hz⟩ | ⟨hgt, -⟩)
        · exact absurd heq hlt.ne
        · exact hz.symm
        · exact absurd heq hgt.ne'
    · have hf : f' (e.upage / pgsize) = none := by
        rw [copied_child_ne h hgt.ne']
        cases hfi : f _ with
        | none => rfl
        | some y => exact absurd (hc.child _ y hfi).1 (by omega)
      have hsame := hparent.mpr hr
      have hiff : SameAt (e.upage / pgsize) (childMeaning v' parent f' (e.upage / pgsize))
          (meaning v₀ parent (e.upage / pgsize)) ↔
          SameAt (e.upage / pgsize) (childMeaning v' parent f' (e.upage / pgsize))
            (meaning v' parent (e.upage / pgsize)) :=
        ⟨fun h ↦ h.trans hsame.symm, fun h ↦ h.trans hsame⟩
      rw [hiff, childMeaning_iff hf hnone, hheld, ← howner, recoverable_heldSlot hev hw hu hr]
      simp [hgt, hgt.ne', not_lt_of_gt hgt]
  constructor
  · rintro ⟨h₁, h₂⟩
    exact ⟨⟨x, hx, hxk⟩, hparent.mp h₁, (hchild (hparent.mp h₁)).mp h₂⟩
  · rintro ⟨-, hr, hcase⟩
    exact ⟨hparent.mpr hr, (hchild hr).mpr hcase⟩

section

variable (h : Copied v parent f n o v' f')

include h

theorem copied_cases (hw : Wf v) (i : Nat) :
    Kept v v' parent i ∨ ∃ e, o = some e ∧ e.ownerTid = parent ∧ e.upage / pgsize = i := by
  by_cases hv : ∃ e, o = some e ∧ e.ownerTid = parent ∧ e.upage / pgsize = i
  · exact .inr hv
  · refine .inl (copied_kept h hw ?_)
    rintro e rfl ⟨rfl, rfl⟩
    exact hv ⟨e, rfl, rfl, rfl⟩

theorem copied_slots (hc : Copying v₀ v parent f n) (hs : SlotsUsed v parent)
    (hv : ∀ e, o = some e → e.ownerTid = parent → e.upage / pgsize < userPages →
      (∃ x, v.mapping parent (e.upage / pgsize) = some x ∧ x.kpage = e.kpage) ∧
      (Recoverable v e ∨ v.swapMap e.ownerTid e.upage = none)) : SlotsUsed v' parent := by
  intro i slot hi hnone hheld
  rcases copied_cases h hc.wf i with hk | ⟨e, rfl, howner, rfl⟩
  · rw [hk.heldSlot_eq] at hheld
    rw [hk.mapping] at hnone
    exact (hk.slot slot (hs i slot hi hnone hheld)).2
  · obtain ⟨⟨x, hx, hxk⟩, hrow⟩ := hv e rfl howner hi
    obtain ⟨v₁, hev, hbits, -, hheld₁, -⟩ := copied_evicts h
    have hu := frame_of_mapped hc.wf (hev.evicted hc.wf).1 (howner ▸ hx) hxk
    rw [hheld₁, ← howner] at hheld
    rw [hbits]
    exact evicts_slotUsed hev hc.wf hu hrow slot hheld

theorem copied_safe (hc : Copying v₀ v parent f n)
    (hatt : v₀.attached (-1) = false) (hs : SlotsUsed v parent)
    (hsame : ∀ i, i < userPages → v.mapping parent i = none → Same v₀ v parent f i)
    (hv : ∀ e, o = some e → e.ownerTid = parent → e.upage / pgsize < userPages → Harmless v parent n e) :
    SlotsUsed v' parent ∧
    ∀ i, i < userPages → v'.mapping parent i = none → Same v₀ v' parent f' i := by
  refine ⟨copied_slots h hc hs fun e he ho hlt ↦ ?_, fun i hi hnone ↦ ?_⟩
  · obtain ⟨hx, hr, -⟩ := hv e he ho hlt
    exact ⟨hx, .inl hr⟩
  · rcases copied_cases h hc.wf i with hk | ⟨e, rfl, howner, rfl⟩
    · rw [hk.mapping] at hnone
      exact (copied_other h hc hatt hk hnone fun slot ↦ hs i slot hi hnone).mpr (hsame i hi hnone)
    · obtain ⟨⟨x, hx, hxk⟩, hr, -⟩ := hv e rfl howner hi
      exact (copied_victim_iff h hc hatt howner hx hxk (.inl hr)).mpr (hv e rfl howner hi)

theorem copied_parentFrame (hw : Wf v) (he : e ∈ v'.frameTable) (hne : e.ownerTid ≠ -1) :
    e ∈ v.frameTable ∧ ∀ x, o = some x → x.kpage ≠ e.kpage := by
  cases h with
  | mk _ hal =>
    rcases ((hal.allocated hw).mem_frames e).mp he with ⟨hmem, hk⟩ | rfl
    · refine ⟨hmem, ?_⟩
      rintro x rfl hxk
      exact hk (hxk.symm.trans (allocs_attached hal).1)
    · exact absurd rfl hne

theorem copied_orderly (hc : Copying v₀ v parent f n)
    (hatt : v₀.attached (-1) = false) (hparent : v₀.attached parent = true) (hord : Orderly v parent) :
    Orderly v' parent ∧
    ((∀ i, i < userPages → v'.mapping parent i = none → Same v₀ v' parent f' i) →
      (∀ i, i < userPages → v.mapping parent i = none → Same v₀ v parent f i) ∧
      ∀ e, o = some e → e.ownerTid = parent → e.upage / pgsize < userPages →
        Harmless v parent n e) := by
  have hw := hc.wf
  have hvictim : ∀ e, o = some e → e.ownerTid = parent →
      (∃ x, v.mapping parent (e.upage / pgsize) = some x ∧ x.kpage = e.kpage) ∧
      (Recoverable v e ∨ v.swapMap e.ownerTid e.upage = none) := by
    rintro e rfl howner
    obtain ⟨v₁, hev, -⟩ := copied_evicts h
    have he := (hev.evicted hw).1
    obtain ⟨x, hx, hxk⟩ := hord.mapped e he howner
    have hu := frame_of_mapped hw he (howner ▸ hx) hxk
    refine ⟨⟨x, hx, hxk⟩, .inr ?_⟩
    rw [hu, howner]
    exact hord.rows _ x hx
  refine ⟨⟨fun e he howner ↦ ?_, ?_, fun i x hx ↦ ?_⟩, fun hsame ↦ ⟨fun i hi hnone ↦ ?_, ?_⟩⟩
  · have hne : parent ≠ -1 := by
      rintro rfl
      rw [hatt] at hparent
      cases hparent
    obtain ⟨hmem, hother⟩ := copied_parentFrame h hw he (howner ▸ hne)
    obtain ⟨x, hx, hxk⟩ := hord.mapped e hmem howner
    rcases copied_cases h hw (e.upage / pgsize) with hk | ⟨e', rfl, howner', hu'⟩
    · exact ⟨x, hk.mapping.trans hx, hxk⟩
    · obtain ⟨⟨x', hx', hxk'⟩, -⟩ := hvictim e' rfl howner'
      rw [hu', hx, some.injEq] at hx'
      exact absurd (by rw [← hxk', ← hx', hxk]) (hother e' rfl)
  · exact copied_slots h hc hord.slots fun e he ho _ ↦ hvictim e he ho
  · have hk := copied_mapped h hw hx
    rw [hk.swapMap]
    exact hord.rows i x (hk.mapping ▸ hx)
  · rcases copied_cases h hw i with hk | ⟨e, rfl, howner, rfl⟩
    · exact (copied_other h hc hatt hk hnone fun slot ↦ hord.slots i slot hi hnone).mp
        (hsame i hi (hk.mapping.trans hnone))
    · obtain ⟨⟨x, hx, -⟩, -⟩ := hvictim e rfl howner
      rw [hnone] at hx
      cases hx
  · rintro e rfl howner hlt
    obtain ⟨⟨x, hx, hxk⟩, hrow⟩ := hvictim e rfl howner
    refine (copied_victim_iff h hc hatt howner hx hxk hrow).mp (hsame _ hlt ?_)
    obtain ⟨v₁, hev, -, hmapping, -⟩ := copied_evicts h
    rw [hmapping, (hev.evicted hw).2.mapping, if_pos ⟨howner.symm, rfl⟩]

end

end Step

theorem copied_detached {f f' : Nat → Option Mapping}
    (h : Copied v parent f n o v' f') (ht : v.attached t = false) :
    v'.attached t = false ∧ v'.spt t = v.spt t ∧ v'.swapMap t = v.swapMap t := by
  cases h with
  | mk _ hal =>
    cases hal with
    | fresh hget =>
      simp only [Core.getUserPage, map_eq_some_iff] at hget
      obtain ⟨k, -, rfl, rfl⟩ := hget
      exact ⟨ht, rfl, rfl⟩
    | @evicted e v₁ hget hev =>
      obtain ⟨hand, c, -, hc, rfl⟩ := hev.taken
      have hne : t ≠ e.ownerTid := by
        rintro rfl
        rw [hev.attached] at ht
        cases ht
      have hs := Core.saveVictim_saves hc
      exact ⟨ht, hs.spt t hne, hs.swapMap t hne⟩

section Run

variable {v₀ : View}

theorem copyPages_range {k : Nat} (h : copyPages parent (List.range' n (k + 1)) s = .ok s') :
    ∃ s₁, copyPage parent s n = .ok s₁ ∧ copyPages parent (List.range' (n + 1) k) s₁ = .ok s' := by
  exact copyPages_cons h

theorem copying_skip {v : View} {f : Nat → Option Mapping} (hc : Copying v₀ v parent f n)
    (hnone : v.mapping parent n = none) : Copying v₀ v parent f (n + 1) := by
  refine ⟨hc.wf, hc.attached, fun i y hy ↦ ?_, fun i x hx ↦ ?_⟩
  · obtain ⟨hlt, he⟩ := hc.child i y hy
    exact ⟨Nat.lt_succ_of_lt hlt, he⟩
  · obtain ⟨hx₀, hmem, hcopy⟩ := hc.mapped i x hx
    refine ⟨hx₀, hmem, fun hi ↦ hcopy ?_⟩
    have hne : i ≠ n := by
      rintro rfl
      rw [hnone] at hx
      cases hx
    omega

theorem copyPages_copying (hatt : v₀.attached (-1) = false) (k : Nat) :
    ∀ n s, copyPages parent (List.range' n k) s = .ok s' →
      Copying v₀ s.memory.view parent (childMap s.childPd) n →
      Copying v₀ s'.memory.view parent (childMap s'.childPd) (n + k) := by
  induction k with
  | zero =>
    intro n s h hc
    cases h
    exact hc
  | succ k ih =>
    intro n s h hc
    obtain ⟨s₁, hstep, hrest⟩ := copyPages_range h
    have hc₁ : Copying v₀ s₁.memory.view parent (childMap s₁.childPd) (n + 1) := by
      rcases copyPage_ok hstep with ⟨hnone, rfl⟩ | hcopied
      · exact copying_skip hc hnone
      · exact copied_copying hcopied hc hatt
    have := ih (n + 1) s₁ hrest hc₁
    rwa [add_right_comm] at this

theorem copyPages_detached {t : Tid} (k : Nat) :
    ∀ n s, copyPages parent (List.range' n k) s = .ok s' → s.memory.view.attached t = false →
      s'.memory.spt t = s.memory.spt t ∧ s'.memory.swapMap t = s.memory.swapMap t := by
  induction k with
  | zero =>
    intro n s h _
    cases h
    exact ⟨rfl, rfl⟩
  | succ k ih =>
    intro n s h ht
    obtain ⟨s₁, hstep, hrest⟩ := copyPages_range h
    rcases copyPage_ok hstep with ⟨-, rfl⟩ | hcopied
    · exact ih (n + 1) _ hrest ht
    · obtain ⟨ht₁, hspt, hmap⟩ := copied_detached hcopied ht
      obtain ⟨hspt', hmap'⟩ := ih (n + 1) s₁ hrest ht₁
      exact ⟨hspt'.trans hspt, hmap'.trans hmap⟩

theorem copyPages_safe (hatt : v₀.attached (-1) = false) (k : Nat) :
    ∀ n s, copyPages parent (List.range' n k) s = .ok s' →
      Copying v₀ s.memory.view parent (childMap s.childPd) n → SlotsUsed s.memory.view parent →
      (∀ i, i < userPages → s.memory.view.mapping parent i = none →
        Same v₀ s.memory.view parent (childMap s.childPd) i) →
      SafeCopy parent (List.range' n k) s →
      ∀ i, i < userPages → s'.memory.view.mapping parent i = none →
        Same v₀ s'.memory.view parent (childMap s'.childPd) i := by
  induction k with
  | zero =>
    intro n s h _ _ hsame _
    cases h
    exact hsame
  | succ k ih =>
    intro n s h hc hs hsame hsafe
    obtain ⟨s₁, hstep, hrest⟩ := copyPages_range h
    obtain ⟨hharm, hnext⟩ := hsafe
    rcases copyPage_ok hstep with ⟨hnone, rfl⟩ | hcopied
    · exact ih (n + 1) _ hrest (copying_skip hc hnone) hs hsame (hnext _ hstep)
    · obtain ⟨hs₁, hsame₁⟩ := copied_safe hcopied hc hatt hs hsame (hharm (copied_present hcopied))
      exact ih (n + 1) s₁ hrest (copied_copying hcopied hc hatt) hs₁ hsame₁ (hnext s₁ hstep)

theorem copyPages_orderly (hatt : v₀.attached (-1) = false) (hparent : v₀.attached parent = true)
    (k : Nat) :
    ∀ n s, copyPages parent (List.range' n k) s = .ok s' →
      Copying v₀ s.memory.view parent (childMap s.childPd) n → Orderly s.memory.view parent →
      (∀ i, i < userPages → s'.memory.view.mapping parent i = none →
        Same v₀ s'.memory.view parent (childMap s'.childPd) i) →
      (∀ i, i < userPages → s.memory.view.mapping parent i = none →
        Same v₀ s.memory.view parent (childMap s.childPd) i) ∧
      SafeCopy parent (List.range' n k) s := by
  induction k with
  | zero =>
    intro n s h _ _ hsame
    cases h
    exact ⟨hsame, trivial⟩
  | succ k ih =>
    intro n s h hc hord hsame
    obtain ⟨s₁, hstep, hrest⟩ := copyPages_range h
    have hunique : ∀ s₂, copyPage parent s n = .ok s₂ → s₂ = s₁ := by
      intro s₂ h₂
      rw [hstep] at h₂
      cases h₂
      rfl
    rcases copyPage_ok hstep with ⟨hnone, rfl⟩ | hcopied
    · obtain ⟨hsame', hsafe⟩ := ih (n + 1) _ hrest (copying_skip hc hnone) hord hsame
      exact ⟨hsame', fun hm ↦ absurd hnone hm, fun s₂ h₂ ↦ hunique s₂ h₂ ▸ hsafe⟩
    · obtain ⟨hord₁, hback⟩ := copied_orderly hcopied hc hatt hparent hord
      obtain ⟨hsame₁, hsafe⟩ := ih (n + 1) s₁ hrest (copied_copying hcopied hc hatt) hord₁ hsame
      obtain ⟨hsame', hharm⟩ := hback hsame₁
      exact ⟨hsame', fun _ ↦ hharm, fun s₂ h₂ ↦ hunique s₂ h₂ ▸ hsafe⟩

end Run

structure Fresh (m : Memory) (tid : Tid) : Prop where
  pagedir : m.pagedir tid = none
  spt : m.spt tid = none
  swapMap : ∀ va, m.swapMap tid va = none

/-- What `fork` does to the state in which the copy has ended. -/
structure Forked (s : Copy) (parent child : Tid) (m' : Memory) : Prop where
  pagedir : m'.pagedir = s.memory.pagedir
  mem : m'.mem = s.memory.mem
  swapDisk : m'.swapDisk = s.memory.swapDisk
  files : m'.files = s.memory.files
  swapMap : m'.swapMap = s.memory.swapMap
  spt : ∀ t, m'.spt t = if t = child then ((s.memory.spt parent).map cloneSpt).or (s.memory.spt child)
    else s.memory.spt t

theorem fork_some {pd : Pagedir} (h : fork m parent child = (some pd, m')) :
    m.view.attached parent = true ∧ ∃ s : Copy,
      copyPages parent (List.range' 0 userPages) ⟨{ m with kernelPool := m.kernelPool - 1 }, .empty⟩ =
        .ok s ∧ pd = s.childPd ∧ Forked s parent child m' := by
  unfold fork at h
  split at h
  · cases h
  · next hpd =>
    refine ⟨by simp [view, hpd], ?_⟩
    split at h
    · cases h
    · rw [copyUserPages_eq, range_eq_range'] at h
      split at h
      · cases h
      · next s hcopy =>
        refine ⟨s, hcopy, ?_⟩
        split at h
        · cases h
        · simp only at h
          split at h
          · next t ht =>
            cases h
            refine ⟨rfl, rfl, rfl, rfl, rfl, rfl, fun t' ↦ ?_⟩
            have ht' : s.memory.spt parent = some t := ht
            simp only [ht', update_apply]
            rfl
          · next ht =>
            cases h
            refine ⟨rfl, rfl, rfl, rfl, rfl, rfl, fun t' ↦ ?_⟩
            have ht' : s.memory.spt parent = none := ht
            by_cases htc : t' = child
            · subst htc
              simp [ht', withCore, Core.fixOwnerTid]
            · simp [htc, withCore, Core.fixOwnerTid]

theorem forked_parent {s : Copy} (h : Forked s parent child m') (pd : Pagedir)
    (hne : parent ≠ child) (n : Nat) :
    (forkChildEntry m' child pd).view.attached parent = s.memory.view.attached parent ∧
    meaning (forkChildEntry m' child pd).view parent n = meaning s.memory.view parent n := by
  have hpd : (forkChildEntry m' child pd).pagedir parent = s.memory.pagedir parent :=
    (update_of_ne hne _ _).trans (congrFun h.pagedir parent)
  have hdata : ∀ e, pageData (forkChildEntry m' child pd).view.toCore e =
      pageData s.memory.view.toCore e := pageData_congr h.swapDisk h.files
  have hmap : (forkChildEntry m' child pd).view.mapping parent n = s.memory.view.mapping parent n := by
    simp only [view, hpd]
  have hfind : (forkChildEntry m' child pd).view.findSpt parent (n * pgsize) =
      s.memory.view.findSpt parent (n * pgsize) := by
    have hspt : m'.spt parent = s.memory.spt parent := by rw [h.spt, if_neg hne]
    simp only [Core.findSpt, view, forkChildEntry, hspt]
  refine ⟨by simp only [view, hpd], ?_⟩
  rw [meaning, meaning, hmap]
  cases s.memory.view.mapping parent n with
  | some x => exact congrArg (fun d ↦ bytes (d x.kpage)) h.mem
  | none =>
    simp only [unmapped, hfind]
    cases s.memory.view.findSpt parent (n * pgsize) with
    | some e => simp only [ofEntry, hdata]
    | none =>
      exact congrArg₂ (fun r d ↦ absent (Option.map d (r parent (n * pgsize)))) h.swapMap
        h.swapDisk

theorem forked_child {s : Copy} (h : Forked s parent child m')
    (hspt : s.memory.spt child = none) (hrow : ∀ va, s.memory.swapMap child va = none) (n : Nat) :
    (forkChildEntry m' child s.childPd).view.attached child = true ∧
    meaning (forkChildEntry m' child s.childPd).view child n =
      childMeaning s.memory.view parent (childMap s.childPd) n := by
  have hpd : (forkChildEntry m' child s.childPd).pagedir child = some s.childPd := by
    simp [forkChildEntry]
  have hdata : ∀ e, pageData (forkChildEntry m' child s.childPd).view.toCore e =
      pageData s.memory.view.toCore e := pageData_congr h.swapDisk h.files
  have hmap : (forkChildEntry m' child s.childPd).view.mapping child n = childMap s.childPd n := by
    rw [view_mapping hpd, childMap]
  have hfind : (forkChildEntry m' child s.childPd).view.findSpt child (n * pgsize) =
      (s.memory.view.findSpt parent (n * pgsize)).map cloneEntry := by
    have hs : m'.spt child = (s.memory.spt parent).map cloneSpt := by
      rw [h.spt, if_pos rfl, hspt, or_none]
    simp only [Core.findSpt, view, forkChildEntry, hs]
    cases s.memory.spt parent with
    | none => rfl
    | some t => exact Spt.find_map _
  refine ⟨by simp [view, hpd], ?_⟩
  rw [meaning, childMeaning, hmap]
  cases childMap s.childPd n with
  | some y => exact congrArg (fun d ↦ bytes (d y.kpage)) h.mem
  | none =>
    simp only [unmapped, hfind]
    cases s.memory.view.findSpt parent (n * pgsize) with
    | some e => simp only [map_some, ofEntry, hdata]
    | none =>
      have hnone : (forkChildEntry m' child s.childPd).view.swapMap child (n * pgsize) = none := by
        have := congrFun (congrFun h.swapMap child) (n * pgsize)
        exact this.trans (hrow _)
      simp [hnone]

theorem addr_lt_iff {addr : Nat} : addr < physBase ↔ addr / pgsize < userPages := by
  have hb : physBase = 768 * 1024 * pgsize := rfl
  rw [userPages_eq, hb, Nat.div_lt_iff_lt_mul (by decide)]

theorem duplicated_iff {s : Copy} (h : Forked s parent child m') (hatt : m.view.attached parent = true)
    (hatts : s.memory.view.attached = m.view.attached) (hfresh : Fresh m child)
    (hspt : s.memory.spt child = none) (hrow : ∀ va, s.memory.swapMap child va = none) :
    Duplicated m (forkChildEntry m' child s.childPd) parent child ↔
      ∀ i, i < userPages → Same m.view s.memory.view parent (childMap s.childPd) i := by
  have hne : parent ≠ child := by
    rintro rfl
    simp [view, hfresh.pagedir] at hatt
  have hreads : ∀ addr esp, readByte (withRoom m) parent addr esp =
        (meaning m.view parent (addr / pgsize)).read addr esp ∧
      readByte (withRoom (forkChildEntry m' child s.childPd)) parent addr esp =
        (meaning s.memory.view parent (addr / pgsize)).read addr esp ∧
      readByte (withRoom (forkChildEntry m' child s.childPd)) child addr esp =
        (childMeaning s.memory.view parent (childMap s.childPd) (addr / pgsize)).read addr esp := by
    intro addr esp
    obtain ⟨hattp, hparent⟩ := forked_parent h s.childPd hne (addr / pgsize)
    obtain ⟨hattc, hchild⟩ := forked_child h hspt hrow (addr / pgsize)
    rw [hatts] at hattp
    simp only [readByte_withRoom, sees, hatt, hattp, hattc, hparent, hchild, if_true, and_self]
  constructor
  · intro hdup i hi
    refine ⟨fun addr esp ha ↦ ?_, fun addr esp ha ↦ ?_⟩
    all_goals
      subst ha
      obtain ⟨hm, hp, hc⟩ := hreads addr esp
      obtain ⟨hdc, hdp⟩ := hdup addr esp (addr_lt_iff.mpr hi)
    · rw [← hm, ← hp, hdp]
    · rw [← hm, ← hc, hdc]
  · intro hsame addr esp haddr
    obtain ⟨hp, hc⟩ := hsame _ (addr_lt_iff.mp haddr)
    obtain ⟨hm, hp', hc'⟩ := hreads addr esp
    rw [hm, hp', hc']
    exact ⟨hc addr esp rfl, hp addr esp rfl⟩

/-- Fork duplicates the address space when no unmapped page of the parent is in swap and no frame
that the copy takes from the parent does harm; and in an orderly state only then. -/
theorem fork_duplicates {m m' : Memory} {pd : Pagedir} (hw : Wf m.view)
    (hplaceholder : m.pagedir (-1) = none) (hfresh : Fresh m child)
    (h : fork m parent child = (some pd, m')) :
    (SafeFork m parent → Duplicated m (forkChildEntry m' child pd) parent child) ∧
    (Orderly m.view parent → Duplicated m (forkChildEntry m' child pd) parent child →
      SafeFork m parent) := by
  obtain ⟨hatt, s, hcopy, rfl, hforked⟩ := fork_some h
  set s₀ : Copy := ⟨{ m with kernelPool := m.kernelPool - 1 }, .empty⟩ with hs₀
  have hattm : m.view.attached (-1) = false := by simp [Memory.view, hplaceholder]
  have hattc : m.view.attached child = false := by simp [Memory.view, hfresh.pagedir]
  have hempty : ∀ i, childMap s₀.childPd i = none := fun i ↦ by
    simp [hs₀, childMap, Pagedir.entry, Pagedir.empty]
  have hc₀ : Copying m.view s₀.memory.view parent (childMap s₀.childPd) 0 := by
    refine ⟨⟨hw.nodup, hw.used, hw.frame⟩, rfl, fun i y hy ↦ ?_, fun i x hx ↦ ⟨hx, rfl, ?_⟩⟩
    · cases hy
    · omega
  have hsame₀ : ∀ i, s₀.memory.view.mapping parent i = none →
      (Same m.view s₀.memory.view parent (childMap s₀.childPd) i ↔
        heldSlot m.toCore parent i = none) := by
    intro i hnone
    rw [show heldSlot m.toCore parent i = heldSlot s₀.memory.view.toCore parent i from rfl,
      ← childMeaning_iff (hempty i) hnone]
    exact ⟨fun hs ↦ hs.inChild, fun hs ↦ ⟨SameAt.refl i _, hs⟩⟩
  have hc := copyPages_copying hattm userPages 0 s₀ hcopy hc₀
  rw [Nat.zero_add] at hc
  obtain ⟨hspt, hrow⟩ := copyPages_detached userPages 0 s₀ hcopy hattc
  have hdup := duplicated_iff hforked hatt hc.attached hfresh (hspt.trans hfresh.spt) fun va ↦ by
    rw [hrow]
    exact hfresh.swapMap va
  -- a page that is still mapped has been copied, so the unmapped ones decide
  have hall : (∀ i, i < userPages → Same m.view s.memory.view parent (childMap s.childPd) i) ↔
      ∀ i, i < userPages → s.memory.view.mapping parent i = none →
        Same m.view s.memory.view parent (childMap s.childPd) i := by
    refine ⟨fun h i hi _ ↦ h i hi, fun h i hi ↦ ?_⟩
    cases hx : s.memory.view.mapping parent i with
    | none => exact h i hi hx
    | some x =>
      obtain ⟨hx₀, hmem, hcopied⟩ := hc.mapped i x hx
      obtain ⟨y, hy, hdata⟩ := hcopied hi
      refine ⟨?_, ?_⟩
      · simpa only [meaning, hx, hx₀, hmem] using SameAt.refl i _
      · simpa only [meaning, childMeaning, hy, hx₀, hdata, hmem] using SameAt.refl i _
  rw [hdup, hall]
  constructor
  · rintro ⟨hheld, hsafe⟩
    rw [range_eq_range'] at hsafe
    refine copyPages_safe hattm userPages 0 s₀ hcopy hc₀ ?_ ?_ hsafe
    · intro i slot hi hnone hslot
      rw [show heldSlot s₀.memory.view.toCore parent i = none from hheld i hi hnone] at hslot
      cases hslot
    · intro i hi hnone
      exact (hsame₀ i hnone).mpr (hheld i hi hnone)
  · intro hord hsame
    obtain ⟨hsame', hsafe⟩ := copyPages_orderly hattm hatt userPages 0 s₀ hcopy hc₀
      ⟨hord.mapped, hord.slots, hord.rows⟩ hsame
    refine ⟨fun i hi hnone ↦ (hsame₀ i hnone).mp (hsame' i hi hnone), ?_⟩
    rwa [range_eq_range']

theorem fork_of_copy {s : Copy} (child : Tid) (hatt : (m.pagedir parent).isSome) (hpool : m.kernelPool ≠ 0)
    (hcopy : copyPages parent (List.range' 0 userPages)
      ⟨{ m with kernelPool := m.kernelPool - 1 }, .empty⟩ = .ok s)
    (hroom : s.memory.kernelPool ≠ 0) :
    ∃ m', fork m parent child = (some s.childPd, m') ∧ Forked s parent child m' := by
  obtain ⟨pd, hpd⟩ := isSome_iff_exists.mp hatt
  have hfork : ∃ m', fork m parent child = (some s.childPd, m') := by
    unfold fork
    rw [hpd, copyUserPages_eq, range_eq_range', hcopy]
    simp only [hpool, hroom, if_false]
    split <;> exact ⟨_, rfl⟩
  obtain ⟨m', hfork⟩ := hfork
  obtain ⟨-, s', hcopy', -, hforked⟩ := fork_some hfork
  rw [hcopy, Except.ok.injEq] at hcopy'
  exact ⟨m', hfork, hcopy' ▸ hforked⟩

theorem safeCopy_skip (h : ∀ n ∈ l, s.memory.view.mapping parent n = none) : SafeCopy parent l s := by
  induction l with
  | nil => trivial
  | cons n l ih =>
    refine ⟨fun hm ↦ absurd (h n (by simp)) hm, fun s₁ h₁ ↦ ?_⟩
    rw [copyPage_skip (h n (by simp))] at h₁
    cases h₁
    exact ih fun i hi ↦ h i (by simp [hi])

/-- Process 3 has one page, at `PGSIZE`, in frame 0; frame 1 is free. -/
def residentParent : Memory where
  userPool := [true, false]
  kernelPool := 3
  mem _ _ := 7
  frameTable := [⟨0, pgsize, 3, false⟩]
  swapMap _ _ := none
  swapBitmap := []
  swapDisk _ _ := 0
  spt _ := none
  files _ := []
  clockHand := 0
  pagedir t := if t = 3 then
    some fun i ↦ if i = 0 then some fun j ↦ if j = 1 then some ⟨0, true, true, true⟩ else none else none
    else none

theorem residentParent_mapping (t : Tid) (n : Nat) : residentParent.view.mapping t n =
    if t = 3 ∧ n = 1 then some ⟨0, true, true⟩ else none := by
  have hidx : pdeIdx (n * pgsize) = 0 ∧ pteIdx (n * pgsize) = 1 ↔ n = 1 := by
    simp only [pdeIdx, pteIdx, pgsize]
    omega
  by_cases ht : t = 3
  · by_cases hn : n = 1
    · subst ht hn
      rfl
    · have hne : ¬ (pdeIdx (n * pgsize) = 0 ∧ pteIdx (n * pgsize) = 1) := fun h ↦ hn (hidx.mp h)
      by_cases hd : pdeIdx (n * pgsize) = 0
      · have hp : pteIdx (n * pgsize) ≠ 1 := fun hp ↦ hne ⟨hd, hp⟩
        simp [residentParent, view, hn, Pagedir.entry, hp]
      · simp [residentParent, view, hn, Pagedir.entry, hd]
  · simp [residentParent, view, ht]

theorem residentParent_wf : Wf residentParent.view := by
  refine ⟨by decide, by decide, fun t n x hx ↦ ?_⟩
  rw [residentParent_mapping] at hx
  split at hx
  · next h =>
    obtain ⟨rfl, rfl⟩ := h
    cases hx
    exact ⟨⟨0, pgsize, 3, false⟩, by simp [residentParent, view], rfl, rfl, by simp⟩
  · cases hx

theorem residentParent_copy : ∃ s₁ : Copy,
    copyPage 3 ⟨{ residentParent with kernelPool := residentParent.kernelPool - 1 }, .empty⟩ 1 = .ok s₁ ∧
    s₁.memory.view.mapping = residentParent.view.mapping ∧ s₁.memory.kernelPool ≠ 0 :=
  ⟨_, rfl, rfl, by decide⟩

theorem residentParent_copies (hl : ∀ n ∈ l, 2 ≤ n) : ∃ s : Copy, copyPages 3 (0 :: 1 :: l)
      ⟨{ residentParent with kernelPool := residentParent.kernelPool - 1 }, .empty⟩ = .ok s ∧
    s.memory.kernelPool ≠ 0 ∧
    SafeCopy 3 (0 :: 1 :: l)
      ⟨{ residentParent with kernelPool := residentParent.kernelPool - 1 }, .empty⟩ := by
  obtain ⟨s₁, h₁, hmapping, hroom⟩ := residentParent_copy
  set s₀ : Copy := ⟨{ residentParent with kernelPool := residentParent.kernelPool - 1 }, .empty⟩
  have hzero : s₀.memory.view.mapping 3 0 = none := residentParent_mapping 3 0
  have hrest : ∀ n ∈ l, s₁.memory.view.mapping 3 n = none := by
    intro n hn
    have := hl n hn
    rw [hmapping, residentParent_mapping, if_neg (by omega)]
  refine ⟨s₁, ?_, hroom, fun hm ↦ absurd hzero hm, fun s₂ h₂ ↦ ?_⟩
  · rw [copyPages_step (copyPage_skip hzero), copyPages_step h₁]
    exact copyPages_skip hrest
  · cases h₂
    refine ⟨fun _ e he ↦ ?_, fun s₂ h₂ ↦ ?_⟩
    · cases he
    · rw [h₁] at h₂
      cases h₂
      exact safeCopy_skip hrest

theorem fork_duplicates_onePage : ∃ pd m', fork residentParent 3 4 = (some pd, m') ∧
    Duplicated residentParent (forkChildEntry m' 4 pd) 3 4 := by
  have hrange : range' 0 userPages = 0 :: 1 :: range' 2 (768 * 1024 - 2) := by
    rw [userPages_eq]
    rfl
  obtain ⟨s, hcopy, hroom, hsafe⟩ := residentParent_copies
    (l := range' 2 (768 * 1024 - 2)) (by
      intro n hn
      exact (mem_range'_1.mp hn).1)
  rw [← hrange] at hcopy hsafe
  obtain ⟨m', hfork, -⟩ := fork_of_copy 4 (by rfl) (by decide) hcopy hroom
  refine ⟨s.childPd, m', hfork, ?_⟩
  refine (fork_duplicates residentParent_wf rfl ⟨rfl, rfl, fun _ ↦ rfl⟩ hfork).1 ⟨?_, ?_⟩
  · intro n _ _
    rfl
  · rwa [range_eq_range']

/-- Process 3 has one page, at `PGSIZE`, and it is in swap. -/
def swappedParent : Memory where
  userPool := [false]
  kernelPool := 3
  mem _ _ := 0
  frameTable := []
  swapMap _ _ := none
  swapBitmap := [true]
  swapDisk _ _ := 7
  spt t := if t = 3 then
    some ⟨[⟨pgsize, .inSwap 0, .binary, true, 0, 0, 0, 0⟩], by simp, by simp [pgRoundDown, pgsize]⟩
    else none
  files _ := []
  clockHand := 0
  pagedir t := if t = 3 then some .empty else none

theorem fork_loses_swapped_page : ∃ pd m', fork swappedParent 3 4 = (some pd, m') ∧
    readByte (withRoom swappedParent) 3 pgsize physBase = .byte 7 ∧
    readByte (withRoom (forkChildEntry m' 4 pd)) 4 pgsize physBase = .hang ∧
    ¬ Duplicated swappedParent (forkChildEntry m' 4 pd) 3 4 := by
  have hmapping : ∀ n, swappedParent.view.mapping 3 n = none := fun _ ↦ rfl
  have hcopy : copyPages 3 (range' 0 userPages)
      ⟨{ swappedParent with kernelPool := swappedParent.kernelPool - 1 }, .empty⟩ = .ok _ :=
    copyPages_skip fun n _ ↦ hmapping n
  obtain ⟨m', hfork, hforked⟩ := fork_of_copy 4 (by rfl) (by decide) hcopy (by decide)
  have hparent : readByte (withRoom swappedParent) 3 pgsize physBase = .byte 7 := by
    rfl
  have hchild : readByte (withRoom (forkChildEntry m' 4 .empty)) 4 pgsize physBase = .hang := by
    obtain ⟨hatt, hmeaning⟩ := forked_child hforked rfl (fun _ ↦ rfl) 1
    rw [readByte_withRoom, sees]
    rw [show pgsize / pgsize = 1 from rfl, hmeaning]
    rfl
  refine ⟨.empty, m', hfork, hparent, hchild, fun hdup ↦ ?_⟩
  have hsame := (hdup pgsize physBase (by decide)).1
  rw [hchild] at hsame
  cases hsame

end Rxv6.Userprog.Fork
