import Rxv6.Vm.Ownership

namespace Rxv6.Userprog.Exception

open Function Rxv6.Thread Rxv6.Vm Rxv6.Lib.Bitmap Option

/-- How a part of `page_fault` ends: the access is tried again, the process is killed, or the next
part has its turn. -/
inductive Fault
  | handled (m : Memory)
  | killed (m : Memory)
  | next (m : Memory)

def demandPage (m : Memory) (tid : Tid) (addr : Nat) (write : Bool) : Fault :=
  match m.spt tid, m.pagedir tid with
  | some t, some _ =>
    match t.find (pgRoundDown addr) with
    | some e =>
      if write ∧ ¬ e.writable then .killed m
      else
        match m.loadPage e (pgRoundDown addr) tid with
        | (true, m) => .handled m
        | (false, m) => .next m
    | none => .next m
  | _, _ => .next m

theorem pgRoundDown_idem (a : Nat) : pgRoundDown (pgRoundDown a) = pgRoundDown a :=
  pgRoundDown_mul (a / pgsize)

def insertStackEntry (c : Core) (tid : Tid) (addr : Nat) : Core :=
  { c with
    spt := update c.spt tid ((c.spt tid).map
      (·.insert ⟨pgRoundDown addr, .inMemory, .anonymous, true, 0, 0, 0, 0⟩ (pgRoundDown_idem addr))) }

def growsStack (addr esp : Nat) : Prop :=
  physBase - userStackMax ≤ addr ∧ addr < physBase ∧ (esp + (2 ^ 32 - 32)) % 2 ^ 32 ≤ addr

instance (addr esp : Nat) : Decidable (growsStack addr esp) := inferInstanceAs (Decidable (_ ∧ _))

def stackGrowth (m : Memory) (tid : Tid) (addr esp : Nat) : Fault :=
  if growsStack addr esp then
    match m.pagedir tid with
    | none => .next m
    | some _ =>
      match m.allocFrame (pgRoundDown addr) tid with
      | (none, m) => .next m
      | (some k, m) =>
        match m.mapPage tid (pgRoundDown addr) k true with
        | some m => .handled (m.withCore (insertStackEntry m.toCore tid addr))
        | none => .next (m.withCore (m.freeFrame k))
  else .next m

def legacySwapIn (m : Memory) (tid : Tid) (addr : Nat) : Fault :=
  match m.pagedir tid with
  | none => .next m
  | some _ =>
    match m.swapMap tid (pgRoundDown addr) with
    | none => .next m
    | some slot =>
      match m.allocFrame (pgRoundDown addr) tid with
      | (none, m) => .next m
      | (some k, m) =>
        let m := m.withCore (m.swapIn slot k)
        match m.mapPage tid (pgRoundDown addr) k true with
        | some m =>
          .handled { m with
            swapMap := update m.swapMap tid (update (m.swapMap tid) (pgRoundDown addr) none) }
        | none => .next (m.withCore (m.freeFrame k))

def Fault.orElse (f : Fault) (g : Memory → Fault) : Fault :=
  match f with
  | .handled m => .handled m
  | .killed m => .killed m
  | .next m => g m

/-- `page_fault` on a page that is not present, from user mode: whether it is resolved, and the
memory it leaves. A process whose fault is not resolved is killed. -/
def pageFault (m : Memory) (tid : Tid) (addr esp : Nat) (write : Bool) : Bool × Memory :=
  match ((demandPage m tid addr write).orElse (stackGrowth · tid addr esp)).orElse
    (legacySwapIn · tid addr) with
  | .handled m => (true, m)
  | .killed m => (false, m)
  | .next m => (false, m)

inductive Outcome
  | byte (b : UInt8)
  | fault
  /-- The fault is said to be handled, and the page is still not there. -/
  | hang
  deriving DecidableEq

def offset (addr : Nat) : Fin pgsize := ⟨addr % pgsize, Nat.mod_lt _ (by decide)⟩

def readByte (m : Memory) (tid : Tid) (addr esp : Nat) : Outcome :=
  match (m.pagedir tid).bind (·.getPage addr) with
  | some k => .byte (m.mem k (offset addr))
  | none =>
    match pageFault m tid addr esp false with
    | (false, _) => .fault
    | (true, m) =>
      match (m.pagedir tid).bind (·.getPage addr) with
      | some k => .byte (m.mem k (offset addr))
      | none => .hang

/-- The same memory with one more free user page and one more free kernel page, so that a fault
finds a frame and a page table. -/
def withRoom (m : Memory) : Memory :=
  { m with userPool := m.userPool ++ [false], kernelPool := m.kernelPool + 1 }

def pageData (c : Core) (e : SptEntry) : PageData :=
  match e.location with
  | .onDisk => c.fileData e
  | .inSwap slot => c.swapDisk slot
  | _ => zeroPage

/-- What a page is: bytes, a page that is said to be in memory and is not there, or a page without
an entry, perhaps with a slot in `SWAP_MAP`. -/
inductive Meaning
  | bytes (d : PageData)
  | hang
  | absent (saved : Option PageData)

namespace Meaning

/-- The data with which a fault at `addr` maps the page. -/
def fill : Meaning → Nat → Nat → Option PageData
  | bytes d, _, _ => some d
  | hang, _, _ => none
  | absent saved, addr, esp => if growsStack addr esp then some zeroPage else saved

def read (a : Meaning) (addr esp : Nat) : Outcome :=
  match a.fill addr esp with
  | some d => .byte (d (offset addr))
  | none =>
    match a with
    | hang => .hang
    | _ => .fault

def ofEntry (c : Core) (e : SptEntry) : Meaning :=
  if e.location = .inMemory then .hang else .bytes (pageData c e)

def unmapped (c : Core) (tid : Tid) (n : Nat) : Meaning :=
  match c.findSpt tid (n * pgsize) with
  | some e => ofEntry c e
  | none => .absent ((c.swapMap tid (n * pgsize)).map c.swapDisk)

end Meaning

def meaning (v : View) (tid : Tid) (n : Nat) : Meaning :=
  match v.mapping tid n with
  | some x => .bytes (v.mem x.kpage)
  | none => .unmapped v.toCore tid n

def sees (v : View) (tid : Tid) (addr esp : Nat) : Outcome :=
  if v.attached tid then (meaning v tid (addr / pgsize)).read addr esp else .fault

variable {m m₁ : Memory} {tid : Tid} {addr esp : Nat}

open Memory

theorem mapPage_of_room (page k : Nat) (w : Bool) (hatt : m.view.attached tid = true)
    (hroom : m.view.table tid (page / pgsize) = true ∨ 0 < m.kernelPool) :
    ∃ m', m.mapPage tid page k w = some m' ∧
      m'.view.mapping tid (page / pgsize) = some ⟨k, w, false⟩ ∧ m'.mem = m.mem := by
  obtain ⟨m', hmap⟩ := isSome_iff_exists.mp
    (mapPage_isSome |>.mpr ⟨hatt, hroom⟩)
  have hmaps := mapPage_some hmap
  obtain ⟨kp, hcore⟩ := hmaps.core
  refine ⟨m', hmap, ?_, (congrArg Core.mem hcore :)⟩
  rw [hmaps.mapping]
  simp

theorem loadPage_of_alloc {e : SptEntry} {page k : Nat} (hloc : e.location ≠ .inMemory)
    (hal : m.allocFrame page tid = (some k, m₁)) (hzero : m₁.mem k = zeroPage)
    (hatt : m₁.view.attached tid = true)
    (hroom : m₁.view.table tid (page / pgsize) = true ∨ 0 < m₁.kernelPool) :
    ∃ m', m.loadPage e page tid = (true, m') ∧
      m'.view.mapping tid (page / pgsize) = some ⟨k, e.writable, false⟩ ∧
      m'.mem k = pageData m₁.toCore e := by
  have hfill : (m₁.fillFrame e k).mem k = pageData m₁.toCore e := by
    unfold Core.fillFrame pageData
    cases hl : e.location <;> simp [Core.swapIn, Core.freeSlot, hzero]
  obtain ⟨m₂, hmap, hmapping, hmem⟩ := mapPage_of_room (m := m₁.withCore (m₁.fillFrame e k))
    page k e.writable hatt
    (hroom.imp_right fun h ↦ h.trans_eq (fillFrame_kernelPool _ e k).symm)
  refine ⟨m₂.withCore (m₂.setLocation tid page .inMemory), ?_, hmapping, ?_⟩
  · simp [loadPage, hloc, hal, hmap]
  · exact (congrFun hmem k).trans hfill

theorem stackGrowth_of_alloc {k : Nat} (hg : growsStack addr esp) (hpd : m.view.attached tid = true)
    (hal : m.allocFrame (pgRoundDown addr) tid = (some k, m₁)) (hzero : m₁.mem k = zeroPage)
    (hatt : m₁.view.attached tid = true)
    (hroom : m₁.view.table tid (addr / pgsize) = true ∨ 0 < m₁.kernelPool) :
    ∃ m', stackGrowth m tid addr esp = .handled m' ∧
      m'.view.mapping tid (addr / pgsize) = some ⟨k, true, false⟩ ∧ m'.mem k = zeroPage := by
  obtain ⟨pd, hpd⟩ := isSome_iff_exists.mp hpd
  have hn : pgRoundDown addr / pgsize = addr / pgsize := mul_pgsize_div _
  obtain ⟨m₂, hmap, hmapping, hmem⟩ := mapPage_of_room _ k true
    hatt (by rwa [hn])
  rw [hn] at hmapping
  refine ⟨m₂.withCore (insertStackEntry m₂.toCore tid addr), ?_, hmapping, ?_⟩
  · simp only [stackGrowth, hg, if_true, hpd, hal, hmap]
  · exact (congrFun hmem k).trans hzero

theorem legacySwapIn_of_alloc {k slot : Nat} (hs : m.swapMap tid (pgRoundDown addr) = some slot)
    (hpd : m.view.attached tid = true) (hal : m.allocFrame (pgRoundDown addr) tid = (some k, m₁))
    (hatt : m₁.view.attached tid = true)
    (hroom : m₁.view.table tid (addr / pgsize) = true ∨ 0 < m₁.kernelPool) :
    ∃ m', legacySwapIn m tid addr = .handled m' ∧
      m'.view.mapping tid (addr / pgsize) = some ⟨k, true, false⟩ ∧
      m'.mem k = m₁.swapDisk slot := by
  obtain ⟨pd, hpd⟩ := isSome_iff_exists.mp hpd
  have hn : pgRoundDown addr / pgsize = addr / pgsize := mul_pgsize_div _
  obtain ⟨m₂, hmap, hmapping, hmem⟩ := mapPage_of_room (m := m₁.withCore (m₁.swapIn slot k))
    _ k true hatt (by rwa [hn])
  rw [hn] at hmapping
  refine ⟨{ m₂ with
    swapMap := update m₂.swapMap tid (update (m₂.swapMap tid) (pgRoundDown addr) none) },
    ?_, hmapping, ?_⟩
  · simp only [legacySwapIn, hpd, hs, hal, hmap]
  · refine (congrFun hmem k).trans ?_
    simp [withCore, Core.swapIn, Core.freeSlot]

theorem allocFrame_withRoom (m : Memory) (page : Nat) (tid : Tid) : ∃ k m₁,
    (withRoom m).allocFrame page tid = (some k, m₁) ∧ m₁.mem k = zeroPage ∧
    m₁.view.attached = m.view.attached ∧ 0 < m₁.kernelPool ∧
    m₁.swapDisk = m.swapDisk ∧ m₁.files = m.files := by
  have hsome : (firstClear (withRoom m).userPool 0).isSome := by
    apply firstClear_isSome (i := m.userPool.length) (Nat.zero_le _)
    · simp [withRoom]
    · simp [withRoom, test]
  obtain ⟨k, hk⟩ := isSome_iff_exists.mp hsome
  let c : Core := { (withRoom m).toCore with
    userPool := (withRoom m).userPool.set k true, mem := update m.mem k zeroPage }
  have hal : (withRoom m).allocFrame page tid =
      (some k, (withRoom m).withCore (c.registerFrame k page tid)) := by
    simp only [allocFrame, Core.getUserPage, hk]
    rfl
  refine ⟨k, _, hal, ?_, rfl, ?_, rfl, rfl⟩
  · exact update_self k zeroPage m.mem
  · exact Nat.succ_pos m.kernelPool

theorem pageData_congr {c c' : Core} (hd : c'.swapDisk = c.swapDisk) (hf : c'.files = c.files)
    (e : SptEntry) : pageData c' e = pageData c e := by
  unfold pageData Core.fileData
  rw [hd, hf]

theorem demandPage_withRoom_none {write : Bool}
    (he : m.view.findSpt tid (addr / pgsize * pgsize) = none) :
    demandPage (withRoom m) tid addr write = .next (withRoom m) := by
  cases ht : m.spt tid with
  | none => simp [demandPage, withRoom, ht]
  | some t =>
    have hte : t.find (addr / pgsize * pgsize) = none := by
      simpa [Core.findSpt, view, ht] using he
    rw [← pgRoundDown] at hte
    cases hpd : m.pagedir tid with
    | none => simp [demandPage, withRoom, hpd]
    | some pd => simp [demandPage, withRoom, ht, hpd, hte]

open Meaning

theorem pageFault_withRoom (hatt : m.view.attached tid = true) {d : PageData}
    (hd : (Meaning.unmapped m.view.toCore tid (addr / pgsize)).fill addr esp = some d) :
    ∃ m' x, pageFault (withRoom m) tid addr esp false = (true, m') ∧
      m'.view.mapping tid (addr / pgsize) = some x ∧ m'.mem x.kpage = d := by
  have hn : pgRoundDown addr / pgsize = addr / pgsize := mul_pgsize_div _
  obtain ⟨k, m₁, hal, hzero, hatt₁, hkp, hdisk, hfiles⟩ := allocFrame_withRoom m _ tid
  have hpd₁ : m₁.view.attached tid = true := by rw [hatt₁, hatt]
  obtain ⟨pd, hpd⟩ := isSome_iff_exists.mp hatt
  have hpd' : (withRoom m).pagedir tid = some pd := hpd
  unfold unmapped at hd
  cases he : m.view.findSpt tid (addr / pgsize * pgsize) with
  | some e =>
    simp only [he, ofEntry] at hd
    split at hd
    · cases hd
    · next hloc =>
      obtain ⟨t, ht, hte⟩ := bind_eq_some_iff.mp he
      have ht' : (withRoom m).spt tid = some t := ht
      have hte' : t.find (pgRoundDown addr) = some e := hte
      obtain ⟨m', hload, hmapping, hmem⟩ := loadPage_of_alloc hloc hal hzero hpd₁ (.inr hkp)
      rw [hn] at hmapping
      refine ⟨m', _, ?_, hmapping, ?_⟩
      · simp [pageFault, demandPage, Fault.orElse, ht', hpd', hte', hload]
      · rw [hmem, pageData_congr hdisk hfiles]
        exact some.inj hd
  | none =>
    simp only [he, fill] at hd
    have hnext : demandPage (withRoom m) tid addr false = .next (withRoom m) :=
      demandPage_withRoom_none he
    split at hd
    · next hg =>
      obtain ⟨m', hgrow, hmapping, hmem⟩ :=
        stackGrowth_of_alloc (m := withRoom m) hg hatt hal hzero hpd₁ (.inr hkp)
      refine ⟨m', _, ?_, hmapping, hmem.trans (some.inj hd)⟩
      simp [pageFault, Fault.orElse, hnext, hgrow]
    · next hg =>
      obtain ⟨slot, hs, rfl⟩ := map_eq_some_iff.mp hd
      have hnext' : stackGrowth (withRoom m) tid addr esp = .next (withRoom m) := by
        simp [stackGrowth, hg]
      obtain ⟨m', hin, hmapping, hmem⟩ :=
        legacySwapIn_of_alloc (m := withRoom m) hs hatt hal hpd₁ (.inr hkp)
      refine ⟨m', _, ?_, hmapping, ?_⟩
      · simp [pageFault, Fault.orElse, hnext, hnext', hin]
      · rw [hmem, hdisk]
        rfl

theorem readByte_withRoom (m : Memory) (tid : Tid) (addr esp : Nat) :
    readByte (withRoom m) tid addr esp = sees m.view tid addr esp := by
  have hview : (withRoom m).view.mapping = m.view.mapping := rfl
  rw [readByte, sees, getPage_view, hview]
  cases hatt : m.view.attached tid with
  | false =>
    have hpd : m.pagedir tid = none := by simpa [view] using hatt
    have hmap : m.view.mapping tid (addr / pgsize) = none := by simp [view, hpd]
    have hfault : (pageFault (withRoom m) tid addr esp false).1 = false := by
      simp [pageFault, demandPage, stackGrowth, legacySwapIn, Fault.orElse, withRoom, hpd]
    rw [hmap]
    simp only [map_none]
    split
    · rfl
    · next h => simp [h] at hfault
  | true =>
    rw [meaning]
    cases hmap : m.view.mapping tid _ with
    | some x => rfl
    | none =>
      cases hd : (unmapped m.view.toCore tid _).fill addr esp with
      | some d =>
        obtain ⟨m', x, hfault, hmapping, hmem⟩ := pageFault_withRoom hatt hd
        simp [hfault, getPage_view, hmapping, hmem, Meaning.read, hd]
      | none =>
        obtain ⟨pd, hpd⟩ := isSome_iff_exists.mp hatt
        have hpd' : (withRoom m).pagedir tid = some pd := hpd
        unfold unmapped at hd ⊢
        cases he : m.view.findSpt tid _ with
        | some e =>
          simp only [he, ofEntry] at hd ⊢
          split at hd
          · next hloc =>
            obtain ⟨t, ht, hte⟩ := bind_eq_some_iff.mp he
            have ht' : (withRoom m).spt tid = some t := ht
            have hte' : t.find (pgRoundDown addr) = some e := hte
            have hfault : pageFault (withRoom m) tid addr esp false = (true, withRoom m) := by
              simp [pageFault, demandPage, Fault.orElse, ht', hpd', hte', loadPage, hloc]
            simp [hfault, getPage_view, hview, hmap, hloc, Meaning.read, fill]
          · cases hd
        | none =>
          simp only [he] at hd
          have hnext : demandPage (withRoom m) tid addr false = .next (withRoom m) :=
            demandPage_withRoom_none he
          simp only [fill] at hd
          split at hd
          · cases hd
          · next hg =>
            have hs : m.swapMap tid (pgRoundDown addr) = none := map_eq_none_iff.mp hd
            have hs' : (withRoom m).swapMap tid (pgRoundDown addr) = none := hs
            have hfault : pageFault (withRoom m) tid addr esp false = (false, withRoom m) := by
              simp [pageFault, Fault.orElse, hnext, stackGrowth, hg, legacySwapIn, hpd', hs']
            have hs'' : m.view.swapMap tid (addr / pgsize * pgsize) = none := hs
            simp [hfault, Meaning.read, fill, hg, hs'']

end Rxv6.Userprog.Exception
