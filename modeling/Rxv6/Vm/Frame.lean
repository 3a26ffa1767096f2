import Rxv6.Vm.State

namespace Rxv6.Vm

open Function Rxv6.Thread Rxv6.Lib.Bitmap List

/-- `Vec::swap_remove`: the last element takes the place of the removed one. -/
def swapRemove {α : Type*} (l : List α) (i : Nat) : List α :=
  match l.getLast? with
  | none => l
  | some x => (l.set i x).dropLast

theorem swapRemove_perm {α : Type*} {l : List α} {i : Nat} (hi : i < l.length) :
    (swapRemove l i).Perm (l.eraseIdx i) := by
  rcases eq_nil_or_concat' l with rfl | ⟨a, x, rfl⟩
  · simp at hi
  · simp only [length_append, length_singleton] at hi
    rw [swapRemove, getLast?_concat]
    simp only
    by_cases hia : i < a.length
    · rw [set_append_left _ _ hia, dropLast_concat, eraseIdx_append_of_lt_length hia]
      exact (set_perm_cons_eraseIdx hia x).trans (perm_append_singleton x _).symm
    · obtain rfl : i = a.length := by omega
      rw [eraseIdx_append_of_length_le (Nat.le_refl _)]
      simp

/-- `set_page`. A missing page table is taken from the kernel pool; `none` when the pool is empty. -/
def setPage (kernelPool : Nat) (pd : Pagedir) (upage kpage : Nat) (writable : Bool) :
    Option (Pagedir × Nat) :=
  let pte : Pte := ⟨kpage, writable, false, false⟩
  if pd.hasTable upage then some (pd.store upage (some pte), kernelPool)
  else if kernelPool = 0 then none
  else some ((pd.addTable upage).store upage (some pte), kernelPool - 1)

namespace Core

variable (c : Core)

def findSpt (tid : Tid) (va : Nat) : Option SptEntry := (c.spt tid).bind (·.find va)

def setLocation (tid : Tid) (va : Nat) (l : PageLocation) : Core :=
  { c with spt := update c.spt tid ((c.spt tid).map (·.setLocation va l)) }

/-- `palloc::get_page` with `USER | ZERO`. -/
def getUserPage : Option (Nat × Core) :=
  (firstClear c.userPool 0).map fun k ↦
    (k, { c with userPool := c.userPool.set k true, mem := update c.mem k zeroPage })

def swapOut (kpage : Nat) : Option (Nat × Core) :=
  (firstClear c.swapBitmap 0).map fun slot ↦
    (slot, { c with
      swapBitmap := c.swapBitmap.set slot true
      swapDisk := update c.swapDisk slot (c.mem kpage) })

def freeSlot (slot : Nat) : Core := { c with swapBitmap := c.swapBitmap.set slot false }

def swapIn (slot kpage : Nat) : Core :=
  { c with mem := update c.mem kpage (c.swapDisk slot) }.freeSlot slot

def registerFrame (kpage upage : Nat) (tid : Tid) : Core :=
  { c with frameTable := c.frameTable ++ [⟨kpage, upage, tid, false⟩] }

def needSwap (e : Option SptEntry) (isDirty : Bool) : Bool :=
  match e with
  | some e => if e.pageType = .binary ∧ ¬ isDirty ∧ 0 < e.readBytes then false else isDirty
  | none => isDirty

def cleanLocation (e : SptEntry) : PageLocation :=
  match e.pageType with
  | .binary => if 0 < e.readBytes then .onDisk else .zero
  | .anonymous => .zero
  | .file => .zero

/-- The victim's data is saved and its place recorded. `none` when swap is full. -/
def saveVictim (e : FrameEntry) (isDirty : Bool) : Option Core :=
  if needSwap (c.findSpt e.ownerTid e.upage) isDirty then
    (c.swapOut e.kpage).map fun r ↦
      match c.spt e.ownerTid with
      | some _ => r.2.setLocation e.ownerTid e.upage (.inSwap r.1)
      | none =>
        { r.2 with
          swapMap := update c.swapMap e.ownerTid (update (c.swapMap e.ownerTid) e.upage (some r.1)) }
  else
    match c.findSpt e.ownerTid e.upage with
    | some x => some (c.setLocation e.ownerTid e.upage (cleanLocation x))
    | none => some c

/-- `free_frame`. `KPAGE_INDEX` gives the place of the frame in the table. -/
def freeFrame (kpage : Nat) : Core :=
  { c with
    frameTable :=
      match c.frameTable.findIdx? (·.kpage = kpage) with
      | some i => swapRemove c.frameTable i
      | none => c.frameTable
    userPool := c.userPool.set kpage false }

/-- `pin_upage` and `unpin_upage`: the first frame of the page is found and marked. -/
def setPinned (tid : Tid) (upage : Nat) (pinned : Bool) : Core :=
  { c with
    frameTable :=
      match c.frameTable.findIdx? fun e ↦ e.ownerTid = tid ∧ e.upage = upage with
      | some i => c.frameTable.modify i ({ · with pinned := pinned })
      | none => c.frameTable }

def fixOwnerTid (placeholder realTid : Tid) : Core :=
  { c with
    frameTable := c.frameTable.map fun e : FrameEntry ↦
      if e.ownerTid = placeholder then { e with ownerTid := realTid } else e }

/-- What `load_page` reads from the file of a page: zeros around `read_bytes` bytes of it. -/
def fileData (e : SptEntry) : PageData := fun i ↦
  if e.pageOfs ≤ i ∧ i < e.pageOfs + e.readBytes then
    ((c.files e.inodeSector)[e.fileOffset + (i - e.pageOfs)]?).getD 0
  else 0

def fillFrame (e : SptEntry) (kpage : Nat) : Core :=
  match e.location with
  | .onDisk => { c with mem := update c.mem kpage (c.fileData e) }
  | .inSwap slot => c.swapIn slot kpage
  | _ => c

end Core

namespace Memory

def updatePagedir (m : Memory) (tid : Tid) (f : Pagedir → Pagedir) : Memory :=
  { m with pagedir := update m.pagedir tid ((m.pagedir tid).map f) }

def withCore (m : Memory) (c : Core) : Memory := { m with toCore := c }

def evictStep (m : Memory) : Option FrameEntry × Memory :=
  let hand := m.clockHand % m.frameTable.length
  let m := { m with clockHand := (m.clockHand + 1) % 2 ^ 32 }
  match m.frameTable[hand]? with
  | none => (none, m)
  | some e =>
    if e.pinned then (none, m)
    else
      match m.pagedir e.ownerTid with
      | none => (none, m)
      | some pd =>
        if pd.isAccessed e.upage then (none, m.updatePagedir e.ownerTid (·.clearAccessed e.upage))
        else
          match m.saveVictim e (pd.isDirty e.upage) with
          | none => (none, m)
          | some c =>
            let m := (m.withCore c).updatePagedir e.ownerTid (·.clearPage e.upage)
            (some e, { m with
              frameTable := m.frameTable.eraseIdx hand
              clockHand := if 0 < m.clockHand then m.clockHand - 1 else m.clockHand })

def evictLoop : Nat → Memory → Option FrameEntry × Memory
  | 0, m => (none, m)
  | n + 1, m =>
    match m.evictStep with
    | (some e, m) => (some e, m)
    | (none, m) => evictLoop n m

/-- Two rotations of the clock at most. The source returns the `kpage` of the entry. -/
def evictFrame (m : Memory) : Option FrameEntry × Memory := evictLoop (2 * m.frameTable.length) m

def allocFrame (m : Memory) (upage : Nat) (tid : Tid) : Option Nat × Memory :=
  match m.getUserPage with
  | some (k, c) => (some k, m.withCore (c.registerFrame k upage tid))
  | none =>
    match m.evictFrame with
    | (some e, m) =>
      let c : Core := { m.toCore with mem := update m.mem e.kpage zeroPage }
      (some e.kpage, m.withCore (c.registerFrame e.kpage upage tid))
    | (none, m) => (none, m)

/-- `set_page` on the page directory of a thread. -/
def mapPage (m : Memory) (tid : Tid) (upage kpage : Nat) (writable : Bool) : Option Memory :=
  (m.pagedir tid).bind fun pd ↦
    (setPage m.kernelPool pd upage kpage writable).map fun r ↦
      { m with pagedir := update m.pagedir tid (some r.1), kernelPool := r.2 }

/-- `load_page`. Its three branches that need a frame differ only in how they fill it. -/
def loadPage (m : Memory) (e : SptEntry) (page : Nat) (tid : Tid) : Bool × Memory :=
  if e.location = .inMemory then (true, m)
  else
    match m.allocFrame page tid with
    | (none, m) => (false, m)
    | (some k, m) =>
      let m := m.withCore (m.fillFrame e k)
      match m.mapPage tid page k e.writable with
      | some m => (true, m.withCore (m.setLocation tid page .inMemory))
      | none => (false, m.withCore (m.freeFrame k))

end Memory

end Rxv6.Vm
