import Rxv6.Lib.Bitmap
import Rxv6.Thread.Scheduler

namespace Rxv6.Vm

open Rxv6.Thread List Option

def pgsize : Nat := 4096

def physBase : Nat := 0xC0000000

def userStackMax : Nat := 8 * 1024 * 1024

/-- `addr & !PGMASK`. -/
def pgRoundDown (addr : Nat) : Nat := addr / pgsize * pgsize

abbrev PageData := Fin pgsize → UInt8

def zeroPage : PageData := fun _ ↦ 0

/-- A page-table entry that is not zero. Such entries always have `PTE_P` and `PTE_U`. -/
structure Pte where
  kpage : Nat
  writable : Bool
  accessed : Bool
  dirty : Bool
  deriving DecidableEq, Repr

abbrev PageTable := Nat → Option Pte

abbrev Pagedir := Nat → Option PageTable

def pdeIdx (va : Nat) : Nat := va / 2 ^ 22

def pteIdx (va : Nat) : Nat := va / 2 ^ 12 % 1024

namespace Pagedir

def empty : Pagedir := fun _ ↦ none

def hasTable (pd : Pagedir) (va : Nat) : Bool := (pd (pdeIdx va)).isSome

/-- The entry that `lookup(pd, va, false)` points to. -/
def entry (pd : Pagedir) (va : Nat) : Option Pte := (pd (pdeIdx va)).bind fun pt ↦ pt (pteIdx va)

/-- Store through the pointer of `lookup`. Nothing happens when there is no table. -/
def store (pd : Pagedir) (va : Nat) (e : Option Pte) : Pagedir :=
  Function.update pd (pdeIdx va) ((pd (pdeIdx va)).map fun pt ↦ Function.update pt (pteIdx va) e)

def addTable (pd : Pagedir) (va : Nat) : Pagedir :=
  Function.update pd (pdeIdx va) (some fun _ ↦ none)

def getPage (pd : Pagedir) (va : Nat) : Option Nat := (pd.entry va).map (·.kpage)

def isAccessed (pd : Pagedir) (va : Nat) : Bool := (pd.entry va).any (·.accessed)

def isDirty (pd : Pagedir) (va : Nat) : Bool := (pd.entry va).any (·.dirty)

def clearPage (pd : Pagedir) (va : Nat) : Pagedir := pd.store va none

def clearAccessed (pd : Pagedir) (va : Nat) : Pagedir :=
  pd.store va ((pd.entry va).map fun e ↦ { e with accessed := false })

variable {pd : Pagedir} {va va' : Nat} {e : Option Pte}

theorem idx_eq_iff : pdeIdx va = pdeIdx va' ∧ pteIdx va = pteIdx va' ↔ va / pgsize = va' / pgsize := by
  simp only [pdeIdx, pteIdx, pgsize]
  omega

theorem entry_congr (h : va / pgsize = va' / pgsize) : pd.entry va = pd.entry va' := by
  obtain ⟨hd, hp⟩ := idx_eq_iff.mpr h
  simp [entry, hd, hp]

theorem hasTable_congr (h : va / pgsize = va' / pgsize) : pd.hasTable va = pd.hasTable va' := by
  simp [hasTable, (idx_eq_iff.mpr h).1]

@[simp] theorem hasTable_store : (pd.store va e).hasTable va' = pd.hasTable va' := by
  by_cases h : pdeIdx va' = pdeIdx va
  · simp [hasTable, store, h]
  · simp [hasTable, store, Function.update_of_ne h]

theorem entry_store_self (ht : pd.hasTable va = true) (h : va / pgsize = va' / pgsize) :
    (pd.store va e).entry va' = e := by
  obtain ⟨hd, hp⟩ := idx_eq_iff.mpr h
  obtain ⟨pt, hpt⟩ := isSome_iff_exists.mp ht
  simp [entry, store, ← hd, ← hp, hpt]

theorem entry_store_ne (h : va / pgsize ≠ va' / pgsize) : (pd.store va e).entry va' = pd.entry va' := by
  by_cases hd : pdeIdx va' = pdeIdx va
  · have hp : pteIdx va' ≠ pteIdx va := fun hp ↦ h (idx_eq_iff.mp ⟨hd.symm, hp.symm⟩)
    cases hpt : pd (pdeIdx va) <;> simp [entry, store, hd, hpt, Function.update_of_ne hp]
  · simp [entry, store, Function.update_of_ne hd]

theorem entry_addTable (ht : pd.hasTable va = false) : (pd.addTable va).entry va' = pd.entry va' := by
  by_cases hd : pdeIdx va' = pdeIdx va
  · have hnone : pd (pdeIdx va) = none := by simpa [hasTable] using ht
    simp [entry, addTable, hd, hnone]
  · simp [entry, addTable, Function.update_of_ne hd]

theorem hasTable_addTable_self : (pd.addTable va).hasTable va = true := by
  simp [hasTable, addTable]

theorem hasTable_addTable (ht : pd.hasTable va' = true) : (pd.addTable va).hasTable va' = true := by
  by_cases hd : pdeIdx va' = pdeIdx va
  · simp [hasTable, addTable, hd]
  · simpa [hasTable, addTable, Function.update_of_ne hd] using ht

end Pagedir

inductive PageLocation
  | inMemory
  | inSwap (slot : Nat)
  | onDisk
  | zero
  deriving DecidableEq, Repr

inductive PageType
  | binary
  | file
  | anonymous
  deriving DecidableEq, Repr

structure SptEntry where
  vaddr : Nat
  location : PageLocation
  pageType : PageType
  writable : Bool
  inodeSector : Nat
  fileOffset : Nat
  readBytes : Nat
  pageOfs : Nat
  deriving DecidableEq, Repr

structure Spt where
  entries : List SptEntry
  nodup : (entries.map (·.vaddr)).Nodup
  aligned : ∀ e ∈ entries, pgRoundDown e.vaddr = e.vaddr

namespace Spt

def new : Spt := ⟨[], by simp, by simp⟩

def find (t : Spt) (va : Nat) : Option SptEntry :=
  t.entries.find? fun e ↦ e.vaddr = pgRoundDown va

def insert (t : Spt) (e : SptEntry) (he : pgRoundDown e.vaddr = e.vaddr) : Spt where
  entries := e :: t.entries.filter fun x ↦ x.vaddr ≠ e.vaddr
  nodup := by
    rw [List.map_cons, List.nodup_cons]
    refine ⟨?_, t.nodup.sublist (List.filter_sublist.map _)⟩
    simp
  aligned x hx := by
    rcases List.mem_cons.mp hx with rfl | hx
    · exact he
    · exact t.aligned x (List.mem_of_mem_filter hx)

def map (t : Spt) (f : SptEntry → SptEntry) (hf : ∀ e, (f e).vaddr = e.vaddr) : Spt where
  entries := t.entries.map f
  nodup := by
    have hkeys : t.entries.map ((·.vaddr) ∘ f) = t.entries.map (·.vaddr) :=
      List.map_congr_left fun e _ ↦ hf e
    rw [List.map_map, hkeys]
    exact t.nodup
  aligned x hx := by
    obtain ⟨e, he, rfl⟩ := List.mem_map.mp hx
    rw [hf]
    exact t.aligned e he

/-- `find_mut` followed by an assignment to `location`. -/
def setLocation (t : Spt) (va : Nat) (l : PageLocation) : Spt :=
  t.map (fun e ↦ if e.vaddr = pgRoundDown va then { e with location := l } else e) (by
    intro e
    split <;> rfl)

variable {t : Spt} {e : SptEntry} {va va' : Nat}

theorem mem_of_find (h : t.find va = some e) : e ∈ t.entries ∧ e.vaddr = pgRoundDown va :=
  ⟨mem_of_find?_eq_some h, by simpa using find?_some h⟩

theorem find_map {f : SptEntry → SptEntry} (hf : ∀ e, (f e).vaddr = e.vaddr) :
    (t.map f hf).find va = (t.find va).map f := by
  simp [find, map, hf]

theorem find_setLocation {l : PageLocation} : (t.setLocation va l).find va' =
    if pgRoundDown va = pgRoundDown va' then (t.find va').map ({ · with location := l })
    else t.find va' := by
  rw [setLocation, find_map]
  cases h : t.find va' with
  | none => simp
  | some x =>
    have hx := (mem_of_find h).2
    simp only [map_some, hx, eq_comm]
    split <;> rfl

end Spt

structure FrameEntry where
  kpage : Nat
  upage : Nat
  ownerTid : Tid
  pinned : Bool
  deriving DecidableEq, Repr

structure Core where
  /-- Bitmap of the user pool. A `kpage` is an index into it. -/
  userPool : List Bool
  /-- How many pages of the kernel pool are free. Page tables come from there. -/
  kernelPool : Nat
  mem : Nat → PageData
  frameTable : List FrameEntry
  swapMap : Tid → Nat → Option Nat
  swapBitmap : List Bool
  swapDisk : Nat → PageData
  spt : Tid → Option Spt
  /-- The executables. They cannot be written while a process runs them (`deny_write`). -/
  files : Nat → List UInt8

structure Memory extends Core where
  clockHand : Nat
  pagedir : Tid → Option Pagedir

end Rxv6.Vm
