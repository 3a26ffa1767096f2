import Rxv6.Userprog.Fork
import Rxv6.Lib.Runs

namespace Rxv6.Userprog.Process

open Function Rxv6.Thread Rxv6.Vm
open Rxv6.Userprog.Fork

/-- The supplementary page table that `load_demand_paged` makes for an executable. -/
structure Image where
  spt : Spt
  binary : ∀ e ∈ spt.entries, e.pageType = .binary ∧ e.location = if 0 < e.readBytes then .onDisk else .zero

def freeEntry (c : Core) (e : SptEntry) : Core :=
  match e.location with
  | .inSwap slot => c.freeSlot slot
  | _ => c

/-- `remove_spt` and `destroy`: the swap slots of the entries are freed. -/
def destroySpt (c : Core) (tid : Tid) : Core :=
  match c.spt tid with
  | none => c
  | some t =>
    let c := t.entries.foldl freeEntry c
    { c with spt := update c.spt tid none }

def setPagedir (m : Memory) (tid : Tid) (pd : Option Pagedir) : Memory :=
  { m with pagedir := update m.pagedir tid pd }

def stackPage : Nat := physBase - pgsize

theorem stackPage_aligned : pgRoundDown stackPage = stackPage := by decide

def stackEntry : SptEntry := ⟨stackPage, .inMemory, .anonymous, true, 0, 0, 0, 0⟩

/-- `load` for a thread whose page directory is null: the new page directory and the memory. The
file is an executable or not (`none`), and `stack` is what `setup_stack` writes to the first stack
page through the kernel's mapping. -/
def load (m : Memory) (tid : Tid) (image : Option Image) (stack : PageData) : Option Pagedir × Memory :=
  match image with
  | none => (none, m)
  | some image =>
    if m.kernelPool = 0 then (none, m)
    else
      let fail (m : Memory) (pd : Pagedir) : Option Pagedir × Memory :=
        (none, m.withCore (destroy pd (destroySpt m.toCore tid)))
      let m := { m with kernelPool := m.kernelPool - 1, spt := update m.spt tid (some image.spt) }
      match m.allocFrame stackPage tid with
      | (none, m) => fail m .empty
      | (some k, m) =>
        match setPage m.kernelPool .empty stackPage k true with
        | none => fail (m.withCore (m.freeFrame k)) .empty
        | some (pd, kp) =>
          (some pd, { m with
            kernelPool := kp
            mem := update m.mem k stack
            spt := update m.spt tid ((m.spt tid).map (·.insert stackEntry stackPage_aligned)) })

theorem foldl_freeSlot (l : List SptEntry) (c : Core) : ∃ bits, l.foldl freeEntry c = { c with swapBitmap := bits } := by
  induction l generalizing c with
  | nil => exact ⟨_, rfl⟩
  | cons e l ih =>
    rw [List.foldl_cons, freeEntry]
    cases e.location with
    | inSwap s => exact ih _
    | inMemory | onDisk | zero => exact ih c

end Rxv6.Userprog.Process
