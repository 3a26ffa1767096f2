import Rxv6.Vm.View

namespace Rxv6.Userprog.Syscall

open Rxv6.Thread Rxv6.Vm List

/-- Plain `+` on `usize`: with overflow checks (the build that `build.sh` makes) an overflow panics,
in the release profile it wraps. -/
def addUsize (checks : Bool) (a b : Nat) : Option Nat :=
  if a + b < 2 ^ 32 then some (a + b) else if checks then none else some ((a + b) % 2 ^ 32)

def wrappingAdd (a b : Nat) : Nat := (a + b) % 2 ^ 32

/-- How often `while page < end { page += PGSIZE }` turns. -/
def pageCount (page stop : Nat) : Nat := (stop - page + (pgsize - 1)) / pgsize

/-- The loop of `is_valid_user_ptr`; `none` is a panic. -/
def checkPages (checks : Bool) (tid : Tid) (stop : Nat) : Nat → Nat → Memory → Option (Bool × Memory)
  | 0, _, m => some (true, m)
  | k + 1, page, m =>
    if page < stop then
      match (m.pagedir tid).bind (·.getPage page) with
      | some _ => (addUsize checks page pgsize).bind fun next ↦ checkPages checks tid stop k next m
      | none =>
        match m.findSpt tid page with
        | some e =>
          let m := (m.loadPage e page tid).2
          (addUsize checks page pgsize).bind fun next ↦ checkPages checks tid stop k next m
        | none => some (physBase - userStackMax ≤ page ∧ page < physBase, m)
    else some (true, m)

/-- `is_valid_user_ptr` for the running thread `tid`. -/
def isValidUserPtr (checks : Bool) (m : Memory) (tid : Tid) (addr size : Nat) :
    Option (Bool × Memory) :=
  if ¬ (pgsize ≤ addr ∧ addr < physBase) ∨ physBase < wrappingAdd addr size then some (false, m)
  else
    match m.pagedir tid with
    | none => some (true, m)
    | some _ =>
      (addUsize checks addr size).bind fun stop ↦
        checkPages checks tid stop (pageCount (pgRoundDown addr) stop) (pgRoundDown addr) m

/-- `validate_user_buffer`: `true` when the process survives it. -/
def validateUserBuffer (checks : Bool) (m : Memory) (tid : Tid) (addr size : Nat) :
    Option (Bool × Memory) :=
  if 0 < size then isValidUserPtr checks m tid addr size else some (true, m)

structure Access where
  addr : Nat
  len : Nat

inductive FdKind
  | fileDesc (mode : Nat)
  | pipeRead
  | pipeWrite
  | console
  | devNull
  | devZero

abbrev Peer := List Nat

/-- `Pipe::write`: batches as large as the space in the pipe. -/
def pipeWrite (buf size : Nat) : Peer → Nat → List Access
  | [], _ => []
  | space :: rest, written =>
    if written < size then
      let n := min (size - written) space
      ⟨buf + written, n⟩ :: pipeWrite buf size rest (written + n)
    else []

/-- `bounced_read`: each chunk is read into the bounce page, then copied out. -/
def bouncedRead (buf size : Nat) : Peer → Nat → List Access
  | [], _ => []
  | n :: rest, offset =>
    if offset < size then
      let chunk := min (size - offset) pgsize
      let n := min n chunk
      if n = 0 then []
      else ⟨buf + offset, n⟩ :: if n < chunk then [] else bouncedRead buf size rest (offset + n)
    else []

/-- `bounced_write`: each chunk is copied to the bounce page, then written. -/
def bouncedWrite (buf size : Nat) : Peer → Nat → List Access
  | [], _ => []
  | n :: rest, offset =>
    if offset < size then
      let chunk := min (size - offset) pgsize
      let n := min n chunk
      ⟨buf + offset, chunk⟩ ::
        if n = 0 then [] else if n < chunk then [] else bouncedWrite buf size rest (offset + n)
    else []

def sysWrite (checks : Bool) (m : Memory) (tid : Tid) (fd : Option FdKind) (peer : Peer)
    (buf size : Nat) : List Access :=
  match validateUserBuffer checks m tid buf size with
  | some (true, _) =>
    match fd with
    | some .console => [⟨buf, size⟩]
    | some .pipeWrite => pipeWrite buf size peer 0
    | some (.fileDesc mode) => if mode % 4 = 0 then [] else bouncedWrite buf size peer 0
    | some .pipeRead | some .devNull | some .devZero | none => []
  | _ => []

def sysRead (checks : Bool) (m : Memory) (tid : Tid) (fd : Option FdKind) (peer : Peer)
    (buf size : Nat) : List Access :=
  match validateUserBuffer checks m tid buf size with
  | some (true, _) =>
    match fd with
    | some .console | some .pipeRead => [⟨buf, min size (peer.headD 0)⟩]
    | some (.fileDesc mode) => if mode % 4 = 1 then [] else bouncedRead buf size peer 0
    | some .devZero => [⟨buf, size⟩]
    | some .pipeWrite | some .devNull | none => []
  | _ => []

def Access.Within (a : Access) (buf size : Nat) : Prop :=
  a.len = 0 ∨ buf ≤ a.addr ∧ a.addr + a.len ≤ buf + size

variable {checks : Bool} {m m' : Memory} {tid : Tid} {addr size : Nat}

variable {fd : Option FdKind} {peer : Peer} {a : Access}

theorem range_test_iff (hs : size ≤ physBase) :
    ¬ (¬ (pgsize ≤ addr ∧ addr < physBase) ∨ physBase < wrappingAdd addr size) ↔
      pgsize ≤ addr ∧ addr < physBase ∧ (addr + size ≤ physBase ∨ 2 ^ 32 ≤ addr + size) := by
  simp only [wrappingAdd] at *
  omega

theorem isValidUserPtr_of_wrap (hlo : pgsize ≤ addr) (hhi : addr < physBase) (hs : size ≤ physBase)
    (hwrap : 2 ^ 32 ≤ addr + size) : isValidUserPtr false m tid addr size = some (true, m) := by
  have htest := (range_test_iff hs).mpr ⟨hlo, hhi, .inr hwrap⟩
  rw [isValidUserPtr, if_neg htest]
  split
  · rfl
  · have hsum : addUsize false addr size = some (addr + size - 2 ^ 32) := by
      have hmod : (addr + size) % 2 ^ 32 = addr + size - 2 ^ 32 := by
        simp only [physBase] at *
        omega
      rw [addUsize, if_neg (by omega), if_neg (by decide), hmod]
    have hcount : pageCount (pgRoundDown addr) (addr + size - 2 ^ 32) = 0 := by
      simp only [pageCount, pgRoundDown, pgsize, physBase] at *
      omega
    rw [hsum, Option.bind_some, hcount, checkPages]

def freshProcess (tid : Tid) : Memory where
  userPool := [false, false]
  kernelPool := 2
  mem := fun _ ↦ zeroPage
  frameTable := []
  swapMap := fun _ _ ↦ none
  swapBitmap := []
  swapDisk := fun _ ↦ zeroPage
  spt := fun t ↦ if t = tid then some .new else none
  files := fun _ ↦ []
  clockHand := 0
  pagedir := fun t ↦ if t = tid then some .empty else none

end Rxv6.Userprog.Syscall
