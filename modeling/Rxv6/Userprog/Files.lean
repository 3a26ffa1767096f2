import Rxv6.Ipc.Descriptors
import Rxv6.Filesys.Path

namespace Rxv6.Userprog.Files

open Rxv6.Filesys Rxv6.Ipc

/-- What a live process holds of the file system: its working directory, its descriptors and the
executable that it runs. -/
structure Process where
  cwdSector : Nat
  fds : FdTable
  executableSector : Option Nat

/-- The access mode of `O_RDONLY`, of `O_WRONLY` and the bits that hold it. -/
def oRdonly : Int := 0

def oWronly : Int := 1

def accessMode (flags : Nat) : Int := (flags % 4 : Nat)

def oCreate (flags : Nat) : Bool := flags.testBit 9

def oTrunc (flags : Nat) : Bool := flags.testBit 10

def oAppend (flags : Nat) : Bool := flags.testBit 11

/-- The device that `SYS_OPEN` knows under a path: `dev/null`, `dev/zero`, `dev/console` or `dev/tty`,
with or without a slash in front. -/
def device (path : List UInt8) : Option FdKind :=
  let path := if path.head? = some 47 then path.tail else path
  if path = [100, 101, 118, 47, 110, 117, 108, 108] then some .devNull
  else if path = [100, 101, 118, 47, 122, 101, 114, 111] then some .devZero
  else if path = [100, 101, 118, 47, 99, 111, 110, 115, 111, 108, 101] ∨ path = [100, 101, 118, 47, 116, 116, 121]
  then some .console
  else none

def sysOpen (p : Process) (path : List UInt8) (flags : Nat) : Prog Process :=
  match device path with
  | some kind => pure { p with fds := p.fds.allocFd kind }
  | none => do
    if oCreate flags then let _ ← create p.cwdSector path 0
    match ← openFile p.cwdSector path with
    | none => pure p
    | some s => do
      if oTrunc flags then truncate s
      let pos ← if oAppend flags then inodeLength s else pure 0
      pure { p with fds := p.fds.allocFd (.fileDesc s pos (accessMode flags)) }

def closeKind : FdKind → Prog Unit
  | .fileDesc s _ _ => inodeClose s
  | _ => pure ()

def sysClose (p : Process) (fd : Nat) : Prog Process :=
  match p.fds[fd]?.join with
  | none => pure p
  | some kind => do
    closeKind kind
    pure { p with fds := p.fds.set fd none }

/-- `File::open_with_mode` on the inode of a descriptor that is copied. -/
def reopenKind : FdKind → Prog Unit
  | .fileDesc s _ _ => inodeOpen s
  | _ => pure ()

def sysDup (p : Process) (fd : Nat) : Prog Process :=
  match p.fds[fd]?.join with
  | none => pure p
  | some kind => do
    reopenKind kind
    pure { p with fds := p.fds.allocFd kind }

/-- `bounced_write`, a page at a time. The result is the new position. -/
def bouncedWrite (s : Nat) : Nat → List UInt8 → Nat → Prog Nat
  | 0, _, pos => pure pos
  | turns + 1, buf, pos =>
    if buf = [] then pure pos
    else do
      let chunk := buf.take 4096
      let n ← writeAt s chunk chunk.length pos
      if n < chunk.length then pure (pos + n)
      else bouncedWrite s turns (buf.drop 4096) (pos + n)

def sysWrite (p : Process) (fd : Nat) (buf : List UInt8) : Prog Process :=
  match p.fds[fd]?.join with
  | some (.fileDesc s pos mode) =>
    if mode = oRdonly then pure p
    else do
      let pos ← bouncedWrite s buf.length buf pos.toNat
      pure { p with fds := p.fds.set fd (some (.fileDesc s pos mode)) }
  | _ => pure p

/-- `bounced_read`, a page at a time. The result is the new position. -/
def bouncedRead (s : Nat) : Nat → Nat → Nat → Prog Nat
  | 0, _, pos => pure pos
  | turns + 1, size, pos =>
    if size = 0 then pure pos
    else do
      let chunk := min size 4096
      let bytes ← readAt s chunk pos
      if bytes.length < chunk then pure (pos + bytes.length)
      else bouncedRead s turns (size - chunk) (pos + chunk)

def sysRead (p : Process) (fd size : Nat) : Prog Process :=
  match p.fds[fd]?.join with
  | some (.fileDesc s pos mode) =>
    if mode = oWronly then pure p
    else do
      let pos ← bouncedRead s size size pos.toNat
      pure { p with fds := p.fds.set fd (some (.fileDesc s pos mode)) }
  | _ => pure p

def sysChdir (p : Process) (path : List UInt8) : Prog Process :=
  if path ≠ [] ∧ path.all (· = 47) then pure { p with cwdSector := rootDirSector }
  else do
    match ← openFile p.cwdSector path with
    | none => pure p
    | some s => do
      let isDir ← inodeIsDir s
      inodeClose s
      pure (if isDir then { p with cwdSector := s } else p)

/-- The checks of `load_demand_paged` on the header of the file: its size, the magic number, 32 bits,
little-endian, an executable for the 80386. -/
def isElf (data : List UInt8) : Bool :=
  52 ≤ data.length && data.take 6 == [0x7F, 69, 76, 70, 1, 1] && (data.drop 16).take 4 == [2, 0, 3, 0]

/-- `load` from the directory `cwd`. `loads` says whether a file with a good header is loaded: its
segments are good and there is memory for it. -/
def load (cwd : Nat) (path : List UInt8) (loads : Bool) : Prog (Option Nat) := do
  match ← openFile cwd path with
  | none => pure none
  | some s => do
    let len ← inodeLength s
    let data ← readAt s len.toNat 0
    if data.length < len.toNat then do
      inodeClose s
      pure none
    else if isElf data && loads then do
      denyWrite s
      pure (some s)
    else do
      inodeClose s
      pure none

def releaseExecutable : Option Nat → Prog Unit
  | none => pure ()
  | some s => do
    allowWrite s
    inodeClose s

def sysExec (p : Process) (path : List UInt8) (loads : Bool) : Prog Process := do
  releaseExecutable p.executableSector
  let executable ← load p.cwdSector path loads
  pure { p with executableSector := executable }

inductive Call
  | open (path : List UInt8) (flags : Nat)
  | close (fd : Nat)
  | dup (fd : Nat)
  | read (fd size : Nat)
  | write (fd : Nat) (buf : List UInt8)
  | unlink (path : List UInt8)
  | link (oldPath newPath : List UInt8)
  | mkdir (path : List UInt8)
  | chdir (path : List UInt8)
  | exec (path : List UInt8) (loads : Bool)

def serve (p : Process) : Call → Prog Process
  | .open path flags => sysOpen p path flags
  | .close fd => sysClose p fd
  | .dup fd => sysDup p fd
  | .read fd size => sysRead p fd size
  | .write fd buf => sysWrite p fd buf
  | .unlink path => do
    let _ ← remove p.cwdSector path
    pure p
  | .link oldPath newPath => do
    let _ ← link p.cwdSector oldPath newPath
    pure p
  | .mkdir path => do
    let _ ← mkdir p.cwdSector path
    pure p
  | .chdir path => sysChdir p path
  | .exec path loads => sysExec p path loads

/-- `clone_fd_table`. -/
def reopenAll : FdTable → Prog Unit
  | [] => pure ()
  | none :: l => reopenAll l
  | some kind :: l => do
    reopenKind kind
    reopenAll l

def closeAll : FdTable → Prog Unit
  | [] => pure ()
  | none :: l => closeAll l
  | some kind :: l => do
    closeKind kind
    closeAll l

/-- The child of a `fork`; `created` says whether there is a thread for it. -/
def fork (p : Process) (created : Bool) : Prog (Option Process) := do
  reopenAll p.fds
  if created then do
    match p.executableSector with
    | none => pure ()
    | some s => do
      inodeOpen s
      denyWrite s
    pure (some p)
  else do
    closeAll p.fds
    pure none

/-- `exit_with_status`. -/
def exit (p : Process) : Prog Unit := do
  releaseExecutable p.executableSector
  closeAll p.fds

/-- `execute` and `start_process`. -/
def execute (path : List UInt8) (loads : Bool) : Prog (Option Process) := do
  match ← load rootDirSector path loads with
  | none => pure none
  | some s => pure (some ⟨rootDirSector, FdTable.new, some s⟩)

/-- The file system and the processes, `none` for one that has exited. -/
structure System where
  st : State
  procs : List (Option Process)

inductive Op
  | call (pid : Nat) (c : Call)
  | fork (pid : Nat) (created : Bool)
  | exit (pid : Nat)
  | execute (path : List UInt8) (loads : Bool)

namespace System

variable (s : System)

def proc (pid : Nat) : Option Process := s.procs[pid]?.join

def addProc (r : Option Process × State) : System :=
  match r.1 with
  | none => { s with st := r.2 }
  | some p => ⟨r.2, s.procs ++ [some p]⟩

def step : Op → Option System
  | .call pid c => (s.proc pid).map fun p ↦
    let r := run (serve p c) s.st
    ⟨r.2, s.procs.set pid (some r.1)⟩
  | .fork pid created => (s.proc pid).map fun p ↦ s.addProc (run (Files.fork p created) s.st)
  | .exit pid => (s.proc pid).map fun p ↦ ⟨(run (Files.exit p) s.st).2, s.procs.set pid none⟩
  | .execute path loads => some (s.addProc (run (Files.execute path loads) s.st))

end System

end Rxv6.Userprog.Files
