import Rxv6.Lib.Ring
import Rxv6.Lib.Runs
import Rxv6.Thread.Scheduler

namespace Rxv6.Ipc

open Function Rxv6.Thread

/-- A kernel pipe without its lock and condition variables. `nread` and `nwrite` are `usize`
counters of the 32-bit machine. -/
structure Pipe where
  buf : Nat → UInt8
  nread : Nat
  nwrite : Nat
  readOpen : Bool
  writeOpen : Bool
  readRefcnt : Nat
  writeRefcnt : Nat

def Pipe.new : Pipe := ⟨fun _ ↦ 0, 0, 0, true, true, 1, 1⟩

namespace Pipe

/-- `nwrite == nread + PIPE_SIZE`. -/
def full (p : Pipe) : Bool := p.nwrite = (p.nread + 512) % 4294967296

/-- `nwrite - nread`. -/
def fill (p : Pipe) : Nat := (p.nwrite + 4294967296 - p.nread) % 4294967296

end Pipe

/-- `(counter + i) % PIPE_SIZE`. -/
def ringIdx (counter i : Nat) : Nat := (counter + i) % 4294967296 % 512

def copyIn (buf : Nat → UInt8) (counter : Nat) : Nat → List UInt8 → Nat → UInt8
  | _, [] => buf
  | i, b :: l => copyIn (update buf (ringIdx counter i) b) counter (i + 1) l

def copyOut (buf : Nat → UInt8) (counter n : Nat) : List UInt8 :=
  (List.range n).map fun i ↦ buf (ringIdx counter i)

inductive Call
  | write (data : List UInt8)
  | read (len : Nat)
  | closeRead
  | closeWrite
  deriving DecidableEq, Repr

/-- Before `acquire`, with the lock at the head of the loop, or inside `Condvar::wait`. A
thread in `wait` that is in no queue any more has been signalled. -/
inductive Place
  | enter | inside | waiting
  deriving DecidableEq, Repr

inductive Pc
  | user
  | busy (c : Call) (written : Nat) (place : Place)
  deriving DecidableEq, Repr

/-- A finished call: how many bytes it stored, what it returned and whether it sent `SIGPIPE`
to its caller. -/
structure Return where
  tid : Tid
  call : Call
  written : Nat
  result : Int
  sigpipe : Bool
  deriving DecidableEq, Repr

structure System where
  pipe : Pipe
  lock : Option Tid
  notEmpty : List Tid
  notFull : List Tid
  pc : Tid → Pc
  /-- All bytes that writes have copied in, and all bytes that reads have copied out. -/
  input : List UInt8
  output : List UInt8
  returns : List Return

/-- `Condvar::signal` wakes the waiter at index `i`. Which one it is depends on priorities and
on which waiters have reached their semaphore. -/
def signal (q : List Tid) (i : Nat) : Option (List Tid) :=
  if q = [] then some [] else if i < q.length then some (q.eraseIdx i) else none

namespace System

def init : System := ⟨.new, none, [], [], fun _ ↦ .user, [], [], []⟩

def goto (s : System) (t : Tid) (pc : Pc) : System := { s with pc := update s.pc t pc }

def finish (s : System) (t : Tid) (c : Call) (written : Nat) (result : Int) (sigpipe : Bool) :
    System :=
  { s with
    lock := none
    pc := update s.pc t .user
    returns := ⟨t, c, written, result, sigpipe⟩ :: s.returns }

def runWrite (s : System) (t : Tid) (data : List UInt8) (written i : Nat) : Option System :=
  if written < data.length then
    if s.pipe.full then
      if ¬ s.pipe.readOpen then
        some (s.finish t (.write data) written (if written > 0 then written else -1) (written = 0))
      else
        (signal s.notEmpty i).map fun q ↦
          { s with
            lock := none
            notEmpty := q
            notFull := s.notFull ++ [t]
            pc := update s.pc t (.busy (.write data) written .waiting) }
    else
      let n := min (data.length - written) (512 - s.pipe.fill)
      let chunk := (data.drop written).take n
      some { s with
        pipe := { s.pipe with
          buf := copyIn s.pipe.buf s.pipe.nwrite 0 chunk
          nwrite := (s.pipe.nwrite + n) % 4294967296 }
        pc := update s.pc t (.busy (.write data) (written + n) .inside)
        input := s.input ++ chunk }
  else
    (signal s.notEmpty i).map fun q ↦
      { s with notEmpty := q }.finish t (.write data) written written false

/-- One turn of the loop of `read`, or the copy and its end. -/
def runRead (s : System) (t : Tid) (len i : Nat) : Option System :=
  if s.pipe.nread = s.pipe.nwrite then
    if ¬ s.pipe.writeOpen then some (s.finish t (.read len) 0 0 false)
    else some { s with
      lock := none
      notEmpty := s.notEmpty ++ [t]
      pc := update s.pc t (.busy (.read len) 0 .waiting) }
  else
    let n := min len s.pipe.fill
    (signal s.notFull i).map fun q ↦
      { s with
        pipe := { s.pipe with nread := (s.pipe.nread + n) % 4294967296 }
        notFull := q
        output := s.output ++ copyOut s.pipe.buf s.pipe.nread n }.finish t (.read len) 0 n false

/-- `cnt - 1` for a `u32`. -/
def decr : Nat → Nat
  | 0 => 4294967295
  | cnt + 1 => cnt

def bothClosed (p : Pipe) : Int := if ¬ p.readOpen ∧ ¬ p.writeOpen then 1 else 0

def runCloseRead (s : System) (t : Tid) (i : Nat) : Option System :=
  let cnt := decr s.pipe.readRefcnt
  if cnt = 0 then
    let p := { s.pipe with readRefcnt := cnt, readOpen := false }
    (signal s.notFull i).map fun q ↦
      { s with pipe := p, notFull := q }.finish t .closeRead 0 (bothClosed p) false
  else
    let p := { s.pipe with readRefcnt := cnt }
    some ({ s with pipe := p }.finish t .closeRead 0 (bothClosed p) false)

def runCloseWrite (s : System) (t : Tid) (i : Nat) : Option System :=
  let cnt := decr s.pipe.writeRefcnt
  if cnt = 0 then
    let p := { s.pipe with writeRefcnt := cnt, writeOpen := false }
    (signal s.notEmpty i).map fun q ↦
      { s with pipe := p, notEmpty := q }.finish t .closeWrite 0 (bothClosed p) false
  else
    let p := { s.pipe with writeRefcnt := cnt }
    some ({ s with pipe := p }.finish t .closeWrite 0 (bothClosed p) false)

def runCall (s : System) (t : Tid) (c : Call) (written i : Nat) : Option System :=
  match c with
  | .write data => s.runWrite t data written i
  | .read len => s.runRead t len i
  | .closeRead => s.runCloseRead t i
  | .closeWrite => s.runCloseWrite t i

end System

inductive Act
  | call (t : Tid) (c : Call)
  | acquire (t : Tid)
  | run (t : Tid) (i : Nat)

namespace System

/-- One step. With the lock a thread runs to the head of its loop, into a wait or to its
return. -/
def step (s : System) : Act → Option System
  | .call t c => if s.pc t = .user then some (s.goto t (.busy c 0 .enter)) else none
  | .acquire t =>
    match s.pc t with
    | .busy c w .enter =>
      if s.lock = none then some ({ s with lock := some t }.goto t (.busy c w .inside)) else none
    | .busy c w .waiting =>
      if s.lock = none ∧ t ∉ s.notEmpty ∧ t ∉ s.notFull then
        some ({ s with lock := some t }.goto t (.busy c w .inside))
      else none
    | _ => none
  | .run t i =>
    match s.pc t with
    | .busy c w .inside => s.runCall t c w i
    | _ => none

end System

end Rxv6.Ipc
