import Rxv6.Lib.Runs
import Rxv6.Filesys.Sector
import Rxv6.Thread.Scheduler

namespace Rxv6.Filesys.Log

open Function Sector Rxv6.Thread

def logSize : Nat := 10

/-- `LogHeader`: the array `sectors` has `LOGSIZE` places, of which the first `n` count. -/
structure Header where
  n : Nat
  sectors : Nat → Nat

namespace Header

def entries (h : Header) : List Nat := (List.range h.n).map h.sectors

def encode (h : Header) : Sector :=
  (List.range logSize).foldl (fun b i ↦ setWord b (1 + i) (h.sectors i)) (setWord zero 0 h.n)

/-- `read_head`: the places from `n` on keep what they held. -/
def decode (h : Header) (b : Sector) : Header :=
  ⟨word b 0, fun i ↦ if i < min (word b 0) logSize then word b (1 + i) else h.sectors i⟩

def empty : Header := ⟨0, fun _ ↦ 0⟩

end Header

/-- One call of `log_write`: its number, the operation it belongs to and its sector. -/
structure Record where
  id : Nat
  op : Nat
  sector : Nat
  deriving DecidableEq

/-- Where a thread stands. Each of `logRead`, `logWrite`, `headWrite`, `bodyRead`, `homeWrite` and
`clearWrite` is in front of a device access, with what was computed for it. -/
inductive Pc
  | idle
  | inside (op : Nat)
  | commit
  | logTurn (n i : Nat)
  | logRead (n i src : Nat)
  | logWrite (n i : Nat) (buf : Sector)
  | headWrite (h : Header)
  | install
  | installTurn (n i : Nat)
  | bodyRead (n i dst : Nat)
  | homeWrite (n i dst : Nat) (buf : Sector)
  | clearWrite (h : Header)

/-- The device, the log and the threads that use it. From `nextOp` on the fields only remember:
`records` holds every call of `log_write`, `entries` those whose sector the header stands for,
`commits` what each header written by a commit stood for, `pass t` what the header stood for when
the commit of `t` began its `write_log`, and `held t` what the header that `t` writes stands for. -/
structure System where
  disk : Nat → Sector
  start : Nat
  outstanding : Int
  header : Header
  threads : List Tid
  pc : Tid → Pc
  nextOp : Nat
  records : List Record
  entries : List Record
  commits : List (List Record)
  pass : Tid → List Record
  held : Tid → List Record

inductive Act
  | beginOp
  | update (x : Nat) (f : Sector → Sector)
  | logWrite (x : Nat)
  | endOp
  | go

namespace System

def goto (s : System) (t : Tid) (pc : Pc) : System := { s with pc := update s.pc t pc }

@[simp] theorem goto_pc_self (s : System) (t : Tid) (pc : Pc) : (s.goto t pc).pc t = pc := update_self ..

theorem goto_pc_of_ne {s : System} {t u : Tid} {pc : Pc} (h : u ≠ t) : (s.goto t pc).pc u = s.pc u :=
  update_of_ne h ..

def devWrite (s : System) (x : Nat) (v : Sector) : System := { s with disk := update s.disk x v }

/-- `log_write` panics on a full header before it looks whether the sector is there already. -/
def logWrite (s : System) (op x : Nat) : Option System :=
  let r : Record := ⟨s.records.length, op, x⟩
  let s := { s with records := r :: s.records, entries := r :: s.entries }
  if s.header.n ≥ logSize then none
  else if x ∈ s.header.entries then some s
  else some { s with header := ⟨s.header.n + 1, update s.header.sectors s.header.n x⟩ }

/-- One stretch of `commit` between two places where a thread switch may happen. -/
def commitStep (s : System) (t : Tid) : Option System :=
  match s.pc t with
  | .commit =>
    if s.header.n = 0 then some (s.goto t .idle)
    else some ({ s with pass := update s.pass t s.entries }.goto t (.logTurn s.header.n 0))
  | .logTurn n i =>
    if i < n then some (s.goto t (.logRead n i (s.header.sectors i)))
    else some ({ s with held := update s.held t s.entries }.goto t (.headWrite s.header))
  | .logRead n i src => some (s.goto t (.logWrite n i (s.disk src)))
  | .logWrite n i buf => some ((s.devWrite (s.start + 1 + i) buf).goto t (.logTurn n (i + 1)))
  | .headWrite h =>
    some ({ s.devWrite s.start h.encode with commits := s.held t :: s.commits }.goto t .install)
  | .install => some (s.goto t (.installTurn s.header.n 0))
  | .installTurn n i =>
    if i < n then some (s.goto t (.bodyRead n i (s.header.sectors i)))
    else
      let h : Header := ⟨0, s.header.sectors⟩
      some ({ s with header := h, entries := [] }.goto t (.clearWrite h))
  | .bodyRead n i dst => some (s.goto t (.homeWrite n i dst (s.disk (s.start + 1 + i))))
  | .homeWrite n i dst buf => some ((s.devWrite dst buf).goto t (.installTurn n (i + 1)))
  | .clearWrite h => some ((s.devWrite s.start h.encode).goto t .idle)
  | _ => none

def step (s : System) (x : Tid × Act) : Option System :=
  let t := x.1
  match x.2, s.pc t with
  | .beginOp, .idle =>
    if t ∈ s.threads then
      some ({ s with outstanding := s.outstanding + 1, nextOp := s.nextOp + 1 }.goto t
        (.inside s.nextOp))
    else none
  | .update x f, .inside _ => some (s.devWrite x (f (s.disk x)))
  | .logWrite x, .inside op => s.logWrite op x
  | .endOp, .inside _ =>
    some ({ s with outstanding := s.outstanding - 1 }.goto t
      (if s.outstanding - 1 = 0 then .commit else .idle))
  | .go, _ => s.commitStep t
  | _, _ => none

structure Quiet (s : System) : Prop where
  outstanding : s.outstanding = 0
  header : s.header.n = 0
  idle : ∀ t, s.pc t = .idle

end System

def installTrans (start : Nat) (h : Header) (disk : Nat → Sector) : Nat → Sector :=
  (List.range h.n).foldl (fun d i ↦ update d (h.sectors i) (d (start + 1 + i))) disk

/-- `log::init` after a crash, with the header that `init` makes: the disk after `recover`. A count
above `LOGSIZE` panics on the index into `sectors`. -/
def recover (start : Nat) (disk : Nat → Sector) : Option (Nat → Sector) :=
  let h := Header.empty.decode (disk start)
  if h.n = 0 then some disk
  else if h.n ≤ logSize then
    some (update (installTrans start h disk) start (Header.encode ⟨0, h.sectors⟩))
  else none

end Rxv6.Filesys.Log
