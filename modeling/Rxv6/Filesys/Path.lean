import Rxv6.Filesys.Directory

namespace Rxv6.Filesys

def rootDirSector : Nat := 1

def components (path : List UInt8) : List (List UInt8) := (path.splitOn 47).filter (· ≠ [])

/-- Follow the components from the open directory `dir`. The directory that is reached stays open. -/
def walk (dir : Nat) : List (List UInt8) → Prog (Option Nat)
  | [] => pure (some dir)
  | name :: rest => do
    match ← Dir.lookup dir name with
    | none => do
      inodeClose dir
      pure none
    | some s => do
      if ← inodeIsDir s then do
        inodeClose dir
        inodeOpen s
        walk s rest
      else do
        inodeClose dir
        pure none

/-- The directory of the last component, left open, and that component. It is empty for `/`. -/
def resolvePath (cwd : Nat) (path : List UInt8) : Prog (Option (Nat × List UInt8)) :=
  if path = [] then pure none
  else do
    let start := if path.head? = some 47 then rootDirSector else cwd
    inodeOpen start
    match (components path).getLast? with
    | none => pure (some (start, []))
    | some leaf => do
      match ← walk start (components path).dropLast with
      | none => pure none
      | some dir => pure (some (dir, leaf))

/-- The functions on paths find the directory of the last component first, and fail without one. -/
def inParent {α : Type} (cwd : Nat) (path : List UInt8) (fail : α) (body : Nat → List UInt8 → Prog α) :
    Prog α := do
  match ← resolvePath cwd path with
  | none => pure fail
  | some (parent, name) =>
    if name = [] then do
      inodeClose parent
      pure fail
    else body parent name

def create (cwd : Nat) (path : List UInt8) (initialSize : Int) : Prog Bool :=
  inParent cwd path false fun parent name ↦ do
    match ← allocate with
    | none => do
      inodeClose parent
      pure false
    | some s => do
      if ← inodeCreate s initialSize false then do
        let ok ← Dir.add parent name s
        inodeClose parent
        if ok then pure true
        else do
          inodeRemove s
          inodeClose s
          release s
          pure false
      else do
        release s
        inodeClose parent
        pure false

/-- `filesys::open`: the inode of the file, opened once more. -/
def openFile (cwd : Nat) (path : List UInt8) : Prog (Option Nat) :=
  inParent cwd path none fun parent name ↦ do
    let sector ← Dir.lookup parent name
    inodeClose parent
    match sector with
    | none => pure none
    | some s => do
      inodeOpen s
      pure (some s)

def remove (cwd : Nat) (path : List UInt8) : Prog Bool :=
  inParent cwd path false fun parent name ↦ do
    let ok ← Dir.remove parent name
    inodeClose parent
    pure ok

def mkdir (cwd : Nat) (path : List UInt8) : Prog Bool :=
  inParent cwd path false fun parent name ↦ do
    match ← allocate with
    | none => do
      inodeClose parent
      pure false
    | some s => do
      if ← Dir.create s parent then do
        if ← Dir.add parent name s then do
          inodeClose parent
          pure true
        else do
          inodeRemove s
          inodeClose s
          release s
          inodeClose parent
          pure false
      else do
        release s
        inodeClose parent
        pure false

/-- The second half of `link`. The inode is opened for the new name and stays open. -/
def linkTo (cwd : Nat) (newPath : List UInt8) (s : Nat) : Prog Bool :=
  inParent cwd newPath false fun parent name ↦ do
    inodeOpen s
    let ok ← Dir.add parent name s
    inodeClose parent
    if ok then pure true
    else do
      inodeClose s
      pure false

def link (cwd : Nat) (oldPath newPath : List UInt8) : Prog Bool :=
  inParent cwd oldPath false fun parent name ↦ do
    let sector ← Dir.lookup parent name
    inodeClose parent
    match sector with
    | none => pure false
    | some s => do
      if ← inodeIsDir s then pure false
      else linkTo cwd newPath s

end Rxv6.Filesys
