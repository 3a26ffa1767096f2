import Rxv6.Filesys.State

namespace Rxv6.Filesys

open Sector InodeDisk

def readInodeDisk (s : Nat) : Prog InodeDisk := bread s

def writeInodeDisk (s : Nat) (d : InodeDisk) : Prog Unit := bwrite s fun _ ↦ d

/-- `bread`, `data.fill(0)`, `bwrite`. -/
def zeroSector (s : Nat) : Prog Unit := bwrite s fun _ ↦ zero

def each : List Nat → (Nat → Prog Unit) → Prog Unit
  | [], _ => pure ()
  | i :: l, f => do
    f i
    each l f

def bytesToSectors (bytes : Int) : Nat :=
  if bytes ≤ 0 then 0 else (bytes.toNat + 511) / 512

/-- A stored sector number, where `0` stands for no sector. -/
def nonzero (s : Nat) : Option Nat := if s = 0 then none else some s

def getBlockSectorDisk (d : InodeDisk) (b : Nat) : Prog (Option Nat) :=
  if b < 12 then pure (nonzero (word d b))
  else if b < 140 then
    if word d 12 = 0 then pure none
    else do
      let buf ← bread (word d 12)
      pure (nonzero (word buf (b - 12)))
  else if word d 13 = 0 then pure none
  else do
    let outer ← bread (word d 13)
    if word outer ((b - 140) / 128) = 0 then pure none
    else do
      let inner ← bread (word outer ((b - 140) / 128))
      pure (nonzero (word inner ((b - 140) % 128)))

def setBlockSector (d : InodeDisk) (b x : Nat) : InodeDisk :=
  if b < 12 then setWord d b x else d

/-- Give the inode an indirect block (`i = 12`) or a doubly indirect block (`i = 13`) if it
has none. -/
def indexBlockFor (d : InodeDisk) (i : Nat) : Prog (Option InodeDisk) :=
  if word d i = 0 then do
    match ← allocate with
    | none => pure none
    | some y => do
      zeroSector y
      pure (some (setWord d i y))
  else pure (some d)

/-- The inner block behind slot `j` of the doubly indirect block `outer`. A new one is
stored in the slot before its sector is zeroed. -/
def innerBlockFor (outer j : Nat) : Prog (Option Nat) := do
  let buf ← bread outer
  if word buf j = 0 then
    match ← allocate with
    | none => pure none
    | some z => do
      bwrite outer fun buf ↦ setWord buf j z
      zeroSector z
      pure (some z)
  else pure (some (word buf j))

def allocateBlockFor (d : InodeDisk) (b : Nat) : Prog (Option Nat × InodeDisk) := do
  match ← allocate with
  | none => pure (none, d)
  | some x =>
    if b < 12 then pure (some x, setWord d b x)
    else if b < 140 then
      match ← indexBlockFor d 12 with
      | none => pure (none, d)
      | some d => do
        bwrite (word d 12) fun buf ↦ setWord buf (b - 12) x
        pure (some x, d)
    else
      match ← indexBlockFor d 13 with
      | none => pure (none, d)
      | some d =>
        match ← innerBlockFor (word d 13) ((b - 140) / 128) with
        | none => pure (none, d)
        | some z => do
          bwrite z fun buf ↦ setWord buf ((b - 140) % 128) x
          pure (some x, d)

/-- The sector of block `b`, allocated and zeroed if the file has none. -/
def dataSectorFor (d : InodeDisk) (b : Nat) : Prog (Option Nat × InodeDisk) := do
  match ← getBlockSectorDisk d b with
  | some x => pure (some x, d)
  | none =>
    match ← allocateBlockFor d b with
    | (some x, d) => do
      zeroSector x
      pure (some x, d)
    | (none, d) => pure (none, d)

/-- The loop of `write_at` on the private copy `d` of the inode. Every turn writes at least
one byte, so `size` turns are enough. -/
def writeLoop (buf : List UInt8) (size : Nat) :
    Nat → InodeDisk → Nat → Nat → Prog (InodeDisk × Nat)
  | 0, d, written, _ => pure (d, written)
  | turns + 1, d, written, off =>
    if written < size then do
      match ← dataSectorFor d (off / 512) with
      | (none, d) => pure (d, written)
      | (some x, d) => do
        let chunk := min (512 - off % 512) (size - written)
        bwrite x fun b ↦ splice b (off % 512) ((buf.drop written).take chunk)
        writeLoop buf size turns d (written + chunk) (off + chunk)
    else pure (d, written)

def writeDenied (i : Option Inode) : Bool :=
  match i with
  | some i => 0 < i.denyWriteCnt
  | none => false

def extend (d : InodeDisk) (newEnd : Nat) : InodeDisk :=
  if (newEnd : Int) > d.length then setEnd d newEnd else d

def writeAt (s : Nat) (buf : List UInt8) (size off : Nat) : Prog Nat := do
  let i ← getInode s
  if writeDenied i then pure 0
  else do
    let d ← readInodeDisk s
    let (d, written) ← writeLoop buf size size d 0 off
    writeInodeDisk s (extend d (off + written))
    setInode s (Option.map fun i ↦ { i with length := (extend d (off + written)).length })
    pure written

def inodeLength (s : Nat) : Prog Int := do
  match ← getInode s with
  | some i => pure i.length
  | none => do
    let d ← readInodeDisk s
    pure d.length

def inodeIsDir (s : Nat) : Prog Bool := do
  match ← getInode s with
  | some i => pure i.isDir
  | none => do
    let d ← readInodeDisk s
    pure d.isDir

/-- `data[ofs..ofs + n]`. -/
def slice (b : Sector) (ofs n : Nat) : List UInt8 := (List.range n).map fun k ↦ byte b (ofs + k)

/-- The part of a block that `read_at` copies, zeros if the block is not allocated. -/
def readChunk (d : InodeDisk) (b ofs n : Nat) : Prog (List UInt8) := do
  match ← getBlockSectorDisk d b with
  | some x => do
    let cached ← bread x
    pure (slice cached ofs n)
  | none => pure (List.replicate n 0)

/-- The loop of `read_at`, with the bytes that are still wanted. -/
def readLoop (d : InodeDisk) (len : Int) : Nat → Nat → Nat → Prog (List UInt8)
  | 0, _, _ => pure []
  | turns + 1, wanted, off =>
    if 0 < wanted ∧ (off : Int) < len then do
      let chunk := min (512 - off % 512) (min (len - off).toNat wanted)
      let bytes ← readChunk d (off / 512) (off % 512) chunk
      let rest ← readLoop d len turns (wanted - chunk) (off + chunk)
      pure (bytes ++ rest)
    else pure []

/-- The bytes that `read_at` puts in the caller's buffer. Their number is its result. -/
def readAt (s size off : Nat) : Prog (List UInt8) := do
  let len ← inodeLength s
  if (off : Int) ≥ len then pure []
  else do
    let d ← readInodeDisk s
    readLoop d len size size off

/-- The data blocks of a new inode: `none` when the disk is full. -/
def createLoop : List Nat → InodeDisk → Prog (Option InodeDisk)
  | [], d => pure (some d)
  | b :: l, d => do
    match ← allocate with
    | none => pure none
    | some x => do
      zeroSector x
      createLoop l (setBlockSector d b x)

def inodeCreate (s : Nat) (length : Int) (isDir : Bool) : Prog Bool := do
  let d := setIsDir (setEnd newBoxed length) isDir
  match ← createLoop (List.range (bytesToSectors length)) d with
  | none => pure false
  | some d => do
    writeInodeDisk s d
    pure true

def inodeOpen (s : Nat) : Prog Unit := do
  match ← getInode s with
  | some _ => setInode s (Option.map fun i ↦ { i with openCnt := i.openCnt + 1 })
  | none => do
    let d ← readInodeDisk s
    setInode s fun _ ↦ some
      { openCnt := 1, removed := false, denyWriteCnt := 0, length := d.length,
        isDir := d.isDir, isSymlink := d.isSymlink }

/-- Give back the data and index sectors of an inode. The free map is changed, the disk
is not. -/
def releaseBlocks (d : InodeDisk) (len : Int) : Prog Unit := do
  each (List.range (bytesToSectors len)) fun b ↦ do
    match ← getBlockSectorDisk d b with
    | some x => release x
    | none => pure ()
  if word d 12 ≠ 0 then release (word d 12)
  if word d 13 ≠ 0 then do
    let buf ← bread (word d 13)
    each (List.range 128) fun j ↦ if word buf j ≠ 0 then release (word buf j) else pure ()
    release (word d 13)

def inodeClose (s : Nat) : Prog Unit := do
  match ← getInode s with
  | none => pure ()
  | some i =>
    if i.openCnt - 1 ≤ 0 then do
      setInode s fun _ ↦ none
      if i.removed then do
        release s
        let d ← readInodeDisk s
        releaseBlocks d i.length
    else setInode s (Option.map fun i ↦ { i with openCnt := i.openCnt - 1 })

def inodeRemove (s : Nat) : Prog Unit :=
  setInode s (Option.map fun i ↦ { i with removed := true })

def denyWrite (s : Nat) : Prog Unit :=
  setInode s (Option.map fun i ↦ { i with denyWriteCnt := i.denyWriteCnt + 1 })

def allowed (n : Int) : Int := if n > 0 then n - 1 else n

def allowWrite (s : Nat) : Prog Unit :=
  setInode s (Option.map fun i ↦ { i with denyWriteCnt := allowed i.denyWriteCnt })

def truncate (s : Nat) : Prog Unit := do
  let len ← inodeLength s
  let d ← readInodeDisk s
  releaseBlocks d len
  let dir ← inodeIsDir s
  writeInodeDisk s (setIsDir newBoxed dir)
  setInode s (Option.map fun i ↦ { i with length := 0 })

end Rxv6.Filesys
