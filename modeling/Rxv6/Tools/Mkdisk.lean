import Rxv6.Filesys.Directory

namespace Rxv6.Tools.Mkdisk

open Filesys Filesys.Sector Function

def leBytes (v : Nat) : List UInt8 := (List.range 4).map fun k ↦ UInt8.ofNat (v / 256 ^ k)

/-- The `InodeDisk` of the tool, apart from its padding. -/
structure InodeDisk where
  directBlocks : List Nat
  indirectBlock : Nat
  doublyIndirectBlock : Nat
  length : Int
  writeEnd : Int
  magic : Nat
  isDir : UInt8
  isSymlink : UInt8

namespace InodeDisk

def new : InodeDisk where
  directBlocks := List.replicate 12 0
  indirectBlock := 0
  doublyIndirectBlock := 0
  length := 0
  writeEnd := 0
  magic := 0x494e4f44
  isDir := 0
  isSymlink := 0

def toBytes (d : InodeDisk) : List UInt8 :=
  d.directBlocks.flatMap leBytes ++ leBytes d.indirectBlock ++ leBytes d.doublyIndirectBlock ++
    leBytes (u32 d.length) ++ leBytes (u32 d.writeEnd) ++ leBytes d.magic ++ [d.isDir, d.isSymlink] ++
    List.replicate 442 0

end InodeDisk

/-- `DirEntry::new` and `to_bytes`: the name is cut to 14 bytes and padded to 15. -/
def entryBytes (name : List UInt8) (sector : Nat) : List UInt8 :=
  leBytes sector ++ (name.take 14 ++ List.replicate (15 - (name.take 14).length) 0) ++ [1]

structure DiskBuilder where
  data : Nat → Sector
  sectorCount : Nat
  nextFree : Nat
  used : List Bool

def sectorsFor (bytes : Nat) : Nat := (bytes + 511) / 512

/-- The part of the bytes that goes to sector `i` of a file. -/
def chunk (bytes : List UInt8) (i : Nat) : List UInt8 :=
  (bytes.drop (512 * i)).take (min (512 * i + 512) bytes.length - 512 * i)

/-- An index block with the addresses of `count` consecutive sectors. -/
def pointers (first count : Nat) : Sector :=
  (List.range count).foldl (fun s i ↦ setWord s i (first + i)) zero

def bitmap (used : List Bool) (size : Nat) : List UInt8 :=
  (List.range used.length).foldl (fun bm i ↦
    if used.getD i false then bm.modify (i / 8) (· ||| 1 <<< UInt8.ofNat (i % 8)) else bm) (List.replicate size 0)

namespace DiskBuilder

variable (b : DiskBuilder)

def new (sizeMb : Nat) : Option DiskBuilder :=
  let sectorCount := sizeMb * 1024 * 1024 / 512 % 4294967296
  if 2 ≤ sectorCount then
    some ⟨fun _ ↦ zero, sectorCount, 2, ((List.replicate sectorCount false).set 0 true).set 1 true⟩
  else none

def allocSector : Option (Nat × DiskBuilder) :=
  if b.nextFree < b.used.length then
    some (b.nextFree, { b with used := b.used.set b.nextFree true, nextFree := b.nextFree + 1 })
  else none

def allocTimes : Nat → DiskBuilder → Option DiskBuilder
  | 0, b => some b
  | n + 1, b => do
    let (_, b) ← b.allocSector
    allocTimes n b

def allocSectors (n : Nat) : Option (Nat × DiskBuilder) := do
  let b' ← allocTimes (n % 4294967296) b
  some (b.nextFree, b')

def change (sector : Nat) (f : Sector → Sector) : Option DiskBuilder :=
  if sector < b.sectorCount then some { b with data := update b.data sector (f (b.data sector)) } else none

def writeSectorBytes (sector : Nat) (bytes : List UInt8) : Option DiskBuilder :=
  b.change sector fun s ↦ splice s 0 (bytes.take 512)

def copyData (first : Nat) (bytes : List UInt8) : Option DiskBuilder :=
  (List.range (sectorsFor bytes.length)).foldlM
    (fun b i ↦ b.change (first + i) fun s ↦ splice s 0 (chunk bytes i)) b

def recopyData (first : Nat) (bytes : List UInt8) : Option DiskBuilder :=
  (List.range (sectorsFor bytes.length)).foldlM
    (fun b i ↦ b.change (first + i) fun _ ↦ splice zero 0 (chunk bytes i)) b

def directFor (first n : Nat) : List Nat :=
  (List.range (min n 12)).foldl (fun d i ↦ d.set i (first + i)) (List.replicate 12 0)

def sectorBytes (s : Sector) : List UInt8 := List.ofFn s

/-- The indirect block of a file of `n` sectors, which is `0` if there is none. -/
def writeIndirect (first n : Nat) : Option (Nat × DiskBuilder) :=
  if 12 < n then do
    let (indirect, b) ← b.allocSector
    let b ← b.writeSectorBytes indirect (sectorBytes (pointers (first + 12) (min (n - 12) 128)))
    some (indirect, b)
  else some (0, b)

/-- One turn of the loop over the inner blocks. It panics at the end of the outer block. -/
def writeInner (first n : Nat) (r : Sector × DiskBuilder) (j : Nat) : Option (Sector × DiskBuilder) := do
  let (inner, b) ← r.2.allocSector
  if j < 128 then do
    let base := 140 + j * 128
    let b ← b.writeSectorBytes inner (sectorBytes (pointers (first + base) (min (n - base) 128)))
    some (setWord r.1 j inner, b)
  else none

def writeDoubly (first n : Nat) : Option (Nat × DiskBuilder) :=
  if 140 < n then do
    let (doubly, b) ← b.allocSector
    let (outer, b) ← (List.range ((n - 140 + 127) / 128)).foldlM (writeInner first n) (zero, b)
    let b ← b.writeSectorBytes doubly (sectorBytes outer)
    some (doubly, b)
  else some (0, b)

def writeFile (bytes : List UInt8) : Option (Nat × DiskBuilder) := do
  let (inodeSector, b) ← b.allocSector
  let n := sectorsFor bytes.length
  let (first, b) ← b.allocSectors n
  let b ← b.copyData first bytes
  let (indirect, b) ← b.writeIndirect first n
  let (doubly, b) ← b.writeDoubly first n
  let inode : InodeDisk := { InodeDisk.new with
    directBlocks := directFor first n, indirectBlock := indirect, doublyIndirectBlock := doubly,
    length := bytes.length, writeEnd := bytes.length }
  let b ← b.writeSectorBytes inodeSector inode.toBytes
  some (inodeSector, b)

/-- The entries of the root directory: `.`, `..` and the files. -/
def rootBytes (entries : List (List UInt8 × Nat)) : List UInt8 :=
  entryBytes [46] 1 ++ entryBytes [46, 46] 1 ++ entries.flatMap fun e ↦ entryBytes e.1 e.2

def writeRootDir (entries : List (List UInt8 × Nat)) : Option DiskBuilder := do
  let bytes := rootBytes entries
  let n := sectorsFor bytes.length
  let (first, b) ← b.allocSectors n
  let b ← b.copyData first bytes
  let (indirect, b) ← b.writeIndirect first n
  let inode : InodeDisk := { InodeDisk.new with
    directBlocks := directFor first n, indirectBlock := indirect, length := bytes.length,
    writeEnd := bytes.length, isDir := 1 }
  b.writeSectorBytes 1 inode.toBytes

/-- The indirect block of the free map. The bitmap is written again after it has been allocated. -/
def writeMapIndirect (first n size : Nat) : Option (Nat × DiskBuilder) :=
  if 12 < n then do
    let (indirect, b) ← b.allocSector
    let b ← b.recopyData first (bitmap b.used size)
    let b ← b.writeSectorBytes indirect (sectorBytes (pointers (first + 12) (min (n - 12) 128)))
    some (indirect, b)
  else some (0, b)

def writeFreeMap : Option DiskBuilder := do
  let size := (b.sectorCount + 7) / 8
  let n := sectorsFor size
  let (first, b) ← b.allocSectors n
  let b ← b.copyData first (bitmap b.used size)
  let (indirect, b) ← b.writeMapIndirect first n size
  let inode : InodeDisk := { InodeDisk.new with
    directBlocks := directFor first n, indirectBlock := indirect, length := size, writeEnd := size }
  b.writeSectorBytes 0 inode.toBytes

end DiskBuilder

end Rxv6.Tools.Mkdisk
