import Rxv6.Filesys.ByteArrays

namespace Rxv6.Filesys

def nameMax : Nat := 14

/-- The size of a directory entry on disk, `DIR_ENTRY_SIZE`. -/
def entrySize : Nat := 20

/-- `core::str::from_utf8(..).is_ok()`. -/
def isUtf8 : List UInt8 → Bool
  | [] => true
  | a :: t =>
    if a < 0x80 then isUtf8 t
    else
      match t with
      | [] => false
      | b :: t =>
        if 0xC2 ≤ a ∧ a ≤ 0xDF then cont b && isUtf8 t
        else
          match t with
          | [] => false
          | c :: t =>
            if 0xE0 ≤ a ∧ a ≤ 0xEF then
              cont b && (a != 0xE0 || 0xA0 ≤ b) && (a != 0xED || b ≤ 0x9F) && cont c && isUtf8 t
            else
              match t with
              | [] => false
              | d :: t =>
                0xF0 ≤ a && a ≤ 0xF4 && cont b && (a != 0xF0 || 0x90 ≤ b) && (a != 0xF4 || b ≤ 0x8F) &&
                  cont c && cont d && isUtf8 t
where
  cont (b : UInt8) : Bool := 0x80 ≤ b && b ≤ 0xBF

structure DirEntry where
  inodeSector : Nat
  name : List UInt8
  inUse : UInt8
  deriving DecidableEq

namespace DirEntry

def text (e : DirEntry) : List UInt8 := e.name.takeWhile (· ≠ 0)

def nameMatches (e : DirEntry) (name : List UInt8) : Bool := e.inUse ≠ 0 && e.text == name

/-- `entry_to_bytes`. -/
def toBytes (e : DirEntry) : List UInt8 :=
  [UInt8.ofNat e.inodeSector, UInt8.ofNat (e.inodeSector / 256), UInt8.ofNat (e.inodeSector / 65536),
    UInt8.ofNat (e.inodeSector / 16777216)] ++ e.name ++ [e.inUse]

/-- `bytes_to_entry`. -/
def ofBytes (b : List UInt8) : DirEntry where
  inodeSector := (b.getD 0 0).toNat + 256 * (b.getD 1 0).toNat + 65536 * (b.getD 2 0).toNat +
    16777216 * (b.getD 3 0).toNat
  name := (b.drop 4).take (nameMax + 1)
  inUse := b.getD 19 0

/-- The entry is in use for something other than `.` and `..`. -/
def isChild (e : DirEntry) : Bool :=
  e.inUse ≠ 0 && isUtf8 e.text && e.text != [46] && e.text != [46, 46]

end DirEntry

def makeEntry (name : List UInt8) (sector : Nat) : DirEntry :=
  let bytes := name.take nameMax
  ⟨sector, bytes ++ List.replicate (nameMax + 1 - bytes.length) 0, 1⟩

def entryCount (len : Int) : Nat := (len / entrySize).toNat

/-- Read entry `i` of a directory; `none` when the read is short. -/
def readEntry (s i : Nat) : Prog (Option DirEntry) := do
  let buf ← readAt s entrySize (i * entrySize)
  if buf.length < entrySize then pure none else pure (some (DirEntry.ofBytes buf))

/-- The loop over the entries that all operations have: it ends with the first answer, or at a short
read. -/
def scan {α : Type} (s : Nat) (f : Nat → DirEntry → Prog (Option α)) : List Nat → Prog (Option α)
  | [] => pure none
  | i :: l => do
    match ← readEntry s i with
    | none => pure none
    | some e => do
      match ← f i e with
      | some a => pure (some a)
      | none => scan s f l

namespace Dir

def lookup (s : Nat) (name : List UInt8) : Prog (Option Nat) := do
  let len ← inodeLength s
  scan s (fun _ e ↦ pure (if e.nameMatches name then some e.inodeSector else none))
    (List.range (entryCount len))

def writeEntry (s i : Nat) (e : DirEntry) : Prog Nat := writeAt s e.toBytes entrySize (i * entrySize)

def add (s : Nat) (name : List UInt8) (sector : Nat) : Prog Bool := do
  if (← lookup s name).isSome then pure false
  else if name.length > nameMax then pure false
  else do
    let len ← inodeLength s
    let reused ← scan s (fun i e ↦
      if e.inUse = 0 then do
        let _ ← writeEntry s i (makeEntry name sector)
        pure (some ())
      else pure none) (List.range (entryCount len))
    if reused.isSome then pure true
    else do
      let n ← writeEntry s (entryCount len) (makeEntry name sector)
      pure (n == entrySize)

def isEmpty (s : Nat) : Prog Bool := do
  let len ← inodeLength s
  let child ← scan s (fun _ e ↦ pure (if e.isChild then some () else none)) (List.range (entryCount len))
  pure child.isNone

def removeEntry (s i : Nat) (e : DirEntry) : Prog Bool := do
  let blocked ← (do
    if ← inodeIsDir e.inodeSector then do
      let empty ← isEmpty e.inodeSector
      pure (!empty)
    else pure false)
  if blocked then pure false
  else do
    inodeRemove e.inodeSector
    let _ ← writeEntry s i { e with inUse := 0 }
    pure true

def remove (s : Nat) (name : List UInt8) : Prog Bool := do
  let len ← inodeLength s
  let r ← scan s (fun i e ↦
    if e.nameMatches name then do
      let ok ← removeEntry s i e
      pure (some ok)
    else pure none) (List.range (entryCount len))
  pure (r.getD false)

/-- The loop of `readdir` and the position that it leaves. Every turn moves on by one entry. -/
def readdirLoop (s : Nat) (len : Int) : Nat → Nat → Prog (Option (List UInt8) × Nat)
  | 0, pos => pure (none, pos)
  | turns + 1, pos => do
    if (pos : Int) ≥ len then pure (none, pos)
    else do
      let buf ← readAt s entrySize pos
      if buf.length < entrySize then pure (none, pos + entrySize)
      else
        let e := DirEntry.ofBytes buf
        if e.inUse ≠ 0 then
          if isUtf8 e.text then
            if e.text ≠ [46] ∧ e.text ≠ [46, 46] then pure (some e.text, pos + entrySize)
            else readdirLoop s len turns (pos + entrySize)
          else pure (none, pos + entrySize)
        else readdirLoop s len turns (pos + entrySize)

def readdir (s pos : Nat) : Prog (Option (List UInt8) × Nat) := do
  let len ← inodeLength s
  readdirLoop s len (len.toNat + 1) pos

def dot (s : Nat) : DirEntry := ⟨s, 46 :: List.replicate 14 0, 1⟩

def dotdot (parent : Nat) : DirEntry := ⟨parent, 46 :: 46 :: List.replicate 13 0, 1⟩

def create (s parent : Nat) : Prog Bool := do
  if ← inodeCreate s (entrySize * 2) true then do
    let _ ← writeEntry s 0 (dot s)
    let _ ← writeEntry s 1 (dotdot parent)
    pure true
  else pure false

end Dir

end Rxv6.Filesys
