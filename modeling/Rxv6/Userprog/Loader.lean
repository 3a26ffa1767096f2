import Rxv6.Userprog.Process

namespace Rxv6.Userprog.Loader

open Rxv6.Vm Rxv6.Userprog.Process List Option

/-- A sum in `u32` or `usize`. `none`: it overflows, which is a panic. -/
def checked (n : Nat) : Option Nat := if n < 2 ^ 32 then some n else none

def u8At (d : List UInt8) (i : Nat) : Nat := (d.getD i 0).toNat

def u16At (d : List UInt8) (i : Nat) : Nat := u8At d i + 256 * u8At d (i + 1)

def u32At (d : List UInt8) (i : Nat) : Nat := u16At d i + 65536 * u16At d (i + 2)

structure Elf32Ehdr where
  ident : List UInt8
  type : Nat
  machine : Nat
  entry : Nat
  phoff : Nat
  phentsize : Nat
  phnum : Nat

def ehdrSize : Nat := 52

def Elf32Ehdr.ofBytes (b : List UInt8) : Elf32Ehdr :=
  ⟨b.take 16, u16At b 16, u16At b 18, u32At b 24, u32At b 28, u16At b 42, u16At b 44⟩

def Elf32Ehdr.valid (h : Elf32Ehdr) : Bool :=
  h.ident.take 4 = [0x7f, 69, 76, 70] && h.ident.getD 4 0 = 1 && h.ident.getD 5 0 = 1 &&
    h.type = 2 && h.machine = 3

structure Elf32Phdr where
  type : Nat
  offset : Nat
  vaddr : Nat
  filesz : Nat
  memsz : Nat
  flags : Nat

def phdrSize : Nat := 32

def Elf32Phdr.ofBytes (b : List UInt8) : Elf32Phdr :=
  ⟨u32At b 0, u32At b 4, u32At b 8, u32At b 16, u32At b 20, u32At b 24⟩

/-- `copy_nonoverlapping` of a header. `none`: the range is not inside the data. -/
def copyBytes (d : List UInt8) (off size : Nat) : Option (List UInt8) :=
  if off + size ≤ d.length then some ((d.drop off).take size) else none

structure SegInfo where
  vaddr : Nat
  filesz : Nat
  memsz : Nat
  fileOff : Nat
  writable : Bool
  deriving DecidableEq

def SegInfo.ofPhdr (p : Elf32Phdr) : SegInfo :=
  ⟨p.vaddr, p.filesz, p.memsz, p.offset, p.flags.testBit 1⟩

/-- The loop over the program headers, with `n` of them to go: `success` and the segments. -/
def readSegments (d : List UInt8) (h : Elf32Ehdr) : Nat → Nat → List SegInfo → Option (Bool × List SegInfo)
  | 0, _, segs => some (true, segs)
  | n + 1, i, segs => do
    let step ← checked (i * h.phentsize)
    let off ← checked (h.phoff + step)
    let stop ← checked (off + phdrSize)
    if d.length < stop then some (false, segs)
    else
      let b ← copyBytes d off phdrSize
      let p := Elf32Phdr.ofBytes b
      if p.type ≠ 1 then readSegments d h n (i + 1) segs
      else if physBase ≤ p.vaddr then some (false, segs)
      else if p.memsz < p.filesz then some (false, segs)
      else readSegments d h n (i + 1) (segs ++ [SegInfo.ofPhdr p])

structure Range where
  loadBaseVaddr : Nat
  loadBaseFoff : Nat
  loadEndVaddr : Nat
  loadEndFile : Nat
  deriving DecidableEq

def maxEnd (size : SegInfo → Nat) (segs : List SegInfo) : Option Nat := do
  let ends ← segs.mapM fun s ↦ checked (s.vaddr + size s)
  ends.max?

def range (segs : List SegInfo) : Option Range := do
  let base ← (segs.map (·.vaddr)).min?
  let first ← segs.find? (·.vaddr = base)
  let endVaddr ← maxEnd (·.memsz) segs
  let endFile ← maxEnd (·.filesz) segs
  pure ⟨base, first.fileOff, endVaddr, endFile⟩

namespace Range

variable (r : Range) (segs : List SegInfo) (sector : Nat)

def fileStartInPage (n : Nat) : Nat := max (n * pgsize) r.loadBaseVaddr

def fileEndInPage (n : Nat) : Nat := min ((n + 1) * pgsize) r.loadEndFile

/-- The sums that the entry of page `n` takes do not overflow. -/
def fits (n : Nat) : Bool :=
  (n + 1) * pgsize < 2 ^ 32 && (r.fileEndInPage n ≤ r.fileStartInPage n ||
    r.loadBaseFoff + (r.fileStartInPage n - r.loadBaseVaddr) < 2 ^ 32)

def pageEntry (n : Nat) : SptEntry :=
  let (readBytes, pageOfs, fileOffset) :=
    if r.fileStartInPage n < r.fileEndInPage n then
      (r.fileEndInPage n - r.fileStartInPage n, r.fileStartInPage n - n * pgsize,
        r.loadBaseFoff + (r.fileStartInPage n - r.loadBaseVaddr))
    else (0, 0, 0)
  { vaddr := n * pgsize
    location := if 0 < readBytes then .onDisk else .zero
    pageType := .binary
    writable := segs.any fun s ↦
      s.vaddr < (n + 1) * pgsize && n * pgsize < s.vaddr + s.memsz && s.writable
    inodeSector := sector
    fileOffset := fileOffset
    readBytes := readBytes
    pageOfs := pageOfs }

theorem pageEntry_aligned (n : Nat) :
    pgRoundDown (r.pageEntry segs sector n).vaddr = (r.pageEntry segs sector n).vaddr :=
  pgRoundDown_mul n

def addPage (n : Nat) (t : Spt) : Spt :=
  if t.find (n * pgsize) = none then
    t.insert (r.pageEntry segs sector n) (r.pageEntry_aligned segs sector n)
  else t

def pageLoop (n : Nat) (t : Spt) : Option Spt :=
  if n * pgsize < r.loadEndVaddr then
    if r.fits n then pageLoop (n + 1) (r.addPage segs sector n t) else none
  else some t
termination_by r.loadEndVaddr - n * pgsize
decreasing_by
  have : (n + 1) * pgsize = n * pgsize + 4096 := Nat.succ_mul n pgsize
  omega

end Range

/-- What a successful load leaves. `brk` is `none` when it is not set. -/
structure Loaded where
  entry : Nat
  esp : Nat
  spt : Spt
  brk : Option Nat

def newBrk (segs : List SegInfo) : Option Nat := do
  let stop ← maxEnd (·.memsz) segs
  let sum ← checked (stop + pgsize)
  pure (pgRoundDown (sum - 1))

/-- What the kernel heap has room for when a program is loaded: the table, `segments` segments in the vector
and, beside a vector of `n` segments, `entries n` entries of the table. An allocation that fails is a panic. -/
structure Room where
  table : Bool
  segments : Nat
  entries : Nat → Nat

/-- The entries of `t` have been allocated. Nothing is freed before, so that one check stands for those of
the single insertions. -/
def Room.hold (room : Room) (segs : List SegInfo) (t : Spt) : Option Spt :=
  if t.entries.length ≤ room.entries segs.length then some t else none

/-- `load_demand_paged` after the program headers. `setup` is what `setup_stack` returns. -/
def finish (room : Room) (segs : List SegInfo) (sector entry : Nat) (setup : Option Nat) :
    Option (Option Loaded) := do
  let t ← if segs = [] then some Spt.new else do
    let r ← range segs
    r.pageLoop segs sector (r.loadBaseVaddr / pgsize) Spt.new
  let t ← room.hold segs t
  match setup with
  | none => some none
  | some esp =>
    let t ← room.hold segs (t.insert stackEntry stackPage_aligned)
    let brk ← if segs = [] then some none else (newBrk segs).map some
    some (some ⟨entry, esp, t, brk⟩)

/-- `load_demand_paged`. `created`: `pagedir::create` has a page. The outer `none` is a panic or a
copy from outside the data. -/
def loadDemandPaged (room : Room) (d : List UInt8) (sector : Nat) (created : Bool) (setup : Option Nat) :
    Option (Option Loaded) :=
  if d.length < ehdrSize then some none
  else do
    let b ← copyBytes d 0 ehdrSize
    let h := Elf32Ehdr.ofBytes b
    if h.valid = false then some none
    else if created = false then some none
    else if room.table = false then none
    else
      let r ← readSegments d h h.phnum 0 []
      if room.segments < r.2.length then none
      else if r.1 = false then some none
      else finish room r.2 sector h.entry setup

open Nat

section Headers

variable {d : List UInt8} {h : Elf32Ehdr} {segs : List SegInfo} {n i : Nat}

variable {a : Nat}

end Headers

section Segments

variable {segs : List SegInfo} {size : SegInfo → Nat} {r : Range} {m : Nat}

structure Covers (r : Range) (segs : List SegInfo) : Prop where
  small : ∀ s ∈ segs, s.vaddr + s.memsz < 2 ^ 32
  base : ∀ s ∈ segs, r.loadBaseVaddr ≤ s.vaddr
  first : ∃ s ∈ segs, s.vaddr = r.loadBaseVaddr ∧ s.fileOff = r.loadBaseFoff
  endVaddr : ∀ s ∈ segs, s.vaddr + s.memsz ≤ r.loadEndVaddr
  endFile : ∀ s ∈ segs, s.vaddr + s.filesz ≤ r.loadEndFile
  lastVaddr : ∃ s ∈ segs, s.vaddr + s.memsz = r.loadEndVaddr
  lastFile : ∃ s ∈ segs, s.vaddr + s.filesz = r.loadEndFile

end Segments

namespace Range

variable {r : Range} {segs : List SegInfo} {sector n va : Nat} {t t' : Spt}

end Range

/-- What a load has to leave: pages below the stack page, entries that stay in their page and in the
range of `i32` offsets, and a break that is not above the stack page. -/
structure Fits (l : Loaded) : Prop where
  page : ∀ e ∈ l.spt.entries, e = stackEntry ∨ e.vaddr < stackPage
  offset : ∀ e ∈ l.spt.entries, e.fileOffset < 2 ^ 31
  inside : ∀ e ∈ l.spt.entries, e.pageOfs + e.readBytes ≤ pgsize
  brk : ∀ b, l.brk = some b → b ≤ stackPage

/-- The segments end at the stack page or below, and the file offset of the last page with file data
is an `i32`. -/
structure SegmentsFit (segs : List SegInfo) : Prop where
  below : ∀ s ∈ segs, s.vaddr + s.memsz ≤ stackPage
  offset : ∀ r, range segs = some r → r.loadBaseVaddr < r.loadEndFile →
    r.loadBaseFoff + ((r.loadEndFile - 1) / pgsize * pgsize - r.loadBaseVaddr) < 2 ^ 31

open Range

section Finish

variable {segs : List SegInfo} {r : Range} {sector n : Nat}

variable {k entry esp : Nat} {t : Spt} {e : SptEntry}

/-- How many pages the loop over the range of the segments comes to. -/
def pages (segs : List SegInfo) : Nat :=
  match range segs with
  | none => 0
  | some r => (r.loadEndVaddr + pgsize - 1) / pgsize - r.loadBaseVaddr / pgsize

section

variable (hne : segs ≠ []) (hr : range segs = some r)
  (ht : r.pageLoop segs sector (r.loadBaseVaddr / pgsize) Spt.new = some t) {room : Room}
  (hroom : t.entries.length + 1 ≤ room.entries segs.length)
include hne hr ht hroom

end

variable {room : Room}

theorem pages_nil : pages [] = 0 := rfl

end Finish

def header (d : List UInt8) : Elf32Ehdr := Elf32Ehdr.ofBytes (d.take ehdrSize)

/-- The files that are loaded without harm: the first program header, if there is one, ends below
4 GiB, the kernel heap has room for the segments, and when all headers are good, the segments fit and the heap
has room for an entry for each page and for that of the stack. -/
structure Harmless (room : Room) (d : List UInt8) : Prop where
  table : room.table = true
  first : (header d).phnum = 0 ∨ (header d).phoff + phdrSize < 2 ^ 32
  vector : ∀ r, readSegments d (header d) (header d).phnum 0 [] = some r → r.2.length ≤ room.segments
  segments : ∀ segs, readSegments d (header d) (header d).phnum 0 [] = some (true, segs) →
    SegmentsFit segs ∧ pages segs + 1 ≤ room.entries segs.length

variable {room : Room} {d : List UInt8} {sector : Nat} {created : Bool}

end Rxv6.Userprog.Loader
