import Rxv6.Lib.Program
import Rxv6.Lib.Bitmap
import Rxv6.Filesys.Sector

namespace Rxv6.Filesys

open Lib Function

/-- The bit vector of `free_map.rs`, one bit for each of the `SECTOR_COUNT` sectors. The
number of sectors is a `u32`. -/
structure FreeMap where
  bits : List Bool
  fits : bits.length < 4294967296

namespace FreeMap

def test (m : FreeMap) (s : Nat) : Bool := Bitmap.test m.bits s

def set (m : FreeMap) (s : Nat) (v : Bool) : FreeMap :=
  ⟨m.bits.set s v, by rw [List.length_set]; exact m.fits⟩

/-- `free_map::allocate(1)`: first fit above the two fixed inode sectors. -/
def allocate (m : FreeMap) : Option Nat × FreeMap :=
  match Bitmap.firstClear m.bits 2 with
  | none => (none, m)
  | some s => (some s, m.set s true)

/-- `free_map::release(s, 1)`. -/
def release (m : FreeMap) (s : Nat) : FreeMap := m.set s false

variable {m : FreeMap} {s x : Nat} {v : Bool}

theorem lt_of_test (h : m.test s = true) : s < m.bits.length := Bitmap.lt_length_of_test h

theorem test_set (hs : s < m.bits.length) :
    (m.set s v).test x = if x = s then v else m.test x := by
  split
  · next h =>
    subst h
    exact Bitmap.test_set_self hs
  · next h => exact Bitmap.test_set_ne (Ne.symm h)

end FreeMap

/-- An in-memory inode. Its `sector` is the key of the table of open inodes. -/
structure Inode where
  openCnt : Int
  removed : Bool
  denyWriteCnt : Int
  length : Int
  isDir : Bool
  isSymlink : Bool

/-- The buffer cache is write-through and shared by all threads, so the bytes of a sector
are those of its buffer. -/
structure State where
  disk : Nat → Sector
  freeMap : FreeMap
  openInodes : Nat → Option Inode

/-- The atomic operations of the file system. `bwrite s f` stands for `bread` of the sector,
the change `f` of its buffer and `bwrite`: nothing runs between the change and the write. -/
inductive Op
  | bread (s : Nat)
  | bwrite (s : Nat) (f : Sector → Sector)
  | allocate
  | release (s : Nat)
  | freeMap
  | setFreeMap (m : FreeMap)
  | inode (s : Nat)
  | setInode (s : Nat) (f : Option Inode → Option Inode)

abbrev Op.Res : Op → Type
  | bread _ => Sector
  | bwrite _ _ => Unit
  | allocate => Option Nat
  | release _ => Unit
  | freeMap => FreeMap
  | setFreeMap _ => Unit
  | inode _ => Option Inode
  | setInode _ _ => Unit

namespace State

def write (st : State) (s : Nat) (v : Sector) : State := { st with disk := update st.disk s v }

def withMap (st : State) (m : FreeMap) : State := { st with freeMap := m }

def withInode (st : State) (s : Nat) (o : Option Inode) : State :=
  { st with openInodes := update st.openInodes s o }

def Used (st : State) (s : Nat) : Prop := st.freeMap.test s = true

variable {st : State} {s x : Nat} {v : Sector} {m : FreeMap} {o : Option Inode}

@[simp] theorem write_disk : (st.write s v).disk = update st.disk s v := rfl

@[simp] theorem write_openInodes : (st.write s v).openInodes = st.openInodes := rfl

@[simp] theorem withMap_freeMap : (st.withMap m).freeMap = m := rfl

@[simp] theorem withInode_disk : (st.withInode s o).disk = st.disk := rfl

@[simp] theorem withInode_openInodes :
    (st.withInode s o).openInodes = update st.openInodes s o := rfl

end State

def sem : (op : Op) → State → op.Res × State
  | .bread s, st => (st.disk s, st)
  | .bwrite s f, st => ((), st.write s (f (st.disk s)))
  | .allocate, st => (st.freeMap.allocate.1, st.withMap st.freeMap.allocate.2)
  | .release s, st => ((), st.withMap (st.freeMap.release s))
  | .freeMap, st => (st.freeMap, st)
  | .setFreeMap m, st => ((), st.withMap m)
  | .inode s, st => (st.openInodes s, st)
  | .setInode s f, st => ((), st.withInode s (f (st.openInodes s)))

abbrev Prog := Program.Prog Op.Res

def perform (op : Op) : Prog op.Res := Program.Prog.perform op

def bread (s : Nat) : Prog Sector := perform (.bread s)

def bwrite (s : Nat) (f : Sector → Sector) : Prog Unit := perform (.bwrite s f)

def allocate : Prog (Option Nat) := perform .allocate

def release (s : Nat) : Prog Unit := perform (.release s)

def getFreeMap : Prog FreeMap := perform .freeMap

def setFreeMap (m : FreeMap) : Prog Unit := perform (.setFreeMap m)

def getInode (s : Nat) : Prog (Option Inode) := perform (.inode s)

def setInode (s : Nat) (f : Option Inode → Option Inode) : Prog Unit := perform (.setInode s f)

def run {α : Type} (p : Prog α) (st : State) : α × State := Program.Prog.run sem p st

@[simp] theorem run_ret {α : Type} (a : α) (st : State) : run (Program.Prog.ret a) st = (a, st) := rfl

@[simp] theorem run_pure {α : Type} (a : α) (st : State) : run (pure a) st = (a, st) := rfl

@[simp] theorem run_bind {α β : Type} (p : Prog α) (f : α → Prog β) (st : State) :
    run (p >>= f) st = run (f (run p st).1) (run p st).2 :=
  Program.Prog.run_bind p f

theorem run_getInode (s : Nat) (st : State) : run (getInode s) st = (st.openInodes s, st) := rfl

def wp {α : Type} (G : Op → State → Prop) (J : State → Prop) (p : Prog α)
    (Q : α → State → Prop) (st : State) : Prop := Program.Prog.wp sem G J p Q st

section Rules

variable {α β : Type} {st : State} {G : Op → State → Prop} {J : State → Prop} {s : Nat} {p : Prog α}
  {Q : Unit → State → Prop} {f : α → Prog β}

@[simp] theorem wp_bind {Q : β → State → Prop} :
    wp G J (p >>= f) Q st ↔ wp G J p (fun a t ↦ wp G J (f a) Q t) st :=
  Program.Prog.wp_bind

theorem wp_mono {Q Q' : α → State → Prop} (h : wp G J p Q st)
    (hQ : ∀ a t, Q a t → Q' a t) : wp G J p Q' st :=
  Program.Prog.wp_mono h hQ

theorem wp_seq {Q : α → State → Prop} {R : β → State → Prop}
    (h : wp G J p Q st) (hf : ∀ a t, Q a t → wp G J (f a) R t) : wp G J (p >>= f) R st :=
  wp_bind.mpr (wp_mono h hf)

theorem wp_perform {op : Op} {Q : op.Res → State → Prop}
    (h : G op st → J (sem op st).2 ∧ Q (sem op st).1 (sem op st).2) :
    wp G J (perform op) Q st := h

theorem wp_bread {Q : Sector → State → Prop} (hJ : J st) (hQ : Q (st.disk s) st) :
    wp G J (bread s) Q st := wp_perform fun _ ↦ ⟨hJ, hQ⟩

theorem wp_getInode {Q : Option Inode → State → Prop} (hJ : J st)
    (hQ : Q (st.openInodes s) st) : wp G J (getInode s) Q st :=
  wp_perform fun _ ↦ ⟨hJ, hQ⟩

theorem wp_bwrite {f : Sector → Sector}
    (hJ : G (.bwrite s f) st → J (st.write s (f (st.disk s))))
    (hQ : G (.bwrite s f) st → Q () (st.write s (f (st.disk s)))) :
    wp G J (bwrite s f) Q st := wp_perform fun hG ↦ ⟨hJ hG, hQ hG⟩

theorem wp_setInode {f : Option Inode → Option Inode}
    (hJ : J (st.withInode s (f (st.openInodes s))))
    (hQ : Q () (st.withInode s (f (st.openInodes s)))) :
    wp G J (setInode s f) Q st := wp_perform fun _ ↦ ⟨hJ, hQ⟩

/-- What `allocate` does when it hands out the sector `x`. -/
structure Taken (st st' : State) (x : Nat) : Prop where
  free : ¬ st.Used x
  used : ∀ z, st'.Used z ↔ z = x ∨ st.Used z
  ge : 2 ≤ x
  lt : x < 4294967296
  disk : st'.disk = st.disk
  openInodes : st'.openInodes = st.openInodes

theorem taken_of_allocate {x : Nat} (h : st.freeMap.allocate.1 = some x) :
    Taken st (st.withMap st.freeMap.allocate.2) x := by
  unfold FreeMap.allocate at h ⊢
  cases hf : Bitmap.firstClear st.freeMap.bits 2 with
  | none => simp [hf] at h
  | some y =>
    obtain rfl : y = x := by simpa [hf] using h
    obtain ⟨hlt, hge, hclear⟩ := Bitmap.firstClear_some hf
    refine ⟨by simp [State.Used, FreeMap.test, hclear], fun z ↦ ?_, hge,
      lt_trans hlt st.freeMap.fits, rfl, rfl⟩
    simp only [State.Used, State.withMap_freeMap, FreeMap.test_set hlt]
    split <;> simp_all

theorem allocate_none (h : st.freeMap.allocate.1 = none) :
    st.withMap st.freeMap.allocate.2 = st := by
  unfold FreeMap.allocate at h ⊢
  cases hf : Bitmap.firstClear st.freeMap.bits 2 with
  | none => rfl
  | some y => simp [hf] at h

theorem wp_allocate {Q : Option Nat → State → Prop}
    (hnone : J st ∧ Q none st)
    (hsome : ∀ x st', Taken st st' x → G .allocate st → J st' ∧ Q (some x) st') :
    wp G J allocate Q st := by
  refine wp_perform fun hG ↦ ?_
  change J (st.withMap st.freeMap.allocate.2) ∧ Q st.freeMap.allocate.1 (st.withMap st.freeMap.allocate.2)
  cases h : st.freeMap.allocate.1 with
  | none =>
    rw [allocate_none h]
    exact hnone
  | some x => exact hsome x _ (taken_of_allocate h) hG

end Rules

end Rxv6.Filesys
