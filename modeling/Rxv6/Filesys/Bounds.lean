import Rxv6.Filesys.ShortWrite
import Rxv6.Filesys.Truncate

namespace Rxv6.Filesys

open Lib Lib.BlockTree Sector InodeDisk

/-- What the raw accesses and the additions of `inode.rs` can do wrong. -/
inductive Fault
  | outside
  | overflow
  deriving DecidableEq

/-- `read_at` and `write_at` with a check at each raw pointer access and each `i32` addition. -/
abbrev Checked (α : Type) := ExceptT Fault Prog α

namespace Checked

def pointer (buf : Sector) (i : Nat) : Checked Nat :=
  if i < 128 then pure (word buf i) else throw .outside

def setPointer (s i x : Nat) : Checked Unit :=
  if i < 128 then bwrite s fun buf ↦ setWord buf i x else throw .outside

def add (a b : Nat) : Checked Nat :=
  if a + b < 2147483648 then pure (a + b) else throw .overflow

def getBlockSectorDisk (d : InodeDisk) (b : Nat) : Checked (Option Nat) :=
  if b < 12 then pure (nonzero (word d b))
  else if b < 140 then
    if word d 12 = 0 then pure none
    else do
      let buf ← bread (word d 12)
      let x ← pointer buf (b - 12)
      pure (nonzero x)
  else if word d 13 = 0 then pure none
  else do
    let outer ← bread (word d 13)
    let z ← pointer outer ((b - 140) / 128)
    if z = 0 then pure none
    else do
      let inner ← bread z
      let x ← pointer inner ((b - 140) % 128)
      pure (nonzero x)

def innerBlockFor (outer j : Nat) : Checked (Option Nat) := do
  let buf ← bread outer
  let z ← pointer buf j
  if z = 0 then
    match ← allocate with
    | none => pure none
    | some z => do
      setPointer outer j z
      zeroSector z
      pure (some z)
  else pure (some z)

def allocateBlockFor (d : InodeDisk) (b : Nat) : Checked (Option Nat × InodeDisk) := do
  match ← allocate with
  | none => pure (none, d)
  | some x =>
    if b < 12 then pure (some x, setWord d b x)
    else if b < 140 then
      match ← indexBlockFor d 12 with
      | none => pure (none, d)
      | some d => do
        setPointer (word d 12) (b - 12) x
        pure (some x, d)
    else
      match ← indexBlockFor d 13 with
      | none => pure (none, d)
      | some d =>
        match ← innerBlockFor (word d 13) ((b - 140) / 128) with
        | none => pure (none, d)
        | some z => do
          setPointer z ((b - 140) % 128) x
          pure (some x, d)

def dataSectorFor (d : InodeDisk) (b : Nat) : Checked (Option Nat × InodeDisk) := do
  match ← getBlockSectorDisk d b with
  | some x => pure (some x, d)
  | none =>
    match ← allocateBlockFor d b with
    | (some x, d) => do
      zeroSector x
      pure (some x, d)
    | (none, d) => pure (none, d)

def writeLoop (buf : List UInt8) (size : Nat) :
    Nat → InodeDisk → Nat → Nat → Checked (InodeDisk × Nat)
  | 0, d, written, _ => pure (d, written)
  | turns + 1, d, written, off =>
    if written < size then do
      match ← dataSectorFor d (off / 512) with
      | (none, d) => pure (d, written)
      | (some x, d) => do
        let chunk := min (512 - off % 512) (size - written)
        bwrite x fun b ↦ splice b (off % 512) ((buf.drop written).take chunk)
        let written ← add written chunk
        let off ← add off chunk
        writeLoop buf size turns d written off
    else pure (d, written)

def writeAt (s : Nat) (buf : List UInt8) (size off : Nat) : Checked Nat := do
  let i ← getInode s
  if writeDenied i then pure 0
  else do
    let d ← readInodeDisk s
    let (d, written) ← writeLoop buf size size d 0 off
    let newEnd ← add off written
    writeInodeDisk s (extend d newEnd)
    setInode s (Option.map fun i ↦ { i with length := (extend d newEnd).length })
    pure written

def readChunk (d : InodeDisk) (b ofs n : Nat) : Checked (List UInt8) := do
  match ← getBlockSectorDisk d b with
  | some x => do
    let cached ← bread x
    pure (slice cached ofs n)
  | none => pure (List.replicate n 0)

/-- The loop of `read_at`, with the bytes that have been read. -/
def readLoop (d : InodeDisk) (len : Int) (size : Nat) : Nat → Nat → Nat → Checked (List UInt8)
  | 0, _, _ => pure []
  | turns + 1, bytesRead, off =>
    if bytesRead < size ∧ (off : Int) < len then do
      let chunk := min (512 - off % 512) (min (len - off).toNat (size - bytesRead))
      let bytes ← readChunk d (off / 512) (off % 512) chunk
      let bytesRead ← add bytesRead chunk
      let off ← add off chunk
      let rest ← readLoop d len size turns bytesRead off
      pure (bytes ++ rest)
    else pure []

def readAt (s size off : Nat) : Checked (List UInt8) := do
  let len ← inodeLength s
  if (off : Int) ≥ len then pure []
  else do
    let d ← readInodeDisk s
    readLoop d len size size 0 off

end Checked

/-- The checked program `p` meets no fault from `st` and does what `q` does. -/
def Does {α : Type} (p : Checked α) (q : Prog α) (st : State) : Prop :=
  run p.run st = (.ok (run q st).1, (run q st).2)

namespace Does

variable {α β : Type} {st : State} {p : Checked α} {q : Prog α} {f : α → Checked β} {g : α → Prog β}

theorem bind (h : Does p q st)
    (hf : Does (f (run q st).1) (g (run q st).1) (run q st).2) : Does (p >>= f) (q >>= g) st := by
  rw [Does, ExceptT.run_bind, run_bind, h, run_bind]
  exact hf

theorem lift (q : Prog α) (st : State) : Does (liftM q) q st := by
  change run (q >>= fun a ↦ Pure.pure (Except.ok a)) st = _
  rw [run_bind]
  rfl

theorem pure (a : α) (st : State) : Does (Pure.pure a) (Pure.pure a) st := rfl

theorem lift_bind
    (hf : Does (f (run q st).1) (g (run q st).1) (run q st).2) : Does (liftM q >>= f) (q >>= g) st :=
  (lift q st).bind hf

end Does

namespace Checked

variable {α : Type} {st : State} {d : InodeDisk} {buf : Sector} {a b i j s x : Nat}

theorem pointer_bind (hi : i < 128) (f : Nat → Checked α) : pointer buf i >>= f = f (word buf i) := by
  rw [pointer, if_pos hi]
  rfl

theorem setPointer_eq (hi : i < 128) : setPointer s i x = liftM (bwrite s fun buf ↦ setWord buf i x) :=
  if_pos hi

theorem add_bind (h : a + b < 2147483648) (f : Nat → Checked α) : add a b >>= f = f (a + b) := by
  rw [add, if_pos h]
  rfl

theorem does_getBlockSectorDisk (hb : b < 16524 ∨ word d 13 = 0) :
    Does (getBlockSectorDisk d b) (Filesys.getBlockSectorDisk d b) st := by
  unfold getBlockSectorDisk Filesys.getBlockSectorDisk
  split
  · exact .pure _ _
  · split
    · split
      · exact .pure _ _
      · refine .lift_bind ?_
        rw [pointer_bind (by omega)]
        exact .pure _ _
    · split
      · exact .pure _ _
      · next h13 =>
        refine .lift_bind ?_
        rw [pointer_bind (by omega)]
        split
        · exact .pure _ _
        · refine .lift_bind ?_
          rw [pointer_bind (by omega)]
          exact .pure _ _

theorem does_innerBlockFor (hj : j < 128) : Does (innerBlockFor x j) (Filesys.innerBlockFor x j) st := by
  refine .lift_bind ?_
  rw [pointer_bind hj]
  split
  · refine .lift_bind ?_
    cases (run allocate _).1 with
    | none => exact .pure _ _
    | some z =>
      simp only [setPointer_eq hj]
      exact .lift_bind (.lift_bind (.pure _ _))
  · exact .pure _ _

section

variable (hb : b < 16524 ∨ word d 13 = 0 ∧ st.free ≤ 1)
include hb

/-- The index of block `b` has no access outside a buffer if the block is in reach, or if there are not
enough sectors to come to the doubly indirect block. -/
theorem does_allocateBlockFor :
    Does (allocateBlockFor d b) (Filesys.allocateBlockFor d b) st := by
  refine .lift_bind ?_
  have htaken : Ends allocate (fun r st' ↦ r ≠ none → st.free = st'.free + 1) st :=
    wp_allocate_free (fun _ ↦ ⟨trivial, fun h ↦ absurd rfl h⟩) fun _ _ _ hfree ↦ ⟨trivial, fun _ ↦ hfree⟩
  have htaken := run_of_ends htaken
  rcases hr : run allocate st with ⟨r, st₁⟩
  rw [hr] at htaken
  cases r with
  | none => exact .pure _ _
  | some x =>
    have hfree : st.free = st₁.free + 1 := htaken (by simp)
    simp only
    split
    · exact .pure _ _
    · split
      · refine .lift_bind ?_
        cases (run _ st₁).1 with
        | none => exact .pure _ _
        | some d' =>
          simp only [setPointer_eq (show b - 12 < 128 by omega)]
          exact .lift_bind (.pure _ _)
      · refine .lift_bind ?_
        have hends : Ends (indexBlockFor d 13) _ st₁ := ends_indexBlockFor_free (by omega)
        have hindex := run_of_ends hends
        cases hr : (run _ st₁).1 with
        | none => exact .pure _ _
        | some d' =>
          have hb : b < 16524 := hb.resolve_right fun h ↦ by
            rw [hr] at hindex
            omega
          refine .bind (does_innerBlockFor (by omega)) ?_
          cases (run _ _).1 with
          | none => exact .pure _ _
          | some z =>
            simp only [setPointer_eq (show (b - 140) % 128 < 128 by omega)]
            exact .lift_bind (.pure _ _)

theorem does_dataSectorFor :
    Does (dataSectorFor d b) (Filesys.dataSectorFor d b) st := by
  refine .bind (does_getBlockSectorDisk (hb.imp_right And.left)) ?_
  have hsame : (run (Filesys.getBlockSectorDisk d b) st).2 = st :=
    run_of_ends (wp_getBlockSectorDisk (Q := fun _ st' ↦ st' = st) trivial rfl)
  rw [hsame]
  cases (run _ st).1 with
  | some x => exact .pure _ _
  | none =>
    refine .bind (does_allocateBlockFor hb) ?_
    rcases (run _ st).1 with ⟨r, d'⟩
    cases r with
    | none => exact .pure _ _
    | some x => exact .lift_bind (.pure _ _)

end

theorem does_writeLoop (buf : List UInt8) {size : Nat} (hsize : size < 2147483648) (turns : Nat) :
    ∀ st d w o, w ≤ size → LoopInside st d size w o →
      Does (writeLoop buf size turns d w o) (Filesys.writeLoop buf size turns d w o) st := by
  have hmax : maxLength = 16524 * 512 := rfl
  induction turns with
  | zero => exact fun st d w o _ _ ↦ .pure _ _
  | succ turns ih =>
    intro st d w o hw hin
    unfold writeLoop Filesys.writeLoop
    by_cases hlt : w < size
    · rw [if_pos hlt, if_pos hlt]
      have hblock : o / 512 < 16524 ∨ word d 13 = 0 ∧ st.free ≤ 1 := by
        rcases hin hlt with hin | hin | hin
        · exact .inl (by omega)
        · exact .inl (by omega)
        · exact .inr hin.2
      refine .bind (does_dataSectorFor hblock) ?_
      rcases hr : run (Filesys.dataSectorFor d (o / 512)) st with ⟨⟨r, d'⟩, st₁⟩
      cases r with
      | none => exact .pure _ _
      | some x =>
        obtain ⟨c, hc⟩ : ∃ c, min (512 - o % 512) (size - w) = c := ⟨_, rfl⟩
        obtain ⟨hoc, hnext⟩ := hin.next hlt hr hc (splice (st₁.disk x) (o % 512) ((buf.drop w).take c))
        refine .lift_bind ?_
        rw [hc, add_bind (by omega), add_bind (by omega)]
        exact ih _ _ _ _ (by omega) hnext
    · rw [if_neg hlt, if_neg hlt]
      exact .pure _ _

theorem does_readChunk {ofs n : Nat} (hb : b < 16524) :
    Does (readChunk d b ofs n) (Filesys.readChunk d b ofs n) st := by
  refine .bind (does_getBlockSectorDisk (.inl hb)) ?_
  cases (run _ st).1 with
  | none => exact .pure _ _
  | some x => exact .lift_bind (.pure _ _)

theorem does_readLoop {len : Int} {size : Nat} (hsize : size < 2147483648) (turns : Nat) :
    ∀ st r o, r ≤ size → (o + (size - r) ≤ maxLength ∨ len ≤ maxLength) →
      Does (readLoop d len size turns r o) (Filesys.readLoop d len turns (size - r) o) st := by
  have hmax : maxLength = 16524 * 512 := rfl
  induction turns with
  | zero => exact fun _ _ _ _ _ ↦ .pure _ _
  | succ turns ih =>
    intro st r o hr hin
    unfold readLoop Filesys.readLoop
    by_cases hgo : r < size ∧ o < len
    · rw [if_pos hgo, if_pos (by omega)]
      set chunk := min (512 - o % 512) _ with hchunk
      refine .bind (does_readChunk (by omega)) ?_
      rw [add_bind (by omega), add_bind (by omega)]
      refine .bind ?_ (.pure _ _)
      rw [show size - r - chunk = size - (r + chunk) by omega]
      exact ih _ _ _ (by omega) (by omega)
    · rw [if_neg hgo, if_neg (by omega)]
      exact .pure _ _

end Checked

/-- The checked program `p` leaves a sector buffer from `st`. -/
def Leaves {α : Type} (p : Checked α) (st : State) : Prop :=
  (run p.run st).1 = .error .outside

namespace Leaves

variable {α β : Type} {st : State} {p : Checked α} {q : Prog α} {f : α → Checked β}

theorem bind_left (h : Leaves p st) (f : α → Checked β) : Leaves (p >>= f) st := by
  rw [Leaves, ExceptT.run_bind, run_bind]
  rw [Leaves] at h
  rw [h]
  rfl

theorem bind_right (h : Does p q st) (hf : Leaves (f (run q st).1) (run q st).2) : Leaves (p >>= f) st := by
  rw [Leaves, ExceptT.run_bind, run_bind, h]
  exact hf

theorem lift_bind (hf : Leaves (f (run q st).1) (run q st).2) : Leaves (liftM q >>= f) st :=
  bind_right (.lift q st) hf

end Leaves

namespace Checked

variable {st : State} {d : InodeDisk} {b i j s x : Nat} {buf : Sector}

theorem leaves_pointer {α : Type} (hi : 128 ≤ i) (f : Nat → Checked α) : Leaves (pointer buf i >>= f) st := by
  refine .bind_left ?_ f
  rw [pointer, if_neg (by omega)]
  rfl

theorem leaves_getBlockSectorDisk (hb : 16524 ≤ b) (h13 : word d 13 ≠ 0) :
    Leaves (getBlockSectorDisk d b) st := by
  unfold getBlockSectorDisk
  rw [if_neg (by omega), if_neg (by omega), if_neg h13]
  exact .lift_bind (leaves_pointer (by omega) _)

/-- Beyond the reach of the index, `allocate_block_for` comes to the doubly indirect block if there are two
sectors for it and for the block. -/
theorem leaves_dataSectorFor (hb : 16524 ≤ b) (h : word d 13 ≠ 0 ∨ 2 ≤ st.free) :
    Leaves (dataSectorFor d b) st := by
  by_cases h13 : word d 13 = 0
  · have hfree : 2 ≤ st.free := h.resolve_left (not_not.mpr h13)
    have hget : run (Filesys.getBlockSectorDisk d b) st = (none, st) := by
      unfold Filesys.getBlockSectorDisk
      rw [if_neg (by omega), if_neg (by omega), if_pos h13]
      rfl
    refine .bind_right (does_getBlockSectorDisk (.inr h13)) ?_
    rw [hget]
    refine .bind_left ?_ _
    refine .lift_bind ?_
    have htaken : Ends allocate (fun r st' ↦ ∃ x, r = some x ∧ st.free = st'.free + 1) st :=
      wp_allocate_free (fun h0 ↦ by omega) fun x _ _ hfree ↦ ⟨trivial, x, rfl, hfree⟩
    obtain ⟨x, hx, hone⟩ := run_of_ends htaken
    rw [hx]
    simp only
    rw [if_neg (by omega), if_neg (by omega)]
    refine .lift_bind ?_
    have hends : Ends (indexBlockFor d 13) _ (run allocate st).2 := ends_indexBlockFor_free (by omega)
    have hindex := run_of_ends hends
    cases hr : (run (indexBlockFor d 13) (run allocate st).2).1 with
    | none =>
      rw [hr] at hindex
      omega
    | some d' =>
      have hj : 128 ≤ (b - 140) / 128 := by omega
      refine .bind_left ?_ _
      exact .lift_bind (leaves_pointer hj _)
  · exact .bind_left (leaves_getBlockSectorDisk hb h13) _

theorem leaves_writeLoop_beyond (buf : List UInt8) {size turns w o : Nat} (hw : w < size) (hturns : size ≤ w + turns)
    (ho : maxLength ≤ o) (h : word d 13 ≠ 0 ∨ 2 ≤ st.free) : Leaves (writeLoop buf size turns d w o) st := by
  have hmax : maxLength = 16524 * 512 := rfl
  obtain ⟨t, rfl⟩ : ∃ k, turns = k + 1 := ⟨turns - 1, by omega⟩
  unfold writeLoop
  rw [if_pos hw]
  exact .bind_left (leaves_dataSectorFor (by omega) h) _

/-- With sectors for all the blocks up to the end of the reach of the index, the loop comes to the block
after it. -/
theorem leaves_writeLoop (buf : List UInt8) {size : Nat} (hsize : size < 2147483648) (turns : Nat) :
    ∀ st d w o, Tree word fileShape st.disk d st.Used → w ≤ size → size ≤ w + turns → o < maxLength →
      maxLength < o + (size - w) → st.lacking d (o / 512) 16524 ≤ st.free →
      Leaves (writeLoop buf size turns d w o) st := by
  have hmax : maxLength = 16524 * 512 := rfl
  induction turns with
  | zero => exact fun st d w o _ _ _ _ _ _ ↦ by omega
  | succ turns ih =>
    intro st d w o htree hw hturns ho hbeyond hfree
    unfold writeLoop
    rw [if_pos (by omega)]
    refine .bind_right (does_dataSectorFor (.inl (by omega))) ?_
    rcases hr : run (Filesys.dataSectorFor d (o / 512)) st with ⟨⟨r, d'⟩, st₁⟩
    cases r with
    | none =>
      have hneed := free_of_refused hr
      have hle : st.need d (o / 512) ≤ _ := need_le_lacking (show o / 512 < 16524 by omega)
      omega
    | some x =>
      obtain ⟨c, hc⟩ : ∃ c, min (512 - o % 512) (size - w) = c := ⟨_, rfl⟩
      refine .lift_bind ?_
      rw [hc, add_bind (by omega), add_bind (by omega)]
      obtain ⟨htree', hne, hlack⟩ := turn_spec htree (by omega) hr
        (splice (st₁.disk x) (o % 512) ((buf.drop w).take c))
      have hblock : (o + c) / 512 = o / 512 + 1 := by omega
      by_cases hend : o + c < maxLength
      · refine ih _ _ _ _ htree' (by omega) (by omega) hend (by omega) ?_
        have hsplit := hlack 16524 le_rfl (by omega)
        have hgiven := free_of_given hr
        rw [hblock]
        exact show _ ≤ st₁.free from Nat.le_of_add_le_add_left (hsplit ▸ hgiven ▸ hfree |>.trans_eq (Nat.add_comm _ _))
      · refine leaves_writeLoop_beyond buf (by omega) (by omega) (by omega) (.inl ?_)
        refine path_ne_zero hne [13] ?_
        rw [path, if_neg (by omega), if_neg (by omega)]
        simp

end Checked

/-- `read_at` is empty, or its bytes or those of the file are within the reach of the index. -/
def ReadInside (st : State) (s size off : Nat) : Prop :=
  size = 0 ∨ off + size ≤ maxLength ∨ st.readLength s ≤ maxLength ∨ st.readLength s ≤ off

section Access

variable {st : State} {s size off : Nat} {buf : List UInt8}

theorem does_writeAt (hsize : size < 2147483648) (hoff : off < 2147483648)
    (htree : off < maxLength → maxLength < off + size → Tree word fileShape st.disk (st.disk s) st.Used)
    (hin : WriteInside st s size off) :
    Does (Checked.writeAt s buf size off) (writeAt s buf size off) st ∧
      ((run (writeAt s buf size off) st).1 = 0 ∨ off + (run (writeAt s buf size off) st).1 ≤ maxLength) := by
  have hmax : maxLength = 16524 * 512 := rfl
  cases hdeny : writeDenied (st.openInodes s) with
  | true =>
    have hq : run (writeAt s buf size off) st = (0, st) := by
      unfold writeAt
      rw [run_bind, run_getInode]
      simp only [hdeny]
      rfl
    refine ⟨?_, .inl (by rw [hq])⟩
    refine .lift_bind ?_
    rw [run_getInode]
    simp only [hdeny]
    exact .pure _ _
  | false =>
    have hloop := hin.loop hdeny htree
    have hdoes := Checked.does_writeLoop buf hsize size st (st.disk s) 0 off (Nat.zero_le _) hloop
    have hreach := run_writeLoop_inside buf size st (st.disk s) 0 off (Nat.zero_le _) hloop
    rcases hr : run (writeLoop buf size size (st.disk s) 0 off) st with ⟨⟨d, n⟩, st₁⟩
    rw [hr] at hreach
    refine ⟨?_, by rw [run_writeAt hdeny hr]; exact hreach⟩
    refine .lift_bind ?_
    rw [run_getInode]
    simp only [hdeny]
    refine .lift_bind ?_
    refine .bind hdoes ?_
    rw [show run (readInodeDisk s) st = (st.disk s, st) from rfl, hr]
    rw [Checked.add_bind (by rcases hreach with h | h <;> omega)]
    exact .lift_bind (.lift_bind (.pure _ _))

theorem leaves_writeAt (hsize : size < 2147483648)
    (htree : off < maxLength → maxLength < off + size → Tree word fileShape st.disk (st.disk s) st.Used)
    (hin : ¬ WriteInside st s size off) : Leaves (Checked.writeAt s buf size off) st := by
  simp only [WriteInside, not_or, not_and, Bool.not_eq_true] at hin
  obtain ⟨hdeny, hpos, hbeyond, hlack, hfar⟩ := hin
  refine .lift_bind ?_
  rw [run_getInode]
  simp only [hdeny]
  refine .lift_bind (.bind_left ?_ _)
  obtain hlt | hge := Nat.lt_or_ge off maxLength
  · exact Checked.leaves_writeLoop buf hsize size st (st.disk s) 0 off (htree hlt (by omega)) (Nat.zero_le _)
      (by omega) hlt (by omega) (not_lt.mp (hlack hlt))
  · refine Checked.leaves_writeLoop_beyond buf (by omega) (by omega) hge ?_
    by_cases h13 : word (st.disk s) 13 = 0
    · exact .inr (Nat.lt_of_not_le (hfar hge h13))
    · exact .inl h13

theorem does_readAt (hsize : size < 2147483648) (hin : ReadInside st s size off) :
    Does (Checked.readAt s size off) (readAt s size off) st := by
  refine .lift_bind ?_
  rw [run_inodeLength]
  split
  · exact .pure _ _
  · next hoff =>
    refine .lift_bind ?_
    rcases hin with rfl | hin | hin | hin
    · exact .pure _ _
    · exact Checked.does_readLoop hsize size st 0 off (Nat.zero_le _) (.inl hin)
    · exact Checked.does_readLoop hsize size st 0 off (Nat.zero_le _) (.inr hin)
    · exact absurd hin hoff

theorem bytesAt_inside : bytesAt st s size off = [] ∨ off + (bytesAt st s size off).length ≤ maxLength ↔
    ReadInside st s size off := by
  have hlength : (bytesAt st s size off).length = min size (st.readLength s - off).toNat := by
    rw [bytesAt, List.length_map, List.length_range]
  rw [← List.length_eq_zero_iff, hlength, ReadInside]
  omega

end Access

/-- An access meets no fault, is that of the model without checks and counts no byte beyond the reach of
the index, if and only if the write or the read is inside. The tree of the index matters only for a write
that crosses the end. -/
theorem access_stays_inside (st : State) (s : Nat) (buf : List UInt8) (size off : Nat)
    (hsize : size < 2147483648) (hoff : off < 2147483648)
    (htree : off < maxLength → maxLength < off + size → Tree word fileShape st.disk (st.disk s) st.Used) :
    ((∃ n st', run (Checked.writeAt s buf size off).run st = (.ok n, st') ∧
        run (writeAt s buf size off) st = (n, st') ∧ (n = 0 ∨ off + n ≤ maxLength)) ↔ WriteInside st s size off) ∧
    ((∃ bytes, run (Checked.readAt s size off).run st = (.ok bytes, st) ∧
        run (readAt s size off) st = (bytes, st) ∧ (bytes = [] ∨ off + bytes.length ≤ maxLength)) ↔
      ReadInside st s size off) := by
  refine ⟨⟨?_, fun hin ↦ ?_⟩, ⟨?_, fun hin ↦ ?_⟩⟩
  · rintro ⟨n, st', hok, -⟩
    by_contra hin
    have hleaves : Leaves (Checked.writeAt s buf size off) st := leaves_writeAt hsize htree hin
    rw [Leaves, hok] at hleaves
    cases hleaves
  · exact ⟨_, _, (does_writeAt hsize hoff htree hin).1, rfl, (does_writeAt hsize hoff htree hin).2⟩
  · rintro ⟨bytes, -, hbytes, hcount⟩
    rw [run_readAt_eq] at hbytes
    rw [← (Prod.mk.inj hbytes).1] at hcount
    exact bytesAt_inside.mp hcount
  · have hdoes := does_readAt hsize hin
    rw [Does, run_readAt_eq] at hdoes
    exact ⟨_, hdoes, run_readAt_eq size off, bytesAt_inside.mpr hin⟩

/-- The last byte within the reach of the index can be written and read when there is room for its
block and the two index blocks on the way to it. -/
theorem access_stays_inside_last :
    (∃ n st', run (Checked.writeAt 1 [7] 1 8460287).run roomy = (.ok n, st')) ∧
      ∃ bytes, run (Checked.readAt 1 1 8460287).run roomy = (.ok bytes, roomy) := by
  obtain ⟨hwrite, hread⟩ := access_stays_inside roomy 1 [7] 1 8460287 (by norm_num) (by norm_num)
    (fun _ h ↦ absurd h (by norm_num [maxLength]))
  obtain ⟨n, st', hn, -⟩ := hwrite.mpr (.inr (.inr (.inl (by norm_num [maxLength]))))
  obtain ⟨bytes, hb, -⟩ := hread.mpr (.inr (.inl (by norm_num [maxLength])))
  exact ⟨⟨n, st', hn⟩, bytes, hb⟩

/-- A byte at the start of block 16524: `allocate_block_for` takes a sector for the block and one for the
doubly indirect block and then reads entry 128 of the latter. -/
theorem write_at_leaves_buffer :
    (run (Checked.writeAt 1 [7] 1 8460288).run roomy).1 = .error .outside := by
  decide +kernel

namespace Checked

def each : List Nat → (Nat → Checked Unit) → Checked Unit
  | [], _ => pure ()
  | i :: l, f => do
    f i
    each l f

def releaseBlocks (d : InodeDisk) (len : Int) : Checked Unit := do
  each (List.range (bytesToSectors len)) fun b ↦ do
    match ← getBlockSectorDisk d b with
    | some x => release x
    | none => pure ()
  if word d 12 ≠ 0 then release (word d 12)
  if word d 13 ≠ 0 then do
    let buf ← bread (word d 13)
    each (List.range 128) fun j ↦ do
      let p ← pointer buf j
      if p ≠ 0 then release p else pure ()
    release (word d 13)

def truncate (s : Nat) : Checked Unit := do
  let len ← inodeLength s
  let d ← readInodeDisk s
  releaseBlocks d len
  let dir ← inodeIsDir s
  writeInodeDisk s (setIsDir newBoxed dir)
  setInode s (Option.map fun i ↦ { i with length := 0 })

variable {st : State} {d : InodeDisk} {s n : Nat}

theorem leaves_each {f : Nat → Checked Unit} {g : Nat → Prog Unit} (hf : ∀ b < n, ∀ st, Does (f b) (g b) st)
    (hn : ∀ st, Leaves (f n) st) (l : List Nat) :
    ∀ k st, k ≤ n → Leaves (each (List.range' k (n - k) ++ n :: l) f) st := by
  intro k st hk
  induction h : n - k generalizing k st with
  | zero => exact .bind_left (hn st) _
  | succ m ih =>
    rw [List.range'_succ]
    exact .bind_right (hf k (by omega) st) (ih (k + 1) _ (by omega) (by omega))

/-- `truncate` of a file that is longer than the index reaches and has a doubly indirect block. -/
theorem leaves_truncate (hlen : (maxLength : Int) < st.readLength s) (h13 : word (st.disk s) 13 ≠ 0) :
    Leaves (truncate s) st := by
  have hmax : maxLength = 16524 * 512 := rfl
  refine .lift_bind ?_
  rw [run_inodeLength]
  refine .lift_bind (.bind_left (.bind_left ?_ _) _)
  have hrange : List.range (bytesToSectors (st.readLength s)) =
      List.range' 0 (16524 - 0) ++ 16524 :: List.range' 16525 (bytesToSectors (st.readLength s) - 16525) := by
    have hcnt : 16524 < bytesToSectors (st.readLength s) := by
      rw [bytesToSectors, if_neg (by omega)]
      omega
    obtain ⟨r, hr⟩ := Nat.exists_eq_add_of_lt hcnt
    rw [hr, show 16524 + r + 1 - 16525 = r by omega, show 16524 :: List.range' 16525 r = List.range' 16524 (r + 1) from rfl,
      List.range_eq_range', List.range'_append_1]
    rfl
  rw [hrange]
  refine leaves_each (g := fun b ↦ do
    match ← Filesys.getBlockSectorDisk (st.disk s) b with
    | some x => release x
    | none => pure ()) (fun b hb st' ↦ ?_) (fun st' ↦ ?_) _ 0 st (by omega)
  · refine .bind (does_getBlockSectorDisk (.inl hb)) ?_
    cases (run _ st').1 with
    | none => exact .pure _ _
    | some x => exact .lift _ _
  · exact .bind_left (leaves_getBlockSectorDisk le_rfl h13) _

end Checked

/-- A new file with a byte in block 140, and so with a doubly indirect block. -/
def deep : State := (run (writeAt 1 [7] 1 71680) (roomy.opened 1)).2

/-- A write of no bytes at 8460800 makes the file longer than its index reaches, and `truncate` then reads
entry 128 of the doubly indirect block. -/
theorem truncate_leaves_buffer :
    Ready (roomy.opened 1) {1} ∧ run (Checked.writeAt 1 [7] 1 71680).run (roomy.opened 1) = (.ok 1, deep) ∧
      run (Checked.writeAt 1 [] 0 8460800).run deep = (.ok 0, (run (writeAt 1 [] 0 8460800) deep).2) ∧
      (run (Checked.truncate 1).run (run (writeAt 1 [] 0 8460800) deep).2).1 = .error .outside := by
  have hone : (run (writeAt 1 [7] 1 71680) (roomy.opened 1)).1 = 1 := by decide +kernel
  have hzero : (run (writeAt 1 [] 0 8460800) deep).1 = 0 := by decide +kernel
  refine ⟨ready_opened rfl (show roomy.freeMap.test 1 = true by decide) rfl, ?_, ?_, ?_⟩
  · have hdoes : Does (Checked.writeAt 1 [7] 1 71680) _ (roomy.opened 1) := (does_writeAt (by norm_num) (by norm_num) (fun _ h ↦ absurd h (by norm_num [maxLength])) (.inr (.inr (.inl (by norm_num [maxLength]))))).1
    rw [Does, hone] at hdoes
    exact hdoes
  · have hdoes : Does (Checked.writeAt 1 [] 0 8460800) _ deep := (does_writeAt (by norm_num) (by norm_num) (fun h ↦ absurd h (by norm_num [maxLength])) (.inr (.inl rfl))).1
    rw [Does, hzero] at hdoes
    exact hdoes
  · exact Checked.leaves_truncate (by decide +kernel) (by decide +kernel)

end Rxv6.Filesys
