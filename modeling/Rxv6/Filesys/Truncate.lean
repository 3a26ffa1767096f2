import Rxv6.Filesys.Unlink

namespace Rxv6.Filesys

open Lib Lib.BlockTree Lib.Runs Function Sector InodeDisk

variable {st st' : State} {I : Set Nat} {s off n size : Nat} {buf : List UInt8} {d : InodeDisk} {len : Int}

def Below (len : Int) (top : Nat) (st : State) (d : InodeDisk) : Prop :=
  ∀ b < 16524, addr word st.disk d (blockPos b) ≠ 0 → ((b * 512 : Nat) : Int) < len ∨ b * 512 < top

open State

/-- A turn of the loop adds at most the block that it writes to, and that only if it writes to it. -/
theorem ends_writeLoop_below (hmax : off + size ≤ 16524 * 512) : ∀ turns st d n,
    Tree word fileShape st.disk d st.Used → n ≤ size → Below len (off + n) st d →
      Ends (writeLoop buf size turns d n (off + n))
        (fun r st' ↦ r.2 ≤ buf.length → Below len (off + r.2) st' r.1) st := by
  intro turns
  induction turns with
  | zero => exact fun st d n _ _ hbelow _ ↦ hbelow
  | succ turns ih =>
    intro st d n htree hn hbelow
    unfold writeLoop
    split
    · next hlt =>
      have hb : (off + n) / 512 < 16524 := by omega
      have hstart : Writing st d (buf.drop n) (off + n) st d 0 none := Writing.start htree
      have hsector : Ends (dataSectorFor d ((off + n + 0) / 512)) _ st :=
        ends_dataSectorFor hstart (.inl rfl) hb
      refine wp_seq hsector fun r st₁ hr ↦ ?_
      obtain ⟨o, d'⟩ := r
      cases o with
      | none =>
        intro _ b hb' h0
        by_cases hsame : addr word st₁.disk d' (blockPos b) = addr word st.disk d (blockPos b)
        · exact hbelow b hb' (hsame ▸ h0)
        · have hrange := (hr.1.reached b hb' hsame).resolve_left (by simp)
          obtain rfl : b = (off + n + 0) / 512 := by omega
          exact absurd hr.2 h0
      | some x =>
        obtain ⟨hw, hx, hx0⟩ := hr
        refine ends_bwrite ?_
        by_cases hfit : n + min (512 - (off + n) % 512) (size - n) ≤ buf.length
        · have hnext := hw.chunk hb hx hx0 (min_le_left _ (size - n)) (by
            rw [List.length_drop, add_zero]
            omega)
          have hgo := ih _ d' _ hnext.tree (by omega : n + min (512 - (off + n) % 512) (size - n) ≤ size) ?_
          · rwa [← add_assoc] at hgo
          · intro b hb' h0
            rw [write_disk,
              addr_update (isPos_blockPos hb') _ (hw.not_index hb hx hx0)] at h0
            by_cases hsame : addr word st₁.disk d' (blockPos b) = addr word st.disk d (blockPos b)
            · rcases hbelow b hb' (hsame ▸ h0) with h | h
              · exact .inl h
              · exact .inr (by omega)
            · have hrange := (hw.reached b hb' hsame).resolve_left (by simp)
              exact .inr (by omega)
        · refine wp_mono (ends_writeLoop_le _ _ _ _ _ (by omega)) fun r st₂ hr hlen ↦ ?_
          exact absurd (hr.1.trans hlen) hfit
    · exact fun _ ↦ hbelow

theorem lt_bytesToSectors {b : Nat} : b < bytesToSectors len ↔ ((b * 512 : Nat) : Int) < len := by
  unfold bytesToSectors
  split <;> omega

structure File where
  length : Int
  bytes : Nat → UInt8

namespace File

def empty : File := ⟨0, fun _ ↦ 0⟩

def read (f : File) (size off : Nat) : List UInt8 :=
  (List.range (min size (f.length - off).toNat)).map fun k ↦ f.bytes (off + k)

def write (f : File) (buf : List UInt8) (off n : Nat) : File :=
  ⟨max f.length ((off + n : Nat) : Int), overwrite f.bytes buf off n⟩

end File

def State.file (st : State) (i : Nat) : File := ⟨st.fileLength i, fileByte st.disk (st.disk i)⟩

structure Ready (st : State) (I : Set Nat) : Prop where
  wf : WellFormed st I
  trim : ∀ i ∈ I, Trim st i
  memory : ∀ i ∈ I, ∀ k, st.openInodes i = some k →
    k.length = st.fileLength i ∧ k.isDir = InodeDisk.isDir (st.disk i)

theorem Ready.run_readAt (hr : Ready st I) (hs : s ∈ I) (size off : Nat) :
    run (readAt s size off) st = ((st.file s).read size off, st) := by
  have hlen : st.readLength s = st.fileLength s := by
    unfold readLength
    split
    · next k hk => exact (hr.memory s hs k hk).1
    · rfl
  rw [run_readAt_eq, bytesAt, hlen]
  rfl

theorem Ready.written {st₁ : State} (hr : Ready st I) (hs : s ∈ I) (hw : Written st s buf off n st₁ d st')
    (hmax : off + n ≤ 16524 * 512) (hbelow : Below (st.fileLength s) (off + n) st₁ d) : Ready st' I := by
  have hlength := hw.length_self (by omega)
  refine ⟨hw.wellFormed hr.wf hs (by omega), fun i hi ↦ ?_, fun i hi k hk ↦ ?_⟩
  · by_cases hne : i = s
    · subst hne
      have hreach := (hr.trim i hi).reach
      refine ⟨?_, fun b hb h0 ↦ ?_⟩
      · unfold maxLength at *
        omega
      · rw [hw.addr_self hr.wf hi (isPos_blockPos hb)] at h0
        rw [lt_bytesToSectors]
        have := hbelow b hb h0
        omega
    · refine ⟨?_, fun b hb h0 ↦ ?_⟩
      · rw [fileLength, hw.disk_other hr.wf hs hi hne]
        exact (hr.trim i hi).reach
      · rw [hw.addr_other hr.wf hs hi hne (isPos_blockPos hb)] at h0
        rw [fileLength, hw.disk_other hr.wf hs hi hne]
        exact (hr.trim i hi).below b hb h0
  · rw [hw.openInodes, hw.writing.openInodes] at hk
    by_cases hne : i = s
    · subst hne
      rw [update_self] at hk
      obtain ⟨k₀, hk₀, rfl⟩ := Option.map_eq_some_iff.mp hk
      rw [fileLength, hw.disk_self]
      refine ⟨rfl, ?_⟩
      rw [isDir, byte_extend (by omega), hw.writing.fields 68 (by omega)]
      exact (hr.memory i hi k₀ hk₀).2
    · rw [update_of_ne hne] at hk
      rw [fileLength, hw.disk_other hr.wf hs hi hne]
      exact hr.memory i hi k hk

theorem Ready.ends_writeAt (hr : Ready st I) (hs : s ∈ I) (hmax : off + size ≤ 16524 * 512)
    (hlen : size ≤ buf.length) :
    Ends (writeAt s buf size off) (fun n st' ↦
      if writeDenied (st.openInodes s) then st' = st
      else Ready st' I ∧ st'.file s = (st.file s).write buf off n ∧
        ∀ i ∈ I, i ≠ s → st'.file i = st.file i) st := by
  refine ends_getInode ?_
  split
  · exact rfl
  · have htree := hr.wf.tree hs
    have hbelow : Below (st.fileLength s) (off + 0) st (st.disk s) := fun b hb h0 ↦
      .inl (lt_bytesToSectors.mp ((hr.trim s hs).below b hb h0))
    have hstart : Writing st (st.disk s) buf off st (st.disk s) 0 none := Writing.start htree
    have hloop := Program.Prog.wp_and
      (ends_writeLoop hmax size st (st.disk s) 0 hstart (.inl (.inl rfl)) (Nat.zero_le _))
      (ends_writeLoop_below hmax size st (st.disk s) 0 htree (Nat.zero_le _) hbelow)
    refine ends_bread ?_
    refine wp_seq hloop ?_
    rintro ⟨d, n⟩ st₁ ⟨⟨hn, hw⟩, hb⟩
    have hle := hn.trans hlen
    refine ends_bwrite ?_
    refine ends_setInode ?_
    have hwr : Written st s buf off n st₁ d ((st₁.write s (extend d (off + n))).withInode s
      ((st₁.openInodes s).map fun i ↦ { i with length := (extend d (off + n)).length })) :=
      ⟨hw hle, rfl, rfl, rfl⟩
    refine ⟨hr.written hs hwr (by omega) (hb hle), ?_, fun i hi hne ↦ ?_⟩
    · exact congrArg₂ File.mk (hwr.length_self (by omega)) (funext (hwr.fileByte_self hr.wf hs))
    · exact congrArg₂ File.mk (congrArg length (hwr.disk_other hr.wf hs hi hne))
        (funext (hwr.fileByte_other hr.wf hs hi hne))

section Runs

structure Call where
  sector : Nat
  buf : List UInt8
  size : Nat
  off : Nat

def Within (I : Set Nat) (_ : State × List (Call × Nat)) (w : Call) : Prop :=
  w.sector ∈ I ∧ w.off + w.size ≤ maxLength ∧ w.size ≤ w.buf.length

def record (x : State × List (Call × Nat)) (w : Call) : Option (State × List (Call × Nat)) :=
  let r := run (writeAt w.sector w.buf w.size w.off) x.1
  some (r.2, if writeDenied (x.1.openInodes w.sector) then x.2 else x.2 ++ [(w, r.1)])

def replay (i : Nat) (f : File) (log : List (Call × Nat)) : File :=
  log.foldl (fun f x ↦ if x.1.sector = i then f.write x.1.buf x.1.off x.2 else f) f

variable {log : List (Call × Nat)} {w : Call}

theorem replay_snoc {i : Nat} {f : File} : replay i f (log ++ [(w, n)]) =
    if w.sector = i then (replay i f log).write w.buf w.off n else replay i f log := by
  rw [replay, List.foldl_append]
  rfl

theorem Ready.record_step {x y : State × List (Call × Nat)} (hr : Ready x.1 I) (hw : Within I x w)
    (h : record x w = some y) : Ready y.1 I ∧ ∀ f : Nat → File,
      (∀ i ∈ I, x.1.file i = replay i (f i) x.2) → ∀ i ∈ I, y.1.file i = replay i (f i) y.2 := by
  obtain ⟨hs, hmax, hlen⟩ := hw
  have hends := run_of_ends (hr.ends_writeAt hs hmax hlen)
  obtain rfl := Option.some.inj h
  by_cases hdeny : writeDenied (x.1.openInodes w.sector) = true
  · rw [if_pos hdeny] at hends
    simp only [if_pos hdeny, hends]
    exact ⟨hr, fun f hf ↦ hf⟩
  · rw [if_neg hdeny] at hends
    simp only [if_neg hdeny]
    refine ⟨hends.1, fun f hf i hi ↦ ?_⟩
    rw [replay_snoc, ← hf i hi]
    by_cases hne : w.sector = i
    · rw [if_pos hne, ← hne]
      exact hends.2.1
    · rw [if_neg hne]
      exact hends.2.2 i hi (symm hne)

/-- The files after a run of writes are those that the recorded calls make of the files before. -/
theorem Ready.run (hr : Ready st I) (h : Run record (Within I) (st, []) (st', log)) :
    Ready st' I ∧ ∀ i ∈ I, st'.file i = replay i (st.file i) log :=
  h.invariant (fun x ↦ Ready x.1 I ∧ ∀ i ∈ I, x.1.file i = replay i (st.file i) x.2)
    (fun _ _ _ hx hw hy ↦ have hstep := hx.1.record_step hw hy
      ⟨hstep.1, hstep.2 (fun i ↦ st.file i) hx.2⟩) ⟨hr, fun _ _ ↦ rfl⟩

end Runs

section Truncate

variable {b : Bool} {k : Inode}

theorem setEnd_newBoxed : setEnd newBoxed 0 = newBoxed := by decide +kernel

theorem word_newBoxed {i : Nat} (hi : i < 15) : word (setIsDir newBoxed b) i = 0 := by
  rw [setIsDir, word_setByte (by omega), newBoxed, word_setWord_ne (by omega), word_zero]

theorem isDir_newBoxed : InodeDisk.isDir (setIsDir newBoxed b) = b := by
  cases b <;> rfl

/-- The sectors at the positions of the index: data blocks, indirect and doubly indirect blocks and the
blocks between. -/
def State.Holds (st : State) (s z : Nat) : Prop :=
  z ≠ 0 ∧ ∃ u, IsPos u ∧ addr word st.disk (st.disk s) u = z

theorem file_of_empty (hword : ∀ i < 15, word (st.disk s) i = 0) : st.file s = File.empty := by
  refine congrArg₂ File.mk ?_ (funext fun k ↦ ?_)
  · rw [fileLength, length, hword 14 (by omega)]
    rfl
  · by_cases hk : k / 512 < 16524
    · exact if_pos (addr_of_empty (fun i hi ↦ hword i (by omega)) _ (isPos_blockPos hk))
    · exact fileByte_of_ge (by omega)

structure Emptied (st st' : State) (s : Nat) (k : Inode) : Prop where
  disk : st'.disk = update st.disk s (setIsDir newBoxed k.isDir)
  openInodes : st'.openInodes = update st.openInodes s (some { k with length := 0 })
  used : ∀ z, st'.Used z ↔ st.Used z ∧ ¬ st.Holds s z

theorem Ready.ends_truncate (hr : Ready st I) (hs : s ∈ I) (hk : st.openInodes s = some k) :
    Ends (truncate s) (fun _ st' ↦ Emptied st st' s k) st := by
  have hlength : st.readLength s = st.fileLength s := by
    rw [readLength, hk]
    exact (hr.memory s hs k hk).1
  refine wp_seq (ends_inodeLength st s) fun len st₁ hlen ↦ ?_
  obtain ⟨rfl, rfl⟩ := hlen
  refine ends_bread ?_
  refine wp_seq (ends_releaseBlocks st₁ _ _) fun _ st₂ hf ↦ ?_
  refine wp_bind.mpr (ends_getInode ?_)
  rw [hf.openInodes, hk]
  refine ends_bwrite ?_
  refine wp_setInode trivial ⟨?_, ?_, fun z ↦ ?_⟩
  · rw [withInode_disk, write_disk, hf.disk]
  · rw [withInode_openInodes, write_openInodes, hf.openInodes, hk]
    rfl
  · rw [hlength] at hf
    rw [Holds, ← (hr.trim s hs).owns_iff]
    exact hf.used z

namespace Emptied

variable {i : Nat} {u : List Nat}

section

variable (h : Emptied st st' s k)

include h

theorem disk_self : st'.disk s = setIsDir newBoxed k.isDir := by
  rw [h.disk, update_self]

theorem disk_other (hne : i ≠ s) : st'.disk i = st.disk i := by
  rw [h.disk, update_of_ne hne]

theorem file_self : st'.file s = File.empty :=
  file_of_empty fun i hi ↦ by rw [h.disk_self, word_newBoxed hi]

theorem addr_self : ∀ u, IsPos u → addr word st'.disk (st'.disk s) u = 0 :=
  addr_of_empty fun i hi ↦ by rw [h.disk_self, word_newBoxed (by omega)]

section

variable (hwf : WellFormed st I) (hs : s ∈ I) (hi : i ∈ I)
include hwf hs hi

theorem block_kept (hu : IsPos u)
    (h0 : addr word st.disk (st.disk i) u ≠ 0) :
    st'.disk (addr word st.disk (st.disk i) u) = st.disk (addr word st.disk (st.disk i) u) := by
  refine h.disk_other fun he ↦ ?_
  cases hwf.distinct (.block i u) (.inode s) ⟨hi, hu, h0⟩ hs he

theorem addr_other
    (hne : i ≠ s) (hu : IsPos u) : addr word st'.disk (st'.disk i) u = addr word st.disk (st.disk i) u := by
  rw [h.disk_other hne]
  exact addr_congr (S := fileShape) hu fun q hq h0 ↦ by rw [h.block_kept hwf hs hi hq.1 h0]

theorem file_other
    (hne : i ≠ s) : st'.file i = st.file i := by
  refine congrArg₂ File.mk (congrArg length (h.disk_other hne)) (funext fun j ↦ ?_)
  by_cases hj : j / 512 < 16524
  · have hpos := isPos_blockPos hj
    exact fileByte_congr (h.addr_other hwf hs hi hne hpos) fun h0 ↦ h.block_kept hwf hs hi hpos h0
  · rw [fileByte_of_ge (by omega), fileByte_of_ge (by omega)]

end

variable {a : Use}

section

variable (hwf : WellFormed st I) (hs : s ∈ I)
include hwf hs

theorem use_cases (ha : a.In st' I) :
    a.In st I ∧ a.sector st' = a.sector st ∧ ∀ u, a ≠ .block s u := by
  cases a with
  | inode i => exact ⟨ha, rfl, nofun⟩
  | block i u =>
    obtain ⟨hi, hu, h0⟩ := ha
    have hne : i ≠ s := by
      rintro rfl
      exact h0 (h.addr_self u hu)
    have haddr := h.addr_other hwf hs hi hne hu
    refine ⟨⟨hi, hu, haddr ▸ h0⟩, haddr, fun v hv ↦ hne ?_⟩
    cases hv
    rfl

theorem used_kept (ha : a.In st I)
    (hne : ∀ u, a ≠ .block s u) : st'.Used (a.sector st) := by
  refine (h.used _).mpr ⟨hwf.used a ha, ?_⟩
  rintro ⟨h0, u, hu, he⟩
  exact hne u (hwf.distinct a (.block s u) ha ⟨hs, hu, he ▸ h0⟩ he.symm)

theorem wellFormed : WellFormed st' I := by
  refine ⟨fun a b ha hb he ↦ ?_, fun a ha ↦ ?_, fun i hi j hj ↦ ?_⟩
  · obtain ⟨ha', hsa, -⟩ := h.use_cases hwf hs ha
    obtain ⟨hb', hsb, -⟩ := h.use_cases hwf hs hb
    exact hwf.distinct a b ha' hb' (hsa.symm.trans (he.trans hsb))
  · obtain ⟨ha', hsa, hne⟩ := h.use_cases hwf hs ha
    rw [hsa]
    exact h.used_kept hwf hs ha' hne
  · by_cases hne : i = s
    · subst hne
      exact congrFun (congrArg File.bytes h.file_self) j
    · have hfile := h.file_other hwf hs hi hne
      have hlen : st'.fileLength i = st.fileLength i := congrArg File.length hfile
      exact (congrFun (congrArg File.bytes hfile) j).trans (hwf.tail i hi j (hlen ▸ hj))

end

theorem ready (hr : Ready st I) (hs : s ∈ I) : Ready st' I := by
  refine ⟨h.wellFormed hr.wf hs, fun i hi ↦ ?_, fun i hi k' hk' ↦ ?_⟩
  · by_cases hne : i = s
    · subst hne
      have hlen : st'.fileLength i = 0 := congrArg File.length h.file_self
      exact ⟨by rw [hlen]; exact Int.natCast_nonneg _,
        fun b hb h0 ↦ absurd (h.addr_self _ (isPos_blockPos hb)) h0⟩
    · have hlen : st'.fileLength i = st.fileLength i := congrArg length (h.disk_other hne)
      refine ⟨hlen ▸ (hr.trim i hi).reach, fun b hb h0 ↦ ?_⟩
      rw [h.addr_other hr.wf hs hi hne (isPos_blockPos hb)] at h0
      exact hlen ▸ (hr.trim i hi).below b hb h0
  · rw [h.openInodes] at hk'
    by_cases hne : i = s
    · subst hne
      rw [update_self] at hk'
      obtain rfl := Option.some.inj hk'
      exact ⟨(congrArg File.length h.file_self).symm, by rw [h.disk_self, isDir_newBoxed]⟩
    · rw [update_of_ne hne] at hk'
      rw [fileLength, h.disk_other hne]
      exact hr.memory i hi k' hk'

end

end Emptied

/-- The file of the inode `s` is empty, and nothing else is touched. The last field says that
`inode::create` finds nothing left to do. -/
structure Truncated (st st' : State) (I : Set Nat) (s : Nat) (k : Inode) : Prop where
  used : ∀ z, st'.Used z ↔ st.Used z ∧ ¬ st.Holds s z
  inode : st'.Used s
  memory : st'.openInodes s = some { k with length := 0 }
  disk : st'.fileLength s = 0 ∧ InodeDisk.isDir (st'.disk s) = InodeDisk.isDir (st.disk s)
  read : ∀ size off, run (readAt s size off) st' = ([], st')
  kept : ∀ z, z ≠ s → st'.disk z = st.disk z ∧ st'.openInodes z = st.openInodes z
  others : ∀ i ∈ I, i ≠ s → st'.file i = st.file i ∧ ∀ z, st'.Holds i z ↔ st.Holds i z
  ready : Ready st' I
  created : run (inodeCreate s 0 k.isDir) st' = (true, st')

theorem Emptied.truncated (h : Emptied st st' s k) (hr : Ready st I) (hs : s ∈ I)
    (hk : st.openInodes s = some k) : Truncated st st' I s k where
  used := h.used
  inode := h.used_kept hr.wf hs (a := .inode s) hs nofun
  memory := by rw [h.openInodes, update_self]
  disk := by
    refine ⟨congrArg File.length h.file_self, ?_⟩
    rw [h.disk_self, isDir_newBoxed, (hr.memory s hs k hk).2]
  read size off := by
    have hnone : (File.empty.length - off).toNat = 0 := by
      change (0 - (off : Int)).toNat = 0
      omega
    rw [(h.ready hr hs).run_readAt hs, h.file_self, File.read, hnone, min_zero]
    rfl
  kept z hz := ⟨h.disk_other hz, by rw [h.openInodes, update_of_ne hz]⟩
  others i hi hne := by
    refine ⟨h.file_other hr.wf hs hi hne, fun z ↦ ?_⟩
    refine and_congr_right fun _ ↦ exists_congr fun u ↦ and_congr_right fun hu ↦ ?_
    rw [h.addr_other hr.wf hs hi hne hu]
  ready := h.ready hr hs
  created := by
    change (true, st'.write s (setIsDir (setEnd newBoxed 0) k.isDir)) = (true, st')
    rw [setEnd_newBoxed, ← h.disk_self, write, update_eq_self]

/-- After any run of writes `truncate` gives back exactly the sectors that the index of the inode has, and
leaves the empty file that `inode::create` makes. The later writes and reads are those of a new file. -/
theorem truncate_empties {st₀ : State} {log : List (Call × Nat)} (hr : Ready st₀ I)
    (hrun : Run record (Within I) (st₀, []) (st, log)) (hs : s ∈ I) (hk : st.openInodes s = some k) :
    Truncated st (run (truncate s) st).2 I s k ∧
      ∀ st' log', Run record (Within I) ((run (truncate s) st).2, []) (st', log') → ∀ size off,
        run (readAt s size off) st' = ((replay s File.empty log').read size off, st') := by
  have hready := (hr.run hrun).1
  have hempty := run_of_ends (hready.ends_truncate hs hk)
  refine ⟨hempty.truncated hready hs hk, fun st' log' h size off ↦ ?_⟩
  obtain ⟨hready', hfile⟩ := (hempty.ready hready hs).run h
  rw [hready'.run_readAt hs, hfile s hs, hempty.file_self]

theorem ready_opened (hd : st.disk s = zero) (hu : st.Used s) (hopen : st.openInodes s = none) :
    Ready (st.opened s) {s} := by
  have hempty : ∀ u, IsPos u → addr word (st.opened s).disk ((st.opened s).disk s) u = 0 :=
    addr_of_empty fun i _ ↦ by rw [show (st.opened s).disk s = zero from hd, word_zero]
  refine ⟨wellFormed_empty hd hu, ?_, ?_⟩
  · rintro i rfl
    refine ⟨?_, fun b hb h0 ↦ absurd (hempty _ (isPos_blockPos hb)) h0⟩
    rw [fileLength, show (st.opened i).disk i = zero from hd]
    decide +kernel
  · rintro i rfl k hk
    have hself : (st.opened i).openInodes i = _ := update_self i _ st.openInodes
    rw [hself, hopen] at hk
    obtain rfl := Option.some.inj hk
    exact ⟨rfl, rfl⟩

theorem ready_blank : Ready (blank.opened 1) {1} :=
  ready_opened rfl (show blank.freeMap.test 1 = true by decide) rfl

/-- One byte is written before the file is emptied. -/
theorem truncate_empties_blank : ∃ st log k, Run record (Within {1}) (blank.opened 1, []) (st, log) ∧
    st.fileLength 1 = 1 ∧ Truncated st (run (truncate 1) st).2 {1} 1 k := by
  have hrun : Run record (Within {1}) (blank.opened 1, []) ((run (writeAt 1 [7] 1 0) (blank.opened 1)).2,
      [(⟨1, [7], 1, 0⟩, (run (writeAt 1 [7] 1 0) (blank.opened 1)).1)]) :=
    .one (x := ⟨1, [7], 1, 0⟩) ⟨rfl, by decide, by decide⟩ rfl
  exact ⟨_, _, _, hrun, by decide +kernel, (truncate_empties ready_blank hrun rfl rfl).1⟩

end Truncate

end Rxv6.Filesys
