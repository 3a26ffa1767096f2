import Rxv6.Filesys.Records

namespace Rxv6.Filesys

open Lib.BlockTree Function Sector InodeDisk

variable {st st' st₀ : State} {I : Set Nat} {s i : Nat} {u : List Nat} {d : InodeDisk}

def Untouched (st st' : State) (I : Set Nat) : Prop :=
  ∀ a : Use, a.In st I → st'.disk (a.sector st) = st.disk (a.sector st)

namespace Untouched

section

variable (h : Untouched st st' I)
include h

theorem inode (hi : i ∈ I) : st'.disk i = st.disk i := h (.inode i) hi

theorem addr (hi : i ∈ I) (hu : IsPos u) :
    addr word st'.disk (st'.disk i) u = addr word st.disk (st.disk i) u := by
  rw [h.inode hi]
  exact addr_congr (S := fileShape) hu fun q hq h0 ↦ congrArg word (h (.block i q) ⟨hi, hq.1, h0⟩)

theorem fileByte (hi : i ∈ I) (k : Nat) :
    fileByte st'.disk (st'.disk i) k = fileByte st.disk (st.disk i) k := by
  by_cases hk : k / 512 < 16524
  · have hpos := isPos_blockPos hk
    exact fileByte_congr (h.addr hi hpos) fun h0 ↦ h (.block i _) ⟨hi, hpos, h0⟩
  · rw [fileByte_of_ge (by omega), fileByte_of_ge (by omega)]

theorem sector {a : Use} (ha : a.In st' I) :
    a.In st I ∧ a.sector st' = a.sector st := by
  cases a with
  | inode i => exact ⟨ha, rfl⟩
  | block i u =>
    obtain ⟨hi, hu, h0⟩ := ha
    have haddr := h.addr hi hu
    exact ⟨⟨hi, hu, haddr ▸ h0⟩, haddr⟩

theorem wellFormed (hwf : WellFormed st I)
    (hused : ∀ a : Use, a.In st I → st'.Used (a.sector st)) : WellFormed st' I := by
  refine ⟨fun a b ha hb he ↦ ?_, fun a ha ↦ ?_, fun i hi k hk ↦ ?_⟩
  · obtain ⟨ha, hae⟩ := h.sector ha
    obtain ⟨hb, hbe⟩ := h.sector hb
    exact hwf.distinct a b ha hb (hae.symm.trans (he.trans hbe))
  · obtain ⟨ha, hae⟩ := h.sector ha
    rw [hae]
    exact hused a ha
  · rw [State.fileLength, h.inode hi] at hk
    rw [h.fileByte hi]
    exact hwf.tail i hi k hk

end

end Untouched

structure Fresh (st : State) (I : Set Nat) (s : Nat) : Prop where
  used : st.Used s
  apart : ∀ a : Use, a.In st I → a.sector st ≠ s

/-- `inode::create` has come to the copy `d` of the new inode, with `n` blocks. -/
structure Creating (st₀ st : State) (d₀ d : InodeDisk) (n : Nat) : Prop where
  mono : ∀ z, st₀.Used z → st.Used z
  foreign : ∀ z, st₀.Used z → st.disk z = st₀.disk z
  openInodes : st.openInodes = st₀.openInodes
  fields : ∀ k, 48 ≤ k → byte d k = byte d₀ k
  block : ∀ j < 12, word d j ≠ 0 → ¬ st₀.Used (word d j) ∧ st.Used (word d j) ∧ st.disk (word d j) = zero
  inj : ∀ i j, i < 12 → j < 12 → word d i ≠ 0 → word d i = word d j → i = j
  present : ∀ j < 12, word d j ≠ 0 ↔ j < n
  space : st₀.free = st.free + n

theorem Creating.start (st : State) (h : ∀ j < 12, word d j = 0) : Creating st st d d 0 where
  mono _ hz := hz
  foreign _ _ := rfl
  openInodes := rfl
  fields _ _ := rfl
  block j hj h0 := absurd (h j hj) h0
  inj i _ hi _ h0 _ := absurd (h i hi) h0
  present j hj := by simp [h j hj]
  space := rfl

variable {d₀ : InodeDisk}

theorem Creating.extend {n x : Nat} (h : Creating st₀ st d₀ d n) (ht : Taken st st' x)
    (hfree : st.free = st'.free + 1) : Creating st₀ (st'.write x zero) d₀ (setBlockSector d n x) (n + 1) := by
  have hx : ¬ st₀.Used x := fun hx ↦ ht.free (h.mono x hx)
  have hne : ∀ z, st₀.Used z → z ≠ x := fun z hz he ↦ hx (he ▸ hz)
  have hmono : ∀ z, st.Used z → (st'.write x zero).Used z := fun z hz ↦ (ht.used z).mpr (.inr hz)
  have hword : ∀ j < 12, word (setBlockSector d n x) j = if j = n then x else word d j := by
    intro j hj
    unfold setBlockSector
    split
    · next hn => exact word_setWord (by omega) ht.lt
    · next hn => rw [if_neg (by omega)]
  have hx0 : x ≠ 0 := by
    have := ht.ge
    omega
  have hold : ∀ j < 12, word d j ≠ 0 → word d j ≠ x := fun j hj h0 he ↦
    ht.free (he ▸ (h.block j hj h0).2.1)
  refine ⟨fun z hz ↦ hmono z (h.mono z hz), fun z hz ↦ ?_, ht.openInodes.trans h.openInodes,
    fun k hk ↦ ?_, fun j hj h0 ↦ ?_, fun i j hi hj h0 he ↦ ?_, fun j hj ↦ ?_, ?_⟩
  · rw [State.write_disk, update_of_ne (hne z hz), ht.disk]
    exact h.foreign z hz
  · rw [← h.fields k hk]
    unfold setBlockSector
    split
    · rw [byte_setWord, if_neg (by omega)]
    · rfl
  · rw [hword j hj] at h0 ⊢
    split at h0
    · next hjn =>
      rw [if_pos hjn]
      exact ⟨hx, (ht.used x).mpr (.inl rfl), update_self _ _ _⟩
    · next hjn =>
      rw [if_neg hjn]
      obtain ⟨hnew, hused, hzero⟩ := h.block j hj h0
      refine ⟨hnew, hmono _ hused, ?_⟩
      rw [State.write_disk, update_of_ne (hold j hj h0), ht.disk]
      exact hzero
  · rw [hword i hi] at h0 he
    rw [hword j hj] at he
    by_cases hin : i = n <;> by_cases hjn : j = n
    · rw [hin, hjn]
    · rw [if_pos hin, if_neg hjn] at he
      exact absurd he.symm (hold j hj (he ▸ hx0))
    · rw [if_neg hin] at h0
      rw [if_neg hin, if_pos hjn] at he
      exact absurd he (hold i hi h0)
    · rw [if_neg hin] at h0
      rw [if_neg hin, if_neg hjn] at he
      exact h.inj i j hi hj h0 he
  · rw [hword j hj]
    by_cases hjn : j = n
    · simp [hjn, hx0]
    · rw [if_neg hjn, h.present j hj]
      omega
  · change st₀.free = st'.free + (n + 1)
    rw [h.space, hfree]
    omega

theorem ends_createLoop (m : Nat) : ∀ n st d, Creating st₀ st d₀ d n →
    Ends (createLoop (List.range' n m) d) (fun r st' ↦ ∃ d' n', Creating st₀ st' d₀ d' n' ∧
      (r = none → st₀.free < n + m) ∧ ∀ d'', r = some d'' → d'' = d' ∧ n' = n + m) st := by
  induction m with
  | zero => exact fun n st d h ↦ ⟨d, n, h, nofun, fun d'' he ↦ ⟨Option.some.inj he.symm, rfl⟩⟩
  | succ m ih =>
    intro n st d h
    rw [List.range'_succ]
    unfold createLoop
    refine wp_bind.mpr (wp_allocate_free (fun h0 ↦ ⟨trivial, d, n, h, fun _ ↦ ?_, nofun⟩)
      fun x st₁ ht hfree ↦ ⟨trivial, ?_⟩)
    · rw [h.space, h0]
      omega
    · refine ends_bwrite ?_
      refine wp_mono (ih (n + 1) _ _ (h.extend ht hfree)) ?_
      rintro r st₂ ⟨d', n', hc, hfull, hr⟩
      exact ⟨d', n', hc, fun he ↦ by have := hfull he; omega,
        fun d'' he ↦ ⟨(hr d'' he).1, by rw [(hr d'' he).2]; omega⟩⟩

structure Created (st st' : State) (I : Set Nat) (s : Nat) (len : Int) (isDir : Bool) : Prop where
  wf : WellFormed st' (insert s I)
  untouched : Untouched st st' I
  openInodes : st'.openInodes = st.openInodes
  mono : ∀ z, st.Used z → st'.Used z
  length : st'.fileLength s = len
  isDir : InodeDisk.isDir (st'.disk s) = isDir
  zero : ∀ k, fileByte st'.disk (st'.disk s) k = 0
  present : ∀ b < 12, b < bytesToSectors len → addr word st'.disk (st'.disk s) (blockPos b) ≠ 0
  space : st.free = st'.free + bytesToSectors len

theorem pos_of_direct {L : Nat → Sector} (h12 : word d 12 = 0) (h13 : word d 13 = 0) (hu : IsPos u)
    (h0 : addr word L d u ≠ 0) : ∃ j < 12, u = [j] := by
  match u with
  | [] => exact absurd rfl h0
  | [j] =>
    refine ⟨j, ?_, rfl⟩
    simp only [IsPos] at hu
    by_contra hge
    rcases (show j = 12 ∨ j = 13 by omega) with rfl | rfl
    · exact h0 h12
    · exact h0 h13
  | [i, j] =>
    simp only [IsPos] at hu
    rcases hu.2 with rfl | rfl
    · exact absurd (by simp [addr, h12]) h0
    · exact absurd (by simp [addr, h13]) h0
  | [i, j, k] =>
    simp only [IsPos] at hu
    obtain ⟨-, -, rfl⟩ := hu
    exact absurd (by simp [addr, h13]) h0
  | _ :: _ :: _ :: _ :: _ => exact hu.elim

theorem Creating.created {len : Int} {isDir : Bool} (hwf : WellFormed st₀ I)
    (hfresh : Fresh st₀ I s) (h : Creating st₀ st d₀ d (bytesToSectors len)) (h12 : word d₀ 12 = 0)
    (h13 : word d₀ 13 = 0) (hlen : InodeDisk.length d₀ = len) (hdir : InodeDisk.isDir d₀ = isDir) :
    Created st₀ (st.write s d) I s len isDir := by
  have hself : (st.write s d).disk s = d := update_self _ _ _
  have hother : ∀ z, z ≠ s → (st.write s d).disk z = st.disk z := fun z hz ↦ update_of_ne hz _ _
  have hword : ∀ i, 12 ≤ i → word d i = word d₀ i := fun i hi ↦
    word_congr fun k hk ↦ h.fields k (by omega)
  have huntouched : Untouched st₀ (st.write s d) I := fun a ha ↦ by
    rw [hother _ (hfresh.apart a ha)]
    exact h.foreign _ (hwf.used a ha)
  have hlength : (st.write s d).fileLength s = len := by
    rw [State.fileLength, hself, InodeDisk.length, hword 14 (by omega)]
    exact hlen
  have hblock : ∀ u, IsPos u → addr word (st.write s d).disk ((st.write s d).disk s) u ≠ 0 →
      ∃ j < 12, u = [j] ∧ word d j ≠ 0 := by
    intro u hu h0
    rw [hself] at h0
    obtain ⟨j, hj, rfl⟩ := pos_of_direct ((hword 12 le_rfl).trans h12) ((hword 13 (by omega)).trans h13) hu h0
    exact ⟨j, hj, rfl, h0⟩
  have hdirect : ∀ j < 12, addr word (st.write s d).disk ((st.write s d).disk s) [j] = word d j := fun j _ ↦ by
    rw [hself]
    rfl
  have hzero : ∀ k, fileByte (st.write s d).disk ((st.write s d).disk s) k = 0 := by
    intro k
    by_cases hk : k / 512 < 16524
    · rw [fileByte]
      split
      · rfl
      · next h0 =>
        obtain ⟨j, hj, hpos, hj0⟩ := hblock _ (isPos_blockPos hk) h0
        obtain ⟨hnew, -, hz⟩ := h.block j hj hj0
        rw [hpos, hdirect j hj, hother _ (fun he : word d j = s ↦ hnew (he ▸ hfresh.used)), hz, byte_zero]
    · exact fileByte_of_ge (by omega)
  -- A use is an old one, the new inode, or one of its blocks.
  have hcases : ∀ a : Use, a.In (st.write s d) (insert s I) →
      (a.In st₀ I ∧ a.sector (st.write s d) = a.sector st₀) ∨ a = .inode s ∨
        ∃ j < 12, word d j ≠ 0 ∧ a = .block s [j] ∧ a.sector (st.write s d) = word d j := by
    intro a ha
    cases a with
    | inode i =>
      rcases ha with rfl | hi
      · exact .inr (.inl rfl)
      · exact .inl ⟨hi, rfl⟩
    | block i u =>
      obtain ⟨hi, hu, h0⟩ := ha
      rcases hi with rfl | hi
      · obtain ⟨j, hj, rfl, hj0⟩ := hblock u hu h0
        exact .inr (.inr ⟨j, hj, hj0, rfl, hdirect j hj⟩)
      · exact .inl (huntouched.sector ⟨hi, hu, h0⟩)
  have hnew : ∀ j < 12, word d j ≠ 0 → ¬ st₀.Used (word d j) := fun j hj h0 ↦ (h.block j hj h0).1
  refine ⟨⟨fun a b ha hb he ↦ ?_, fun a ha ↦ ?_, fun i hi k hk ↦ ?_⟩, huntouched, h.openInodes,
    h.mono, hlength, ?_, hzero, fun b hb hlt ↦ ?_, h.space⟩
  · rcases hcases a ha with ⟨hao, hae⟩ | rfl | ⟨i, hi, hi0, rfl, hae⟩ <;>
      rcases hcases b hb with ⟨hbo, hbe⟩ | rfl | ⟨j, hj, hj0, rfl, hbe⟩
    · exact hwf.distinct a b hao hbo (hae.symm.trans (he.trans hbe))
    · exact absurd (hae.symm.trans he) (hfresh.apart a hao)
    · exact absurd (hwf.used a hao) (by rw [← hae, he, hbe]; exact hnew j hj hj0)
    · exact absurd (hbe.symm.trans he.symm) (hfresh.apart b hbo)
    · rfl
    · exact absurd (show word d j = s from hbe.symm.trans he.symm) fun heq ↦
        hnew j hj hj0 (heq ▸ hfresh.used)
    · exact absurd (hwf.used b hbo) (by rw [← hbe, ← he, hae]; exact hnew i hi hi0)
    · exact absurd (show word d i = s from hae.symm.trans he) fun heq ↦
        hnew i hi hi0 (heq ▸ hfresh.used)
    · rw [h.inj i j hi hj hi0 (hae.symm.trans (he.trans hbe))]
  · rcases hcases a ha with ⟨hao, hae⟩ | rfl | ⟨j, hj, hj0, rfl, hae⟩
    · rw [hae]
      exact h.mono _ (hwf.used a hao)
    · exact h.mono _ hfresh.used
    · rw [hae]
      exact (h.block j hj hj0).2.1
  · rcases hi with rfl | hi
    · exact hzero k
    · rw [State.fileLength, huntouched.inode hi] at hk
      rw [huntouched.fileByte hi]
      exact hwf.tail i hi k hk
  · rw [hself, ← hdir, InodeDisk.isDir, InodeDisk.isDir, h.fields 68 (by omega)]
  · rw [blockPos, if_pos hb, hdirect b hb]
    exact (h.present b hb).mpr hlt

theorem ends_inodeCreate (len : Int) (isDir : Bool) (hwf : WellFormed st I) (hfresh : Fresh st I s)
    (hlo : -2147483648 ≤ len) (hhi : len < 2147483648) :
    Ends (inodeCreate s len isDir) (fun ok st' ↦
      (ok = true → Created st st' I s len isDir) ∧
      (ok = false → (∀ z, st.Used z → st'.Used z ∧ st'.disk z = st.disk z) ∧
        st'.openInodes = st.openInodes ∧ st.free < bytesToSectors len)) st := by
  have hword : ∀ i < 14, word (setIsDir (setEnd newBoxed len) isDir) i = 0 := by
    intro i hi
    rw [setIsDir, word_setByte (by omega), word_setEnd hi, newBoxed, word_setWord_ne (by omega), word_zero]
  have hlength : InodeDisk.length (setIsDir (setEnd newBoxed len) isDir) = len := by
    rw [InodeDisk.length, setIsDir, word_setByte (by omega)]
    exact length_setEnd hlo hhi
  have hdir : InodeDisk.isDir (setIsDir (setEnd newBoxed len) isDir) = isDir := by
    rw [InodeDisk.isDir, setIsDir, byte_setByte, if_pos (by omega)]
    cases isDir <;> rfl
  unfold inodeCreate
  rw [List.range_eq_range']
  refine wp_seq (ends_createLoop _ 0 st _ (Creating.start st fun j hj ↦ hword j (by omega))) ?_
  rintro r st₁ ⟨d', n', hc, hfull, hr⟩
  rw [Nat.zero_add] at hfull
  cases r with
  | none => exact ⟨fun h ↦ (by cases h), fun _ ↦ ⟨fun z hz ↦ ⟨hc.mono z hz, hc.foreign z hz⟩, hc.openInodes, hfull rfl⟩⟩
  | some d =>
    obtain ⟨rfl, rfl⟩ := hr d rfl
    refine wp_bind.mpr (wp_bwrite (fun _ ↦ trivial) fun _ ↦ ⟨fun _ ↦ ?_, fun h ↦ by cases h⟩)
    rw [Nat.zero_add] at hc
    exact hc.created hwf hfresh (hword 12 (by omega)) (hword 13 (by omega)) hlength hdir

end Rxv6.Filesys
