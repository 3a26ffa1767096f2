import Rxv6.Filesys.ByteArrays

namespace Rxv6.Filesys

open Lib Lib.BlockTree Function Sector InodeDisk

def State.free (st : State) : Nat := Bitmap.clear st.freeMap.bits 2

/-- How many sectors block `b` of an inode takes if it is written now: its own and those of the index
blocks on the way to it. -/
def State.need (st : State) (d : InodeDisk) (b : Nat) : Nat :=
  if addr word st.disk d (blockPos b) ≠ 0 then 0
  else if b < 12 then 1
  else if b < 140 then if word d 12 = 0 then 2 else 1
  else if word d 13 = 0 then 3
  else if word (st.disk (word d 13)) ((b - 140) / 128) = 0 then 2 else 1

variable {st st' : State} {d : InodeDisk} {b i j n off size x : Nat} {buf : List UInt8} {d₀ : InodeDisk}
  {st₀ : State}

theorem wp_allocate_free {G : Op → State → Prop} {J : State → Prop} {Q : Option Nat → State → Prop}
    (hnone : st.free = 0 → J st ∧ Q none st)
    (hsome : ∀ x st', Taken st st' x → st.free = st'.free + 1 → J st' ∧ Q (some x) st') :
    wp G J allocate Q st := by
  refine wp_perform fun hG ↦ ?_
  change J (st.withMap st.freeMap.allocate.2) ∧ Q st.freeMap.allocate.1 (st.withMap st.freeMap.allocate.2)
  cases h : Bitmap.firstClear st.freeMap.bits 2 with
  | none =>
    have h1 : st.freeMap.allocate.1 = none := by simp [FreeMap.allocate, h]
    rw [h1, allocate_none h1]
    exact hnone (Bitmap.firstClear_none h)
  | some x =>
    have h1 : st.freeMap.allocate.1 = some x := by simp [FreeMap.allocate, h]
    rw [h1]
    refine hsome x _ (taken_of_allocate h1) ?_
    rw [State.free, State.free, Bitmap.clear_set h]
    simp [FreeMap.allocate, h, FreeMap.set]

theorem ends_indexBlockFor_free (hi : i < 14) :
    Ends (indexBlockFor d i) (fun r st' ↦ match r with
      | none => word d i = 0 ∧ st.free = 0
      | some d' => word d' i ≠ 0 ∧ (word d i ≠ 0 → d' = d ∧ st' = st) ∧
          (word d i = 0 → st.free = st'.free + 1 ∧ st'.disk (word d' i) = zero)) st := by
  unfold indexBlockFor
  split
  · next h0 =>
    refine wp_bind.mpr (wp_allocate_free (fun h ↦ ⟨trivial, h0, h⟩) fun y st₁ ht hfree ↦ ⟨trivial, ?_⟩)
    refine ends_bwrite ?_
    have hy : word (setWord d i y) i = y := word_setWord_self (by omega) ht.lt
    refine ⟨?_, fun h ↦ absurd h0 h, fun _ ↦ ⟨hfree, ?_⟩⟩
    · have := ht.ge
      omega
    · rw [hy]
      exact update_self _ _ _
  · next h0 => exact ⟨h0, fun _ ↦ ⟨rfl, rfl⟩, fun h ↦ absurd h h0⟩

theorem ends_innerBlockFor_free :
    Ends (innerBlockFor x j) (fun r st' ↦ match r with
      | none => word (st.disk x) j = 0 ∧ st.free = 0
      | some _ => st.free = st'.free + if word (st.disk x) j = 0 then 1 else 0) st := by
  refine ends_bread ?_
  split
  · next h0 =>
    refine wp_bind.mpr (wp_allocate_free (fun h ↦ ⟨trivial, h0, h⟩) fun y st₁ ht hfree ↦ ⟨trivial, ?_⟩)
    refine ends_bwrite ?_
    refine ends_bwrite ?_
    exact hfree
  · next h0 =>
    rfl

theorem ends_dataSectorFor_free :
    Ends (dataSectorFor d b) (fun r st' ↦ match r with
      | (none, _) => st.free < st.need d b
      | (some _, _) => st.free = st'.free + st.need d b) st := by
  refine wp_bind.mpr (wp_getBlockSectorDisk trivial ?_)
  cases hx : nonzero _ with
  | some x =>
    obtain ⟨ha, hx0⟩ := nonzero_eq_some.mp hx
    have hneed : st.need d b = 0 := if_pos (ha ▸ hx0)
    change st.free = st.free + st.need d b
    rw [hneed, Nat.add_zero]
  | none =>
    have h0 := nonzero_eq_none.mp hx
    suffices h : Ends (allocateBlockFor d b) (fun r st' ↦ match r with
        | (none, _) => st.free < st.need d b
        | (some _, _) => st.free = st'.free + st.need d b) st by
      refine wp_seq h fun r st₁ hr ↦ ?_
      obtain ⟨o, d'⟩ := r
      cases o with
      | none => exact hr
      | some x => exact wp_bind.mpr (wp_bwrite (fun _ ↦ trivial) fun _ ↦ hr)
    have hneed : st.need d b = if b < 12 then 1
        else if b < 140 then if word d 12 = 0 then 2 else 1
        else if word d 13 = 0 then 3
        else if word (st.disk (word d 13)) ((b - 140) / 128) = 0 then 2 else 1 := by
      rw [State.need, if_neg (not_not.mpr h0)]
    rw [hneed]
    refine wp_bind.mpr (wp_allocate_free (fun h ↦ ⟨trivial, ?_⟩) fun x st₁ ht hfree ↦ ⟨trivial, ?_⟩)
    · change st.free < _
      split_ifs <;> omega
    · simp only
      split
      · exact hfree
      · split
        · refine wp_seq (ends_indexBlockFor_free (by omega)) fun r st₂ hr ↦ ?_
          cases r with
          | none =>
            obtain ⟨hr, hr'⟩ := hr
            change st.free < _
            rw [if_pos hr]
            omega
          | some d' =>
            refine ends_bwrite ?_
            obtain ⟨-, hsame, hnew⟩ := hr
            change st.free = st₂.free + _
            by_cases hw : word d 12 = 0
            · rw [if_pos hw, hfree, (hnew hw).1]
            · rw [if_neg hw, hfree, (hsame hw).2]
        · refine wp_seq (ends_indexBlockFor_free (i := 13) (by omega)) fun r st₂ hr ↦ ?_
          cases r with
          | none =>
            obtain ⟨hr, hr'⟩ := hr
            change st.free < _
            rw [if_pos hr]
            omega
          | some d' =>
            obtain ⟨-, hsame, hnew⟩ := hr
            have hstep : word d 13 = 0 ∧ st₁.free = st₂.free + 1 ∧
                  word (st₂.disk (word d' 13)) ((b - 140) / 128) = 0 ∨
                word d 13 ≠ 0 ∧ d' = d ∧ st₂.disk = st.disk ∧ st₁.free = st₂.free := by
              by_cases hw : word d 13 = 0
              · refine .inl ⟨hw, (hnew hw).1, ?_⟩
                rw [(hnew hw).2, word_zero]
              · exact .inr ⟨hw, (hsame hw).1, (hsame hw).2 ▸ ht.disk, (hsame hw).2 ▸ rfl⟩
            refine wp_seq ends_innerBlockFor_free fun r st₃ hr ↦ ?_
            rcases hstep with ⟨hw, hfree₂, hslot⟩ | ⟨hw, rfl, hdisk, hfree₂⟩
            · rw [if_pos hw]
              cases r with
              | none =>
                change st.free < 3
                omega
              | some z =>
                refine ends_bwrite ?_
                change st.free = st₃.free + 3
                simp only [hslot, if_true] at hr
                omega
            · rw [if_neg hw]
              cases r with
              | none =>
                obtain ⟨hslot, hr⟩ := hr
                rw [hdisk] at hslot
                rw [if_pos hslot]
                change st.free < 2
                omega
              | some z =>
                refine ends_bwrite ?_
                simp only [hdisk] at hr
                change st.free = st₃.free + _
                split_ifs at hr ⊢ <;> omega

theorem ends_dataSectorFor_there (h0 : addr word st.disk d (blockPos b) ≠ 0) :
    Ends (dataSectorFor d b) (fun r st' ↦ r = (some (addr word st.disk d (blockPos b)), d) ∧ st' = st) st := by
  refine wp_bind.mpr (wp_getBlockSectorDisk trivial ?_)
  rw [nonzero, if_neg h0]
  exact ⟨rfl, rfl⟩

theorem need_congr (haddr : addr word st'.disk d (blockPos b) = addr word st.disk d (blockPos b))
    (houter : word d 13 ≠ 0 → st'.disk (word d 13) = st.disk (word d 13)) :
    st'.need d b = st.need d b := by
  rw [State.need, State.need, haddr]
  by_cases hw : word d 13 = 0
  · simp only [hw, if_true]
  · rw [houter hw]

/-- What the loop of `write_at` comes to when only the last block may be missing. -/
structure Outcome (st₀ : State) (d₀ : InodeDisk) (off size b : Nat) (r : InodeDisk × Nat) (st : State) :
    Prop where
  full : st₀.need d₀ b ≤ st₀.free → r.2 = size ∧ st₀.free = st.free + st₀.need d₀ b ∧
    addr word st.disk r.1 (blockPos b) ≠ 0
  short : st₀.free < st₀.need d₀ b → r.2 < size ∧ ∀ k, off ≤ k → k < off + r.2 → k / 512 ≠ b

theorem Writing.not_index (hw : Writing st₀ d₀ buf off st d n none)
    (hb : b < 16524) (hx : addr word st.disk d (blockPos b) = x) (hx0 : x ≠ 0) :
    ∀ q, fileShape.Index q → addr word st.disk d q ≠ x := fun _ hq he ↦
  blockPos_ne_index hq (hw.tree.inj (isPos_blockPos hb) hq.1 (hx ▸ hx0) (hx.trans he.symm))

theorem writeLoop_done {turns off' : Nat} (h : ¬ n < size) :
    writeLoop buf size turns d n off' = pure (d, n) := by
  cases turns with
  | zero => rfl
  | succ turns =>
    exact if_neg h

theorem ends_writeLoop_last (hmax : off + size ≤ 16524 * 512)
    (hlen : size ≤ buf.length) (hb : b = (off + size - 1) / 512)
    (hpres : ∀ k, off ≤ k → k < off + size → k / 512 ≠ b → addr word st₀.disk d₀ (blockPos (k / 512)) ≠ 0) :
    ∀ turns st d n, Writing st₀ d₀ buf off st d n none → AtBlock off n → n < size → size ≤ n + turns →
      st.free = st₀.free → st.need d b = st₀.need d₀ b → (n = 0 ∨ off + n ≤ 512 * b) →
      Ends (writeLoop buf size turns d n (off + n)) (Outcome st₀ d₀ off size b) st := by
  intro turns
  induction turns with
  | zero =>
    omega
  | succ turns ih =>
    intro st d n hw hat hn hfuel hfree hneed hbefore
    have hblock : (off + n) / 512 < 16524 := by omega
    unfold writeLoop
    rw [if_pos hn]
    by_cases hlast : (off + n) / 512 = b
    · -- The last block: it is there or taken now, and what is left goes into it.
      have hboth := Program.Prog.wp_and (ends_dataSectorFor hw hat hblock) ends_dataSectorFor_free
      rw [hlast] at hboth ⊢
      refine wp_seq hboth fun r st₁ hr ↦ ?_
      obtain ⟨o, d'⟩ := r
      obtain ⟨hr, hspace⟩ := hr
      cases o with
      | none =>
        refine ⟨fun h ↦ by omega, fun _ ↦ ⟨hn, fun k hk hk' ↦ ?_⟩⟩
        rcases hbefore with rfl | hbefore <;> omega
      | some x =>
        obtain ⟨hw', hx, hx0⟩ := hr
        refine ends_bwrite ?_
        rw [show min (512 - (off + n) % 512) (size - n) = size - n by omega,
          writeLoop_done (by omega), show n + (size - n) = size by omega]
        refine ⟨fun _ ↦ ⟨rfl, ?_, ?_⟩, fun h ↦ by omega⟩
        · change st₀.free = st₁.free + _
          omega
        · rw [State.write_disk, addr_update (isPos_blockPos (hlast ▸ hblock)) _
            (hw'.not_index (hlast ▸ hblock) hx hx0), hx]
          exact hx0
    · -- An earlier block is there.
      have hthere : addr word st₀.disk d₀ (blockPos ((off + n) / 512)) ≠ 0 :=
        hpres _ (by omega) (by omega) hlast
      have haddr := hw.addr_keep (isPos_blockPos hblock) hthere
      have hx0 : addr word st.disk d (blockPos ((off + n) / 512)) ≠ 0 := haddr ▸ hthere
      refine wp_seq (ends_dataSectorFor_there hx0) ?_
      rintro r st₁ ⟨rfl, rfl⟩
      refine ends_bwrite ?_
      have hchunk : min (512 - (off + n) % 512) (size - n) = 512 - (off + n) % 512 := by omega
      simp only [hchunk]
      have hindex := hw.not_index hblock rfl hx0
      have hnext := hw.chunk hblock rfl hx0 le_rfl (by omega)
      rw [Nat.add_assoc]
      refine ih _ _ _ hnext (.inr (by omega)) (by omega) (by omega) hfree ?_ (.inr (by omega))
      rw [← hneed]
      refine need_congr ?_ fun h13 ↦ ?_
      · exact addr_update (isPos_blockPos (by omega)) _ hindex
      · exact update_of_ne (hindex [13] (index_root (.inr rfl))) _ _

theorem ends_writeAt_last {I : Set Nat} {s : Nat} (h : WellFormed st I) (hs : s ∈ I)
    (hdeny : writeDenied (st.openInodes s) = false) (hmax : off + size ≤ 16524 * 512) (hsize : 0 < size)
    (hlen : size ≤ buf.length) (hb : b = (off + size - 1) / 512)
    (hpres : ∀ k, off ≤ k → k < off + size → k / 512 ≠ b →
      addr word st.disk (st.disk s) (blockPos (k / 512)) ≠ 0) :
    Ends (writeAt s buf size off) (fun n st' ↦ ∃ st₁ d, Written st s buf off n st₁ d st' ∧
      Outcome st (st.disk s) off size b (d, n) st₁) st := by
  refine ends_getInode ?_
  rw [if_neg (by simp [hdeny])]
  refine ends_bread ?_
  have hstart : Writing st (st.disk s) buf off st (st.disk s) 0 none := Writing.start (h.tree hs)
  have hloop := ends_writeLoop hmax size st (st.disk s) 0 hstart (.inl (.inl rfl)) (Nat.zero_le _)
  have hlast := ends_writeLoop_last hmax hlen hb hpres size st (st.disk s) 0 hstart (.inl rfl) hsize
    (by omega) rfl rfl (.inl rfl)
  refine wp_seq (Program.Prog.wp_and hloop hlast) ?_
  rintro ⟨d, n⟩ st₁ ⟨⟨hn, hw⟩, hout⟩
  refine ends_bwrite ?_
  refine ends_setInode ?_
  exact ⟨st₁, d, ⟨hw (hn.trans hlen), rfl, rfl, rfl⟩, hout⟩

end Rxv6.Filesys
