import Rxv6.Filesys.NewBlocks

namespace Rxv6.Filesys

open Lib Lib.BlockTree Function Sector InodeDisk

variable {st st' st₀ st₁ : State} {d d' d₀ : InodeDisk} {b i j m n o off s size t w x : Nat} {buf : List UInt8}

section Turns

theorem le_run_writeLoop (buf : List UInt8) (turns : Nat) (st : State) (d : InodeDisk) (o : Nat)
    (hw : w ≤ size) : w ≤ (run (writeLoop buf size turns d w o) st).1.2 :=
  (run_of_ends (ends_writeLoop_le turns st d w o hw)).1

theorem writeLoop_turns : ∀ t t' d w o, size ≤ w + t → size ≤ w + t' →
    writeLoop buf size t d w o = writeLoop buf size t' d w o := by
  intro t
  induction t with
  | zero =>
    intro t' d w o ht ht'
    rw [writeLoop_done (by omega), writeLoop_done (by omega)]
  | succ t ih =>
    intro t' d w o ht ht'
    by_cases hw : w < size
    · obtain ⟨t', rfl⟩ : ∃ k, t' = k + 1 := ⟨t' - 1, by omega⟩
      unfold writeLoop
      rw [if_pos hw, if_pos hw]
      refine congrArg _ (funext fun r ↦ ?_)
      obtain ⟨r, d'⟩ := r
      cases r with
      | none => rfl
      | some x =>
        simp only
        rw [ih t' _ _ _ (by omega) (by omega)]
    · rw [writeLoop_done hw, writeLoop_done hw]

theorem run_writeLoop_none (hw : w < size) (hr : run (dataSectorFor d (o / 512)) st = ((none, d'), st₁)) :
    run (writeLoop buf size (t + 1) d w o) st = ((d', w), st₁) := by
  unfold writeLoop
  rw [if_pos hw, run_bind, hr]
  rfl

theorem run_writeLoop_some (hw : w < size)
    (hr : run (dataSectorFor d (o / 512)) st = ((some x, d'), st₁)) {c : Nat}
    (hc : min (512 - o % 512) (size - w) = c) :
    run (writeLoop buf size (t + 1) d w o) st = run (writeLoop buf size t d' (w + c) (o + c))
      (st₁.write x (splice (st₁.disk x) (o % 512) ((buf.drop w).take c))) := by
  conv_lhs => unfold writeLoop
  rw [if_pos hw, run_bind, hr, ← hc]
  rfl

end Turns

theorem ends_dataSectorFor_full (h : st.free = 0) :
    Ends (dataSectorFor d b) (fun r st' ↦ st'.free = 0 ∧ (r.1 = none → r.2 = d ∧ st' = st)) st := by
  refine wp_bind.mpr (wp_getBlockSectorDisk trivial ?_)
  cases hx : nonzero _ with
  | some x => exact ⟨h, nofun⟩
  | none =>
    refine wp_bind.mpr ?_
    refine wp_bind.mpr (wp_allocate_free (fun _ ↦ ⟨trivial, h, fun _ ↦ ⟨rfl, rfl⟩⟩) ?_)
    omega

theorem run_writeLoop_short (turns : Nat) : ∀ st d w o m, size ≤ w + turns → w ≤ m → m ≤ size →
    (run (writeLoop buf m turns d w o) st).1.2 = m → (run (writeLoop buf m turns d w o) st).2.free = 0 →
    (run (writeLoop buf size turns d w o) st).1.2 < size →
    run (writeLoop buf (run (writeLoop buf size turns d w o) st).1.2 turns d w o) st =
      run (writeLoop buf size turns d w o) st := by
  induction turns with
  | zero =>
    intro st d w o m ht _ _ _ _ hshort
    rw [writeLoop_done (by omega)] at hshort
    exact absurd hshort (by simp; omega)
  | succ turns ih =>
    intro st d w o m ht hwm hm hfull hfree hshort
    by_cases hw : w < size
    · rcases hr : run (dataSectorFor d (o / 512)) st with ⟨⟨r, d'⟩, st₁⟩
      have hfullDisk : st.free = 0 → st₁.free = 0 ∧ (r = none → d' = d ∧ st₁ = st) := fun h0 ↦ by
        have := run_of_ends (ends_dataSectorFor_full (d := d) (b := o / 512) h0)
        rwa [hr] at this
      cases r with
      | none =>
        -- The loop for `m` bytes would have stopped here as well.
        have hmw : m = w := by
          by_contra hne
          rw [run_writeLoop_none (by omega) hr] at hfull
          exact hne hfull.symm
        rw [hmw, writeLoop_done (lt_irrefl w)] at hfree
        obtain ⟨rfl, rfl⟩ := (hfullDisk hfree).2 rfl
        rw [run_writeLoop_none hw hr, writeLoop_done (lt_irrefl w), run_pure]
      | some x =>
        obtain ⟨c, hc⟩ : ∃ c, min (512 - o % 512) (size - w) = c := ⟨_, rfl⟩
        rw [run_writeLoop_some hw hr hc] at hshort ⊢
        set st₂ := st₁.write x _ with hst₂
        have hle := le_run_writeLoop buf turns st₂ d' (o + c) (show w + c ≤ size by omega)
        rw [run_writeLoop_some (by omega) hr (show min (512 - o % 512) (_ - w) = c by omega)]
        by_cases hmc : w + c ≤ m
        · rw [run_writeLoop_some (by omega) hr (show min (512 - o % 512) (m - w) = c by omega)] at hfull hfree
          exact ih _ _ _ _ m (by omega) hmc hm hfull hfree hshort
        · refine ih _ _ _ _ (w + c) (by omega) le_rfl (by omega) ?_ ?_ hshort
          · rw [writeLoop_done (lt_irrefl _)]
            rfl
          · rw [writeLoop_done (lt_irrefl _)]
            by_cases hmw : w < m
            · rw [run_writeLoop_some hmw hr (show min (512 - o % 512) (m - w) = m - w by omega),
                writeLoop_done (by omega)] at hfree
              exact hfree
            · rw [writeLoop_done hmw] at hfree
              exact (hfullDisk hfree).1
    · rw [writeLoop_done hw] at hshort
      exact absurd hshort hw

theorem run_writeAt (hdeny : writeDenied (st.openInodes s) = false)
    (hr : run (writeLoop buf size size (st.disk s) 0 off) st = ((d, n), st₁)) :
    run (writeAt s buf size off) st = (n, (st₁.write s (extend d (off + n))).withInode s
      ((st₁.openInodes s).map fun i ↦ { i with length := (extend d (off + n)).length })) := by
  change run (if writeDenied (st.openInodes s) then _ else _) st = _
  rw [if_neg (by simp [hdeny])]
  change run (writeLoop buf size size (st.disk s) 0 off >>= _) st = _
  rw [run_bind, hr]
  rfl

theorem free_of_refused (hr : run (dataSectorFor d b) st = ((none, d'), st₁)) : st.free < st.need d b := by
  have hends : Ends (dataSectorFor d b) _ st := ends_dataSectorFor_free
  have hspace := run_of_ends hends
  rwa [hr] at hspace

theorem free_of_given (hr : run (dataSectorFor d b) st = ((some x, d'), st₁)) :
    st.free = st₁.free + st.need d b := by
  have hends : Ends (dataSectorFor d b) _ st := ends_dataSectorFor_free
  have hspace := run_of_ends hends
  rwa [hr] at hspace

theorem pos_of_need (hsize : 0 < size) (hneed : st.need d (off / 512) ≤ st.free) :
    0 < (run (writeLoop buf size size d 0 off) st).1.2 := by
  obtain ⟨t, rfl⟩ : ∃ k, size = k + 1 := ⟨size - 1, by omega⟩
  rcases hr : run (dataSectorFor d (off / 512)) st with ⟨⟨r, d'⟩, st₁⟩
  cases r with
  | none =>
    have := free_of_refused hr
    omega
  | some x =>
    rw [run_writeLoop_some (by omega) hr rfl]
    have hle := le_run_writeLoop buf t
      (st₁.write x (splice (st₁.disk x) (off % 512) ((buf.drop 0).take (min (512 - off % 512) (t + 1 - 0)))))
      d' (off + min (512 - off % 512) (t + 1 - 0)) (show 0 + min (512 - off % 512) (t + 1 - 0) ≤ t + 1 by omega)
    omega

section Lacking

/-- How many positions on the way to the blocks from `b` up to `e` have no sector yet. -/
def State.lacking (st : State) (d : InodeDisk) (b e : Nat) : Nat :=
  (((Finset.Ico b e).biUnion path).filter fun u ↦ addr word st.disk d u = 0).card

/-- The end of the blocks that the `n` bytes from `off` on lie in. -/
def endBlock (off n : Nat) : Nat := if n = 0 then off / 512 else (off + n - 1) / 512 + 1

theorem isPos_of_mem_path {u : List Nat} (hb : b < 16524) (hu : u ∈ path b) : IsPos u := by
  unfold path at hu
  split_ifs at hu <;> simp only [Finset.mem_insert, Finset.mem_singleton] at hu
  · subst hu
    simp only [IsPos]
    omega
  · rcases hu with rfl | rfl <;> simp only [IsPos, true_or, and_true] <;> omega
  · rcases hu with rfl | rfl | rfl <;> simp only [IsPos, or_true, and_true] <;> omega

theorem path_ne_zero (h : addr word st.disk d (blockPos b) ≠ 0) : ∀ u ∈ path b, addr word st.disk d u ≠ 0 := by
  have habove {i : Nat} {p : List Nat} (hp : p ≠ []) (h : addr word st.disk d (i :: p) ≠ 0) :
      addr word st.disk d p ≠ 0 := fun h0 ↦ h (by rw [addr_cons hp, if_pos h0])
  intro u hu
  unfold path at hu
  unfold blockPos at h
  split_ifs at hu h <;> simp only [Finset.mem_insert, Finset.mem_singleton] at hu
  · exact hu ▸ h
  · rcases hu with rfl | rfl
    · exact h
    · exact habove (by simp) h
  · rcases hu with rfl | rfl | rfl
    · exact h
    · exact habove (by simp) h
    · exact habove (by simp) (habove (by simp) h)

theorem need_eq_card (st : State) (d : InodeDisk) (b : Nat) :
    st.need d b = ((path b).filter fun u ↦ addr word st.disk d u = 0).card := by
  by_cases h : addr word st.disk d (blockPos b) = 0
  · rw [State.need, if_neg (not_not.mpr h)]
    unfold path
    unfold blockPos at h
    by_cases h12 : b < 12
    · rw [if_pos h12] at h
      rw [if_pos h12, if_pos h12, Finset.filter_singleton, if_pos h, Finset.card_singleton]
    · by_cases h140 : b < 140
      · rw [if_neg h12, if_pos h140] at h
        rw [if_neg h12, if_pos h140, if_neg h12, if_pos h140, Finset.filter_insert, if_pos h,
          Finset.filter_singleton, addr_singleton]
        split <;> simp
      · rw [if_neg h12, if_neg h140] at h
        rw [if_neg h12, if_neg h140, if_neg h12, if_neg h140, Finset.filter_insert, if_pos h,
          Finset.filter_insert, Finset.filter_singleton, addr_singleton]
        by_cases h13 : word d 13 = 0
        · have hmid : addr word st.disk d [(b - 140) / 128, 13] = 0 := by
            rw [addr_cons (by simp), addr_singleton, if_pos h13]
          simp [h13, hmid]
        · rw [addr_cons_of_eq (addr_singleton (i := 13)) h13, if_neg h13, if_neg h13]
          split <;> simp
  · rw [State.need, if_pos h, eq_comm, Finset.card_eq_zero, Finset.filter_eq_empty_iff]
    exact fun u hu ↦ path_ne_zero h u hu

theorem lacking_eq_zero (h : e ≤ b) : st.lacking d b e = 0 := by
  rw [State.lacking, Finset.Ico_eq_empty_of_le h]
  rfl

/-- The block `b` takes what it needs, and leaves the other positions as they are. -/
theorem lacking_succ (hb : b < e) (he : e ≤ 16524)
    (hoff : ∀ u, IsPos u → u ∉ path b → addr word st'.disk d' u = addr word st.disk d u)
    (hon : ∀ u ∈ path b, addr word st'.disk d' u ≠ 0) :
    st.lacking d b e = st.need d b + st'.lacking d' (b + 1) e := by
  set P := (Finset.Ico (b + 1) e).biUnion path with hP
  have hpos : ∀ u ∈ P, IsPos u := fun u hu ↦ by
    obtain ⟨c, hc, hu⟩ := Finset.mem_biUnion.mp hu
    exact isPos_of_mem_path (by have := Finset.mem_Ico.mp hc; omega) hu
  have hrest : P.filter (fun u ↦ addr word st'.disk d' u = 0) =
      (P \ path b).filter fun u ↦ addr word st.disk d u = 0 := by
    ext u
    simp only [Finset.mem_filter, Finset.mem_sdiff]
    constructor
    · rintro ⟨hu, h0⟩
      have hpath : u ∉ path b := fun hpath ↦ hon u hpath h0
      exact ⟨⟨hu, hpath⟩, hoff u (hpos u hu) hpath ▸ h0⟩
    · rintro ⟨⟨hu, hpath⟩, h0⟩
      exact ⟨hu, (hoff u (hpos u hu) hpath).trans h0⟩
  rw [State.lacking, State.lacking, ← hP, hrest, need_eq_card, ← Finset.card_union_of_disjoint,
    ← Finset.filter_union, Finset.union_sdiff_self_eq_union, ← Finset.biUnion_insert,
    Finset.insert_Ico_add_one_left_eq_Ico hb]
  exact Finset.disjoint_filter_filter Finset.disjoint_sdiff

theorem need_le_lacking (hb : b < e) : st.need d b ≤ st.lacking d b e := by
  rw [need_eq_card]
  exact Finset.card_le_card (Finset.filter_subset_filter _
    (Finset.subset_biUnion_of_mem path (Finset.mem_Ico.mpr ⟨le_rfl, hb⟩)))

theorem ends_dataSectorFor_only (htree : Tree word fileShape st.disk d st.Used) (hb : b < 16524) :
    Ends (dataSectorFor d b) (fun r st' ↦ r.1 ≠ none → ∀ u, IsPos u → u ∉ path b →
      addr word st'.disk r.2 u = addr word st.disk d u) st := by
  refine wp_bind.mpr (wp_getBlockSectorDisk trivial ?_)
  cases hx : nonzero _ with
  | some x => exact fun _ _ _ _ ↦ rfl
  | none =>
    have hstart : Writing st d [] 0 st d 0 none := Writing.start htree
    refine wp_seq (ends_allocateBlockFor hstart hb (nonzero_eq_none.mp hx)) fun r st₁ hr ↦ ?_
    obtain ⟨o, d'⟩ := r
    cases o with
    | none => exact fun h ↦ absurd rfl h
    | some x =>
      refine wp_bind.mpr (wp_bwrite (fun _ ↦ trivial) fun _ _ u hu hpath ↦ ?_)
      obtain ⟨hlink, hother⟩ := hr
      rw [← hother u hu hpath]
      refine addr_update (S := fileShape) hu _ fun q hq he ↦ ?_
      refine blockPos_ne_index hq (hlink.writing.tree.inj (isPos_blockPos hb) hq.1 ?_ (hlink.addr.trans he.symm))
      rw [hlink.addr]
      exact hlink.ne_zero

theorem writing_turn (htree : Tree word fileShape st.disk d st.Used) (hb : b < 16524)
    (hr : run (dataSectorFor d b) st = ((some x, d'), st₁)) :
    Writing st d [] (b * 512) st₁ d' 0 none ∧ addr word st₁.disk d' (blockPos b) = x ∧ x ≠ 0 := by
  have hstart : Writing st d [] (b * 512) st d 0 none := Writing.start htree
  have hends := run_of_ends (ends_dataSectorFor hstart (.inl rfl) (by omega))
  rw [show (b * 512 + 0) / 512 = b by omega, hr] at hends
  exact hends

/-- What the turn of the loop of `write_at` for block `b` leaves. -/
theorem turn_spec (htree : Tree word fileShape st.disk d st.Used) (hb : b < 16524)
    (hr : run (dataSectorFor d b) st = ((some x, d'), st₁)) (v : Sector) :
    Tree word fileShape (st₁.write x v).disk d' (st₁.write x v).Used ∧
      addr word (st₁.write x v).disk d' (blockPos b) ≠ 0 ∧
      ∀ e ≤ 16524, b < e → st.lacking d b e = st.need d b + (st₁.write x v).lacking d' (b + 1) e := by
  have honly := run_of_ends (ends_dataSectorFor_only htree hb)
  rw [hr] at honly
  obtain ⟨hw, hx, hx0⟩ := writing_turn htree hb hr
  have hkeep : ∀ u, IsPos u → addr word (st₁.write x v).disk d' u = addr word st₁.disk d' u :=
    fun u hu ↦ addr_update (S := fileShape) hu v (hw.not_index hb hx hx0)
  have hne : addr word (st₁.write x v).disk d' (blockPos b) ≠ 0 := by
    rw [hkeep _ (isPos_blockPos hb), hx]
    exact hx0
  refine ⟨hw.tree.congr hkeep, hne, fun e he hbe ↦ ?_⟩
  exact lacking_succ hbe he (fun u hu hpath ↦ (hkeep u hu).trans (honly (by simp) u hu hpath)) (path_ne_zero hne)

/-- The loop of `write_at` is complete if and only if there are as many free sectors as its blocks lack, and
takes exactly these. -/
theorem run_writeLoop_lacking (turns : Nat) : ∀ st d w o, Tree word fileShape st.disk d st.Used →
    size ≤ w + turns → w ≤ size → (w < size → o + (size - w) ≤ 16524 * 512) →
    ((run (writeLoop buf size turns d w o) st).1.2 = size →
      st.free = (run (writeLoop buf size turns d w o) st).2.free + st.lacking d (o / 512) (endBlock o (size - w))) ∧
    (st.lacking d (o / 512) (endBlock o (size - w)) ≤ st.free →
      (run (writeLoop buf size turns d w o) st).1.2 = size) := by
  have hdone {st : State} {d : InodeDisk} {w o turns : Nat} (hw : w = size) :
      ((run (writeLoop buf size turns d w o) st).1.2 = size →
        st.free = (run (writeLoop buf size turns d w o) st).2.free + st.lacking d (o / 512) (endBlock o (size - w))) ∧
      (st.lacking d (o / 512) (endBlock o (size - w)) ≤ st.free →
        (run (writeLoop buf size turns d w o) st).1.2 = size) := by
    rw [writeLoop_done (by omega), lacking_eq_zero (by rw [endBlock, if_pos (by omega)])]
    exact ⟨fun _ ↦ rfl, fun _ ↦ hw⟩
  induction turns with
  | zero => exact fun st d w o _ ht hw _ ↦ hdone (by omega)
  | succ turns ih =>
    intro st d w o htree hturns hw hmax
    obtain hlt | hge := Nat.lt_or_ge w size
    · have hmax := hmax hlt
      have hend : endBlock o (size - w) = (o + (size - w) - 1) / 512 + 1 := if_neg (by omega)
      have hb : o / 512 < endBlock o (size - w) := by omega
      rcases hr : run (dataSectorFor d (o / 512)) st with ⟨⟨r, d'⟩, st₁⟩
      cases r with
      | none =>
        have hneed := free_of_refused hr
        have hle : st.need d (o / 512) ≤ _ := need_le_lacking hb
        rw [run_writeLoop_none hlt hr]
        exact ⟨fun h ↦ absurd h hlt.ne, fun h ↦ absurd h (by omega)⟩
      | some x =>
        obtain ⟨c, hc⟩ : ∃ c, min (512 - o % 512) (size - w) = c := ⟨_, rfl⟩
        rw [run_writeLoop_some hlt hr hc]
        obtain ⟨htree', -, hlack⟩ := turn_spec htree (by omega) hr
          (splice (st₁.disk x) (o % 512) ((buf.drop w).take c))
        have hfree := free_of_given hr
        have hsplit := hlack _ (by omega) hb
        have hnext : (st₁.write x (splice (st₁.disk x) (o % 512) ((buf.drop w).take c))).lacking d' (o / 512 + 1)
            (endBlock o (size - w)) =
            (st₁.write x (splice (st₁.disk x) (o % 512) ((buf.drop w).take c))).lacking d' ((o + c) / 512)
              (endBlock (o + c) (size - (w + c))) := by
          by_cases hlast : w + c = size
          · rw [lacking_eq_zero (by omega), lacking_eq_zero (by rw [endBlock, if_pos (by omega)])]
          · rw [endBlock, endBlock, if_neg (by omega), if_neg (by omega)]
            congr 1 <;> omega
        have hrest := ih (st₁.write x (splice (st₁.disk x) (o % 512) ((buf.drop w).take c))) d' (w + c) (o + c)
          htree' (by omega) (by omega) (by omega)
        rw [hsplit, hnext, hfree, show st₁.free =
          (st₁.write x (splice (st₁.disk x) (o % 512) ((buf.drop w).take c))).free from rfl]
        refine ⟨fun h ↦ ?_, fun h ↦ hrest.2 (by omega)⟩
        have := hrest.1 h
        omega
    · exact hdone (by omega)

end Lacking

section Inside

/-- `write_at` is denied or empty, or all its bytes are within the reach of the index, or there are fewer
free sectors than the blocks up to the end of it lack, or beyond the end it is refused because the doubly
indirect block is missing and there are no two sectors to come to it. -/
def WriteInside (st : State) (s size off : Nat) : Prop :=
  writeDenied (st.openInodes s) = true ∨ size = 0 ∨ off + size ≤ maxLength ∨
    off < maxLength ∧ st.free < st.lacking (st.disk s) (off / 512) 16524 ∨
    maxLength ≤ off ∧ word (st.disk s) 13 = 0 ∧ st.free ≤ 1

/-- The same for the loop with `w` of its `size` bytes written. -/
def LoopInside (st : State) (d : InodeDisk) (size w o : Nat) : Prop :=
  w < size → o + (size - w) ≤ maxLength ∨
    o < maxLength ∧ Tree word fileShape st.disk d st.Used ∧ st.free < st.lacking d (o / 512) 16524 ∨
    maxLength ≤ o ∧ word d 13 = 0 ∧ st.free ≤ 1

theorem WriteInside.loop (h : WriteInside st s size off) (hdeny : writeDenied (st.openInodes s) = false)
    (htree : off < maxLength → maxLength < off + size → Tree word fileShape st.disk (st.disk s) st.Used) :
    LoopInside st (st.disk s) size 0 off := by
  intro hpos
  rcases h with h | h | h | ⟨hlt, hfree⟩ | h
  · rw [hdeny] at h
    cases h
  · omega
  · exact .inl (by omega)
  · by_cases hfit : off + size ≤ maxLength
    · exact .inl (by omega)
    · exact .inr (.inl ⟨hlt, htree hlt (by omega), hfree⟩)
  · exact .inr (.inr h)

theorem dataSectorFor_refused (hb : 16524 ≤ b) (h13 : word d 13 = 0) (hfree : st.free ≤ 1) :
    (run (dataSectorFor d b) st).1.1 = none := by
  have hneed : st.need d b = 3 := by
    rw [State.need, addr_of_ge hb, if_neg (by simp), if_neg (by omega), if_neg (by omega), if_pos h13]
  rcases hr : run _ st with ⟨⟨r, d'⟩, st₁⟩
  cases r with
  | none => rfl
  | some x =>
    have := free_of_given hr
    omega

theorem LoopInside.next (h : LoopInside st d size w o) (hw : w < size)
    (hr : run (dataSectorFor d (o / 512)) st = ((some x, d'), st₁)) {c : Nat}
    (hc : min (512 - o % 512) (size - w) = c) (v : Sector) :
    o + c ≤ maxLength ∧ LoopInside (st₁.write x v) d' size (w + c) (o + c) := by
  have hmax : maxLength = 16524 * 512 := rfl
  rcases h hw with hin | ⟨hlt, htree, hfree⟩ | ⟨hge, h13, hfree⟩
  · exact ⟨by omega, fun _ ↦ .inl (by omega)⟩
  · refine ⟨by omega, fun hw' ↦ ?_⟩
    obtain ⟨htree', -, hlack⟩ := turn_spec htree (by omega) hr v
    have hsplit := hlack 16524 le_rfl (by omega)
    have hgiven := free_of_given hr
    have hfree' : (st₁.write x v).free < (st₁.write x v).lacking d' (o / 512 + 1) 16524 := by
      change st₁.free < _
      omega
    have hblock : (o + c) / 512 = o / 512 + 1 := by omega
    rw [← hblock] at hfree'
    refine .inr (.inl ⟨?_, htree', hfree'⟩)
    by_contra hge
    rw [lacking_eq_zero (by omega)] at hfree'
    omega
  · have hnone : (run (dataSectorFor d (o / 512)) st).1.1 = none := dataSectorFor_refused (by omega) h13 hfree
    rw [hr] at hnone
    cases hnone

theorem run_writeLoop_inside (buf : List UInt8) (turns : Nat) : ∀ st d w o, w ≤ size → LoopInside st d size w o →
    (run (writeLoop buf size turns d w o) st).1.2 = w ∨
      o + ((run (writeLoop buf size turns d w o) st).1.2 - w) ≤ maxLength := by
  induction turns with
  | zero => exact fun st d w o _ _ ↦ .inl rfl
  | succ turns ih =>
    intro st d w o hw hin
    obtain hlt | hge := Nat.lt_or_ge w size
    · rcases hr : run (dataSectorFor d (o / 512)) st with ⟨⟨r, d'⟩, st₁⟩
      cases r with
      | none => exact .inl (by rw [run_writeLoop_none hlt hr])
      | some x =>
        obtain ⟨c, hc⟩ : ∃ c, min (512 - o % 512) (size - w) = c := ⟨_, rfl⟩
        obtain ⟨hoc, hnext⟩ := hin.next hlt hr hc (splice (st₁.disk x) (o % 512) ((buf.drop w).take c))
        rw [run_writeLoop_some hlt hr hc]
        right
        rcases ih _ _ _ _ (by omega) hnext with hn | hn <;> omega
    · rw [writeLoop_done (by omega)]
      exact .inl rfl

end Inside

section Refused

/-- Sectors are only taken, and a call that is refused leaves none. -/
def Takes (st : State) (refused : Prop) (st' : State) : Prop := (∃ T, Took st st' T) ∧ (refused → st'.free = 0)

theorem Takes.refl {p : Prop} (h : p → st.free = 0) : Takes st p st := ⟨⟨[], .nil st⟩, h⟩

theorem Takes.after {p q : Prop} (h : Takes st p st₁) (h' : Takes st₁ q st') : Takes st q st' :=
  ⟨h.1.elim fun T hT ↦ h'.1.elim fun T' hT' ↦ ⟨T ++ T', hT.trans hT'⟩, h'.2⟩

theorem wp_allocate_takes {Q : Option Nat → State → Prop} (hnone : st.free = 0 → Q none st)
    (hsome : ∀ x st', Took st st' [x] → Q (some x) st') : Ends allocate Q st :=
  wp_allocate_free (fun h ↦ ⟨trivial, hnone h⟩) fun x st' ht hfree ↦ ⟨trivial, hsome x st' (.one ht hfree)⟩

theorem ends_indexBlockFor_takes : Ends (indexBlockFor d i) (fun r st' ↦ Takes st (r = none) st') st := by
  unfold indexBlockFor
  split
  · refine wp_bind.mpr (wp_allocate_takes (fun h ↦ .refl fun _ ↦ h) fun x st₁ ht ↦ ?_)
    exact ends_bwrite ⟨⟨_, ht.congr rfl⟩, by simp⟩
  · exact .refl (by simp)

theorem ends_innerBlockFor_takes : Ends (innerBlockFor x j) (fun r st' ↦ Takes st (r = none) st') st := by
  refine ends_bread ?_
  split
  · refine wp_bind.mpr (wp_allocate_takes (fun h ↦ .refl fun _ ↦ h) fun y st₁ ht ↦ ?_)
    exact ends_bwrite (ends_bwrite ⟨⟨_, ht.congr rfl⟩, by simp⟩)
  · exact .refl (by simp)

theorem ends_dataSectorFor_takes : Ends (dataSectorFor d b) (fun r st' ↦ Takes st (r.1 = none) st') st := by
  have halloc : Ends (allocateBlockFor d b) (fun r st' ↦ Takes st (r.1 = none) st') st := by
    refine wp_bind.mpr (wp_allocate_takes (fun h ↦ .refl fun _ ↦ h) fun x st₁ ht ↦ ?_)
    have ht : Takes st False st₁ := ⟨⟨_, ht⟩, False.elim⟩
    simp only
    split
    · exact ht.after (.refl (by simp))
    · split
      · refine wp_seq ends_indexBlockFor_takes fun r st₂ hr ↦ ?_
        cases r with
        | none => exact ht.after ⟨hr.1, fun _ ↦ hr.2 rfl⟩
        | some d' => exact ends_bwrite (ht.after ⟨hr.1.imp fun _ h ↦ h.congr rfl, by simp⟩)
      · refine wp_seq ends_indexBlockFor_takes fun r st₂ hr ↦ ?_
        cases r with
        | none => exact ht.after ⟨hr.1, fun _ ↦ hr.2 rfl⟩
        | some d' =>
          refine wp_seq ends_innerBlockFor_takes fun r st₃ hr' ↦ ?_
          cases r with
          | none => exact (ht.after hr).after ⟨hr'.1, fun _ ↦ hr'.2 rfl⟩
          | some z => exact ends_bwrite ((ht.after hr).after ⟨hr'.1.imp fun _ h ↦ h.congr rfl, by simp⟩)
  refine wp_bind.mpr (wp_getBlockSectorDisk trivial ?_)
  cases nonzero _ with
  | some x => exact .refl (by simp)
  | none =>
    refine wp_seq halloc fun r st₁ hr ↦ ?_
    obtain ⟨o, d'⟩ := r
    cases o with
    | none => exact hr
    | some x => exact wp_bind.mpr (wp_bwrite (fun _ ↦ trivial) fun _ ↦ ⟨hr.1.imp fun _ h ↦ h.congr rfl, by simp⟩)

theorem free_run_writeLoop_short (turns : Nat) : ∀ st d w o, size ≤ w + turns →
    (run (writeLoop buf size turns d w o) st).1.2 < size →
    (run (writeLoop buf size turns d w o) st).2.free = 0 := by
  induction turns with
  | zero =>
    intro st d w o ht hshort
    exact absurd hshort (not_lt.mpr ht)
  | succ turns ih =>
    intro st d w o ht hshort
    by_cases hlt : w < size
    · rcases hr : run (dataSectorFor d (o / 512)) st with ⟨⟨r, d'⟩, st₁⟩
      cases r with
      | none =>
        have htakes : Ends (dataSectorFor d (o / 512)) _ st := ends_dataSectorFor_takes
        have hzero := (run_of_ends htakes).2
        rw [run_writeLoop_none hlt hr]
        rw [hr] at hzero
        exact hzero rfl
      | some x =>
        rw [run_writeLoop_some hlt hr rfl] at hshort ⊢
        exact ih _ _ _ _ (by omega) hshort
    · rw [writeLoop_done hlt] at hshort
      exact absurd hshort hlt

theorem need_of_pos (hpos : 0 < (run (writeLoop buf size turns d 0 off) st).1.2) :
    st.need d (off / 512) ≤ st.free := by
  by_contra hneed
  cases turns with
  | zero => exact lt_irrefl _ hpos
  | succ t =>
    by_cases hsize : 0 < size
    · rcases hr : run (dataSectorFor d (off / 512)) st with ⟨⟨r, d'⟩, st₁⟩
      cases r with
      | none =>
        rw [run_writeLoop_none hsize hr] at hpos
        exact lt_irrefl _ hpos
      | some x =>
        have := free_of_given hr
        omega
    · rw [writeLoop_done hsize] at hpos
      exact lt_irrefl _ hpos

end Refused

/-- Every sector taken since `st₀` has a place in the index of `d`. -/
def Accounted (st₀ st : State) (d : InodeDisk) : Prop :=
  ∀ z, st.Used z → st₀.Used z ∨ z ≠ 0 ∧ ∃ u, IsPos u ∧ addr word st.disk d u = z

theorem Accounted.refl (st : State) (d : InodeDisk) : Accounted st st d := fun _ hz ↦ .inl hz

theorem Accounted.trans (h : Accounted st₀ st d) (h' : Accounted st st' d')
    (hkeep : ∀ u, IsPos u → addr word st.disk d u ≠ 0 → addr word st'.disk d' u = addr word st.disk d u) :
    Accounted st₀ st' d' := by
  intro z hz
  rcases h' z hz with hz | hz
  · rcases h z hz with hz | ⟨hz0, u, hu, he⟩
    · exact .inl hz
    · exact .inr ⟨hz0, u, hu, (hkeep u hu (he ▸ hz0)).trans he⟩
  · exact .inr hz

theorem Accounted.congr (h : Accounted st₀ st d) (hused : ∀ z, st'.Used z → st.Used z)
    (haddr : ∀ u, IsPos u → addr word st'.disk d' u = addr word st.disk d u) : Accounted st₀ st' d' := by
  intro z hz
  rcases h z (hused z hz) with hz | ⟨hz0, u, hu, he⟩
  · exact .inl hz
  · exact .inr ⟨hz0, u, hu, (haddr u hu).trans he⟩

/-- The free map has lost as many sectors as there were places without one on the way to the block, and
these have different new sectors now. -/
theorem ends_dataSectorFor_accounted (htree : Tree word fileShape st.disk d st.Used) (hb : b < 16524) :
    Ends (dataSectorFor d b) (fun r st' ↦ r.1 ≠ none → Accounted st st' r.2) st := by
  refine ends_of_run fun hne ↦ ?_
  obtain ⟨x, hx⟩ := Option.ne_none_iff_exists'.mp hne
  obtain ⟨d', st₁, hr⟩ : ∃ d' st₁, run (dataSectorFor d b) st = ((some x, d'), st₁) :=
    ⟨_, _, Prod.ext (Prod.ext hx rfl) rfl⟩
  rw [hr]
  obtain ⟨hw, hx, hx0⟩ := writing_turn htree hb hr
  have htakes : Ends (dataSectorFor d b) _ st := ends_dataSectorFor_takes
  obtain ⟨T, hT⟩ := (run_of_ends htakes).1
  replace hT : Took st st₁ T := by rwa [hr] at hT
  have hthere : ∀ u ∈ path b, IsPos u ∧ addr word st₁.disk d' u ≠ 0 := fun u hu ↦
    ⟨isPos_of_mem_path hb hu, path_ne_zero (hx.symm ▸ hx0) u hu⟩
  have himage : ((path b).filter fun u ↦ addr word st.disk d u = 0).image (addr word st₁.disk d') = T.toFinset := by
    refine Finset.eq_of_subset_of_card_le (fun z hz ↦ ?_) ?_
    · obtain ⟨u, hu, rfl⟩ := Finset.mem_image.mp hz
      obtain ⟨hu, h0⟩ := Finset.mem_filter.mp hu
      obtain ⟨hpos, hne⟩ := hthere u hu
      have hnew := (hw.fresh u hpos (h0.symm ▸ hne)).2
      exact List.mem_toFinset.mpr (((hT.used _).mp (hw.tree.used hpos hne)).resolve_left hnew)
    · rw [List.toFinset_card_of_nodup hT.nodup, Finset.card_image_of_injOn, ← need_eq_card]
      · have := hT.space
        have := free_of_given hr
        omega
      · intro u hu v hv he
        obtain ⟨hpos, hne⟩ := hthere u (Finset.mem_filter.mp hu).1
        exact hw.tree.inj hpos (hthere v (Finset.mem_filter.mp hv).1).1 hne he
  intro z hz
  refine ((hT.used z).mp hz).imp_right fun hz ↦ ?_
  rw [← List.mem_toFinset, ← himage] at hz
  obtain ⟨u, hu, rfl⟩ := Finset.mem_image.mp hz
  obtain ⟨hpos, hne⟩ := hthere u (Finset.mem_filter.mp hu).1
  exact ⟨hne, u, hpos, rfl⟩

theorem ends_writeLoop_accounted (hmax : off + size ≤ 16524 * 512) (hbuf : size ≤ buf.length) :
    ∀ turns st d n, Writing st₀ d₀ buf off st d n none → AtBlock off n ∨ n = size → n ≤ size →
      size ≤ n + turns → Accounted st₀ st d →
      Ends (writeLoop buf size turns d n (off + n))
        (fun r st' ↦ r.2 = size → Accounted st₀ st' r.1) st := by
  intro turns
  induction turns with
  | zero => exact fun st d n _ _ _ _ hacc _ ↦ hacc
  | succ turns ih =>
    intro st d n h hat hn hturns hacc
    unfold writeLoop
    split
    · next hlt =>
      have hat : AtBlock off n := hat.resolve_right (by omega)
      have hb : (off + n) / 512 < 16524 := by omega
      have hstart : Writing st d buf (off + n) st d 0 none := Writing.start h.tree
      have hkeep : Ends (dataSectorFor d ((off + n + 0) / 512)) _ st := ends_dataSectorFor hstart (.inl rfl) hb
      refine wp_seq (Program.Prog.wp_and (ends_dataSectorFor h hat hb)
        (Program.Prog.wp_and (ends_dataSectorFor_accounted h.tree hb) hkeep)) fun r st₁ hr ↦ ?_
      obtain ⟨o, d'⟩ := r
      obtain ⟨hr, hnew, hsame⟩ := hr
      cases o with
      | none => exact fun he ↦ absurd he (by omega)
      | some x =>
        obtain ⟨hw, hx, hx0⟩ := hr
        refine ends_bwrite ?_
        have hnext := hw.chunk (c := min (512 - (off + n) % 512) (size - n)) hb hx hx0 (min_le_left _ _)
          (by omega)
        have hacc' := hacc.trans (hnew (by simp)) fun u hu ↦ hsame.1.addr_keep hu
        rw [add_assoc]
        refine ih _ _ _ hnext ?_ (by omega) (by omega) (hacc'.congr (fun _ hz ↦ hz) fun u hu ↦ ?_)
        · unfold AtBlock
          omega
        · exact addr_update hu _ (hw.not_index hb hx hx0)
    · exact fun _ ↦ hacc

/-- The disk becomes full with a block complete: the blocks of the first `m` bytes lack exactly the free
sectors. If there is not even room for the first block, the offset is not beyond the end of the file. -/
def CutBetweenBlocks (st : State) (s size off : Nat) : Prop :=
  (∃ m ≤ size, (m = 0 ∨ off + m ≤ maxLength) ∧
      st.lacking (st.disk s) (off / 512) (endBlock off m) = st.free) ∧
    (st.need (st.disk s) (off / 512) ≤ st.free ∨ (off : Int) ≤ st.fileLength s)

theorem complete_spec (htree : Tree word fileShape st.disk d₀ st.Used) (hbuf : n ≤ buf.length)
    (hmax : n = 0 ∨ off + n ≤ maxLength) (hr : run (writeLoop buf n n d₀ 0 off) st = ((d, n), st₁)) :
    Writing st d₀ buf off st₁ d n none ∧ Accounted st st₁ d := by
  have hstart : Writing st d₀ buf off st d₀ 0 none := Writing.start htree
  rcases hmax with rfl | hmax
  · obtain ⟨h, rfl⟩ := Prod.mk.inj hr
    obtain ⟨rfl, -⟩ := Prod.mk.inj h
    exact ⟨hstart, Accounted.refl _ _⟩
  · have hwritten := run_of_ends (ends_writeLoop hmax n st d₀ 0 hstart (.inl (.inl rfl)) (Nat.zero_le _))
    have hacc := run_of_ends (ends_writeLoop_accounted hmax hbuf n st d₀ 0 hstart (.inl (.inl rfl)) (Nat.zero_le _)
      (by omega) (Accounted.refl _ _))
    rw [Nat.add_zero, hr] at hwritten hacc
    exact ⟨hwritten.2 hbuf, hacc rfl⟩

/-- A write that the full disk cuts short at `n` bytes leaves the state that a write of `n` bytes leaves, with
`n = 0` the length of the file, and no sector without a place in the index, if and only if it is cut between
two blocks. -/
theorem short_write_complete {I : Set Nat} (hwf : WellFormed st I) (hs : s ∈ I)
    (hdeny : writeDenied (st.openInodes s) = false) (hoff : off < 2147483648)
    (hin : WriteInside st s size off) (hbuf : size ≤ buf.length)
    (hn : run (writeAt s buf size off) st = (n, st')) (hshort : n < size) :
    (run (writeAt s buf n off) st = (n, st') ∧ (n = 0 → st'.fileLength s = st.fileLength s) ∧
        ∀ z, st'.Used z → st.Used z ∨ ∃ u, IsPos u ∧ addr word st'.disk (st'.disk s) u = z) ↔
      CutBetweenBlocks st s size off := by
  have hmax : maxLength = 16524 * 512 := rfl
  have htree := hwf.tree hs
  rcases hr : run (writeLoop buf size size (st.disk s) 0 off) st with ⟨⟨d, n'⟩, st₁⟩
  rw [run_writeAt hdeny hr] at hn
  obtain ⟨rfl, hst'⟩ := Prod.mk.inj hn
  have hreach := run_writeLoop_inside buf size st (st.disk s) 0 off (Nat.zero_le _)
    (hin.loop hdeny fun _ _ ↦ htree)
  have hshort' : (run (writeLoop buf size size (st.disk s) 0 off) st).1.2 < size := by rwa [hr]
  have hzero := free_run_writeLoop_short size st (st.disk s) 0 off (Nat.zero_add size).ge hshort'
  have hpos : st.need (st.disk s) (off / 512) ≤ st.free → 0 < n' := fun hneed ↦ by
    have hwrites : 0 < (run (writeLoop buf size size (st.disk s) 0 off) st).1.2 := pos_of_need (by omega) hneed
    rwa [hr] at hwrites
  rw [hr] at hreach hzero
  have hreach : n' = 0 ∨ off + n' ≤ maxLength := hreach
  constructor
  · rintro ⟨hsame, hlen, -⟩
    rcases hr' : run (writeLoop buf n' n' (st.disk s) 0 off) st with ⟨⟨d₂, k⟩, st₂⟩
    rw [run_writeAt hdeny hr'] at hsame
    obtain ⟨rfl, hst₂⟩ := Prod.mk.inj hsame
    have hlack := (run_writeLoop_lacking k st (st.disk s) 0 off htree (by omega) (by omega) (by omega)).1
      (congrArg (·.1.2) hr')
    have hfree : st₂.free = 0 := by
      have hmap : State.free _ = st'.free := congrArg State.free hst₂
      rw [← hst'] at hmap
      exact hmap.trans hzero
    refine ⟨⟨k, by omega, hreach, ?_⟩, ?_⟩
    · rw [hr', hfree, Nat.zero_add] at hlack
      exact hlack.symm
    · obtain hk | hk := Nat.eq_zero_or_pos k
      · right
        have hw : Written st s buf off k st₂ d₂ st' := by
          rw [← hst₂]
          exact ⟨(complete_spec htree (by omega) hreach hr').1, rfl, rfl, rfl⟩
        have hsum := (hw.length_self (by omega)).symm.trans (hlen hk)
        omega
      · exact .inl (need_of_pos (by rw [hr']; exact hk))
  · rintro ⟨⟨m, hm, hmreach, hlack⟩, hlen⟩
    obtain ⟨hfree, hfull⟩ := @run_writeLoop_lacking _ buf size st (st.disk s) 0 off htree
      (show m ≤ 0 + size by omega) (Nat.zero_le m) (by omega)
    have hfull := hfull (by rw [Nat.sub_zero]; exact hlack.le)
    have hfree := hfree hfull
    rw [Nat.sub_zero, hlack] at hfree
    have hloop := run_writeLoop_short size st (st.disk s) 0 off m (by omega) (Nat.zero_le m) hm hfull (by omega)
      hshort'
    rw [hr] at hloop
    have hloop : run (writeLoop buf n' n' (st.disk s) 0 off) st = ((d, n'), st₁) := by
      rwa [writeLoop_turns n' size _ _ _ (by omega) (by omega)]
    obtain ⟨hwriting, hacc⟩ := complete_spec htree (by omega) hreach hloop
    have hw : Written st s buf off n' st₁ d st' := by
      rw [← hst']
      exact ⟨hwriting, rfl, rfl, rfl⟩
    refine ⟨(run_writeAt hdeny hloop).trans (congrArg _ hst'), fun h0 ↦ ?_, fun z hz ↦ ?_⟩
    · have hle : (off : Int) ≤ st.fileLength s := hlen.resolve_left fun hneed ↦ by
        have := hpos hneed
        omega
      rw [hw.length_self (by omega)]
      omega
    · rw [State.Used, hw.freeMap] at hz
      rcases hacc z hz with hz | ⟨-, u, hu, he⟩
      · exact .inl hz
      · exact .inr ⟨u, hu, (hw.addr_self hwf hs hu).trans he⟩

def tight : State := blank.withMap ⟨[true, true, false], by decide⟩

theorem wellFormed_tight : WellFormed tight {1} :=
  wellFormed_empty rfl (show tight.freeMap.test 1 = true by decide)

theorem short_write_complete_tight :
    (run (writeAt 1 (List.replicate 513 7) 513 0) tight).1 = 512 ∧
      run (writeAt 1 (List.replicate 513 7) 512 0) tight =
        (512, (run (writeAt 1 (List.replicate 513 7) 513 0) tight).2) := by
  have hn : (run (writeAt 1 (List.replicate 513 7) 513 0) tight).1 = 512 := by decide +kernel
  have hcut : CutBetweenBlocks tight 1 513 0 :=
    ⟨⟨512, by norm_num, .inr (by norm_num [maxLength]), by decide +kernel⟩, .inl (by decide +kernel)⟩
  exact ⟨hn, ((short_write_complete wellFormed_tight (Set.mem_singleton 1) rfl (by norm_num)
    (.inr (.inr (.inl (by norm_num [maxLength])))) (by rw [List.length_replicate]) (Prod.ext hn rfl)
    (by norm_num)).mpr hcut).1⟩

/-- One byte at the start of block 12 with one free sector: nothing is written, but the sector taken
for the block stays marked with no place in the index, and the file grows up to the block. A write of no
bytes takes no sector. -/
theorem short_write_leaks_sector :
    (run (writeAt 1 [7] 1 6144) tight).1 = 0 ∧ tight.fileLength 1 = 0 ∧
      (run (writeAt 1 [7] 1 6144) tight).2.fileLength 1 = 6144 ∧
      (run (writeAt 1 [7] 1 6144) tight).2.Used 2 ∧ ¬ (run (writeAt 1 [7] 0 6144) tight).2.Used 2 ∧
      ∀ u, IsPos u → addr word (run (writeAt 1 [7] 1 6144) tight).2.disk
        ((run (writeAt 1 [7] 1 6144) tight).2.disk 1) u ≠ 2 := by
  refine ⟨by decide +kernel, by decide +kernel, by decide +kernel, ?_, ?_, fun u hu ↦ ?_⟩
  · exact show (run (writeAt 1 [7] 1 6144) tight).2.freeMap.test 2 = true by decide +kernel
  · exact show ¬ (run (writeAt 1 [7] 0 6144) tight).2.freeMap.test 2 = true by decide +kernel
  · rw [addr_of_empty (by decide +kernel) u hu]
    decide

end Rxv6.Filesys
