import Rxv6.Filesys.Create

namespace Rxv6.Filesys

open Function Sector InodeDisk List

/-- The sectors `T` have been taken from the free map, in this order. -/
structure Took (st st' : State) (T : List Nat) : Prop where
  nodup : T.Nodup
  free : ∀ x ∈ T, ¬ st.Used x
  ge : ∀ x ∈ T, 2 ≤ x
  used : ∀ z, st'.Used z ↔ st.Used z ∨ z ∈ T
  space : st.free = st'.free + T.length

variable {st st' st₁ : State} {T T' : List Nat} {d : InodeDisk} {s x : Nat}

theorem Took.nil (st : State) : Took st st [] :=
  ⟨nodup_nil, by simp, by simp, by simp, rfl⟩

theorem Took.one (ht : Taken st st₁ x) (hfree : st.free = st₁.free + 1) : Took st st₁ [x] := by
  refine ⟨nodup_singleton x, ?_, ?_, fun z ↦ ?_, hfree⟩
  · simpa using ht.free
  · simpa using ht.ge
  · rw [ht.used, mem_singleton, or_comm]

theorem Took.trans (h : Took st st₁ T) (h' : Took st₁ st' T') : Took st st' (T ++ T') := by
  have hnew : ∀ x ∈ T', ¬ (st.Used x ∨ x ∈ T) := fun x hx ↦ mt (h.used x).mpr (h'.free x hx)
  refine ⟨?_, fun x hx ↦ ?_, fun x hx ↦ ?_, fun z ↦ ?_, ?_⟩
  · exact h.nodup.append h'.nodup fun x hx hx' ↦ hnew x hx' (.inr hx)
  · exact (mem_append.mp hx).elim (h.free x) fun hx hu ↦ hnew x hx (.inl hu)
  · exact (mem_append.mp hx).elim (h.ge x) (h'.ge x)
  · rw [h'.used, h.used, mem_append, or_assoc]
  · rw [h.space, h'.space, length_append]
    omega

theorem Took.congr (h : Took st st₁ T) (hmap : st'.freeMap = st₁.freeMap) : Took st st' T :=
  ⟨h.nodup, h.free, h.ge, fun z ↦ by rw [State.Used, hmap]; exact h.used z,
    by rw [State.free, State.free, hmap]; exact h.space⟩

/-- The loop of `inode::create` has taken the sectors `T` and zeroed them. -/
structure Zeroed (st st' : State) (T : List Nat) : Prop where
  took : Took st st' T
  zero : ∀ z ∈ T, st'.disk z = zero
  disk : ∀ z ∉ T, st'.disk z = st.disk z
  openInodes : st'.openInodes = st.openInodes

theorem Zeroed.cons (ht : Taken st st₁ x) (hfree : st.free = st₁.free + 1)
    (h : Zeroed (st₁.write x Sector.zero) st' T) : Zeroed st st' (x :: T) := by
  have hone : Took st (st₁.write x Sector.zero) [x] := (Took.one ht hfree).congr rfl
  have htook : Took st st' (x :: T) := hone.trans h.took
  have hx : x ∉ T := (nodup_cons.mp htook.nodup).1
  refine ⟨htook, fun z hz ↦ ?_, fun z hz ↦ ?_, h.openInodes.trans ht.openInodes⟩
  · rcases mem_cons.mp hz with rfl | hz
    · rw [h.disk z hx]
      exact update_self _ _ _
    · exact h.zero z hz
  · obtain ⟨hzx, hz⟩ := not_or.mp (mt mem_cons.mpr hz)
    rw [h.disk z hz, State.write_disk, update_of_ne hzx, ht.disk]

/-- The loop of `inode::create` for `m` blocks from block `n` on. Only the numbers of direct blocks go
into the inode, and a full disk leaves the sectors taken. -/
theorem ends_createLoop_zeroed (m : Nat) : ∀ n st d,
    Ends (createLoop (List.range' n m) d) (fun r st' ↦ ∃ T, Zeroed st st' T ∧ (match r with
      | none => T.length < m ∧ st'.free = 0
      | some d' => T.length = m ∧
          ∀ j < 14, word d' j = if n ≤ j ∧ j < 12 then T.getD (j - n) (word d j) else word d j)) st := by
  induction m with
  | zero =>
    refine fun n st d ↦ ⟨[], ⟨Took.nil st, by simp, fun _ _ ↦ rfl, rfl⟩, rfl, fun j _ ↦ ?_⟩
    simp
  | succ m ih =>
    intro n st d
    refine wp_bind.mpr (wp_allocate_free (fun h0 ↦ ⟨trivial, [], ?_, Nat.succ_pos m, h0⟩)
      fun x st₁ ht hfree ↦ ⟨trivial, ?_⟩)
    · exact ⟨Took.nil st, by simp, fun _ _ ↦ rfl, rfl⟩
    · refine ends_bwrite ?_
      refine wp_mono (ih (n + 1) _ _) ?_
      rintro r st₂ ⟨T, hz, hr⟩
      refine ⟨x :: T, hz.cons ht hfree, ?_⟩
      cases r with
      | none => exact ⟨Nat.succ_lt_succ hr.1, hr.2⟩
      | some d' =>
        refine ⟨congrArg (· + 1) hr.1, fun j hj ↦ ?_⟩
        rw [hr.2 j hj]
        by_cases hjn : j = n
        · subst hjn
          rw [if_neg (by omega)]
          unfold setBlockSector
          by_cases hlt : j < 12
          · rw [if_pos hlt, if_pos ⟨le_rfl, hlt⟩, word_setWord_self (by omega) ht.lt, Nat.sub_self]
            rfl
          · rw [if_neg hlt, if_neg (by omega)]
        · have hkeep : word (setBlockSector d n x) j = word d j := by
            unfold setBlockSector
            split
            · exact word_setWord_ne hjn
            · rfl
          rw [hkeep]
          by_cases hin : n ≤ j ∧ j < 12
          · rw [if_pos hin, if_pos (by omega), show j - n = j - (n + 1) + 1 by omega]
            rfl
          · rw [if_neg hin, if_neg (by omega)]

theorem ends_inodeCreate_zeroed (st : State) (s : Nat) (len : Int) (isDir : Bool) :
    Ends (inodeCreate s len isDir) (fun ok st' ↦ ∃ st₁ T, Zeroed st st₁ T ∧
      (ok = false → T.length < bytesToSectors len ∧ st₁.free = 0 ∧ st' = st₁) ∧
      (ok = true → T.length = bytesToSectors len ∧ ∃ d, st' = st₁.write s d ∧
        ∀ j < 14, word d j = if j < 12 then T.getD j 0 else 0)) st := by
  have hword : ∀ j < 14, word (setIsDir (setEnd newBoxed len) isDir) j = 0 := by
    intro j hj
    rw [setIsDir, word_setByte (by omega), word_setEnd hj, newBoxed, word_setWord_ne (by omega), word_zero]
  unfold inodeCreate
  rw [range_eq_range']
  refine wp_seq (ends_createLoop_zeroed _ 0 st _) ?_
  rintro r st₁ ⟨T, hz, hr⟩
  cases r with
  | none => exact ⟨st₁, T, hz, fun _ ↦ ⟨hr.1, hr.2, rfl⟩, fun h ↦ by cases h⟩
  | some d =>
    refine ends_bwrite ?_
    refine ⟨st₁, T, hz, (fun h ↦ by cases h), fun _ ↦ ⟨hr.1, d, rfl, fun j hj ↦ ?_⟩⟩
    rw [hr.2 j hj, hword j hj]
    simp

/-- Of the sectors that `create` takes for a new inode, the first twelve are its blocks and the others are
lost. So the inode has all its blocks exactly when its length is at most 6144. It is created in a sector
that the free map does not hand out. -/
theorem inode_create_finds_blocks (st : State) (s : Nat) (len : Int) (isDir : Bool)
    (hs : s < 2 ∨ st.Used s) (hfree : bytesToSectors len ≤ st.free) :
    ∃ (st' : State) (T : List Nat), run (inodeCreate s len isDir) st = (true, st') ∧ T.length = bytesToSectors len ∧ T.Nodup ∧
      (∀ z, st'.Used z ↔ st.Used z ∨ z ∈ T) ∧ (∀ x ∈ T, ¬ st.Used x) ∧
      (∀ b x, T[b]? = some x →
        run (getBlockSectorDisk (st'.disk s) b) st' = (if b < 12 then some x else none, st') ∧ st'.disk x = zero) ∧
      ((∀ b x, T[b]? = some x → run (getBlockSectorDisk (st'.disk s) b) st' = (some x, st')) ↔ len ≤ 12 * 512) := by
  obtain ⟨st₁, T, hz, hno, hok⟩ := run_of_ends (ends_inodeCreate_zeroed st s len isDir)
  have hrun : (run (inodeCreate s len isDir) st).1 = true := by
    by_contra hfalse
    obtain ⟨hlt, h0, -⟩ := hno (Bool.eq_false_of_not_eq_true hfalse)
    have := hz.took.space
    omega
  obtain ⟨hT, d, hst', hword⟩ := hok hrun
  have hself : (st₁.write s d).disk s = d := update_self _ _ _
  have hfind : ∀ b x, T[b]? = some x →
      run (getBlockSectorDisk ((st₁.write s d).disk s) b) (st₁.write s d) =
        (if b < 12 then some x else none, st₁.write s d) := by
    intro b x hb
    rw [hself, getBlockSectorDisk]
    split_ifs with h12 h140 h0 h0
    · have hx0 : x ≠ 0 := by
        have := hz.took.ge x (mem_of_getElem? hb)
        omega
      rw [hword b (by omega), if_pos h12, getD_eq_getElem?_getD, hb, Option.getD_some, nonzero, if_neg hx0]
      rfl
    · rfl
    · exact absurd (hword 12 (by omega)) h0
    · rfl
    · exact absurd (hword 13 (by omega)) h0
  refine ⟨st₁.write s d, T, Prod.ext hrun hst', hT, hz.took.nodup, hz.took.used, hz.took.free,
    fun b x hb ↦ ⟨hfind b x hb, ?_⟩, fun hall ↦ ?_, fun hlen b x hb ↦ ?_⟩
  · have hx : x ∈ T := mem_of_getElem? hb
    have hxs : x ≠ s := by
      rintro rfl
      rcases hs with hs | hs
      · exact absurd (hz.took.ge x hx) (by omega)
      · exact hz.took.free x hx hs
    rw [State.write_disk, update_of_ne hxs]
    exact hz.zero x hx
  · by_contra hlen
    -- the thirteenth sector has no place in the inode
    have hn : 12 < T.length := by
      rw [hT, bytesToSectors, if_neg (by omega)]
      omega
    have hb : T[12]? = some T[12] := List.getElem?_eq_getElem hn
    have hnone := (hall 12 _ hb).symm.trans (hfind 12 _ hb)
    cases (Prod.mk.inj hnone).1
  · have hn : bytesToSectors len ≤ 12 := by
      unfold bytesToSectors
      split <;> omega
    rw [hfind b x hb, if_pos ((List.getElem?_eq_some_iff.mp hb).1.trans_le (hT.trans_le hn))]

def roomy : State where
  disk _ := zero
  freeMap := ⟨[true, true, true] ++ List.replicate 14 false, by decide⟩
  openInodes _ := none

theorem used_roomy : roomy.Used 2 := show roomy.freeMap.test 2 = true by decide

theorem inode_create_finds_blocks_twelve :
    ∃ (st' : State) (T : List Nat), run (inodeCreate 2 6144 false) roomy = (true, st') ∧ T.length = 12 ∧
      ∀ b x, T[b]? = some x → run (getBlockSectorDisk (st'.disk 2) b) st' = (some x, st') := by
  obtain ⟨st', T, hrun, hT, -, -, -, -, hfind⟩ := inode_create_finds_blocks roomy 2 6144 false (.inr used_roomy)
    (by decide +kernel)
  exact ⟨st', T, hrun, hT, hfind.mpr (by norm_num)⟩

/-- A thirteenth block is taken from the free map and lost. -/
theorem inode_create_loses_block :
    bytesToSectors 6145 = 13 ∧ bytesToSectors 6145 ≤ roomy.free ∧ roomy.Used 2 ∧
      (run (inodeCreate 2 6145 false) roomy).1 = true ∧
      roomy.free = (run (inodeCreate 2 6145 false) roomy).2.free + 13 ∧
      (run (getBlockSectorDisk ((run (inodeCreate 2 6145 false) roomy).2.disk 2) 12)
        (run (inodeCreate 2 6145 false) roomy).2).1 = none := by
  exact ⟨by decide, by decide +kernel, used_roomy, by decide +kernel, by decide +kernel, by decide +kernel⟩

end Rxv6.Filesys
