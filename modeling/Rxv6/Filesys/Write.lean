import Rxv6.Filesys.Growth

namespace Rxv6.Filesys

open Lib Lib.BlockTree Function Sector InodeDisk List

abbrev Ends {α : Type} (p : Prog α) (Q : α → State → Prop) (st : State) : Prop :=
  wp (fun _ _ ↦ True) (fun _ ↦ True) p Q st

section Rules

variable {β : Type} {Q : β → State → Prop} {st : State} {s : Nat} {k : Unit → Prog β}

theorem ends_bwrite {f : Sector → Sector} (h : Ends (k ()) Q (st.write s (f (st.disk s)))) :
    Ends (bwrite s f >>= k) Q st := wp_bind.mpr (wp_bwrite (fun _ ↦ trivial) fun _ ↦ h)

theorem ends_bread {k : Sector → Prog β} (h : Ends (k (st.disk s)) Q st) : Ends (bread s >>= k) Q st :=
  wp_bind.mpr (wp_bread trivial h)

theorem ends_getInode {k : Option Inode → Prog β} (h : Ends (k (st.openInodes s)) Q st) :
    Ends (getInode s >>= k) Q st := wp_bind.mpr (wp_getInode trivial h)

theorem ends_setInode {f : Option Inode → Option Inode}
    (h : Ends (k ()) Q (st.withInode s (f (st.openInodes s)))) : Ends (setInode s f >>= k) Q st :=
  wp_bind.mpr (wp_setInode trivial h)

end Rules

variable {α : Type} {v : Sector} {c size : Nat}

section

variable {p : Prog α} {Q : α → State → Prop} {st : State}

theorem run_of_ends (h : Ends p Q st) :
    Q (run p st).1 (run p st).2 := Program.Prog.run_of_wp h

theorem ends_of_run
    (h : Q (run p st).1 (run p st).2) : Ends p Q st := Program.Prog.wp_of_run h

end

/-- A `write_at` that has a new sector `x` in its hands for block `b`, which has none. -/
structure Seeking (st₀ : State) (d₀ : InodeDisk) (buf : List UInt8) (off : Nat) (st : State)
    (d : InodeDisk) (n x b : Nat) : Prop where
  writing : Writing st₀ d₀ buf off st d n none
  loose : Loose st₀ st d x
  lt : b < 16524
  hole : addr word st.disk d (blockPos b) = 0

variable {st₀ st st' : State} {d₀ d d' : InodeDisk} {buf : List UInt8} {off n x y i j b : Nat}
variable {p : List Nat}

section

variable (h : Seeking st₀ d₀ buf off st d n x b)
include h

theorem Seeking.relink (hw : Writing st₀ d₀ buf off st' d' n none)
    (hp : fileShape.Index p) (hxy : x ≠ y)
    (haddr : ∀ u, IsPos u → addr word st'.disk d' u = if u = p then y else addr word st.disk d u)
    (hmap : st'.freeMap = st.freeMap) : Seeking st₀ d₀ buf off st' d' n x b where
  writing := hw
  loose := h.loose.relink hxy haddr hmap
  lt := h.lt
  hole := by
    rw [haddr _ (isPos_blockPos h.lt), if_neg (blockPos_ne_index hp)]
    exact h.hole

theorem Seeking.take (ht : Taken st st' y) :
    Seeking st₀ d₀ buf off st' d n x b where
  writing := h.writing.take ht
  loose := h.loose.take ht
  lt := h.lt
  hole := by
    rw [ht.disk]
    exact h.hole

theorem Seeking.store_loose
    (hy : Loose st₀ st d y) : Seeking st₀ d₀ buf off (st.write y v) d n x b where
  writing := h.writing.store_loose hy
  loose := h.loose.store fun q hq ↦ hy.apart q hq.1
  lt := h.lt
  hole := by
    rw [State.write_disk, addr_update (S := fileShape) (isPos_blockPos h.lt) v fun q hq ↦ hy.apart q hq.1]
    exact h.hole

end

theorem index_root (hi : i = 12 ∨ i = 13) : fileShape.Index [i] := by
  refine ⟨?_, 0, ?_⟩
  · show i < 14
    omega
  · exact ⟨by omega, hi⟩

theorem index_inner (hj : j < 128) : fileShape.Index [j, 13] :=
  ⟨⟨hj, .inr rfl⟩, 0, by norm_num, hj, rfl⟩

theorem ends_indexBlockFor (h : Seeking st₀ d₀ buf off st d n x b) (hi : i = 12 ∨ i = 13) :
    Ends (indexBlockFor d i) (fun r st' ↦ match r with
      | none => Writing st₀ d₀ buf off st' d n none ∧ addr word st'.disk d (blockPos b) = 0
      | some d' => Seeking st₀ d₀ buf off st' d' n x b ∧ word d' i ≠ 0 ∧
          ∀ u, IsPos u → u ≠ [i] → addr word st'.disk d' u = addr word st.disk d u) st := by
  unfold indexBlockFor
  split
  · next hfree =>
    refine wp_bind.mpr (wp_allocate ⟨trivial, h.writing, h.hole⟩ fun y st₁ ht _ ↦ ⟨trivial, ?_⟩)
    have hxy : x ≠ y := fun he ↦ ht.free (he ▸ h.loose.used)
    have hy : Loose st₀ st₁ d y := h.writing.loose ht
    have h₂ := (h.take ht).store_loose (v := zero) hy
    have hy₂ : Loose st₀ (st₁.write y zero) d y := hy.store fun q hq ↦ hy.apart q hq.1
    have hempty : (st₁.write y zero).disk y = zero := update_self _ _ _
    have haddr : ∀ u, IsPos u → addr word (st₁.write y zero).disk (setWord d i y) u =
        if u = [i] then y else addr word (st₁.write y zero).disk d u := fun u hu ↦
      addr_link_root (S := fileShape) hu (fun j ↦ word_setWord (by omega) hy.lt) hfree
        fun j _ ↦ by rw [hempty, word_zero]
    refine wp_bind.mpr (wp_bwrite (fun _ ↦ trivial) fun _ ↦ ⟨?_, ?_, fun u hu hne ↦ ?_⟩)
    · refine h₂.relink ?_ (index_root hi) hxy haddr rfl
      exact h₂.writing.link_root hy₂ (by omega) hfree (fun _ ↦ hempty)
        (fun c _ _ ↦ ⟨by simp, (blockPos_ne_index (index_root hi)).symm⟩) (fun c hc ↦ by cases hc)
    · rw [word_setWord_self (by omega) hy.lt]
      exact hy.ne_zero
    · rw [haddr u hu, if_neg hne, State.write_disk, addr_update (S := fileShape) hu _ fun q hq ↦ hy.apart q hq.1,
        ht.disk]
  · next hne => exact ⟨h, hne, fun _ _ _ ↦ rfl⟩

theorem write_comm {a : Nat} {w : Sector} (hac : a ≠ c) :
    (st.write a v).write c w = (st.write c w).write a v := by
  simp only [State.write, update_comm hac]

theorem ends_innerBlockFor (h : Seeking st₀ d₀ buf off st d n x b) (hroot : word d 13 ≠ 0)
    (hj : j < 128) :
    Ends (innerBlockFor (word d 13) j) (fun r st' ↦ match r with
      | none => Writing st₀ d₀ buf off st' d n none ∧ addr word st'.disk d (blockPos b) = 0
      | some z => Seeking st₀ d₀ buf off st' d n x b ∧ addr word st'.disk d [j, 13] = z ∧ z ≠ 0 ∧
          ∀ u, IsPos u → u ≠ [j, 13] → addr word st'.disk d u = addr word st.disk d u) st := by
  have haddr : ∀ s : State, addr word s.disk d [13] = word d 13 := fun _ ↦ rfl
  refine ends_bread ?_
  split
  · next hfree =>
    refine wp_bind.mpr (wp_allocate ⟨trivial, h.writing, h.hole⟩ fun z st₁ ht _ ↦ ⟨trivial, ?_⟩)
    have hxz : x ≠ z := fun he ↦ ht.free (he ▸ h.loose.used)
    have hz : Loose st₀ st₁ d z := h.writing.loose ht
    have hzo : word d 13 ≠ z := hz.apart [13] (index_root (.inr rfl)).1
    have h₂ := (h.take ht).store_loose (v := zero) hz
    have hz₂ : Loose st₀ (st₁.write z zero) d z := hz.store fun q hq ↦ hz.apart q hq.1
    have hold : (st₁.write z zero).disk (word d 13) = st₁.disk (word d 13) := update_of_ne hzo _ _
    have hfree₂ : word ((st₁.write z zero).disk (word d 13)) j = 0 := by
      rw [hold, ht.disk]
      exact hfree
    have hempty : (st₁.write z zero).disk z = zero := update_self _ _ _
    set st₃ := (st₁.write z zero).write (word d 13)
      _ with hst₃
    obtain ⟨hw, hlink⟩ : Writing st₀ d₀ buf off st₃ d n none ∧ addr word st₃.disk d [j, 13] = z :=
      h₂.writing.link_block hz₂ (index_root (.inr rfl)) (haddr _) hroot (index_inner hj).1 hj hfree₂
        (fun _ ↦ hempty) (fun c _ _ ↦ ⟨by simp, (blockPos_ne_index (index_inner hj)).symm⟩)
        (fun c hc ↦ by cases hc)
    refine ends_bwrite ?_
    refine ends_bwrite ?_
    rw [write_comm hzo, ← hold]
    have hslot : ∀ u, IsPos u → addr word st₃.disk d u =
        if u = [j, 13] then z else addr word (st₁.write z zero).disk d u := by
      intro u hu
      refine addr_link (S := fileShape) hu (haddr _) hroot (fun q hq hqy ↦ ?_)
        (fun k ↦ word_setWord hj hz.lt) hfree₂ hzo.symm fun k _ ↦ by rw [hempty, word_zero]
      exact h₂.writing.tree.inj hq.1 (index_root (.inr rfl)).1 (hqy ▸ hroot) hqy
    refine ⟨h₂.relink hw (index_inner hj) hxz hslot rfl, hlink, hz.ne_zero, fun u hu hne ↦ ?_⟩
    rw [hslot u hu, if_neg hne, State.write_disk, addr_update (S := fileShape) hu _ fun q hq ↦ hz.apart q hq.1,
      ht.disk]
  · next hne =>
    refine ⟨h, ?_, hne, fun _ _ _ ↦ rfl⟩
    exact addr_cons_of_eq (haddr st) hroot

/-- The new sector of block `b` is linked and holds whatever it held. -/
structure Linked (st₀ : State) (d₀ : InodeDisk) (buf : List UInt8) (off : Nat) (st : State)
    (d : InodeDisk) (n x b : Nat) : Prop where
  writing : Writing st₀ d₀ buf off st d n (some b)
  addr : addr word st.disk d (blockPos b) = x
  new : ¬ st₀.Used x
  ne_zero : x ≠ 0

theorem Seeking.link_block (h : Seeking st₀ d₀ buf off st d n x b) (hp : fileShape.Index p)
    (hy : addr word st.disk d p = y) (hy0 : y ≠ 0) (hb : blockPos b = i :: p) (hi : i < 128) :
    Linked st₀ d₀ buf off (st.write y (setWord (st.disk y) i x)) d n x b ∧
      ∀ u, IsPos u → u ≠ blockPos b →
        addr word (st.write y (setWord (st.disk y) i x)).disk d u = addr word st.disk d u := by
  have hpos := isPos_blockPos h.lt
  have hhole := h.hole
  rw [hb, addr_cons_of_eq hy hy0] at hhole
  obtain ⟨hw, ha⟩ : Writing st₀ d₀ buf off _ d n (some b) ∧ _ :=
    h.writing.link_block h.loose hp hy hy0 (hb ▸ hpos) hi hhole
      (fun hidx ↦ absurd hb (blockPos_ne_index hidx))
      (fun c _ hc ↦ ⟨by simp, fun he ↦ hc (congrArg some (blockPos_inj (hb.trans he)))⟩)
      (fun c hc ↦ .inr (by cases hc; exact ⟨h.lt, hb.symm⟩))
  refine ⟨⟨hw, by rw [hb]; exact ha, h.loose.new, h.loose.ne_zero⟩, fun u hu hne ↦ ?_⟩
  rw [State.write_disk, addr_link (S := fileShape) hu hy hy0
    (fun q hq hqy ↦ h.writing.tree.inj hq.1 hp.1 (hqy ▸ hy0) (hqy.trans hy.symm))
    (fun j ↦ word_setWord hi h.loose.lt) hhole (fun hxy ↦ h.loose.apart p hp.1 (hy.trans hxy.symm))
    fun j hj ↦ absurd hb (blockPos_ne_index ⟨hb ▸ hpos, j, hj⟩), if_neg (hb ▸ hne)]

theorem Seeking.link_root (h : Seeking st₀ d₀ buf off st d n x b) (hb : b < 12) :
    Linked st₀ d₀ buf off st (setWord d b x) n x b ∧
      ∀ u, IsPos u → u ≠ blockPos b → addr word st.disk (setWord d b x) u = addr word st.disk d u := by
  have hpos : blockPos b = [b] := if_pos hb
  have hhole := h.hole
  rw [hpos] at hhole
  refine ⟨⟨h.writing.link_root h.loose (by omega) hhole (fun hge ↦ absurd hge (by omega)) ?_ ?_, ?_,
    h.loose.new, h.loose.ne_zero⟩, fun u hu hne ↦ ?_⟩
  · exact fun c _ hc ↦ ⟨by simp, fun he ↦ hc (congrArg some (blockPos_inj (hpos.trans he)))⟩
  · intro c hc
    cases hc
    exact .inr ⟨h.lt, hpos.symm⟩
  · rw [hpos]
    exact word_setWord_self (by omega) h.loose.lt
  · rw [addr_link_root (S := fileShape) hu (fun j ↦ word_setWord (by omega) h.loose.lt) hhole fun j hj ↦ ?_,
      if_neg (hpos ▸ hne)]
    have := hj.2
    omega

/-- The positions on the way from the inode to block `b`. -/
def path (b : Nat) : Finset (List Nat) :=
  if b < 12 then {[b]}
  else if b < 140 then {[b - 12, 12], [12]}
  else {[(b - 140) % 128, (b - 140) / 128, 13], [(b - 140) / 128, 13], [13]}

theorem blockPos_mem_path (b : Nat) : blockPos b ∈ path b := by
  unfold blockPos path
  split_ifs <;> simp

theorem ends_allocateBlockFor (h : Writing st₀ d₀ buf off st d n none) (hb : b < 16524)
    (hhole : addr word st.disk d (blockPos b) = 0) :
    Ends (allocateBlockFor d b) (fun r st' ↦ match r with
      | (none, d') => Writing st₀ d₀ buf off st' d' n none ∧ addr word st'.disk d' (blockPos b) = 0
      | (some x, d') => Linked st₀ d₀ buf off st' d' n x b ∧
          ∀ u, IsPos u → u ∉ path b → addr word st'.disk d' u = addr word st.disk d u) st := by
  refine wp_bind.mpr (wp_allocate ⟨trivial, h, hhole⟩ fun x st₁ ht _ ↦ ⟨trivial, ?_⟩)
  have hs : Seeking st₀ d₀ buf off st₁ d n x b := ⟨h.take ht, h.loose ht, hb, by rwa [ht.disk]⟩
  have hend : ∀ u, u ∉ path b → u ≠ blockPos b := fun u hu he ↦ hu (he ▸ blockPos_mem_path b)
  rw [← ht.disk]
  simp only
  split
  · next hb' =>
    obtain ⟨hlink, hother⟩ := hs.link_root hb'
    exact ⟨hlink, fun u hu hpath ↦ hother u hu (hend u hpath)⟩
  · next hge =>
    split
    · next hb' =>
      refine wp_seq (ends_indexBlockFor hs (.inl rfl)) fun r st₂ hr ↦ ?_
      cases r with
      | none => exact hr
      | some d' =>
        refine ends_bwrite ?_
        obtain ⟨hlink, hother⟩ := hr.1.link_block (i := b - 12) (index_root (.inl rfl)) rfl hr.2.1
          (by rw [blockPos, if_neg hge, if_pos hb']) (by omega)
        refine ⟨hlink, fun u hu hpath ↦ (hother u hu (hend u hpath)).trans (hr.2.2 u hu ?_)⟩
        rintro rfl
        simp [path, hge, hb'] at hpath
    · next hge' =>
      refine wp_seq (ends_indexBlockFor hs (.inr rfl)) fun r st₂ hr ↦ ?_
      cases r with
      | none => exact hr
      | some d' =>
        have hj : (b - 140) / 128 < 128 := by omega
        refine wp_seq (ends_innerBlockFor hr.1 hr.2.1 hj) fun r st₃ hr' ↦ ?_
        cases r with
        | none => exact ⟨hr'.1, hr'.2⟩
        | some z =>
          refine ends_bwrite ?_
          obtain ⟨hlink, hother⟩ := hr'.1.link_block (i := (b - 140) % 128) (index_inner hj) hr'.2.1 hr'.2.2.1
            (by rw [blockPos, if_neg hge, if_neg hge']) (by omega)
          refine ⟨hlink, fun u hu hpath ↦ ?_⟩
          rw [path, if_neg hge, if_neg hge'] at hpath
          simp only [Finset.mem_insert, Finset.mem_singleton, not_or] at hpath
          rw [hother u hu (by rw [blockPos, if_neg hge, if_neg hge']; exact hpath.1), hr'.2.2.2 u hu hpath.2.1,
            hr.2.2 u hu hpath.2.2]

def AtBlock (off n : Nat) : Prop := n = 0 ∨ (off + n) % 512 = 0

theorem ends_dataSectorFor (h : Writing st₀ d₀ buf off st d n none) (hat : AtBlock off n)
    (hb : (off + n) / 512 < 16524) :
    Ends (dataSectorFor d ((off + n) / 512)) (fun r st' ↦ match r with
      | (none, d') => Writing st₀ d₀ buf off st' d' n none ∧
          addr word st'.disk d' (blockPos ((off + n) / 512)) = 0
      | (some x, d') => Writing st₀ d₀ buf off st' d' n none ∧
          addr word st'.disk d' (blockPos ((off + n) / 512)) = x ∧ x ≠ 0) st := by
  refine wp_bind.mpr (wp_getBlockSectorDisk trivial ?_)
  cases hx : nonzero _ with
  | some x =>
    obtain ⟨ha, hx0⟩ := nonzero_eq_some.mp hx
    exact ⟨h, ha, hx0⟩
  | none =>
    refine wp_seq (ends_allocateBlockFor h hb (nonzero_eq_none.mp hx)) fun r st₁ hr ↦ ?_
    obtain ⟨o, d'⟩ := r
    cases o with
    | none => exact hr
    | some x =>
      refine ends_bwrite ?_
      replace hr := hr.1
      have hw := hr.writing.fill hr.addr hr.new hr.ne_zero (fun k hk ↦ by
        rcases hat with rfl | hat <;> omega) (by omega)
      refine ⟨hw, ?_, hr.ne_zero⟩
      rw [State.write_disk, addr_update (S := fileShape) (isPos_blockPos hb) zero fun q hq he ↦ ?_]
      · exact hr.addr
      · refine blockPos_ne_index hq (hr.writing.tree.inj (isPos_blockPos hb) hq.1 ?_ ?_)
        · rw [hr.addr]
          exact hr.ne_zero
        · rw [hr.addr, he]

theorem overwrite_add {f : Nat → UInt8} {k : Nat} (h : ¬ (off + n ≤ k ∧ k < off + n + c)) :
    overwrite f buf off (n + c) k = overwrite f buf off n k := by
  unfold overwrite
  by_cases hk : off ≤ k ∧ k < off + n
  · rw [if_pos hk, if_pos (by omega)]
  · rw [if_neg hk, if_neg (by omega)]

theorem getD_take_drop {j : Nat} (hj : j < c) : ((buf.drop n).take c).getD j 0 = buf.getD (n + j) 0 := by
  rw [getD_eq_getElem?_getD, getElem?_take_of_lt hj, getElem?_drop, getD_eq_getElem?_getD]

theorem Writing.chunk (h : Writing st₀ d₀ buf off st d n none)
    (hb : (off + n) / 512 < 16524) (hx : addr word st.disk d (blockPos ((off + n) / 512)) = x)
    (hx0 : x ≠ 0) (hc : c ≤ 512 - (off + n) % 512) (hlen : n + c ≤ buf.length) :
    Writing st₀ d₀ buf off
      (st.write x (splice (st.disk x) ((off + n) % 512) ((buf.drop n).take c))) d (n + c) none := by
  have hpos := isPos_blockPos hb
  have hindex : ∀ q, fileShape.Index q → addr word st.disk d q ≠ x := fun q hq he ↦
    blockPos_ne_index hq (h.tree.inj hpos hq.1 (hx ▸ hx0) (hx.trans he.symm))
  have hlenc : ((buf.drop n).take c).length = c := by
    rw [length_take, length_drop]
    omega
  refine h.store hindex ?_ (fun k _ ↦ ?_) (fun b hb ↦ by cases hb) fun b hb ↦ .inr ?_
  · by_cases hs : addr word st.disk d (blockPos ((off + n) / 512)) =
        addr word st₀.disk d₀ (blockPos ((off + n) / 512))
    · exact .inr ⟨hx0, _, hpos, hs.symm.trans hx⟩
    · exact .inl (hx ▸ (h.fresh _ hpos hs).2)
  · have hold := h.content k (by simp)
    by_cases hk : k / 512 < 16524
    · have hkpos := isPos_blockPos hk
      have ha := addr_update hkpos
        (splice (st.disk x) ((off + n) % 512) ((buf.drop n).take c)) hindex
      by_cases hkb : k / 512 = (off + n) / 512
      · rw [fileByte, hkb, hx, if_neg hx0] at hold
        rw [hkb, hx] at ha
        rw [fileByte, hkb, ha, if_neg hx0, update_self, byte_splice, hold]
        by_cases hin : off + n ≤ k ∧ k < off + n + c
        · rw [if_pos (by omega), getD_take_drop (by omega), overwrite, if_pos (by omega)]
          congr 1
          omega
        · rw [if_neg (by omega), overwrite_add hin]
      · rw [overwrite_add (by omega), ← hold]
        refine fileByte_congr ha fun h0 ↦ update_of_ne (fun he ↦ hkb ?_) _ _
        exact blockPos_inj (h.tree.inj hkpos hpos h0 (he.trans hx.symm))
    · rw [fileByte_of_ge (by omega), overwrite_add (by omega), ← hold, fileByte_of_ge (by omega)]
  · have := hb.resolve_left (by simp)
    omega

theorem ends_writeLoop_le : ∀ turns st d n off, n ≤ size →
    Ends (writeLoop buf size turns d n off) (fun r _ ↦ n ≤ r.2 ∧ r.2 ≤ size) st := by
  intro turns
  induction turns with
  | zero => exact fun st d n off hn ↦ ⟨le_rfl, hn⟩
  | succ turns ih =>
    intro st d n off hn
    unfold writeLoop
    split
    · next hlt =>
      refine wp_seq Program.Prog.wp_true fun r st₁ _ ↦ ?_
      obtain ⟨o, d'⟩ := r
      cases o with
      | none => exact ⟨le_rfl, hn⟩
      | some x =>
        refine ends_bwrite ?_
        refine wp_mono (ih _ _ _ _ (by omega)) fun r st₂ hr ↦ ?_
        exact ⟨(Nat.le_add_right _ _).trans hr.1, hr.2⟩
    · exact ⟨le_rfl, hn⟩

theorem ends_writeLoop (hmax : off + size ≤ 16524 * 512) :
    ∀ turns st d n, Writing st₀ d₀ buf off st d n none → AtBlock off n ∨ n = size → n ≤ size →
      Ends (writeLoop buf size turns d n (off + n))
        (fun r st' ↦ r.2 ≤ size ∧ (r.2 ≤ buf.length → Writing st₀ d₀ buf off st' r.1 r.2 none)) st := by
  intro turns
  induction turns with
  | zero => exact fun st d n h _ hn ↦ ⟨hn, fun _ ↦ h⟩
  | succ turns ih =>
    intro st d n h hat hn
    unfold writeLoop
    split
    · next hlt =>
      have hat : AtBlock off n := hat.resolve_right (by omega)
      have hb : (off + n) / 512 < 16524 := by omega
      refine wp_seq (ends_dataSectorFor h hat hb) fun r st₁ hr ↦ ?_
      obtain ⟨o, d'⟩ := r
      cases o with
      | none => exact ⟨hn, fun _ ↦ hr.1⟩
      | some x =>
        obtain ⟨hw, hx, hx0⟩ := hr
        refine ends_bwrite ?_
        by_cases hfit : n + min (512 - (off + n) % 512) (size - n) ≤ buf.length
        · have hnext := hw.chunk hb hx hx0 (min_le_left _ _) hfit
          have hgo := ih _ _ _ hnext ?_ (by omega)
          · rwa [← Nat.add_assoc] at hgo
          · unfold AtBlock
            omega
        · refine wp_mono (ends_writeLoop_le _ _ _ _ _ (by omega)) fun r st₂ hr ↦ ?_
          exact ⟨hr.2, fun hlen ↦ absurd (hr.1.trans hlen) hfit⟩
    · exact ⟨hn, fun _ ↦ h⟩

end Rxv6.Filesys
