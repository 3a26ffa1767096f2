import Rxv6.Filesys.Index

namespace Rxv6.Filesys

open Lib.BlockTree Function Sector

/-- The contents of a file after `n` bytes of `buf` have been written at `off`. -/
def overwrite (f : Nat → UInt8) (buf : List UInt8) (off n : Nat) : Nat → UInt8 := fun k ↦
  if off ≤ k ∧ k < off + n then buf.getD (k - off) 0 else f k

/-- The sector was taken from the free map after `st₀` and the index of `d` does not have it. -/
structure Loose (st₀ st : State) (d : InodeDisk) (x : Nat) : Prop where
  new : ¬ st₀.Used x
  used : st.Used x
  ne_zero : x ≠ 0
  lt : x < 4294967296
  apart : ∀ u, IsPos u → addr word st.disk d u ≠ x

/-- A `write_at` that began on the inode `d₀` in `st₀` has reached `st` with the private copy
`d` and `n` bytes written. The new sector of block `pending` is linked and not yet zeroed. -/
structure Writing (st₀ : State) (d₀ : InodeDisk) (buf : List UInt8) (off : Nat) (st : State)
    (d : InodeDisk) (n : Nat) (pending : Option Nat) : Prop where
  tree : Tree word fileShape st.disk d st.Used
  mono : ∀ z, st₀.Used z → st.Used z
  fresh : ∀ u, IsPos u → addr word st.disk d u ≠ addr word st₀.disk d₀ u →
    addr word st₀.disk d₀ u = 0 ∧ ¬ st₀.Used (addr word st.disk d u)
  foreign : ∀ z, st₀.Used z →
    (∀ u, IsPos u → addr word st₀.disk d₀ u ≠ 0 → addr word st₀.disk d₀ u ≠ z) → st.disk z = st₀.disk z
  fields : ∀ k, 56 ≤ k → byte d k = byte d₀ k
  openInodes : st.openInodes = st₀.openInodes
  content : ∀ k, pending ≠ some (k / 512) →
    fileByte st.disk d k = overwrite (fileByte st₀.disk d₀) buf off n k
  hole : ∀ b, pending = some b → b < 16524 ∧ addr word st₀.disk d₀ (blockPos b) = 0
  reached : ∀ b < 16524, addr word st.disk d (blockPos b) ≠ addr word st₀.disk d₀ (blockPos b) →
    pending = some b ∨ off / 512 ≤ b ∧ b * 512 ≤ off + n

namespace Writing

variable {st₀ st st' : State} {d₀ d d' : InodeDisk} {buf : List UInt8} {off n n' x y z i b : Nat}
variable {e e' : Option Nat} {p u : List Nat}

theorem start (h : Tree word fileShape st.disk d st.Used) : Writing st d buf off st d 0 none where
  tree := h
  mono _ hz := hz
  fresh u _ hne := absurd rfl hne
  foreign _ _ _ := rfl
  fields _ _ := rfl
  openInodes := rfl
  content k _ := by rw [overwrite, if_neg (by omega)]
  hole _ hb := by cases hb
  reached _ _ hne := absurd rfl hne

section

variable (h : Writing st₀ d₀ buf off st d n e)

include h

theorem addr_keep (hu : IsPos u) (h0 : addr word st₀.disk d₀ u ≠ 0) :
    addr word st.disk d u = addr word st₀.disk d₀ u := by
  by_contra hne
  exact h0 (h.fresh u hu hne).1

theorem ne_foreign (hu : IsPos u) (hz : st₀.Used z)
    (hout : ∀ u, IsPos u → addr word st₀.disk d₀ u ≠ 0 → addr word st₀.disk d₀ u ≠ z)
    (h0 : addr word st.disk d u ≠ 0) : addr word st.disk d u ≠ z := by
  intro he
  by_cases hs : addr word st.disk d u = addr word st₀.disk d₀ u
  · exact hout u hu (hs ▸ h0) (hs ▸ he)
  · exact (h.fresh u hu hs).2 (he ▸ hz)

theorem take (ht : Taken st st' x) : Writing st₀ d₀ buf off st' d n e := by
  have hmono : ∀ z, st.Used z → st'.Used z := fun z hz ↦ (ht.used z).mpr (.inr hz)
  have hd := ht.disk
  refine ⟨?_, fun z hz ↦ hmono z (h.mono z hz), ?_, ?_, h.fields, ht.openInodes.trans h.openInodes,
    ?_, h.hole, ?_⟩
  · rw [hd]
    exact h.tree.mono hmono
  · rw [hd]
    exact h.fresh
  · rw [hd]
    exact h.foreign
  · rw [hd]
    exact h.content
  · rw [hd]
    exact h.reached

theorem loose (ht : Taken st st' x) : Loose st₀ st' d x where
  new hx := ht.free (h.mono x hx)
  used := (ht.used x).mpr (.inl rfl)
  ne_zero := by
    have := ht.ge
    omega
  lt := ht.lt
  apart u hu he := by
    rw [ht.disk] at he
    refine ht.free (he ▸ h.tree.used hu ?_)
    have := ht.ge
    omega

theorem store {v : Sector} (hz : ∀ q, fileShape.Index q → addr word st.disk d q ≠ z)
    (hown : ¬ st₀.Used z ∨ z ≠ 0 ∧ ∃ u, IsPos u ∧ addr word st₀.disk d₀ u = z)
    (hcontent : ∀ k, e' ≠ some (k / 512) → fileByte (update st.disk z v) d k =
      overwrite (fileByte st₀.disk d₀) buf off n' k)
    (hhole : ∀ b, e' = some b → b < 16524 ∧ addr word st₀.disk d₀ (blockPos b) = 0)
    (hreach : ∀ b, e = some b ∨ off / 512 ≤ b ∧ b * 512 ≤ off + n →
      e' = some b ∨ off / 512 ≤ b ∧ b * 512 ≤ off + n') :
    Writing st₀ d₀ buf off (st.write z v) d n' e' := by
  have haddr : ∀ u, IsPos u → addr word (st.write z v).disk d u = addr word st.disk d u :=
    fun u hu ↦ addr_update hu v hz
  refine ⟨h.tree.congr haddr, h.mono, fun u hu hne ↦ ?_, fun y hy hout ↦ ?_, h.fields, h.openInodes,
    hcontent, hhole, fun b hb hne ↦ hreach b (h.reached b hb ?_)⟩
  · rw [haddr u hu] at hne ⊢
    exact h.fresh u hu hne
  · have hyz : y ≠ z := by
      rintro rfl
      rcases hown with hnew | ⟨hy0, u, hu, he⟩
      · exact hnew hy
      · exact hout u hu (he ▸ hy0) he
    rw [State.write_disk, update_of_ne hyz]
    exact h.foreign y hy hout
  · rwa [haddr _ (isPos_blockPos hb)] at hne

theorem store_loose {v : Sector} (hx : Loose st₀ st d z) : Writing st₀ d₀ buf off (st.write z v) d n e := by
  refine h.store (fun q hq ↦ hx.apart q hq.1) (.inl hx.new) (fun k hk ↦ ?_) h.hole fun _ ↦ id
  rw [← h.content k hk]
  by_cases hb : k / 512 < 16524
  · have hpos := isPos_blockPos hb
    refine fileByte_congr (addr_update (S := fileShape) hpos v fun q hq ↦ hx.apart q hq.1) fun _ ↦ ?_
    exact update_of_ne (hx.apart _ hpos) _ _
  · rw [fileByte_of_ge (by omega), fileByte_of_ge (by omega)]

theorem relink (hx : Loose st₀ st d x)
    (haddr : ∀ u, IsPos u → addr word st'.disk d' u = if u = p then x else addr word st.disk d u)
    (hfree : addr word st.disk d p = 0) (hp : IsPos p)
    (hmap : st'.freeMap = st.freeMap) (hopen : st'.openInodes = st.openInodes)
    (hdisk : ∀ z, st'.disk z ≠ st.disk z → z ≠ 0 ∧ ∃ q, fileShape.Index q ∧ addr word st.disk d q = z)
    (hfields : ∀ k, 56 ≤ k → byte d' k = byte d k)
    (he : ∀ b < 16524, e' ≠ some b → e ≠ some b ∧ p ≠ blockPos b)
    (hhole : ∀ b, e' = some b → e = some b ∨ b < 16524 ∧ p = blockPos b) :
    Writing st₀ d₀ buf off st' d' n e' := by
  have hused : ∀ z, st'.Used z ↔ st.Used z := fun z ↦ by rw [State.Used, State.Used, hmap]
  refine ⟨h.tree.link haddr hx.apart (fun z ↦ (hused z).mpr) ((hused x).mpr hx.used),
    fun z hz ↦ (hused z).mpr (h.mono z hz), fun u hu hne ↦ ?_, fun z hz hout ↦ ?_,
    fun k hk ↦ (hfields k hk).trans (h.fields k hk), hopen.trans h.openInodes, fun k hk ↦ ?_,
    fun b hb ↦ ?_, fun b hb hne ↦ ?_⟩
  · rw [haddr u hu] at hne ⊢
    split at hne
    · next hup =>
      rw [if_pos hup]
      refine ⟨?_, hx.new⟩
      by_contra h0
      rw [← h.addr_keep hu h0, hup] at h0
      exact h0 hfree
    · next hup =>
      rw [if_neg hup]
      exact h.fresh u hu hne
  · rw [← h.foreign z hz hout]
    by_contra hne
    obtain ⟨hz0, q, hq, hqz⟩ := hdisk z hne
    exact h.ne_foreign hq.1 hz hout (hqz ▸ hz0) hqz
  · by_cases hb : k / 512 < 16524
    · obtain ⟨hek, hpk⟩ := he _ hb hk
      rw [← h.content k hek]
      have hpos := isPos_blockPos hb
      have ha := haddr _ hpos
      rw [if_neg (Ne.symm hpk)] at ha
      refine fileByte_congr ha fun h0 ↦ ?_
      by_contra hne
      obtain ⟨-, q, hq, hqz⟩ := hdisk _ hne
      exact blockPos_ne_index hq (h.tree.inj hpos hq.1 h0 hqz.symm)
    · have hk' : e ≠ some (k / 512) := fun hek ↦ hb (h.hole _ hek).1
      rw [fileByte_of_ge (by omega), ← h.content k hk', fileByte_of_ge (by omega)]
  · rcases hhole b hb with hb | hb
    · exact h.hole b hb
    · refine ⟨hb.1, ?_⟩
      by_contra h0
      rw [← h.addr_keep (hb.2 ▸ hp) h0, ← hb.2] at h0
      exact h0 hfree
  · by_cases hb' : e' = some b
    · exact .inl hb'
    · obtain ⟨heb, hpb⟩ := he b hb hb'
      rw [haddr _ (isPos_blockPos hb), if_neg (Ne.symm hpb)] at hne
      exact .inr ((h.reached b hb hne).resolve_left heb)

theorem link_root (hx : Loose st₀ st d x) (hi : i < 14)
    (hfree : word d i = 0) (hempty : 12 ≤ i → st.disk x = zero)
    (he : ∀ b < 16524, e' ≠ some b → e ≠ some b ∧ [i] ≠ blockPos b)
    (hhole : ∀ b, e' = some b → e = some b ∨ b < 16524 ∧ [i] = blockPos b) :
    Writing st₀ d₀ buf off st (setWord d i x) n e' := by
  refine h.relink hx (fun u hu ↦ addr_link_root (S := fileShape) hu
    (fun j ↦ word_setWord (by omega) hx.lt) hfree fun j hj ↦ ?_) hfree hi rfl rfl
    (fun z hz ↦ absurd rfl hz) (fun k hk ↦ ?_) he hhole
  · simp only [mem_fileShape, IsPos] at hj
    rw [hempty (by omega), word_zero]
  · rw [byte_setWord, if_neg (by omega)]

theorem link_block (hx : Loose st₀ st d x)
    (hp : fileShape.Index p) (hy : addr word st.disk d p = y) (hy0 : y ≠ 0)
    (hi : IsPos (i :: p)) (hlt : i < 128) (hfree : word (st.disk y) i = 0)
    (hempty : fileShape.Index (i :: p) → st.disk x = zero)
    (he : ∀ b < 16524, e' ≠ some b → e ≠ some b ∧ i :: p ≠ blockPos b)
    (hhole : ∀ b, e' = some b → e = some b ∨ b < 16524 ∧ i :: p = blockPos b) :
    Writing st₀ d₀ buf off (st.write y (setWord (st.disk y) i x)) d n e' ∧
      addr word (st.write y (setWord (st.disk y) i x)).disk d (i :: p) = x := by
  have haddr : ∀ u, IsPos u → addr word (st.write y (setWord (st.disk y) i x)).disk d u =
      if u = i :: p then x else addr word st.disk d u := by
    intro u hu
    refine addr_link (S := fileShape) hu hy hy0 (fun q hq hqy ↦ ?_)
      (fun j ↦ word_setWord hlt hx.lt) hfree (fun hxy ↦ ?_) fun j hj ↦ ?_
    · exact h.tree.inj hq.1 hp.1 (hqy ▸ hy0) (hqy.trans hy.symm)
    · exact hx.apart p hp.1 (hy.trans hxy.symm)
    · rw [hempty ⟨hi, j, hj⟩, word_zero]
  have hfree' : addr word st.disk d (i :: p) = 0 := (addr_cons_of_eq hy hy0).trans hfree
  refine ⟨h.relink hx haddr hfree' hi rfl rfl (fun z hz ↦ ?_) (fun _ _ ↦ rfl) he hhole, ?_⟩
  · have hzy : z = y := by
      by_contra hne
      exact hz (update_of_ne hne _ _)
    exact ⟨hzy ▸ hy0, p, hp, hy.trans hzy.symm⟩
  · rw [haddr _ hi, if_pos rfl]

end

theorem fill (h : Writing st₀ d₀ buf off st d n (some b)) (hx : addr word st.disk d (blockPos b) = x)
    (hnew : ¬ st₀.Used x) (hx0 : x ≠ 0) (hout : ∀ k, k / 512 = b → ¬ (off ≤ k ∧ k < off + n))
    (hreach : off / 512 ≤ b ∧ b * 512 ≤ off + n) : Writing st₀ d₀ buf off (st.write x zero) d n none := by
  obtain ⟨hb, hhole⟩ := h.hole b rfl
  have hindex : ∀ q, fileShape.Index q → addr word st.disk d q ≠ x := by
    intro q hq he
    exact blockPos_ne_index hq (h.tree.inj (isPos_blockPos hb) hq.1 (hx ▸ hx0) (hx.trans he.symm))
  refine h.store hindex (.inl hnew) (fun k _ ↦ ?_) (fun b hb ↦ by cases hb) fun c hc ↦ .inr ?_
  swap
  · rcases hc with hc | hc
    · cases hc
      exact hreach
    · exact hc
  by_cases hk : k / 512 < 16524
  · have hpos := isPos_blockPos hk
    have ha : addr word (update st.disk x zero) d (blockPos (k / 512)) =
        addr word st.disk d (blockPos (k / 512)) := addr_update hpos zero hindex
    by_cases hkb : k / 512 = b
    · rw [overwrite, if_neg (hout k hkb), fileByte, ha, hkb, hx, if_neg hx0, update_self, byte_zero,
        fileByte, hkb, hhole, if_pos rfl]
    · rw [← h.content k (by simpa using Ne.symm hkb)]
      refine fileByte_congr ha fun h0 ↦ update_of_ne (fun he ↦ hkb ?_) _ _
      exact blockPos_inj (h.tree.inj hpos (isPos_blockPos hb) h0 (he.trans hx.symm))
  · rw [← h.content k (by simp only [ne_eq, Option.some.injEq]; omega), fileByte_of_ge (by omega),
      fileByte_of_ge (by omega)]

end Writing

namespace Loose

variable {st₀ st st' : State} {d d' : InodeDisk} {x y z : Nat} {p : List Nat}

theorem take (h : Loose st₀ st d x) (ht : Taken st st' y) : Loose st₀ st' d x :=
  ⟨h.new, (ht.used x).mpr (.inr h.used), h.ne_zero, h.lt, by rw [ht.disk]; exact h.apart⟩

theorem store {v : Sector} (h : Loose st₀ st d x)
    (hz : ∀ q, fileShape.Index q → addr word st.disk d q ≠ z) :
    Loose st₀ (st.write z v) d x :=
  ⟨h.new, h.used, h.ne_zero, h.lt, fun u hu ↦ by
    rw [State.write_disk, addr_update hu v hz]
    exact h.apart u hu⟩

theorem relink (h : Loose st₀ st d x) (hne : x ≠ y)
    (haddr : ∀ u, IsPos u → addr word st'.disk d' u = if u = p then y else addr word st.disk d u)
    (hmap : st'.freeMap = st.freeMap) : Loose st₀ st' d' x := by
  refine ⟨h.new, ?_, h.ne_zero, h.lt, fun u hu ↦ ?_⟩
  · rw [State.Used, hmap]
    exact h.used
  · rw [haddr u hu]
    split
    · exact hne.symm
    · exact h.apart u hu

end Loose

end Rxv6.Filesys
