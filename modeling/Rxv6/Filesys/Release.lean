import Rxv6.Filesys.Create

namespace Rxv6.Filesys

open Lib.BlockTree Sector InodeDisk List

/-- The sectors `P` are given back, and nothing else changes. -/
structure Freed (st st' : State) (P : Nat → Prop) : Prop where
  disk : st'.disk = st.disk
  openInodes : st'.openInodes = st.openInodes
  used : ∀ z, st'.Used z ↔ st.Used z ∧ ¬ P z

variable {st st' st₁ : State} {P Q : Nat → Prop} {d : InodeDisk} {len : Int} {s : Nat}

namespace Freed

theorem none (st : State) : Freed st st fun _ ↦ False := ⟨rfl, rfl, fun z ↦ by simp⟩

theorem trans (h₁ : Freed st st₁ P) (h₂ : Freed st₁ st' Q) : Freed st st' fun z ↦ P z ∨ Q z where
  disk := h₂.disk.trans h₁.disk
  openInodes := h₂.openInodes.trans h₁.openInodes
  used z := by
    rw [h₂.used, h₁.used]
    tauto

theorem congr (h : Freed st st' P) (hPQ : ∀ z, P z ↔ Q z) : Freed st st' Q :=
  ⟨h.disk, h.openInodes, fun z ↦ by rw [h.used, hPQ]⟩

end Freed

theorem ends_release (st : State) (s : Nat) : Ends (release s) (fun _ st' ↦ Freed st st' (· = s)) st := by
  refine wp_perform fun _ ↦ ⟨trivial, rfl, rfl, fun z ↦ ?_⟩
  change (st.freeMap.set s false).test z = true ↔ st.freeMap.test z = true ∧ z ≠ s
  by_cases hs : s < st.freeMap.bits.length
  · rw [FreeMap.test_set hs]
    split
    · next hz => simp [hz]
    · next hz => simp [hz]
  · have hsame : st.freeMap.set s false = st.freeMap := by
      cases hm : st.freeMap with
      | mk bits fits =>
        rw [hm] at hs
        simp only [FreeMap.set, FreeMap.mk.injEq]
        exact set_eq_of_length_le (Nat.le_of_not_lt hs)
    rw [hsame]
    refine ⟨fun hz ↦ ⟨hz, ?_⟩, And.left⟩
    rintro rfl
    exact hs (FreeMap.lt_of_test hz)

theorem ends_each (st : State) {f : Nat → Prog Unit} {P : Nat → Nat → Prop} (l : List Nat)
    (hf : ∀ i ∈ l, ∀ st₁ : State, st₁.disk = st.disk → Ends (f i) (fun _ st' ↦ Freed st₁ st' (P i)) st₁) :
    ∀ st₁ : State, st₁.disk = st.disk →
      Ends (each l f) (fun _ st' ↦ Freed st₁ st' fun z ↦ ∃ i ∈ l, P i z) st₁ := by
  induction l with
  | nil => exact fun st₁ _ ↦ (Freed.none st₁).congr fun z ↦ by simp
  | cons i l ih =>
    intro st₁ hst
    refine wp_seq (hf i mem_cons_self st₁ hst) fun _ st₂ h₂ ↦ ?_
    have hrest := ih (fun j hj ↦ hf j (mem_cons_of_mem i hj)) st₂ (h₂.disk.trans hst)
    refine wp_mono hrest fun _ st₃ h₃ ↦ (h₂.trans h₃).congr fun z ↦ by simp

/-- The sectors that `close` and `truncate` give back: the blocks of a file of length `len`, and its
index blocks. -/
def Owns (st : State) (d : InodeDisk) (len : Int) (z : Nat) : Prop :=
  z ≠ 0 ∧ ((∃ b < bytesToSectors len, addr word st.disk d (blockPos b) = z) ∨ word d 12 = z ∨
    word d 13 ≠ 0 ∧ (word d 13 = z ∨ ∃ j < 128, word (st.disk (word d 13)) j = z))

theorem ends_release_nonzero (st : State) (y : Nat) :
    Ends (if y ≠ 0 then release y else pure ()) (fun _ st' ↦ Freed st st' fun z ↦ z ≠ 0 ∧ y = z) st := by
  split
  · next hy =>
    refine wp_mono (ends_release st y) fun _ st₁ h₁ ↦ h₁.congr fun z ↦ ?_
    exact ⟨fun h ↦ ⟨h ▸ hy, h.symm⟩, fun h ↦ h.2.symm⟩
  · next hy =>
    refine (Freed.none st).congr fun z ↦ ⟨False.elim, fun h ↦ ?_⟩
    exact h.1 (h.2.symm.trans (not_not.mp hy))

theorem ends_releaseDoubly (st : State) (d : InodeDisk) :
    Ends (if word d 13 ≠ 0 then do
        let buf ← bread (word d 13)
        each (List.range 128) fun j ↦ if word buf j ≠ 0 then release (word buf j) else pure ()
        release (word d 13)
      else pure ())
      (fun _ st' ↦ Freed st st' fun z ↦ z ≠ 0 ∧ word d 13 ≠ 0 ∧
        (word d 13 = z ∨ ∃ j < 128, word (st.disk (word d 13)) j = z)) st := by
  split
  · next h13 =>
    refine ends_bread ?_
    have hslots := ends_each st (List.range 128) (fun j _ st₁ _ ↦
      ends_release_nonzero st₁ (word (st.disk (word d 13)) j)) st rfl
    refine wp_seq hslots fun _ st₁ h₁ ↦ ?_
    refine wp_mono (ends_release st₁ _) fun _ st₂ h₂ ↦ (h₁.trans h₂).congr fun z ↦ ?_
    simp only [mem_range]
    constructor
    · rintro (⟨j, hj, hz, hj'⟩ | rfl)
      · exact ⟨hz, h13, .inr ⟨j, hj, hj'⟩⟩
      · exact ⟨h13, h13, .inl rfl⟩
    · rintro ⟨hz, -, h | ⟨j, hj, hj'⟩⟩
      · exact .inr h.symm
      · exact .inl ⟨j, hj, hz, hj'⟩
  · next h13 => exact (Freed.none st).congr fun z ↦ ⟨False.elim, fun h ↦ h13 h.2.1⟩

theorem ends_releaseData (st : State) (d : InodeDisk) (n : Nat) :
    Ends (each (List.range n) fun b ↦ do
        match ← getBlockSectorDisk d b with
        | some x => release x
        | none => pure ())
      (fun _ st' ↦ Freed st st' fun z ↦ z ≠ 0 ∧ ∃ b < n, addr word st.disk d (blockPos b) = z) st := by
  have hblock : ∀ b ∈ List.range n, ∀ st₁ : State, st₁.disk = st.disk → Ends (getBlockSectorDisk d b >>= fun
        | some x => release x
        | none => pure ())
        (fun _ st' ↦ Freed st₁ st' fun z ↦ z ≠ 0 ∧ addr word st.disk d (blockPos b) = z) st₁ := by
    intro b _ st₁ hst
    refine wp_bind.mpr (wp_getBlockSectorDisk trivial ?_)
    rw [hst]
    cases hx : nonzero _ with
    | none =>
      refine (Freed.none st₁).congr fun z ↦ ⟨False.elim, fun h ↦ ?_⟩
      exact h.1 (h.2.symm.trans (nonzero_eq_none.mp hx))
    | some y =>
      obtain ⟨hy, hy0⟩ := nonzero_eq_some.mp hx
      refine wp_mono (ends_release st₁ y) fun _ st₂ h₂ ↦ h₂.congr fun z ↦ ?_
      rw [hy]
      exact ⟨fun h ↦ ⟨h ▸ hy0, h.symm⟩, fun h ↦ h.2.symm⟩
  refine wp_mono (ends_each st _ hblock st rfl) fun _ st₁ h₁ ↦ h₁.congr fun z ↦ ?_
  simp only [mem_range]
  constructor
  · rintro ⟨b, hb, hz, he⟩
    exact ⟨hz, b, hb, he⟩
  · rintro ⟨hz, b, hb, he⟩
    exact ⟨b, hb, hz, he⟩

theorem ends_releaseBlocks (st : State) (d : InodeDisk) (len : Int) :
    Ends (releaseBlocks d len) (fun _ st' ↦ Freed st st' (Owns st d len)) st := by
  refine wp_seq (ends_releaseData st d _) fun _ st₁ h₁ ↦ ?_
  have hrest : Ends ((if word d 12 ≠ 0 then release (word d 12) else pure ()) >>= fun _ ↦
        if word d 13 ≠ 0 then do
          let buf ← bread (word d 13)
          each (List.range 128) fun j ↦ if word buf j ≠ 0 then release (word buf j) else pure ()
          release (word d 13)
        else pure ())
      (fun _ st' ↦ Freed st st' (Owns st d len)) st₁ := by
    refine wp_seq (ends_release_nonzero st₁ _) fun _ st₂ h₂ ↦ ?_
    refine wp_mono (ends_releaseDoubly st₂ d) fun _ st₃ h₃ ↦ ((h₁.trans h₂).trans h₃).congr fun z ↦ ?_
    rw [h₂.disk, h₁.disk, Owns]
    simp only [or_assoc, ← and_or_left]
  by_cases h12 : word d 12 ≠ 0
  · simpa [h12] using hrest
  · simpa [h12] using hrest

theorem Owns.pos {z : Nat} (h : Owns st d len z) : ∃ u, IsPos u ∧ addr word st.disk d u = z := by
  obtain ⟨hz, ⟨b, -, hb⟩ | h12 | ⟨h13, h | ⟨j, hj, h⟩⟩⟩ := h
  · by_cases hlt : b < 16524
    · exact ⟨blockPos b, isPos_blockPos hlt, hb⟩
    · rw [addr_of_ge (by omega)] at hb
      exact absurd hb.symm hz
  · exact ⟨[12], by simp [IsPos], h12⟩
  · exact ⟨[13], by simp [IsPos], h⟩
  · refine ⟨[j, 13], by simp [IsPos, hj], ?_⟩
    rw [addr_cons (cons_ne_nil _ _), addr_singleton, if_neg h13]
    exact h

theorem Owns.apart {I : Set Nat} {z : Nat} (hwf : WellFormed st I) (hs : s ∈ I)
    (h : Owns st (st.disk s) len z) {a : Use} (ha : a.In st I) (hne : a.sector st = z) :
    ∃ u, a = .block s u := by
  obtain ⟨u, hu, rfl⟩ := h.pos
  exact ⟨u, hwf.distinct a (.block s u) ha ⟨hs, hu, h.1⟩ hne⟩

end Rxv6.Filesys
