import Rxv6.Filesys.Bounds
import Rxv6.Filesys.DirectoryRuns

namespace Rxv6.Filesys

open Lib Lib.BlockTree Lib.Runs Function Sector InodeDisk List

variable {st st' : State} {I : Set Nat} {s b n x : Nat} {M : Bindings} {name : List UInt8} {d : InodeDisk}
variable {buf : List UInt8}

theorem Directory.run_add_end (h : Directory st I s M) (x : Nat) (hno : NoSlot st s) (hlen : name.length ≤ nameMax)
    (hnone : M name = none) : run (Dir.add s name x) st =
      ((run (Dir.writeEntry s (st.slots s) (makeEntry name x)) st).1 == 20,
        (run (Dir.writeEntry s (st.slots s) (makeEntry name x)) st).2) := by
  rcases run_add st s name x with ⟨hwhy, -⟩ | ⟨-, -, i, hi, hfreeslot, -, hrun⟩
  · rcases hwhy with hlong | ⟨i, hi, hp⟩
    · omega
    · rw [h.unbound.mp hnone i hi] at hp
      cases hp
  · have hieq : i = st.slots s := by
      by_contra hne
      have hlt : i < st.slots s := by omega
      exact hno i hlt (hfreeslot hlt)
    simpa [hieq] using hrun

theorem Directory.append (h : Directory st I s M) (hno : NoSlot st s)
    (hlen : name.length ≤ nameMax) (hnone : M name = none) (hx : x < 4294967296)
    (hmax : 20 * st.slots s + 20 ≤ maxLength) (hfree : 3 ≤ st.free) :
    (run (Dir.add s name x) st).1 = true ∧ (run (Dir.add s name x) st).2.slots s = st.slots s + 1 ∧
      NoSlot (run (Dir.add s name x) st).2 s ∧ st.free ≤ (run (Dir.add s name x) st).2.free + 3 := by
  have hstored := run_of_ends (h.solid.ends_writeEntry le_rfl (DirEntry.length_makeEntry name x)
    (hx) hmax)
  have hneed := need_le st (st.disk s) ((20 * st.slots s + 19) / 512)
  have hfull : st.slots s < st.slots s ∨ st.need (st.disk s) ((20 * st.slots s + 19) / 512) ≤ st.free :=
    .inr (by omega)
  obtain ⟨h20, hrec, hslots⟩ := hstored.full hfull
  obtain ⟨-, hlt, hold⟩ := hstored.replaced hfull le_rfl
  rw [h.run_add_end x hno hlen hnone]
  refine ⟨by simp [h20], by simp only; omega, fun j hj ↦ ?_, hstored.space⟩
  by_cases hjs : j = st.slots s
  · rw [hjs, hrec]
    simp [makeEntry]
  · rw [(hold j hjs hj).2]
    exact hno j (hold j hjs hj).1

open State

def numbered (k : Nat) : List UInt8 :=
  [UInt8.ofNat (1 + k % 100), UInt8.ofNat (1 + k / 100 % 100), UInt8.ofNat (1 + k / 10000 % 100)]

theorem proper_numbered (k : Nat) : Proper (numbered k) := by
  have hlt : ∀ m, UInt8.ofNat (1 + m % 100) < 0x80 := fun m ↦ by
    rw [UInt8.lt_iff_toNat_lt, UInt8.toNat_ofNat']
    change _ < 128
    omega
  have hpos : ∀ m, 0 ≠ UInt8.ofNat (1 + m % 100) := fun m he ↦ by
    have := congrArg UInt8.toNat he
    rw [UInt8.toNat_ofNat'] at this
    change 0 = _ at this
    omega
  refine ⟨nofun, ?_, ?_⟩
  · simp only [numbered, mem_cons, hpos, not_mem_nil, or_self, not_false_eq_true]
  · simp only [numbered, isUtf8, hlt, if_true]

theorem numbered_inj {j k : Nat} (hj : j < 1000000) (hk : k < 1000000) (h : numbered j = numbered k) :
    j = k := by
  have hdigit : ∀ a b, UInt8.ofNat (1 + a % 100) = UInt8.ofNat (1 + b % 100) → a % 100 = b % 100 := by
    intro a b he
    have := congrArg UInt8.toNat he
    rw [UInt8.toNat_ofNat', UInt8.toNat_ofNat'] at this
    omega
  simp only [numbered, cons.injEq, and_true] at h
  have h₁ := hdigit _ _ h.1
  have h₂ := hdigit _ _ h.2.1
  have h₃ := hdigit _ _ h.2.2
  omega

/-- The directory of the `k` first names, with nothing but entries in use. -/
structure Filled (I : Set Nat) (s k : Nat) (x : DirSystem) : Prop where
  inv : x.Inv I s
  slots : x.st.slots s = k + 2
  full : NoSlot x.st s
  unbound : ∀ j, k ≤ j → j < 1000000 → x.map (numbered j) = none
  free : 1500000 ≤ x.st.free + 3 * k

open DirSystem

theorem Filled.next {k : Nat} {x : DirSystem} (h : Filled I s k x) (hk : k < 423012) :
    ∃ x', x.step s (.add (numbered k) 5) = some x' ∧ Filled I s (k + 1) x' := by
  have hspace := h.free
  have hslots := h.slots
  have hnone := h.unbound k le_rfl (by omega)
  obtain ⟨hok, hslots', hfull', hfree'⟩ := h.inv.directory.append h.full
    (show (numbered k).length ≤ 14 from show 3 ≤ 14 by omega) hnone (show 5 < _ by omega) (by unfold maxLength; omega) (by omega)
  have hfits : DirSystem.Fits s x (.add (numbered k) 5) := ⟨⟨proper_numbered k, by omega⟩, fun _ _ _ ↦ by
    unfold maxLength
    omega⟩
  refine ⟨_, rfl, h.inv.step hfits rfl, ?_, hfull', ?_, ?_⟩
  · simp only
    omega
  · intro j hj hlt
    have hne : numbered j ≠ numbered k := fun he ↦ by
      have := numbered_inj hlt (by omega) he
      omega
    simp only
    rw [if_pos hok, update_of_ne hne]
    exact h.unbound j (by omega) hlt
  · simp only
    omega

theorem Filled.run {x : DirSystem} (h : Filled I s 0 x) : ∀ k ≤ 423012,
    ∃ x', Run (DirSystem.step s) (fun _ op ↦ DirSystem.Valid op) x x' ∧ Filled I s k x' := by
  intro k
  induction k with
  | zero => exact fun _ ↦ ⟨x, .refl _, h⟩
  | succ k ih =>
    intro hk
    obtain ⟨x₁, hrun, h₁⟩ := ih (by omega)
    obtain ⟨x₂, hstep, h₂⟩ := h₁.next (by omega)
    have hvalid : Valid (.add (numbered k) 5) := ⟨proper_numbered k, by omega⟩
    exact ⟨x₂, hrun.snoc hvalid hstep, h₂⟩

theorem free_emptyDisk (n : Nat) (hn : n < 4294967290) : n ≤ (emptyDisk n hn).free := by
  have hsub : Finset.Ico 3 (n + 3) ⊆ (Finset.range (emptyDisk n hn).freeMap.bits.length).filter fun i ↦
      2 ≤ i ∧ Bitmap.test (emptyDisk n hn).freeMap.bits i = false := by
    intro i hi
    obtain ⟨hlo, hhi⟩ := Finset.mem_Ico.mp hi
    obtain ⟨j, rfl⟩ : ∃ j, i = j + 3 := ⟨i - 3, by omega⟩
    refine Finset.mem_filter.mpr ⟨mem_range.mpr ?_, by omega, ?_⟩
    · simp only [emptyDisk, length_cons, length_replicate]
      omega
    · simp only [emptyDisk, Bitmap.test, getElem?_cons_succ]
      rw [getElem?_replicate_of_lt (by omega)]
      rfl
  have hcard := Finset.card_le_card hsub
  rw [Nat.card_Ico] at hcard
  exact hcard

theorem filled_made (hwf : WellFormed st I) (hfresh : Fresh st I s) (hclosed : st.openInodes s = none)
    (hs : s < 4294967296) (hfree : 2000000 ≤ st.free) :
    Filled (insert s I) s 0 (DirSystem.made st s 1) := by
  have hok := run_create_true 1 hwf hfresh (by omega)
  obtain ⟨hdir, hclosed', hslots, hspace⟩ := run_create hwf hfresh hclosed hs (by omega) hok
  have hst : (made st s 1).st = (run (inodeOpen s) (run (Dir.create s 1) st).2).2 := by
    rw [made, run_bind]
  have hinv := made_inv hwf hfresh hclosed hs (by omega) hok
  have hslots' : (made st s 1).st.slots s = 2 := by
    rw [slots, hst, readLength_opened hclosed']
    exact hslots
  refine ⟨hinv, hslots', fun i hi ↦ ?_, fun j _ _ ↦ ?_, ?_⟩
  · obtain ⟨j, hj, hpj, -⟩ := (hinv.directory.binds [46] s).mp (by
      change dots s 1 [46] = _
      rw [dots, update_of_ne (by decide), update_self])
    obtain ⟨k, hk, hpk, -⟩ := (hinv.directory.binds [46, 46] 1).mp (by
      change dots s 1 [46, 46] = _
      rw [dots, update_self])
    obtain ⟨huj, htj⟩ := nameMatches_iff.mp hpj
    obtain ⟨huk, htk⟩ := nameMatches_iff.mp hpk
    have hne : j ≠ k := fun he ↦ by
      rw [he, htk] at htj
      cases htj
    rcases (show i = j ∨ i = k by omega) with rfl | rfl
    · exact huj
    · exact huk
  · change dots s 1 (numbered j) = none
    rw [dots, update_of_ne (by simp [numbered]), update_of_ne (by simp [numbered])]
  · have hopen : (made st s 1).st.free = (run (Dir.create s 1) st).2.free := by
      rw [hst, run_inodeOpen hclosed']
      rfl
    omega

/-- Entry 423014 lies across the end of what the index reaches, so the write of it uses the doubly indirect
block outside its buffer. -/
theorem Directory.leaves_writeEntry (h : Directory st I s M) (e : DirEntry) (hfree : 3 ≤ st.free) :
    Leaves (Checked.writeAt s e.toBytes 20 (423014 * 20)) st := by
  refine leaves_writeAt (by norm_num) (fun _ _ ↦ h.solid.wf.tree h.solid.mem) ?_
  have hlack : st.lacking (st.disk s) 16523 16524 ≤ 3 := by
    rw [State.lacking, show Finset.Ico 16523 16524 = {16523} from Nat.Ico_succ_singleton _, Finset.singleton_biUnion]
    exact (Finset.card_filter_le _ _).trans (by decide)
  rintro (hdeny | hsize | hreach | ⟨-, hlt⟩ | ⟨hfar, -⟩)
  · exact Bool.false_ne_true (h.solid.writable.symm.trans hdeny)
  · cases hsize
  · exact absurd hreach (by norm_num [maxLength])
  · exact absurd (hlt.trans_le hlack) (by omega)
  · exact absurd hfar (by norm_num [maxLength])

/-- A directory of 423014 entries is made by valid calls. To add one name more, `add` writes outside a
buffer. -/
theorem directory_add_leaves_buffer : WellFormed (emptyDisk 2000000 (by omega)) ∅ ∧
    Fresh (emptyDisk 2000000 (by omega)) ∅ 2 ∧
    (run (Dir.create 2 1) (emptyDisk 2000000 (by omega))).1 = true ∧
    ∃ x, Run (DirSystem.step 2) (fun _ op ↦ DirSystem.Valid op)
        (DirSystem.made (emptyDisk 2000000 (by omega)) 2 1) x ∧
      DirSystem.Valid (.add (numbered 423012) 5) ∧ x.map (numbered 423012) = none ∧
      (run (Dir.add 2 (numbered 423012) 5) x.st).2 =
        (run (writeAt 2 (makeEntry (numbered 423012) 5).toBytes 20 (423014 * 20)) x.st).2 ∧
      (run (Checked.writeAt 2 (makeEntry (numbered 423012) 5).toBytes 20 (423014 * 20)).run x.st).1 =
        .error .outside := by
  obtain ⟨hwf, hfresh⟩ := fresh_emptyDisk 2000000 (by omega)
  have hfree := free_emptyDisk 2000000 (by omega)
  refine ⟨hwf, hfresh, run_create_true 1 hwf hfresh (by omega), ?_⟩
  obtain ⟨x, hrun, h⟩ := (filled_made hwf hfresh rfl (by omega) hfree).run 423012 le_rfl
  have hspace := h.free
  have hnone := h.unbound 423012 le_rfl (by omega)
  have hwrite := h.inv.directory.run_add_end 5 h.full
    (show (numbered 423012).length ≤ 14 from show 3 ≤ 14 by omega) hnone
  rw [h.slots] at hwrite
  exact ⟨x, hrun, ⟨proper_numbered _, by omega⟩, hnone, congrArg Prod.snd hwrite,
    h.inv.directory.leaves_writeEntry _ (by omega)⟩

end Rxv6.Filesys
