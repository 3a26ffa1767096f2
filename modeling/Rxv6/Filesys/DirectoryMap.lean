import Rxv6.Filesys.Create

namespace Rxv6.Filesys

open Function Sector InodeDisk

abbrev Bindings := List UInt8 → Option Nat

structure Proper (name : List UInt8) : Prop where
  nonempty : name ≠ []
  nul : 0 ∉ name
  utf8 : isUtf8 name = true

structure Directory (st : State) (I : Set Nat) (s : Nat) (M : Bindings) : Prop where
  solid : Solid st I s
  utf8 : ∀ i < st.slots s, (st.record s i).inUse ≠ 0 → isUtf8 (st.record s i).text = true
  unique : ∀ i j, i < st.slots s → j < st.slots s → (st.record s i).inUse ≠ 0 → (st.record s j).inUse ≠ 0 →
    (st.record s i).text = (st.record s j).text → i = j
  binds : ∀ name x, M name = some x ↔
    ∃ i < st.slots s, (st.record s i).nameMatches name = true ∧ (st.record s i).inodeSector = x

variable {st st' : State} {I : Set Nat} {s i n x : Nat} {M : Bindings} {name : List UInt8} {e : DirEntry}

theorem nameMatches_iff : e.nameMatches name = true ↔ e.inUse ≠ 0 ∧ e.text = name := by
  simp [DirEntry.nameMatches]

theorem Stored.replaced (hstored : Stored st st' I s i e n)
    (hfull : i < st.slots s ∨ st.need (st.disk s) ((20 * i + 19) / 512) ≤ st.free) (hi : i ≤ st.slots s) :
    st'.record s i = e ∧ (∀ j, j < st'.slots s ↔ j < st.slots s ∨ j = i) ∧
      ∀ j, j ≠ i → j < st'.slots s → j < st.slots s ∧ st'.record s j = st.record s j := by
  obtain ⟨-, hrec, hslots⟩ := hstored.full hfull
  have hlt : ∀ j, j < st'.slots s ↔ j < st.slots s ∨ j = i := by
    omega
  refine ⟨hrec, hlt, fun j hj hj' ↦ ?_⟩
  have hjs := ((hlt j).mp hj').resolve_right hj
  exact ⟨hjs, hstored.others j hjs hj⟩

namespace Directory

section

variable (h : Directory st I s M)

include h

theorem unbound : M name = none ↔ ∀ i < st.slots s, (st.record s i).nameMatches name = false := by
  refine ⟨fun hnone i hi ↦ ?_, fun hall ↦ ?_⟩
  · by_contra hp
    rw [Bool.not_eq_false] at hp
    cases hnone.symm.trans ((h.binds name _).mpr ⟨i, hi, hp, rfl⟩)
  · cases hM : M name with
    | none => rfl
    | some x =>
      obtain ⟨i, hi, hp, -⟩ := (h.binds name x).mp hM
      rw [hall i hi] at hp
      cases hp

theorem lookup : run (Dir.lookup s name) st = (M name, st) := by
  rcases run_lookup st s name with ⟨hno, hrun⟩ | ⟨i, hi, hp, hrun⟩
  · rw [hrun, h.unbound.mpr hno]
  · rw [hrun, (h.binds name _).mpr ⟨i, hi, hp, rfl⟩]

theorem insert (hstored : Stored st st' I s i e n)
    (hfull : i < st.slots s ∨ st.need (st.disk s) ((20 * i + 19) / 512) ≤ st.free) (hi : i ≤ st.slots s)
    (hfree : i < st.slots s → (st.record s i).inUse = 0) (hnone : M name = none) (huse : e.inUse ≠ 0)
    (htext : e.text = name) (hutf : isUtf8 name = true) :
    Directory st' I s (update M name (some e.inodeSector)) := by
  obtain ⟨hrec, hlt, hold⟩ := hstored.replaced hfull hi
  have hnew : ∀ j, j ≠ i → j < st'.slots s → (st'.record s j).nameMatches name = false := fun j hj hj' ↦ by
    rw [(hold j hj hj').2]
    exact h.unbound.mp hnone j (hold j hj hj').1
  have hapart : ∀ j, j ≠ i → j < st'.slots s → (st'.record s j).inUse ≠ 0 → (st'.record s j).text ≠ name := by
    intro j hj hj' hu ht
    have := hnew j hj hj'
    rw [nameMatches_iff.mpr ⟨hu, ht⟩] at this
    cases this
  refine ⟨hstored.solid, fun j hj hu ↦ ?_, fun j k hj hk hju hku he ↦ ?_, fun m y ↦ ?_⟩
  · by_cases hji : j = i
    · rw [hji, hrec, htext, hutf]
    · rw [(hold j hji hj).2] at hu ⊢
      exact h.utf8 j (hold j hji hj).1 hu
  · by_cases hji : j = i <;> by_cases hki : k = i
    · rw [hji, hki]
    · rw [hji, hrec, htext] at he
      exact absurd he.symm (hapart k hki hk hku)
    · rw [hki, hrec, htext] at he
      exact absurd he (hapart j hji hj hju)
    · rw [(hold j hji hj).2] at hju he
      rw [(hold k hki hk).2] at hku he
      exact h.unique j k (hold j hji hj).1 (hold k hki hk).1 hju hku he
  · by_cases hm : m = name
    · subst hm
      rw [update_self]
      refine ⟨fun hy ↦ ⟨i, (hlt i).mpr (.inr rfl), ?_, ?_⟩, ?_⟩
      · rw [hrec]
        exact nameMatches_iff.mpr ⟨huse, htext⟩
      · rw [hrec]
        exact Option.some.inj hy
      · rintro ⟨j, hj, hp, rfl⟩
        by_cases hji : j = i
        · rw [hji, hrec]
        · rw [hnew j hji hj] at hp
          cases hp
    · rw [update_of_ne hm, h.binds m y]
      constructor
      · rintro ⟨j, hj, hp, hx⟩
        have hji : j ≠ i := by
          rintro rfl
          exact (nameMatches_iff.mp hp).1 (hfree hj)
        have hj' := (hlt j).mpr (.inl hj)
        refine ⟨j, hj', ?_, ?_⟩
        · rw [(hold j hji hj').2, hp]
        · rw [(hold j hji hj').2, hx]
      · rintro ⟨j, hj, hp, hx⟩
        have hji : j ≠ i := by
          rintro rfl
          rw [hrec] at hp
          exact hm ((nameMatches_iff.mp hp).2.symm.trans htext)
        rw [(hold j hji hj).2] at hp hx
        exact ⟨j, (hold j hji hj).1, hp, hx⟩

theorem erase (hi : i < st.slots s) (hp : (st.record s i).nameMatches name = true)
    (hstored : Stored st st' I s i { st.record s i with inUse := 0 } n) :
    Directory st' I s (update M name none) := by
  obtain ⟨hrec, hlt, hold⟩ := hstored.replaced (.inl hi) hi.le
  obtain ⟨hiu, hit⟩ := nameMatches_iff.mp hp
  have hne : ∀ j, j < st'.slots s → (st'.record s j).inUse ≠ 0 → j ≠ i := by
    rintro j - hu rfl
    rw [hrec] at hu
    exact hu rfl
  refine ⟨hstored.solid, fun j hj hu ↦ ?_, fun j k hj hk hju hku he ↦ ?_, fun m y ↦ ?_⟩
  · have hji := hne j hj hu
    rw [(hold j hji hj).2] at hu ⊢
    exact h.utf8 j (hold j hji hj).1 hu
  · have hji := hne j hj hju
    have hki := hne k hk hku
    rw [(hold j hji hj).2] at hju he
    rw [(hold k hki hk).2] at hku he
    exact h.unique j k (hold j hji hj).1 (hold k hki hk).1 hju hku he
  · have hiff : (∃ j < st'.slots s, (st'.record s j).nameMatches m = true ∧ (st'.record s j).inodeSector = y) ↔
        ∃ j < st.slots s, j ≠ i ∧ (st.record s j).nameMatches m = true ∧ (st.record s j).inodeSector = y := by
      constructor
      · rintro ⟨j, hj, hjp, hx⟩
        have hji := hne j hj (nameMatches_iff.mp hjp).1
        rw [(hold j hji hj).2] at hjp hx
        exact ⟨j, (hold j hji hj).1, hji, hjp, hx⟩
      · rintro ⟨j, hj, hji, hjp, hx⟩
        have hj' := (hlt j).mpr (.inl hj)
        refine ⟨j, hj', ?_, ?_⟩
        · rw [(hold j hji hj').2, hjp]
        · rw [(hold j hji hj').2, hx]
    rw [hiff]
    by_cases hm : m = name
    · subst hm
      rw [update_self]
      refine ⟨nofun, ?_⟩
      rintro ⟨j, hj, hji, hjp, -⟩
      obtain ⟨hju, hjt⟩ := nameMatches_iff.mp hjp
      exact absurd (h.unique j i hj hi hju hiu (hjt.trans hit.symm)) hji
    · rw [update_of_ne hm, h.binds m y]
      constructor
      · rintro ⟨j, hj, hjp, hx⟩
        refine ⟨j, hj, ?_, hjp, hx⟩
        rintro rfl
        exact hm ((nameMatches_iff.mp hjp).2.symm.trans hit)
      · rintro ⟨j, hj, -, hjp, hx⟩
        exact ⟨j, hj, hjp, hx⟩

theorem short (hi : i = st.slots s) (hstored : Stored st st' I s i e n)
    (hshort : ¬ (i < st.slots s ∨ st.need (st.disk s) ((20 * i + 19) / 512) ≤ st.free)) :
    Directory st' I s M := by
  obtain ⟨-, hslots⟩ := hstored.short hshort
  have hrec : ∀ j < st'.slots s, st'.record s j = st.record s j := fun j hj ↦
    hstored.others j (hslots ▸ hj) (by omega)
  have hiff : ∀ {j}, j < st'.slots s ↔ j < st.slots s := fun {j} ↦ by rw [hslots]
  refine ⟨hstored.solid, fun j hj hu ↦ ?_, fun j k hj hk hju hku he ↦ ?_, fun m y ↦ ?_⟩
  · rw [hrec j hj] at hu ⊢
    exact h.utf8 j (hiff.mp hj) hu
  · rw [hrec j hj] at hju he
    rw [hrec k hk] at hku he
    exact h.unique j k (hiff.mp hj) (hiff.mp hk) hju hku he
  · rw [h.binds m y]
    refine exists_congr fun j ↦ ?_
    rw [hiff]
    refine and_congr_right fun hj ↦ ?_
    rw [hrec j (hiff.mpr hj)]

end

end Directory

def NoSlot (st : State) (s : Nat) : Prop := ∀ i < st.slots s, (st.record s i).inUse ≠ 0

def CannotGrow (st : State) (s : Nat) : Prop := st.free < st.need (st.disk s) ((20 * st.slots s + 19) / 512)

/-- If the name needs an entry at the end of the directory, there is room for it below the largest
file length. -/
def Roomy (st : State) (s : Nat) (name : List UInt8) : Prop :=
  name.length ≤ nameMax → (∀ i < st.slots s, (st.record s i).nameMatches name = false) → NoSlot st s →
    20 * st.slots s + 20 ≤ maxLength

open State

theorem Solid.slot_lt (h : Solid st I s) (hi : i < st.slots s) : 20 * i + 20 ≤ maxLength := by
  have hlt := lt_slots.mp hi
  rw [h.length] at hlt
  have hblock := h.blocks (20 * i + 19) (by omega)
  unfold maxLength
  by_contra hge
  exact hblock (addr_of_ge (by omega))

namespace Directory

section

variable (h : Directory st I s M)
include h

theorem add (hname : Proper name) (hx : x < 4294967296) (hroom : Roomy st s name) :
    ((run (Dir.add s name x) st).1 = false ↔
        nameMax < name.length ∨ M name ≠ none ∨ NoSlot st s ∧ CannotGrow st s) ∧
      Directory (run (Dir.add s name x) st).2 I s
        (if (run (Dir.add s name x) st).1 then update M name (some x) else M) := by
  rcases run_add st s name x with ⟨hwhy, hrun⟩ | ⟨hlen, hno, i, hi, hfree, hlast, hrun⟩
  · rw [hrun]
    refine ⟨⟨fun _ ↦ ?_, fun _ ↦ rfl⟩, h⟩
    rcases hwhy with hlen | ⟨i, hi, hp⟩
    · exact .inl hlen
    · refine .inr (.inl fun hnone ↦ ?_)
      rw [h.unbound.mp hnone i hi] at hp
      cases hp
  · have hnone := h.unbound.mpr hno
    have hmax : 20 * i + 20 ≤ maxLength := by
      rcases lt_or_ge i (st.slots s) with hlt | hge
      · exact h.solid.slot_lt hlt
      · have hieq : i = st.slots s := by omega
        rw [hieq]
        exact hroom hlen hno (hlast hieq)
    have hends := h.solid.ends_writeEntry hi (DirEntry.length_makeEntry name x) hx hmax
    have hstored := run_of_ends hends
    rw [hrun]
    by_cases hfull : i < st.slots s ∨ st.need (st.disk s) ((20 * i + 19) / 512) ≤ st.free
    · have h20 := (hstored.full hfull).1
      simp only [h20, beq_self_eq_true, Bool.or_true, Bool.true_eq_false, false_iff]
      refine ⟨?_, h.insert hstored hfull hi hfree hnone (by simp [makeEntry])
        (DirEntry.text_makeEntry hlen hname.nul) hname.utf8⟩
      rintro (hlong | hbound | ⟨hslot, hgrow⟩)
      · omega
      · exact hbound hnone
      · rcases lt_or_ge i (st.slots s) with hlt | hge
        · exact hslot i hlt (hfree hlt)
        · have hieq : i = st.slots s := by omega
          rw [CannotGrow, ← hieq] at hgrow
          rcases hfull with hlt | hle <;> omega
    · have hieq : i = st.slots s := by
        have := mt Or.inl hfull
        omega
      have hshort := (hstored.short hfull).1
      have hfalse : (decide (i < st.slots s) ||
          (run (Dir.writeEntry s i (makeEntry name x)) st).1 == 20) = false := by
        simp only [Bool.or_eq_false_iff, decide_eq_false_iff_not, beq_eq_false_iff_ne]
        omega
      rw [hfalse]
      refine ⟨⟨fun _ ↦ .inr (.inr ⟨hlast hieq, ?_⟩), fun _ ↦ rfl⟩, h.short hieq hstored hfull⟩
      rw [CannotGrow, ← hieq]
      omega

theorem congr (hdisk : st'.disk = st.disk) (hmap : st'.freeMap = st.freeMap)
    (hread : st'.readLength s = st.readLength s)
    (hdenied : writeDenied (st'.openInodes s) = writeDenied (st.openInodes s)) : Directory st' I s M := by
  obtain ⟨disk, map, inodes⟩ := st'
  cases hdisk
  cases hmap
  have hslots : slots ⟨st.disk, st.freeMap, inodes⟩ s = st.slots s := by
    rw [slots, slots, hread]
  have hs := h.solid
  refine ⟨⟨⟨hs.wf.distinct, hs.wf.used, hs.wf.tail⟩, hs.mem, ?_, ?_, hs.nonneg, hs.blocks⟩, ?_, ?_, ?_⟩
  · rw [hdenied]
    exact hs.writable
  · rw [hread]
    exact hs.length
  · rw [hslots]
    exact h.utf8
  · rw [hslots]
    exact h.unique
  · rw [hslots]
    exact h.binds

theorem flagged {f : Inode → Inode} (hlen : ∀ i, (f i).length = i.length)
    (hdeny : ∀ i, (f i).denyWriteCnt = i.denyWriteCnt) :
    Directory (st.withInode x ((st.openInodes x).map f)) I s M := by
  refine h.congr rfl rfl ?_ ?_
  all_goals
    by_cases hsx : s = x
    · subst hsx
      simp only [readLength, withInode_openInodes, update_self]
      cases st.openInodes s with
      | none => rfl
      | some i => simp only [Option.map_some, writeDenied, hlen, hdeny]
    · simp only [readLength, withInode_openInodes, update_of_ne hsx, fileLength,
        withInode_disk]

theorem remove :
    ((run (Dir.remove s name) st).1 = false ↔ M name = none ∨ ∃ x, M name = some x ∧ NonEmptyDir st x) ∧
      Directory (run (Dir.remove s name) st).2 I s
        (if (run (Dir.remove s name) st).1 then update M name none else M) := by
  rcases run_remove st s name with ⟨hwhy, hrun⟩ | ⟨i, hi, hp, hempty, hrun⟩
  · rw [hrun]
    refine ⟨⟨fun _ ↦ ?_, fun _ ↦ rfl⟩, h⟩
    rcases hwhy with hno | ⟨i, hi, hp, hne⟩
    · exact .inl (h.unbound.mpr hno)
    · exact .inr ⟨_, (h.binds name _).mpr ⟨i, hi, hp, rfl⟩, hne⟩
  · have hbound := (h.binds name _).mpr ⟨i, hi, hp, rfl⟩
    set st₁ := (run (inodeRemove (st.record s i).inodeSector) st).2 with hst₁
    have h₁ : Directory st₁ I s M := h.flagged (fun _ ↦ rfl) fun _ ↦ rfl
    have hrec : st₁.record s i = st.record s i := rfl
    have hslots : st₁.slots s = st.slots s := by
      rw [slots, slots, h₁.solid.length, h.solid.length]
      rfl
    have hi₁ : i < st₁.slots s := hslots ▸ hi
    have hends := h₁.solid.ends_writeEntry (e := { st.record s i with inUse := 0 }) hi₁.le
      (st.length_record s i) (st.record_sector_lt s i) (h₁.solid.slot_lt hi₁)
    have hstored := run_of_ends hends
    rw [hrun]
    simp only [Bool.true_eq_false, false_iff]
    refine ⟨?_, h₁.erase hi₁ (hrec ▸ hp) hstored⟩
    rintro (hnone | ⟨x, hM, hne⟩)
    · cases hnone.symm.trans hbound
    · cases hM.symm.trans hbound
      exact hempty hne

end

end Directory

theorem isChild_iff (he : isUtf8 e.text = true ∨ e.inUse = 0) :
    e.isChild = true ↔ e.inUse ≠ 0 ∧ e.text ≠ [46] ∧ e.text ≠ [46, 46] := by
  rcases he with he | he <;> simp [DirEntry.isChild, he, and_assoc]

/-- What `readdir` answers from entry `i` on: the next entry that is not `.` or `..`, or nothing. -/
def NextChild (st : State) (s i : Nat) (r : Option (List UInt8) × Nat) : Prop :=
  (∃ j, i ≤ j ∧ j < st.slots s ∧ (st.record s j).isChild = true ∧
      (∀ k, i ≤ k → k < j → (st.record s k).isChild = false) ∧ r = (some (st.record s j).text, 20 * (j + 1))) ∨
    (∀ k, i ≤ k → k < st.slots s → (st.record s k).isChild = false) ∧ ∃ j, r = (none, 20 * j)

theorem NextChild.skip {r : Option (List UInt8) × Nat} (h : NextChild st s (i + 1) r)
    (hi : (st.record s i).isChild = false) : NextChild st s i r := by
  have hmore : ∀ P : Nat → Prop, (∀ k, i + 1 ≤ k → P k → (st.record s k).isChild = false) →
      ∀ k, i ≤ k → P k → (st.record s k).isChild = false := by
    intro P hP k hk hPk
    by_cases hki : k = i
    · rw [hki, hi]
    · exact hP k (by omega) hPk
  rcases h with ⟨j, hij, hj, hc, hmin, hr⟩ | ⟨hno, hr⟩
  · exact .inl ⟨j, by omega, hj, hc, hmore _ hmin, hr⟩
  · exact .inr ⟨hmore _ hno, hr⟩

namespace Directory

theorem readdirLoop (h : Directory st I s M) : ∀ turns i, st.slots s < i + turns →
    ∃ r, run (Dir.readdirLoop s (st.readLength s) turns (20 * i)) st = (r, st) ∧ NextChild st s i r := by
  intro turns
  induction turns with
  | zero => exact fun i hi ↦ ⟨_, rfl, .inr ⟨fun k hk hk' ↦ by omega, i, rfl⟩⟩
  | succ turns ih =>
    intro i hi
    unfold Dir.readdirLoop
    by_cases hlt : i < st.slots s
    · have hend := lt_slots.mp hlt
      have hbytes : bytesAt st s entrySize (20 * i) = _ := mul_comm i 20 ▸ bytesAt_record hlt
      rw [if_neg (by omega), run_bind, run_readAt_eq, hbytes]
      change ∃ r, run (if (st.record s i).inUse ≠ 0 then _ else _) st = (r, st) ∧ _
      obtain ⟨r, hr, hnext⟩ := ih (i + 1) (by omega)
      by_cases hu : (st.record s i).inUse = 0
      · rw [if_neg (not_not.mpr hu)]
        exact ⟨r, hr, hnext.skip (by simp [DirEntry.isChild, hu])⟩
      · have hutf := h.utf8 i hlt hu
        rw [if_pos hu]
        change ∃ r, run (if isUtf8 (st.record s i).text = true then
          if (st.record s i).text ≠ [46] ∧ (st.record s i).text ≠ [46, 46] then _ else _ else _) st = (r, st) ∧ _
        rw [if_pos hutf]
        by_cases hdots : (st.record s i).text ≠ [46] ∧ (st.record s i).text ≠ [46, 46]
        · rw [if_pos hdots]
          refine ⟨_, rfl, .inl ⟨i, le_rfl, hlt, ?_, fun k hk hk' ↦ by omega, rfl⟩⟩
          exact (isChild_iff (.inl hutf)).mpr ⟨hu, hdots⟩
        · rw [if_neg hdots]
          refine ⟨r, hr, hnext.skip ?_⟩
          rw [← Bool.not_eq_true]
          exact fun hc ↦ hdots ((isChild_iff (.inl hutf)).mp hc).2
    · have hno : ∀ k, i ≤ k → k < st.slots s → (st.record s k).isChild = false := fun k hk hk' ↦ by omega
      by_cases hend : ((20 * i : Nat)) ≥ st.readLength s
      · exact ⟨_, by rw [if_pos hend]; rfl, .inr ⟨hno, i, rfl⟩⟩
      · have hshort : (bytesAt st s entrySize (20 * i)).length < entrySize := by
          have := lt_slots.not.mp hlt
          simp only [bytesAt, entrySize, List.length_map, List.length_range]
          omega
        rw [if_neg hend, run_bind, run_readAt_eq, if_pos hshort]
        exact ⟨_, rfl, .inr ⟨hno, i + 1, rfl⟩⟩

theorem readdir (h : Directory st I s M) (i : Nat) :
    ∃ r, run (Dir.readdir s (20 * i)) st = (r, st) ∧ NextChild st s i r := by
  rw [Dir.readdir, run_bind, run_inodeLength]
  refine h.readdirLoop _ i ?_
  simp only [slots, entryCount, entrySize]
  omega

end Directory

end Rxv6.Filesys
