import Rxv6.Lib.Runs
import Rxv6.Lib.KeyIndex
import Rxv6.Vm.Frame

namespace Rxv6.Vm

open Function Rxv6.Thread Rxv6.Lib.KeyIndex Rxv6.Lib.Runs List

/-- The paging state with `KPAGE_INDEX`, which says where in the frame table a page is. -/
structure Indexed where
  memory : Memory
  kpageIndex : Nat → Option Nat

namespace Indexed

/-- `frame::init`. -/
def init (m : Memory) : Indexed := ⟨{ m with frameTable := [] }, fun _ ↦ none⟩

def registerFrame (x : Indexed) (kpage upage : Nat) (tid : Tid) : Indexed :=
  ⟨x.memory.withCore (x.memory.registerFrame kpage upage tid),
    update x.kpageIndex kpage (some x.memory.frameTable.length)⟩

/-- One turn of the clock. The entries behind the victim move down and are entered again. -/
def evictStep (x : Indexed) : Option FrameEntry × Indexed :=
  match x.memory.evictStep with
  | (none, m) => (none, ⟨m, x.kpageIndex⟩)
  | (some e, m) =>
    (some e, ⟨m, reindex (·.kpage) (update x.kpageIndex e.kpage none)
      (x.memory.clockHand % x.memory.frameTable.length) m.frameTable⟩)

def evictLoop : Nat → Indexed → Option FrameEntry × Indexed
  | 0, x => (none, x)
  | n + 1, x =>
    match x.evictStep with
    | (some e, x) => (some e, x)
    | (none, x) => evictLoop n x

def evictFrame (x : Indexed) : Option FrameEntry × Indexed :=
  evictLoop (2 * x.memory.frameTable.length) x

/-- `free_frame`. A position outside the table would be a panic in `swap_remove`. -/
def freeFrame (x : Indexed) (kpage : Nat) : Option Indexed :=
  let pool := x.memory.userPool.set kpage false
  match x.kpageIndex kpage with
  | none => some { x with memory := { x.memory with userPool := pool } }
  | some i =>
    if i < x.memory.frameTable.length then
      let ft := swapRemove x.memory.frameTable i
      some ⟨{ x.memory with frameTable := ft, userPool := pool },
        patch (·.kpage) (update x.kpageIndex kpage none) i ft⟩
    else none

def setPinned (x : Indexed) (tid : Tid) (upage : Nat) (pinned : Bool) : Indexed :=
  { x with memory := x.memory.withCore (x.memory.setPinned tid upage pinned) }

def fixOwnerTid (x : Indexed) (placeholder realTid : Tid) : Indexed :=
  { x with memory := x.memory.withCore (x.memory.fixOwnerTid placeholder realTid) }

/-- The operations on the table. In between the rest of the paging state can become anything. -/
inductive Act
  | register (kpage upage : Nat) (tid : Tid)
  | evict
  | free (kpage : Nat)
  | fixOwner (placeholder realTid : Tid)
  | pin (tid : Tid) (upage : Nat)
  | unpin (tid : Tid) (upage : Nat)
  | elsewhere (m : Memory)

def step (x : Indexed) : Act → Option Indexed
  | .register kpage upage tid => some (x.registerFrame kpage upage tid)
  | .evict => some x.evictFrame.2
  | .free kpage => x.freeFrame kpage
  | .fixOwner placeholder realTid => some (x.fixOwnerTid placeholder realTid)
  | .pin tid upage => some (x.setPinned tid upage true)
  | .unpin tid upage => some (x.setPinned tid upage false)
  | .elsewhere m => some { x with memory := { m with frameTable := x.memory.frameTable } }

def Registers (x : Indexed) : Act → Prop
  | .register kpage _ _ => ∀ e ∈ x.memory.frameTable, e.kpage ≠ kpage
  | _ => True

def Synced (x : Indexed) : Prop := Indexes (·.kpage) x.memory.frameTable x.kpageIndex

end Indexed

theorem Core.saveVictim_frameTable {c c' : Core} {e : FrameEntry} {d : Bool} (h : c.saveVictim e d = some c') :
    c'.frameTable = c.frameTable := by
  unfold Core.saveVictim Core.swapOut at h
  split at h
  · simp only [Option.map_map, Option.map_eq_some_iff] at h
    obtain ⟨slot, -, rfl⟩ := h
    split <;> rfl
  · split at h <;> cases h <;> rfl

theorem Memory.evictStep_frameTable (m : Memory) :
    m.evictStep.1 = none ∧ m.evictStep.2.frameTable = m.frameTable ∨
      ∃ e, m.evictStep.1 = some e ∧ m.frameTable[m.clockHand % m.frameTable.length]? = some e ∧
        m.evictStep.2.frameTable = m.frameTable.eraseIdx (m.clockHand % m.frameTable.length) := by
  unfold Memory.evictStep
  simp only
  split
  · exact .inl ⟨rfl, rfl⟩
  · next e he =>
    split
    · exact .inl ⟨rfl, rfl⟩
    · split
      · exact .inl ⟨rfl, rfl⟩
      · split
        · exact .inl ⟨rfl, rfl⟩
        · split
          · exact .inl ⟨rfl, rfl⟩
          · next c hc =>
            have hft := Core.saveVictim_frameTable hc
            refine .inr ⟨e, rfl, he, ?_⟩
            change c.frameTable.eraseIdx _ = _
            rw [hft]

namespace Indexed

variable {x x' : Indexed} {e : FrameEntry} {kpage : Nat}

theorem evictStep_cases (hx : x.Synced) :
    (x.evictStep.1 = none ∧ x.evictStep.2.Synced ∧ x.evictStep.2.memory.frameTable = x.memory.frameTable) ∨
      ∃ e, x.evictStep.1 = some e ∧ x.evictStep.2.Synced ∧
        x.evictStep.2.memory.frameTable.Perm (x.memory.frameTable.erase e) ∧ e ∈ x.memory.frameTable := by
  unfold evictStep
  rcases x.memory.evictStep_frameTable with ⟨hnone, hft⟩ | ⟨e, hsome, he, hft⟩
  · generalize x.memory.evictStep = r at *
    obtain ⟨o, m⟩ := r
    subst hnone
    refine .inl ⟨rfl, ?_, hft⟩
    change Indexes _ m.frameTable _
    rw [hft]
    exact hx
  · generalize x.memory.evictStep = r at *
    obtain ⟨o, m⟩ := r
    subst hsome
    refine .inr ⟨e, rfl, ?_, ?_, mem_of_getElem? he⟩
    · change Indexes _ m.frameTable (reindex _ _ _ m.frameTable)
      rw [hft]
      exact hx.remove he
    · rw [hft]
      obtain ⟨hi, rfl⟩ := List.getElem?_eq_some_iff.mp he
      exact List.Perm.cons_inv ((getElem_cons_eraseIdx_perm hi).trans
        (perm_cons_erase (getElem_mem hi)))

theorem evictLoop_cases (n : Nat) (hx : x.Synced) :
    (evictLoop n x).2.Synced ∧ ∀ e, (evictLoop n x).1 = some e → e ∈ x.memory.frameTable ∧
      (evictLoop n x).2.memory.frameTable.Perm (x.memory.frameTable.erase e) := by
  induction n generalizing x with
  | zero => exact ⟨hx, fun e he ↦ by cases he⟩
  | succ n ih =>
    unfold evictLoop
    rcases evictStep_cases hx with ⟨hnone, hs, hft⟩ | ⟨e, hsome, hs, hperm, hmem⟩
    · generalize x.evictStep = r at *
      obtain ⟨o, y⟩ := r
      subst hnone
      rw [← hft]
      exact ih hs
    · generalize x.evictStep = r at *
      obtain ⟨o, y⟩ := r
      subst hsome
      refine ⟨hs, fun e' he' ↦ ?_⟩
      cases he'
      exact ⟨hmem, hperm⟩

theorem Synced.findIdx (hx : x.Synced) (kpage : Nat) :
    x.memory.frameTable.findIdx? (·.kpage = kpage) = x.kpageIndex kpage := by
  cases hi : x.kpageIndex kpage with
  | none =>
    rw [findIdx?_eq_none_iff]
    intro e he
    have hno := hx.isSome_iff (k := kpage)
    rw [hi] at hno
    simpa using fun hk : e.kpage = kpage ↦ hno.mpr ⟨e, he, hk⟩
  | some i =>
    obtain ⟨e, he, hk⟩ := (hx kpage i).mp hi
    obtain ⟨hlt, rfl⟩ := List.getElem?_eq_some_iff.mp he
    rw [findIdx?_eq_some_iff_getElem]
    refine ⟨hlt, by simpa using hk, fun j hj ↦ ?_⟩
    have hne : x.memory.frameTable[j].kpage ≠ kpage := fun hkj ↦ by
      have := hx.eq_of_key (getElem?_eq_getElem _) he (hkj.trans hk.symm)
      omega
    simpa using hne

theorem Synced.freeFrame (hx : x.Synced) (kpage : Nat) : ∃ x', x.freeFrame kpage = some x' ∧ x'.Synced ∧
    x'.memory = x.memory.withCore (x.memory.freeFrame kpage) := by
  have hfind := hx.findIdx kpage
  unfold Indexed.freeFrame
  cases hi : x.kpageIndex kpage with
  | none =>
    rw [hi] at hfind
    refine ⟨_, rfl, hx, ?_⟩
    simp only [Memory.withCore, Core.freeFrame, hfind]
  | some i =>
    rw [hi] at hfind
    obtain ⟨e, he, rfl⟩ := (hx kpage i).mp hi
    obtain ⟨hlt, -⟩ := List.getElem?_eq_some_iff.mp he
    have hne : x.memory.frameTable ≠ [] := by
      intro h
      simp [h] at hlt
    have hlast := getLast?_eq_some_getLast hne
    refine ⟨_, if_pos hlt, ?_, ?_⟩
    · have hsync := hx.swapRemove he hlast
      rw [swapRemove, hlast]
      exact hsync
    · simp only [Memory.withCore, Core.freeFrame, hfind]

theorem Synced.freed (hx : x.Synced) (h : x.freeFrame kpage = some x') :
    ∀ e, e ∈ x'.memory.frameTable ↔ e ∈ x.memory.frameTable ∧ e.kpage ≠ kpage := by
  unfold Indexed.freeFrame at h
  cases hi : x.kpageIndex kpage with
  | none =>
    rw [hi] at h
    cases h
    intro e
    have hno := hx.isSome_iff (k := kpage)
    rw [hi] at hno
    exact ⟨fun he ↦ ⟨he, fun hk ↦ by simpa using hno.mpr ⟨e, he, hk⟩⟩, And.left⟩
  | some i =>
    rw [hi] at h
    obtain ⟨a, ha, hka⟩ := (hx kpage i).mp hi
    obtain ⟨hlt, rfl⟩ := List.getElem?_eq_some_iff.mp ha
    simp only [hlt, if_true, Option.some.injEq] at h
    subst h
    intro e
    rw [(swapRemove_perm hlt).mem_iff, mem_eraseIdx_iff_getElem?]
    constructor
    · rintro ⟨j, hji, hj⟩
      exact ⟨mem_of_getElem? hj, fun hk ↦ hji (hx.eq_of_key hj ha (hk.trans hka.symm))⟩
    · rintro ⟨he, hk⟩
      obtain ⟨j, hj⟩ := getElem?_of_mem he
      refine ⟨j, ?_, hj⟩
      rintro rfl
      rw [ha] at hj
      cases hj
      exact hk hka

theorem Synced.setPinned (hx : x.Synced) (tid : Tid) (upage : Nat) (pinned : Bool) :
    (x.setPinned tid upage pinned).Synced := by
  change Indexes _ (x.memory.setPinned tid upage pinned).frameTable _
  unfold Core.setPinned
  split
  · next i hi =>
    refine Indexes.modify (g := fun e ↦ { e with pinned := pinned }) hx (fun _ ↦ rfl) i
  · exact hx

theorem step_synced {a : Act} (hx : x.Synced) (hok : x.Registers a) (hs : x.step a = some x') : x'.Synced := by
  cases a with
  | register kpage upage tid =>
    cases hs
    refine hx.push ?_
    have hno := hx.isSome_iff (k := kpage)
    cases hi : x.kpageIndex kpage with
    | none => rfl
    | some i =>
      rw [hi] at hno
      obtain ⟨e, he, hk⟩ := hno.mp rfl
      exact absurd hk (hok e he)
  | evict =>
    cases hs
    exact (evictLoop_cases _ hx).1
  | free kpage =>
    obtain ⟨y, hy, hsync, -⟩ := hx.freeFrame kpage
    rw [step, hy] at hs
    cases hs
    exact hsync
  | fixOwner placeholder realTid =>
    cases hs
    refine Indexes.map hx fun e ↦ ?_
    split <;> rfl
  | pin tid upage =>
    cases hs
    exact hx.setPinned tid upage true
  | unpin tid upage =>
    cases hs
    exact hx.setPinned tid upage false
  | elsewhere m =>
    cases hs
    exact hx

/-- In every run the index finds every frame at its place. So `free_frame` removes the frame of the page
that it gives back and no other, and `evict_frame` returns a page that is not in the table any more. -/
theorem frame_index_exact {m : Memory} (h : Run step Registers (init m) x) :
    (x.memory.frameTable.map (·.kpage)).Nodup ∧
      (∀ k, (x.kpageIndex k).isSome ↔ ∃ e ∈ x.memory.frameTable, e.kpage = k) ∧
      (∀ i e, x.memory.frameTable[i]? = some e → x.kpageIndex e.kpage = some i) ∧
      (∀ kpage, ∃ x', x.freeFrame kpage = some x' ∧
        ∀ e, e ∈ x'.memory.frameTable ↔ e ∈ x.memory.frameTable ∧ e.kpage ≠ kpage) ∧
      ∀ e x', x.evictFrame = (some e, x') → e ∈ x.memory.frameTable ∧
        ∀ e', e' ∈ x'.memory.frameTable ↔ e' ∈ x.memory.frameTable ∧ e'.kpage ≠ e.kpage := by
  have hx : x.Synced := h.invariant Synced (fun _ _ _ hs hok hstep ↦ step_synced hs hok hstep) (Indexes.nil _)
  refine ⟨hx.nodup, fun k ↦ hx.isSome_iff, fun i e he ↦ hx.find he, fun kpage ↦ ?_, fun e x' he ↦ ?_⟩
  · obtain ⟨x', hx', -⟩ := hx.freeFrame kpage
    exact ⟨x', hx', hx.freed hx'⟩
  · obtain ⟨-, hperm⟩ := evictLoop_cases _ hx
    rw [← evictFrame, he] at hperm
    obtain ⟨hmem, hperm⟩ := hperm e rfl
    refine ⟨hmem, fun e' ↦ ?_⟩
    rw [hperm.mem_iff, (List.Nodup.of_map _ hx.nodup).mem_erase_iff, and_comm]
    refine and_congr_right fun he' ↦ not_congr ⟨fun h ↦ h ▸ rfl, fun hk ↦ ?_⟩
    exact inj_on_of_nodup_map hx.nodup he' hmem hk

def blankMemory : Memory where
  userPool := List.replicate 8 true
  kernelPool := 0
  mem _ := zeroPage
  frameTable := []
  swapMap _ _ := none
  swapBitmap := []
  swapDisk _ := zeroPage
  spt _ := none
  files _ := []
  clockHand := 0
  pagedir _ := none

def threeFrames : Indexed :=
  (((init blankMemory).registerFrame 5 0 1).registerFrame 6 4096 1).registerFrame 7 8192 2

theorem frame_index_exact_threeFrames : ∃ x, threeFrames.freeFrame 5 = some x ∧
    x.memory.frameTable = [⟨7, 8192, 2, false⟩, ⟨6, 4096, 1, false⟩] ∧ x.kpageIndex 7 = some 0 ∧
      x.kpageIndex 5 = none := by
  have h₁ : Run step Registers (init blankMemory) ((init blankMemory).registerFrame 5 0 1) :=
    .one (x := .register 5 0 1) (by simp [Registers, init]) rfl
  have h₂ : Run step Registers (init blankMemory) (((init blankMemory).registerFrame 5 0 1).registerFrame 6 4096 1) :=
    h₁.snoc (x := .register 6 4096 1)
      (by simp [Registers, registerFrame, init, Memory.withCore, Core.registerFrame]) rfl
  have h₃ : Run step Registers (init blankMemory) threeFrames :=
    h₂.snoc (x := .register 7 8192 2)
      (by simp [Registers, registerFrame, init, Memory.withCore, Core.registerFrame]) rfl
  have h₄ : Run step Registers (init blankMemory) ((threeFrames.freeFrame 5).get rfl) :=
    h₃.snoc (x := Act.free 5) trivial rfl
  have hexact := frame_index_exact h₄
  exact ⟨_, rfl, rfl, hexact.2.2.1 0 _ rfl, rfl⟩

end Indexed

end Rxv6.Vm
