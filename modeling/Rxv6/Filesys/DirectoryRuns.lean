import Rxv6.Filesys.DirectoryMap

namespace Rxv6.Filesys

open Lib.Runs Function Sector InodeDisk List

/-- `readdir` again and again, until it answers nothing. -/
def Dir.readdirAll (s : Nat) : Nat → Nat → Prog (List (List UInt8))
  | 0, _ => pure []
  | turns + 1, pos => do
    match ← Dir.readdir s pos with
    | (none, _) => pure []
    | (some name, pos) => do
      let rest ← readdirAll s turns pos
      pure (name :: rest)

/-- The names of the entries from `i` on, without `.` and `..`. -/
def State.children (st : State) (s i : Nat) : List (List UInt8) :=
  ((List.range' i (st.slots s - i)).filter fun k ↦ (st.record s k).isChild).map fun k ↦ (st.record s k).text

inductive DirOp
  | lookup (name : List UInt8)
  | add (name : List UInt8) (sector : Nat)
  | remove (name : List UInt8)
  | readdir

structure DirSystem where
  st : State
  pos : Nat
  map : Bindings

namespace DirSystem

def step (s : Nat) (x : DirSystem) (op : DirOp) : Option DirSystem :=
  match op with
  | .lookup name => some { x with st := (run (Dir.lookup s name) x.st).2 }
  | .add name sector =>
    let r := run (Dir.add s name sector) x.st
    some { x with st := r.2, map := if r.1 then update x.map name (some sector) else x.map }
  | .remove name =>
    let r := run (Dir.remove s name) x.st
    some { x with st := r.2, map := if r.1 then update x.map name none else x.map }
  | .readdir =>
    let r := run (Dir.readdir s x.pos) x.st
    some { x with st := r.2, pos := r.1.2 }

def dots (s parent : Nat) : Bindings :=
  update (update (fun _ ↦ none) [46] (some s)) [46, 46] (some parent)

/-- A handle on the directory that `Dir::create` has made. -/
def made (st : State) (s parent : Nat) : DirSystem where
  st := (run (do
    let _ ← Dir.create s parent
    inodeOpen s) st).2
  pos := 0
  map := dots s parent

def Valid : DirOp → Prop
  | .lookup name => Proper name
  | .add name sector => Proper name ∧ sector < 4294967296
  | .remove name => Proper name
  | .readdir => True

/-- The operation is given a proper name, and an entry that has to be appended fits below the largest
file length. -/
def Fits (s : Nat) (x : DirSystem) (op : DirOp) : Prop :=
  Valid op ∧ match op with
    | .add name _ => Roomy x.st s name
    | _ => True

def Answers (s : Nat) (x : DirSystem) : DirOp → Prop
  | .lookup name => (run (Dir.lookup s name) x.st).1 = x.map name
  | .add name sector => (run (Dir.add s name sector) x.st).1 = false ↔
      nameMax < name.length ∨ x.map name ≠ none ∨ NoSlot x.st s ∧ CannotGrow x.st s
  | .remove name => (run (Dir.remove s name) x.st).1 = false ↔
      x.map name = none ∨ ∃ t, x.map name = some t ∧ NonEmptyDir x.st t
  | .readdir => ∀ name, (run (Dir.readdir s x.pos) x.st).1.1 = some name →
      x.map name ≠ none ∧ name ≠ [46] ∧ name ≠ [46, 46]

structure Refines (s : Nat) (x : DirSystem) : Prop where
  unique : ∀ i j, i < x.st.slots s → j < x.st.slots s → (x.st.record s i).inUse ≠ 0 →
    (x.st.record s j).inUse ≠ 0 → (x.st.record s i).text = (x.st.record s j).text → i = j
  answers : ∀ op, Fits s x op → Answers s x op
  listing : ∀ turns, x.st.slots s < turns → (run (Dir.readdirAll s turns 0) x.st).1.Nodup ∧
      ∀ name, name ∈ (run (Dir.readdirAll s turns 0) x.st).1 ↔
        x.map name ≠ none ∧ name ≠ [46] ∧ name ≠ [46, 46]

end DirSystem

variable {st : State} {I : Set Nat} {s i : Nat} {M : Bindings} {name : List UInt8} {parent : Nat}
  {st' : State}

theorem NextChild.children {o : Option (List UInt8)} {pos : Nat} (h : NextChild st s i (o, pos)) :
    (o = none ∧ st.children s i = []) ∨
      ∃ j name, i ≤ j ∧ j < st.slots s ∧ o = some name ∧ pos = 20 * (j + 1) ∧
        st.children s i = name :: st.children s (j + 1) := by
  have hnone : ∀ m, (∀ k, i ≤ k → k < i + m → (st.record s k).isChild = false) →
      (range' i m).filter (fun k ↦ (st.record s k).isChild) = [] := by
    intro m hm
    rw [filter_eq_nil_iff]
    intro k hk
    rw [mem_range'_1] at hk
    simp [hm k hk.1 hk.2]
  rcases h with ⟨j, hij, hj, hc, hmin, hr⟩ | ⟨hno, k, hr⟩
  · cases hr
    refine .inr ⟨j, _, hij, hj, rfl, rfl, ?_⟩
    have hsplit : range' i (st.slots s - i) =
        range' i (j - i) ++ j :: range' (j + 1) (st.slots s - (j + 1)) := by
      rw [← range'_succ, show j = i + (j - i) by omega, Nat.add_sub_cancel_left, range'_append_1]
      congr 1
      omega
    rw [State.children, hsplit, filter_append, hnone _ fun k hk hk' ↦ hmin k hk (by omega), filter_cons, if_pos hc]
    rfl
  · cases hr
    refine .inl ⟨rfl, ?_⟩
    rw [State.children, hnone _ fun k hk hk' ↦ hno k hk (by omega)]
    rfl

namespace Directory

theorem readdirAll (h : Directory st I s M) : ∀ turns i, st.slots s < i + turns →
    run (Dir.readdirAll s turns (20 * i)) st = (st.children s i, st) := by
  intro turns
  induction turns with
  | zero =>
    intro i hi
    rw [State.children, show st.slots s - i = 0 by omega]
    rfl
  | succ turns ih =>
    intro i hi
    obtain ⟨⟨o, pos⟩, hrun, hnext⟩ := h.readdir i
    rw [Dir.readdirAll, run_bind, hrun]
    rcases hnext.children with ⟨rfl, hnil⟩ | ⟨j, name, hij, hj, rfl, rfl, hcons⟩
    · rw [hnil]
      rfl
    · rw [run_bind, ih (j + 1) (by omega), hcons]
      rfl

theorem mem_children (h : Directory st I s M) :
    name ∈ st.children s 0 ↔ M name ≠ none ∧ name ≠ [46] ∧ name ≠ [46, 46] := by
  have hbound : M name ≠ none ↔ ∃ i < st.slots s, (st.record s i).nameMatches name = true := by
    rw [Option.ne_none_iff_exists']
    constructor
    · rintro ⟨x, hx⟩
      obtain ⟨i, hi, hp, -⟩ := (h.binds name x).mp hx
      exact ⟨i, hi, hp⟩
    · rintro ⟨i, hi, hp⟩
      exact ⟨_, (h.binds name _).mpr ⟨i, hi, hp, rfl⟩⟩
  rw [hbound]
  simp only [State.children, mem_map, mem_filter, mem_range'_1]
  constructor
  · rintro ⟨i, ⟨⟨-, hi⟩, hc⟩, rfl⟩
    have hi : i < st.slots s := by omega
    by_cases hu : (st.record s i).inUse = 0
    · simp [DirEntry.isChild, hu] at hc
    · exact ⟨⟨i, hi, nameMatches_iff.mpr ⟨hu, rfl⟩⟩, ((isChild_iff (.inl (h.utf8 i hi hu))).mp hc).2⟩
  · rintro ⟨⟨i, hi, hp⟩, hdots⟩
    obtain ⟨hu, rfl⟩ := nameMatches_iff.mp hp
    exact ⟨i, ⟨⟨by omega, by omega⟩, (isChild_iff (.inl (h.utf8 i hi hu))).mpr ⟨hu, hdots⟩⟩, rfl⟩

theorem nodup_children (h : Directory st I s M) : (st.children s 0).Nodup := by
  refine List.Nodup.map_on ?_ ((nodup_range').filter _)
  intro i hi j hj he
  simp only [mem_filter, mem_range'_1] at hi hj
  have huse : ∀ k, (st.record s k).isChild = true → (st.record s k).inUse ≠ 0 := fun k hk h0 ↦ by
    simp [DirEntry.isChild, h0] at hk
  exact h.unique i j (by omega) (by omega) (huse i hi.2) (huse j hj.2) he

end Directory

theorem Created.unused {len : Int} {isDir : Bool} (h : Created st st' I s len isDir) (i : Nat) :
    (st'.record s i).inUse = 0 := by
  simp only [State.record, h.zero]
  rfl

theorem Created.directory (h : Created st st' I s 40 true) (hclosed : st.openInodes s = none) :
    Directory st' (insert s I) s fun _ ↦ none := by
  have hnone : st'.openInodes s = none := h.openInodes ▸ hclosed
  have huse := h.unused
  refine ⟨⟨h.wf, Set.mem_insert s I, ?_, ?_, ?_, fun k hk ↦ ?_⟩, fun i _ hu ↦ absurd (huse i) hu,
    fun i j _ _ hu ↦ absurd (huse i) hu, fun name x ↦ ⟨nofun, ?_⟩⟩
  · rw [hnone]
    rfl
  · rw [State.readLength, hnone]
  · rw [h.length]
    omega
  · rw [h.length] at hk
    rw [show k / 512 = 0 by omega]
    exact h.present 0 (by omega) (by decide)
  · rintro ⟨i, -, hp, -⟩
    exact absurd (huse i) (nameMatches_iff.mp hp).1

theorem Directory.fill (h : Directory st I s M) (hi : i < st.slots s) (hfree : (st.record s i).inUse = 0)
    {e : DirEntry} (hlen : e.name.length = 15) (hx : e.inodeSector < 4294967296) (huse : e.inUse ≠ 0)
    (htext : e.text = name) (hnone : M name = none) (hutf : isUtf8 name = true) :
    Directory (run (Dir.writeEntry s i e) st).2 I s (update M name (some e.inodeSector)) ∧
      (run (Dir.writeEntry s i e) st).2.slots s = st.slots s ∧
      Kept st (run (Dir.writeEntry s i e) st).2 I s ∧
      st.free ≤ (run (Dir.writeEntry s i e) st).2.free + 3 ∧
      ∀ j < st.slots s, j ≠ i → (run (Dir.writeEntry s i e) st).2.record s j = st.record s j := by
  have hstored := run_of_ends (h.solid.ends_writeEntry hi.le hlen hx (h.solid.slot_lt hi))
  refine ⟨h.insert hstored (.inl hi) hi.le (fun _ ↦ hfree) hnone huse htext hutf, ?_, hstored.kept,
    hstored.space, hstored.others⟩
  rw [(hstored.full (.inl hi)).2.2]
  omega

theorem run_create_eq (parent : Nat) : run (Dir.create s parent) st =
    if (run (inodeCreate s 40 true) st).1 then
      (true, (run (Dir.writeEntry s 1 (Dir.dotdot parent))
        (run (Dir.writeEntry s 0 (Dir.dot s)) (run (inodeCreate s 40 true) st).2).2).2)
    else (false, (run (inodeCreate s 40 true) st).2) := by
  rw [Dir.create, run_bind]
  change run (if (run (inodeCreate s 40 true) st).1 = true then _ else _) (run (inodeCreate s 40 true) st).2 = _
  split
  · simp only [run_bind, run_pure]
  · rfl

theorem text_dot : (Dir.dot s).text = [46] :=
  show List.takeWhile (fun b : UInt8 ↦ decide (b ≠ 0)) (46 :: List.replicate 14 0) = [46] by decide

theorem text_dotdot : (Dir.dotdot s).text = [46, 46] :=
  show List.takeWhile (fun b : UInt8 ↦ decide (b ≠ 0)) (46 :: 46 :: List.replicate 13 0) = [46, 46] by decide

theorem run_create (hwf : WellFormed st I) (hfresh : Fresh st I s)
    (hclosed : st.openInodes s = none) (hs : s < 4294967296) (hparent : parent < 4294967296)
    (hok : (run (Dir.create s parent) st).1 = true) :
    Directory (run (Dir.create s parent) st).2 (insert s I) s (DirSystem.dots s parent) ∧
      (run (Dir.create s parent) st).2.openInodes s = none ∧
      (run (Dir.create s parent) st).2.slots s = 2 ∧ st.free ≤ (run (Dir.create s parent) st).2.free + 7 := by
  have hcreate := run_of_ends (ends_inodeCreate 40 true hwf hfresh (by omega) (by omega))
  rw [run_create_eq] at hok ⊢
  split at hok
  · next hr =>
    rw [if_pos hr]
    have hcreated := hcreate.1 hr
    set st₁ := (run _ st).2
    have h₁ := hcreated.directory hclosed
    have hslots : st₁.slots s = 2 := by
      rw [State.slots, h₁.solid.length, hcreated.length]
      rfl
    have hfree := hcreated.unused
    obtain ⟨h₂, hslots₂, hkept, hspace₂, hothers⟩ := h₁.fill (by omega) (hfree 0) rfl hs
      (by simp [Dir.dot]) text_dot rfl (by decide)
    obtain ⟨h₃, hslots₃, hkept₃, hspace₃, -⟩ := h₂.fill (i := 1) (by omega)
      (by rw [hothers 1 (by omega) (by omega)]; exact hfree 1) rfl hparent (by simp [Dir.dotdot]) text_dotdot
      (update_of_ne (by decide) _ _) (by decide)
    refine ⟨h₃, ?_, hslots₃.trans (hslots₂.trans hslots), ?_⟩
    · rw [hkept₃.inode, update_self, hkept.inode, update_self, hcreated.openInodes, hclosed]
      rfl
    · have hspace : st.free = st₁.free + 1 := hcreated.space
      simp only
      omega
  · cases hok

theorem run_create_true (parent : Nat) (hwf : WellFormed st I) (hfresh : Fresh st I s) (hfree : 1 ≤ st.free) :
    (run (Dir.create s parent) st).1 = true := by
  have hcreate := run_of_ends (ends_inodeCreate 40 true hwf hfresh (by omega) (by omega))
  have htrue : (run (inodeCreate s 40 true) st).1 = true := by
    rw [← Bool.not_eq_false]
    intro hfalse
    have hlt : st.free < 1 := (hcreate.2 hfalse).2.2
    omega
  rw [run_create_eq, if_pos htrue]

theorem run_inodeOpen (hclosed : st.openInodes s = none) :
    (run (inodeOpen s) st).2 = st.withInode s (some
      { openCnt := 1, removed := false, denyWriteCnt := 0, length := InodeDisk.length (st.disk s),
        isDir := InodeDisk.isDir (st.disk s), isSymlink := InodeDisk.isSymlink (st.disk s) }) := by
  rw [inodeOpen, run_bind, run_getInode, hclosed]
  rfl

theorem readLength_opened (hclosed : st.openInodes s = none) :
    (run (inodeOpen s) st).2.readLength s = st.readLength s := by
  rw [run_inodeOpen hclosed]
  simp only [State.readLength, State.withInode_openInodes, update_self, hclosed]
  rfl

theorem Directory.opened (h : Directory st I s M) (hclosed : st.openInodes s = none) :
    Directory (run (inodeOpen s) st).2 I s M := by
  have hlength := readLength_opened hclosed
  rw [run_inodeOpen hclosed] at hlength ⊢
  refine h.congr rfl rfl hlength ?_
  rw [State.withInode_openInodes, update_self, hclosed]
  rfl

structure DirSystem.Inv (I : Set Nat) (s : Nat) (x : DirSystem) : Prop where
  directory : Directory x.st I s x.map
  pos : ∃ i, x.pos = 20 * i

namespace DirSystem.Inv

variable {x x' : DirSystem} {op : DirOp}

theorem step (h : Inv I s x) (hok : Fits s x op) (hs : x.step s op = some x') : Inv I s x' := by
  obtain ⟨i, hpos⟩ := h.pos
  cases op with
  | lookup name =>
    cases hs
    refine ⟨?_, i, hpos⟩
    rw [h.directory.lookup]
    exact h.directory
  | add name sector =>
    cases hs
    exact ⟨(h.directory.add hok.1.1 hok.1.2 hok.2).2, i, hpos⟩
  | remove name =>
    cases hs
    exact ⟨h.directory.remove.2, i, hpos⟩
  | readdir =>
    cases hs
    obtain ⟨r, hrun, hnext⟩ := h.directory.readdir i
    rw [hpos, hrun]
    refine ⟨h.directory, ?_⟩
    rcases hnext with ⟨j, -, -, -, -, rfl⟩ | ⟨-, j, rfl⟩
    · exact ⟨j + 1, rfl⟩
    · exact ⟨j, rfl⟩

theorem refines (h : Inv I s x) : Refines s x where
  unique := h.directory.unique
  answers op hok := by
    cases op with
    | lookup name => exact congrArg Prod.fst h.directory.lookup
    | add name sector => exact (h.directory.add hok.1.1 hok.1.2 hok.2).1
    | remove name => exact h.directory.remove.1
    | readdir =>
      intro name hname
      obtain ⟨i, hpos⟩ := h.pos
      obtain ⟨r, hrun, hnext⟩ := h.directory.readdir i
      rw [hpos, hrun] at hname
      rcases hnext with ⟨j, -, hj, hc, -, rfl⟩ | ⟨-, j, rfl⟩
      · cases hname
        refine h.directory.mem_children.mp (mem_map.mpr ⟨j, mem_filter.mpr ⟨?_, hc⟩, rfl⟩)
        rw [mem_range'_1]
        omega
      · cases hname
  listing turns hturns := by
    have hall := h.directory.readdirAll turns 0 (by omega)
    rw [hall]
    exact ⟨h.directory.nodup_children, fun name ↦ h.directory.mem_children⟩

end DirSystem.Inv

theorem DirSystem.made_inv (hwf : WellFormed st I) (hfresh : Fresh st I s)
    (hclosed : st.openInodes s = none) (hs : s < 4294967296) (hparent : parent < 4294967296)
    (hok : (run (Dir.create s parent) st).1 = true) : Inv (insert s I) s (made st s parent) := by
  obtain ⟨hcreated, hclosed', -⟩ := run_create hwf hfresh hclosed hs hparent hok
  refine ⟨?_, 0, rfl⟩
  rw [made, run_bind]
  exact hcreated.opened hclosed'

/-- A directory is a finite map: in every run where what has to be appended fits below the largest file
length, the answers and the listing are those of the map. -/
theorem directory_is_map {st₀ : State} {parent : Nat} {x : DirSystem} (hwf : WellFormed st₀ I)
    (hfresh : Fresh st₀ I s) (hclosed : st₀.openInodes s = none) (hs : s < 4294967296)
    (hparent : parent < 4294967296) (hok : (run (Dir.create s parent) st₀).1 = true)
    (hrun : Run (DirSystem.step s) (DirSystem.Fits s) (DirSystem.made st₀ s parent) x) :
    DirSystem.Refines s x :=
  (hrun.invariant _ (fun _ _ _ h hfit hstep ↦ h.step hfit hstep)
    (DirSystem.made_inv hwf hfresh hclosed hs hparent hok)).refines

/-- An empty disk with `n` free sectors. Sector 2 has been taken for a directory. -/
def emptyDisk (n : Nat) (hn : n < 4294967290) : State where
  disk _ := zero
  freeMap := ⟨true :: true :: true :: List.replicate n false, by
    simp only [List.length_cons, List.length_replicate]
    omega⟩
  openInodes _ := none

theorem fresh_emptyDisk (n : Nat) (hn : n < 4294967290) :
    WellFormed (emptyDisk n hn) ∅ ∧ Fresh (emptyDisk n hn) ∅ 2 := by
  have hno : ∀ a : Use, ¬ a.In (emptyDisk n hn) ∅ := fun a ha ↦ by
    cases a with
    | inode i => exact ha
    | block i u => exact ha.1
  exact ⟨⟨fun a _ ha ↦ absurd ha (hno a), fun a ha ↦ absurd ha (hno a), nofun⟩, rfl,
    fun a ha ↦ absurd ha (hno a)⟩

theorem directory_is_map_added : (run (Dir.create 2 1) (emptyDisk 5 (by omega))).1 = true ∧
    ∃ x, (DirSystem.made (emptyDisk 5 (by omega)) 2 1).step 2 (.add [97] 5) = some x ∧
      x.map [97] = some 5 ∧ DirSystem.Refines 2 x := by
  obtain ⟨hwf, hfresh⟩ := fresh_emptyDisk 5 (by omega)
  have hok : (run (Dir.create 2 1) (emptyDisk 5 (by omega))).1 = true := by decide +kernel
  have hfits : DirSystem.Fits 2 (DirSystem.made (emptyDisk 5 (by omega)) 2 1) (.add [97] 5) := by
    refine ⟨⟨⟨nofun, by decide, by decide⟩, by omega⟩, fun _ _ _ ↦ ?_⟩
    decide +kernel
  refine ⟨hok, _, rfl, by decide +kernel, ?_⟩
  exact directory_is_map hwf hfresh rfl (by omega) (by omega) hok (Run.one hfits rfl)

end Rxv6.Filesys
