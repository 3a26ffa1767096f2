import Rxv6.Filesys.Inode
import Rxv6.Thread.Scheduler

namespace Rxv6.Filesys.OpenInodes

open Function Lib.Runs Thread

def waits : Op → Bool
  | .bread _ | .bwrite _ _ => true
  | _ => false

def advance : Prog Unit → State → Prog Unit × State
  | .ret a, st => (.ret a, st)
  | .call op k, st => if waits op then (.call op k, st) else advance (k (sem op st).1) (sem op st).2

def resume : Prog Unit → State → Prog Unit × State
  | .ret a, st => (.ret a, st)
  | .call op k, st => advance (k (sem op st).1) (sem op st).2

inductive Pc
  | idle
  | opening (s : Nat) (p : Prog Unit)
  | closing (p : Prog Unit)

/-- The file system with the calls of several threads. `opens` and `closes` count, for each sector,
the completed opens and the closes. `marked` and `denied` are what was set through the handles that
are open. -/
structure Calls where
  st : State
  pc : Tid → Pc
  opens : Nat → Nat
  closes : Nat → Nat
  marked : Nat → Bool
  denied : Nat → Int

inductive Act
  | open (s : Nat)
  | close (s : Nat)
  | remove (s : Nat)
  | denyWrite (s : Nat)
  | allowWrite (s : Nat)
  | go

namespace Calls

def handles (c : Calls) (s : Nat) : Int := c.opens s - c.closes s

def opened (c : Calls) (t : Tid) (s : Nat) (r : Prog Unit × State) : Calls :=
  match r.1 with
  | .ret _ => { c with st := r.2, pc := update c.pc t .idle, opens := update c.opens s (c.opens s + 1) }
  | p => { c with st := r.2, pc := update c.pc t (.opening s p) }

def closing (c : Calls) (t : Tid) (r : Prog Unit × State) : Calls :=
  match r.1 with
  | .ret _ => { c with st := r.2, pc := update c.pc t .idle }
  | p => { c with st := r.2, pc := update c.pc t (.closing p) }

def countClose (c : Calls) (s : Nat) : Calls :=
  { c with
    closes := update c.closes s (c.closes s + 1)
    marked := if c.handles s = 1 then update c.marked s false else c.marked
    denied := if c.handles s = 1 then update c.denied s 0 else c.denied }

def step (c : Calls) (x : Tid × Act) : Option Calls :=
  let t := x.1
  match x.2, c.pc t with
  | .go, .opening s p => some (c.opened t s (resume p c.st))
  | .go, .closing p => some (c.closing t (resume p c.st))
  | .open s, .idle => some (c.opened t s (advance (inodeOpen s) c.st))
  | .close s, .idle => some ((c.countClose s).closing t (advance (inodeClose s) c.st))
  | .remove s, .idle =>
    some { c with
      st := (run (inodeRemove s) c.st).2
      marked := if c.handles s > 0 then update c.marked s true else c.marked }
  | .denyWrite s, .idle =>
    some { c with
      st := (run (denyWrite s) c.st).2
      denied := if c.handles s > 0 then update c.denied s (c.denied s + 1) else c.denied }
  | .allowWrite s, .idle =>
    some { c with
      st := (run (allowWrite s) c.st).2
      denied := if c.handles s > 0 then update c.denied s (allowed (c.denied s)) else c.denied }
  | _, _ => none

def init (st : State) : Calls where
  st := { st with openInodes := fun _ ↦ none }
  pc _ := .idle
  opens _ := 0
  closes _ := 0
  marked _ := false
  denied _ := 0

def Counted (c : Calls) : Prop :=
  ∀ s, ((c.st.openInodes s).isSome ↔ 0 < c.handles s) ∧ ∀ i, c.st.openInodes s = some i →
      i.openCnt = c.handles s ∧ i.removed = c.marked s ∧ i.denyWriteCnt = c.denied s

/-- An `open` that went to the disk finds no entry for its sector when it comes back, and a `close` is
for a handle that is open. -/
def inserts (c : Calls) (x : Tid × Act) : Bool :=
  match x.2, c.pc x.1 with
  | .go, .opening s _ => (c.st.openInodes s).isNone
  | .close s, _ => 0 < c.handles s
  | _, _ => true

def InsertsOnce (c : Calls) (x : Tid × Act) : Prop := c.inserts x = true

instance (c : Calls) (x : Tid × Act) : Decidable (InsertsOnce c x) := inferInstanceAs (Decidable (_ = true))

end Calls

def Keeps {α : Type} : Prog α → Prop
  | .ret _ => True
  | .call op k => (∀ st, (sem op st).2.openInodes = st.openInodes) ∧ ∀ r, Keeps (k r)

section Keeps

variable {α β : Type} {st : State} {p : Prog Unit}

theorem Keeps.bind {p : Prog α} {f : α → Prog β} (hp : Keeps p) (hf : ∀ a, Keeps (f a)) :
    Keeps (p >>= f) := by
  induction p with
  | ret a => exact hf a
  | call op k ih => exact ⟨hp.1, fun r ↦ ih r (hp.2 r)⟩

theorem keeps_pure (a : α) : Keeps (pure a : Prog α) := trivial

theorem keeps_bread (s : Nat) : Keeps (bread s) := ⟨fun _ ↦ rfl, fun _ ↦ trivial⟩

theorem keeps_release (s : Nat) : Keeps (release s) := ⟨fun _ ↦ rfl, fun _ ↦ trivial⟩

theorem keeps_each {l : List Nat} {f : Nat → Prog Unit} (hf : ∀ i, Keeps (f i)) : Keeps (each l f) := by
  induction l with
  | nil => exact keeps_pure ()
  | cons i l ih => exact (hf i).bind fun _ ↦ ih

theorem keeps_getBlockSectorDisk (d : InodeDisk) (b : Nat) : Keeps (getBlockSectorDisk d b) := by
  unfold getBlockSectorDisk
  split_ifs
  · exact keeps_pure _
  · exact keeps_pure _
  · exact (keeps_bread _).bind fun _ ↦ keeps_pure _
  · exact keeps_pure _
  · refine (keeps_bread _).bind fun outer ↦ ?_
    split_ifs
    · exact keeps_pure _
    · exact (keeps_bread _).bind fun _ ↦ keeps_pure _

theorem keeps_releaseBlocks (d : InodeDisk) (len : Int) : Keeps (releaseBlocks d len) := by
  have hinner : ∀ x, Keeps (do
      let buf ← bread x
      each (List.range 128) fun j ↦ if Sector.word buf j ≠ 0 then release (Sector.word buf j) else pure ()
      release x) := by
    refine fun x ↦ (keeps_bread x).bind fun buf ↦ (keeps_each fun j ↦ ?_).bind fun _ ↦ keeps_release x
    split
    · exact keeps_release _
    · exact keeps_pure _
  refine (keeps_each fun b ↦ (keeps_getBlockSectorDisk d b).bind fun x ↦ ?_).bind fun _ ↦ ?_
  · cases x with
    | none => exact keeps_pure ()
    | some x => exact keeps_release x
  · dsimp only
    split_ifs
    · exact (keeps_release _).bind fun _ ↦ hinner _
    · exact (keeps_release _).bind fun _ ↦ keeps_pure _
    · exact hinner _
    · exact keeps_pure _

theorem Keeps.advance (hp : Keeps p) (st : State) :
    Keeps (advance p st).1 ∧ (advance p st).2.openInodes = st.openInodes := by
  induction p generalizing st with
  | ret a => exact ⟨trivial, rfl⟩
  | call op k ih =>
    unfold OpenInodes.advance
    split
    · exact ⟨hp, rfl⟩
    · obtain ⟨hk, he⟩ := ih (sem op st).1 (hp.2 _) (sem op st).2
      exact ⟨hk, he.trans (hp.1 st)⟩

theorem Keeps.resume (hp : Keeps p) (st : State) :
    Keeps (resume p st).1 ∧ (resume p st).2.openInodes = st.openInodes := by
  cases p with
  | ret a => exact ⟨trivial, rfl⟩
  | call op k =>
    obtain ⟨hk, he⟩ := (hp.2 (sem op st).1).advance (sem op st).2
    exact ⟨hk, he.trans (hp.1 st)⟩

end Keeps

def entry (d : InodeDisk) : Inode :=
  { openCnt := 1, removed := false, denyWriteCnt := 0, length := d.length, isDir := d.isDir,
    isSymlink := d.isSymlink }

def insertInode (s : Nat) : Prog Unit := .call (.bread s) fun d ↦ setInode s fun _ ↦ some (entry d)

section Programs

variable {st : State} {s : Nat} {i : Inode}

theorem advance_getInode (k : Option Inode → Prog Unit) :
    advance (getInode s >>= k) st = advance (k (st.openInodes s)) st := rfl

theorem advance_open_none (h : st.openInodes s = none) :
    advance (inodeOpen s) st = (insertInode s, st) := by
  rw [inodeOpen, advance_getInode, h]
  rfl

theorem advance_open_some (h : st.openInodes s = some i) :
    advance (inodeOpen s) st = (.ret (), st.withInode s (some { i with openCnt := i.openCnt + 1 })) := by
  rw [inodeOpen, advance_getInode, h]
  change (_, st.withInode s ((st.openInodes s).map _)) = _
  rw [h]
  rfl

/-- The part of `close` that comes after the entry is gone. -/
def freeInode (s : Nat) (i : Inode) : Prog Unit :=
  if i.removed then do
    release s
    let d ← readInodeDisk s
    releaseBlocks d i.length
  else pure ()

theorem keeps_freeInode : Keeps (freeInode s i) := by
  unfold freeInode
  split
  · exact (keeps_release s).bind fun _ ↦ (keeps_bread s).bind fun d ↦ keeps_releaseBlocks d _
  · exact keeps_pure ()

theorem advance_close_last (h : st.openInodes s = some i) (hi : i.openCnt = 1) :
    advance (inodeClose s) st = advance (freeInode s i) (st.withInode s none) := by
  rw [inodeClose, advance_getInode, h]
  change advance (if i.openCnt - 1 ≤ 0 then _ else _) st = _
  rw [if_pos (by omega)]
  rfl

theorem advance_close_more (h : st.openInodes s = some i) (hi : 1 < i.openCnt) :
    advance (inodeClose s) st = (.ret (), st.withInode s (some { i with openCnt := i.openCnt - 1 })) := by
  rw [inodeClose, advance_getInode, h]
  change advance (if i.openCnt - 1 ≤ 0 then _ else _) st = _
  rw [if_neg (by omega)]
  change (_, st.withInode s ((st.openInodes s).map _)) = _
  rw [h]
  rfl

end Programs

def Suspended : Pc → Prop
  | .idle => True
  | .opening s p => p = insertInode s
  | .closing p => Keeps p

/-- The entry of a sector that was opened `m` times and closed `n` times. -/
structure Agrees (o : Option Inode) (m n : Nat) (marked : Bool) (denied : Int) : Prop where
  closed : n ≤ m
  absent : m = n → o = none ∧ marked = false ∧ denied = 0
  present : n < m → ∃ i, o = some i ∧ i.openCnt = m - n ∧ i.removed = marked ∧ i.denyWriteCnt = denied

namespace Agrees

variable {o : Option Inode} {i : Inode} {m n : Nat} {marked : Bool} {denied : Int}

theorem of_none (h : Agrees none m n marked denied) : m = n ∧ marked = false ∧ denied = 0 := by
  have hmn : m = n := by
    by_contra hne
    obtain ⟨i, hi, -⟩ := h.present (lt_of_le_of_ne h.closed (symm hne))
    cases hi
  exact ⟨hmn, (h.absent hmn).2⟩

theorem of_some (h : Agrees (some i) m n marked denied) :
    n < m ∧ i.openCnt = m - n ∧ i.removed = marked ∧ i.denyWriteCnt = denied := by
  have hlt : n < m := by
    refine lt_of_le_of_ne h.closed fun he ↦ ?_
    cases (h.absent he.symm).1
  obtain ⟨j, hj, hspec⟩ := h.present hlt
  cases hj
  exact ⟨hlt, hspec⟩

theorem some_of (hlt : n < m) (hcnt : i.openCnt = m - n) :
    Agrees (some i) m n i.removed i.denyWriteCnt :=
  ⟨hlt.le, fun he ↦ absurd he.symm hlt.ne, fun _ ↦ ⟨i, rfl, hcnt, rfl, rfl⟩⟩

theorem insert (h : Agrees none m n marked denied) (d : InodeDisk) :
    Agrees (some (entry d)) (m + 1) n marked denied := by
  obtain ⟨rfl, rfl, rfl⟩ := h.of_none
  exact some_of (by omega) (by simp [entry])

section

variable (h : Agrees (some i) m n marked denied)
include h

theorem reopen :
    Agrees (some { i with openCnt := i.openCnt + 1 }) (m + 1) n marked denied := by
  obtain ⟨hlt, hcnt, rfl, rfl⟩ := h.of_some
  exact some_of (by omega) (by push_cast; omega)

theorem close_more (hi : 1 < i.openCnt) :
    Agrees (some { i with openCnt := i.openCnt - 1 }) m (n + 1) marked denied := by
  obtain ⟨hlt, hcnt, rfl, rfl⟩ := h.of_some
  exact some_of (by omega) (by push_cast; omega)

theorem close_last (hi : i.openCnt = 1) :
    Agrees none m (n + 1) false 0 := by
  obtain ⟨hlt, hcnt, -, -⟩ := h.of_some
  exact ⟨by omega, fun _ ↦ ⟨rfl, rfl, rfl⟩, fun h ↦ by omega⟩

end

theorem map (h : Agrees o m n marked denied) {f : Inode → Inode} {g : Bool → Bool} {k : Int → Int}
    (hcnt : ∀ i, (f i).openCnt = i.openCnt) (hremoved : ∀ i, (f i).removed = g i.removed)
    (hdeny : ∀ i, (f i).denyWriteCnt = k i.denyWriteCnt) :
    Agrees (o.map f) m n (if n < m then g marked else marked) (if n < m then k denied else denied) := by
  cases o with
  | none =>
    have hmn := h.of_none.1
    rwa [if_neg (by omega), if_neg (by omega)]
  | some i =>
    obtain ⟨hlt, hi, rfl, rfl⟩ := h.of_some
    rw [if_pos hlt, if_pos hlt, ← hremoved, ← hdeny]
    exact some_of hlt ((hcnt i).trans hi)

end Agrees

structure Inv (c : Calls) : Prop where
  pcs : ∀ t, Suspended (c.pc t)
  sectors : ∀ s, Agrees (c.st.openInodes s) (c.opens s) (c.closes s) (c.marked s) (c.denied s)

open Calls

namespace Inv

variable {c c' : Calls} {t : Tid} {s : Nat}

section

variable (hinv : Inv c)

include hinv

theorem counted : c.Counted := by
  intro s
  have h := hinv.sectors s
  cases ho : c.st.openInodes s with
  | none =>
    rw [ho] at h
    rw [handles, h.of_none.1]
    exact ⟨by simp, nofun⟩
  | some i =>
    rw [ho] at h
    obtain ⟨hlt, hspec⟩ := h.of_some
    refine ⟨⟨fun _ ↦ ?_, fun _ ↦ rfl⟩, fun j hj ↦ ?_⟩
    · rw [handles]
      omega
    · cases hj
      exact hspec

theorem pcs_update {p : Pc} (hp : Suspended p) (u : Tid) : Suspended (update c.pc t p u) := by
  by_cases hu : u = t
  · rwa [hu, update_self]
  · rw [update_of_ne hu]
    exact hinv.pcs u

theorem change (hpcs : ∀ t, Suspended (c'.pc t))
    (hself : Agrees (c'.st.openInodes s) (c'.opens s) (c'.closes s) (c'.marked s) (c'.denied s))
    (hother : ∀ x, x ≠ s → c'.st.openInodes x = c.st.openInodes x ∧ c'.opens x = c.opens x ∧
      c'.closes x = c.closes x ∧ c'.marked x = c.marked x ∧ c'.denied x = c.denied x) : Inv c' := by
  refine ⟨hpcs, fun x ↦ ?_⟩
  by_cases hx : x = s
  · exact hx ▸ hself
  · obtain ⟨he, ho, hc, hm, hd⟩ := hother x hx
    rw [he, ho, hc, hm, hd]
    exact hinv.sectors x

theorem opened {o : Option Inode} (ho : Agrees o (c.opens s + 1) (c.closes s) (c.marked s) (c.denied s)) :
    Inv (c.opened t s (.ret (), c.st.withInode s o)) := by
  refine hinv.change (s := s) (hinv.pcs_update trivial) ?_ fun x hx ↦ ?_
  · simp only [Calls.opened, State.withInode_openInodes, update_self]
    exact ho
  · simp only [Calls.opened, State.withInode_openInodes, update_of_ne hx, and_self]

theorem open_ : Inv (c.opened t s (advance (inodeOpen s) c.st)) := by
  have h := hinv.sectors s
  cases ho : c.st.openInodes s with
  | none =>
    rw [advance_open_none ho]
    exact ⟨hinv.pcs_update rfl, hinv.sectors⟩
  | some i =>
    rw [ho] at h
    rw [advance_open_some ho]
    exact hinv.opened h.reopen

theorem inserted (ho : c.st.openInodes s = none) : Inv (c.opened t s (resume (insertInode s) c.st)) := by
  have h := hinv.sectors s
  rw [ho] at h
  exact hinv.opened (h.insert _)

theorem closing {r : Prog Unit × State} (hr : Keeps r.1)
    (ho : r.2.openInodes = c.st.openInodes) : Inv (c.closing t r) := by
  obtain ⟨p, st⟩ := r
  cases p with
  | ret a =>
    refine ⟨hinv.pcs_update trivial, fun s ↦ ?_⟩
    simp only [Calls.closing]
    rw [ho]
    exact hinv.sectors s
  | call op k =>
    refine ⟨hinv.pcs_update hr, fun s ↦ ?_⟩
    simp only [Calls.closing]
    rw [ho]
    exact hinv.sectors s

theorem close (hopen : 0 < c.handles s) :
    Inv ((c.countClose s).closing t (advance (inodeClose s) c.st)) := by
  have h := hinv.sectors s
  cases ho : c.st.openInodes s with
  | none =>
    rw [ho] at h
    rw [handles, h.of_none.1] at hopen
    omega
  | some i =>
    rw [ho] at h
    have hcnt := h.of_some.2.1
    rcases (show i.openCnt = 1 ∨ 1 < i.openCnt by rw [handles] at hopen; omega) with hone | hmore
    · rw [advance_close_last ho hone]
      have hmid : Inv { c.countClose s with st := c.st.withInode s none } := by
        have h1 : c.handles s = 1 := by rw [handles, ← hcnt, hone]
        refine hinv.change (s := s) hinv.pcs ?_ fun x hx ↦ ?_
        · simp only [countClose, h1, if_true, State.withInode_openInodes, update_self]
          exact h.close_last hone
        · simp only [countClose, h1, if_true, State.withInode_openInodes, update_of_ne hx, and_self]
      obtain ⟨hk, he⟩ := keeps_freeInode.advance _
      exact hmid.closing hk he
    · rw [advance_close_more ho hmore]
      have h1 : c.handles s ≠ 1 := by
        rw [handles]
        omega
      refine hinv.change (s := s) (hinv.pcs_update trivial) ?_ fun x hx ↦ ?_
      · simp only [Calls.closing, countClose, h1, State.withInode_openInodes, update_self]
        exact h.close_more hmore
      · simp only [Calls.closing, countClose, h1, if_false, State.withInode_openInodes,
          update_of_ne hx, and_self]

theorem flagged {f : Inode → Inode} {g : Bool → Bool} {k : Int → Int}
    (hst : c'.st = c.st.withInode s ((c.st.openInodes s).map f))
    (hcnt : ∀ i, (f i).openCnt = i.openCnt) (hremoved : ∀ i, (f i).removed = g i.removed)
    (hdeny : ∀ i, (f i).denyWriteCnt = k i.denyWriteCnt)
    (hmarked : c'.marked = if c.handles s > 0 then update c.marked s (g (c.marked s)) else c.marked)
    (hdenied : c'.denied = if c.handles s > 0 then update c.denied s (k (c.denied s)) else c.denied)
    (hpc : c'.pc = c.pc) (hopens : c'.opens = c.opens) (hcloses : c'.closes = c.closes) : Inv c' := by
  have hiff : c.handles s > 0 ↔ c.closes s < c.opens s := by
    rw [handles]
    omega
  refine hinv.change (s := s) (hpc ▸ hinv.pcs) ?_ fun x hx ↦ ?_
  · rw [hst, hopens, hcloses, hmarked, hdenied, State.withInode_openInodes, update_self]
    have h := (hinv.sectors s).map hcnt hremoved hdeny
    by_cases hlt : c.closes s < c.opens s
    · rw [if_pos (hiff.mpr hlt), if_pos (hiff.mpr hlt), update_self, update_self]
      rwa [if_pos hlt, if_pos hlt] at h
    · rw [if_neg (hiff.not.mpr hlt), if_neg (hiff.not.mpr hlt)]
      rwa [if_neg hlt, if_neg hlt] at h
  · rw [hst, hopens, hcloses, hmarked, hdenied, State.withInode_openInodes, update_of_ne hx]
    split_ifs
    · rw [update_of_ne hx, update_of_ne hx]
      exact ⟨rfl, rfl, rfl, rfl, rfl⟩
    · exact ⟨rfl, rfl, rfl, rfl, rfl⟩

theorem step {x : Tid × Act} (hok : Calls.InsertsOnce c x) (hs : c.step x = some c') : Inv c' := by
  obtain ⟨t, a⟩ := x
  have hpc := hinv.pcs t
  simp only [InsertsOnce, inserts] at hok
  simp only [Calls.step] at hs
  cases hc : c.pc t with
  | opening s p =>
    rw [hc] at hpc hs hok
    obtain rfl : p = insertInode s := hpc
    cases a <;> cases hs
    exact hinv.inserted (Option.isNone_iff_eq_none.mp hok)
  | closing p =>
    rw [hc] at hpc hs
    cases a <;> cases hs
    obtain ⟨hk, he⟩ := Keeps.resume hpc c.st
    exact hinv.closing hk he
  | idle =>
    rw [hc] at hs
    cases a with
    | go => cases hs
    | «open» s =>
      cases hs
      exact hinv.open_
    | close s =>
      cases hs
      exact hinv.close (of_decide_eq_true hok)
    | remove s =>
      cases hs
      refine hinv.flagged (g := fun _ ↦ true) (k := id) rfl (fun _ ↦ rfl) (fun _ ↦ rfl) (fun _ ↦ rfl) rfl ?_
        rfl rfl rfl
      rw [id, update_eq_self, ite_self]
    | denyWrite s =>
      cases hs
      refine hinv.flagged (g := id) (k := (· + 1)) rfl (fun _ ↦ rfl) (fun _ ↦ rfl) (fun _ ↦ rfl) ?_ rfl
        rfl rfl rfl
      rw [id, update_eq_self, ite_self]
    | allowWrite s =>
      cases hs
      refine hinv.flagged (g := id) rfl (fun _ ↦ rfl) (fun _ ↦ rfl) (fun _ ↦ rfl) ?_ rfl
        rfl rfl rfl
      rw [id, update_eq_self, ite_self]

end

theorem init (st : State) : Inv (Calls.init st) :=
  ⟨fun _ ↦ trivial, fun _ ↦ ⟨le_rfl, fun _ ↦ ⟨rfl, rfl, rfl⟩, fun h ↦ absurd h (lt_irrefl 0)⟩⟩

end Inv

variable {st : State} {c : Calls}

/-- In a run where no entry is overwritten, the table of open inodes agrees with the handles. -/
theorem open_inodes_counted (hrun : Run Calls.step Calls.InsertsOnce (Calls.init st) c) : c.Counted := by
  have hinv := hrun.invariant Inv (fun _ _ _ hinv hok hs ↦ hinv.step hok hs) (Inv.init st)
  exact hinv.counted

def small : State where
  disk _ := Sector.zero
  freeMap := ⟨[true, true, true, false], by decide⟩
  openInodes _ := none

/-- Thread 2 opens the inode after thread 1, which then removes it; thread 2 keeps its handle. -/
theorem open_inodes_counted_shared : ∃ c, Run Calls.step Calls.InsertsOnce (Calls.init small) c ∧
    c.handles 2 = 1 ∧ c.marked 2 = true ∧ c.Counted := by
  obtain ⟨c, hc, h1, hm⟩ : ∃ c, execWhile Calls.step Calls.InsertsOnce (Calls.init small)
      [(1, .open 2), (1, .go), (2, .open 2), (1, .remove 2), (1, .close 2)] = some c ∧
        c.handles 2 = 1 ∧ c.marked 2 = true := ⟨_, rfl, rfl, rfl⟩
  have hrun := Run.of_execWhile hc
  exact ⟨c, hrun, h1, hm, open_inodes_counted hrun⟩

/-- Both threads find the inode closed and go to the disk: two handles are open, and one is counted. -/
theorem open_inodes_overwritten : ∃ c, Run Calls.step always (Calls.init small) c ∧ ¬ c.Counted := by
  obtain ⟨c, hc, h2, i, hi, h1⟩ : ∃ c, exec Calls.step (Calls.init small)
      [(1, .open 2), (2, .open 2), (1, .go), (2, .go)] = some c ∧ c.handles 2 = 2 ∧
        ∃ i, c.st.openInodes 2 = some i ∧ i.openCnt = 1 := ⟨_, rfl, rfl, _, rfl, rfl⟩
  refine ⟨c, Run.of_exec hc, fun hcounted ↦ ?_⟩
  have := ((hcounted 2).2 i hi).1
  rw [h1, h2] at this
  cases this

end Rxv6.Filesys.OpenInodes
