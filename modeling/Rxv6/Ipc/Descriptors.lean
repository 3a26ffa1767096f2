import Rxv6.Ipc.Monitor

namespace Rxv6.Ipc

open Function Rxv6.Lib.Runs List Option

inductive End
  | read | write
  deriving DecidableEq, Repr

/-- `FdKind`. A file is given by its inode sector, position and mode. -/
inductive FdKind
  | fileDesc (inodeSector : Nat) (pos mode : Int)
  | pipe (e : End) (id : Nat)
  | console
  | devNull
  | devZero
  deriving DecidableEq, Repr

abbrev FdKind.pipeRead (id : Nat) : FdKind := .pipe .read id

abbrev FdKind.pipeWrite (id : Nat) : FdKind := .pipe .write id

def FdKind.isFile : FdKind → Bool
  | .fileDesc .. => true
  | _ => false

def FdKind.isPipe : FdKind → Bool
  | .pipe .. => true
  | _ => false

abbrev FdTable := List (Option FdKind)

namespace Pipe

def refcnt (p : Pipe) : End → Nat
  | .read => p.readRefcnt
  | .write => p.writeRefcnt

def isOpen (p : Pipe) : End → Bool
  | .read => p.readOpen
  | .write => p.writeOpen

def setEnd (p : Pipe) (n : Nat) (o : Bool) : End → Pipe
  | .read => { p with readRefcnt := n, readOpen := o }
  | .write => { p with writeRefcnt := n, writeOpen := o }

/-- `ref_read` and `ref_write`. The overflow of a `u32` is a panic. -/
def ref (e : End) (p : Pipe) : Option Pipe :=
  if p.refcnt e + 1 < 4294967296 then some (p.setEnd (p.refcnt e + 1) (p.isOpen e) e) else none

/-- `close_read` and `close_write`: the flag says that both ends are closed. -/
def close (e : End) (p : Pipe) : Option (Bool × Pipe) :=
  match p.refcnt e with
  | 0 => none
  | n + 1 =>
    let p := p.setEnd n (p.isOpen e && n != 0) e
    some (!p.readOpen && !p.writeOpen, p)

end Pipe

/-- `PIPES`, `NEXT_PIPE_ID` and the descriptor tables of all processes, `none` for a process
that has exited. -/
structure Tables where
  pipes : Nat → Option Pipe
  nextId : Nat
  fds : List (Option FdTable)

/-- `FdTable::new`. -/
def FdTable.new : FdTable := [some .console, some .console, some .console]

def FdTable.allocFd (f : FdTable) (k : FdKind) : FdTable :=
  match f.findIdx? (·.isNone) with
  | some i => f.set i (some k)
  | none => f ++ [some k]

namespace Tables

def setPipe (T : Tables) (id : Nat) (p : Option Pipe) : Tables :=
  { T with pipes := update T.pipes id p }

def setTable (T : Tables) (i : Nat) (f : Option FdTable) : Tables :=
  { T with fds := T.fds.set i f }

def table (T : Tables) (i : Nat) : Option FdTable := T.fds[i]?.join

/-- The part of `dup` and `clone_fd_table` that counts the new reference. -/
def refKind (T : Tables) : FdKind → Option Tables
  | .pipe e id =>
    match T.pipes id with
    | some p => (p.ref e).map fun p ↦ T.setPipe id (some p)
    | none => some T
  | _ => some T

def closeKind (T : Tables) : FdKind → Option Tables
  | .pipe e id =>
    match T.pipes id with
    | some p => (p.close e).map fun r ↦ T.setPipe id (if r.1 then none else some r.2)
    | none => some T
  | _ => some T

def closeSlot (i : Nat) (T : Tables) (k : Nat) : Option Tables :=
  match T.table i with
  | none => some T
  | some f =>
    match f[k]?.join with
    | none => some T
    | some kind => (T.setTable i (some (f.set k none))).closeKind kind

def closeAll (T : Tables) (i : Nat) : Option Tables :=
  match T.table i with
  | none => none
  | some f => ((List.range f.length).foldlM (closeSlot i) T).map (·.setTable i none)

/-- `reopens` is the outcome of `File::open_with_mode` for a file. -/
def dup (T : Tables) (i : Nat) (fd : Int) (reopens : Bool) : Option Tables :=
  match T.table i with
  | none => none
  | some f =>
    if fd < 0 then some T
    else
      match f[fd.toNat]?.join with
      | none => some T
      | some kind =>
        if kind.isFile && !reopens then some T
        else (T.refKind kind).map (·.setTable i (some (f.allocFd kind)))

/-- One turn of the loop of `clone_fd_table` for the parent `i` and the child `j`. -/
def cloneSlot (i j : Nat) (reopens : Nat → Bool) (T : Tables) (k : Nat) : Option Tables :=
  match T.table i, T.table j with
  | some f, some g =>
    match f[k]?.join with
    | none => some T
    | some kind =>
      if kind.isFile && !reopens k then some T
      else (T.refKind kind).map (·.setTable j (some (g.set k (some kind))))
  | _, _ => some T

/-- The descriptors in `fork`: the clone, and its `close_all` when no thread can be made. -/
def fork (T : Tables) (i : Nat) (reopens : Nat → Bool) (created : Bool) : Option Tables :=
  match T.table i with
  | none => none
  | some f =>
    let j := T.fds.length
    let T := { T with fds := T.fds ++ [some (List.replicate f.length none)] }
    ((List.range f.length).foldlM (cloneSlot i j reopens) T).bind fun T ↦
      if created then some T else T.closeAll j

/-- `SYS_PIPE`. The overflow of the next id is a panic. -/
def sysPipe (T : Tables) (i : Nat) : Option Tables :=
  match T.table i with
  | none => none
  | some f =>
    if T.nextId + 1 < 4294967296 then
      some { pipes := update T.pipes T.nextId (some .new)
             nextId := T.nextId + 1
             fds := T.fds.set i (some
               ((f.allocFd (.pipeRead T.nextId)).allocFd (.pipeWrite T.nextId))) }
    else none

def openKind (T : Tables) (i : Nat) (kind : FdKind) : Option Tables :=
  match T.table i with
  | none => none
  | some f => if kind.isPipe then none else some (T.setTable i (some (f.allocFd kind)))

def close (T : Tables) (i : Nat) (fd : Int) : Option Tables :=
  match T.table i with
  | none => none
  | some _ => if fd < 0 then some T else closeSlot i T fd.toNat

end Tables

/-- A process gets a new table, a process opens a file or a device, or it makes one of the
calls that touch pipes. -/
inductive FdCall
  | start
  | open (i : Nat) (kind : FdKind)
  | pipe (i : Nat)
  | dup (i : Nat) (fd : Int) (reopens : Bool)
  | fork (i : Nat) (reopens : Nat → Bool) (created : Bool)
  | close (i : Nat) (fd : Int)
  | exit (i : Nat)

open Tables

namespace Tables

def step (T : Tables) : FdCall → Option Tables
  | .start => some { T with fds := T.fds ++ [some .new] }
  | .open i kind => T.openKind i kind
  | .pipe i => T.sysPipe i
  | .dup i fd reopens => T.dup i fd reopens
  | .fork i reopens created => T.fork i reopens created
  | .close i fd => T.close i fd
  | .exit i => T.closeAll i

def init : Tables := ⟨fun _ ↦ none, 1, []⟩

def slots (T : Tables) (e : End) (id : Nat) : Nat :=
  (T.fds.map fun f ↦ (f.getD []).count (some (.pipe e id))).sum

section Slots

theorem sum_map_set {α : Type*} (w : α → Nat) : ∀ (l : List α) (i : Nat) (a b : α),
    l[i]? = some a → ((l.set i b).map w).sum + w a = (l.map w).sum + w b := by
  intro l
  induction l with
  | nil => intro i a b h; simp at h
  | cons c l ih =>
    intro i a b h
    cases i with
    | zero => simp at h; subst h; simp; omega
    | succ i =>
      have := ih i a b (by simpa using h)
      simp only [set_cons_succ, map_cons, sum_cons]
      omega

variable {T T' : Tables} {i : Nat} {f : FdTable}

theorem table_eq (h : T.table i = some f) : T.fds[i]? = some (some f) := by
  unfold table at h
  cases hi : T.fds[i]? with
  | none => simp [hi] at h
  | some g => simpa [hi] using h

theorem slots_setTable (h : T.table i = some f) (g : Option FdTable) (e : End) (id : Nat) :
    (T.setTable i g).slots e id + f.count (some (.pipe e id)) =
      T.slots e id + (g.getD []).count (some (.pipe e id)) :=
  sum_map_set (fun f : Option FdTable ↦ (f.getD []).count (some _)) T.fds i
    (some f) g (table_eq h)

theorem count_le_slots (h : T.table i = some f) (e : End) (id : Nat) :
    f.count (some (.pipe e id)) ≤ T.slots e id := by
  have := slots_setTable h none e id
  simp at this
  omega

@[simp] theorem slots_setPipe (id' : Nat) (p : Option Pipe) (e : End) (id : Nat) :
    (T.setPipe id' p).slots e id = T.slots e id := rfl

theorem slots_append (f : FdTable) (e : End) (id : Nat) :
    ({ T with fds := T.fds ++ [some f] } : Tables).slots e id =
      T.slots e id + f.count (some (.pipe e id)) := by
  simp [slots]

def hit (kind : FdKind) (e : End) (id : Nat) : Nat := if kind = .pipe e id then 1 else 0

theorem count_allocFd (f : FdTable) (kind : FdKind) (e : End) (id : Nat) :
    (f.allocFd kind).count (some (.pipe e id)) =
      f.count (some (.pipe e id)) + hit kind e id := by
  unfold FdTable.allocFd
  split
  next k hk =>
    obtain ⟨hlt, hnone, -⟩ := findIdx?_eq_some_iff_getElem.mp hk
    have hnone : f[k] = none := by simpa using hnone
    rw [count_set hlt, hnone]
    simp [hit]
  next => simp [hit, count_singleton]

variable {k : Nat}

variable {kind : FdKind}

theorem count_set_none (h : f[k]?.join = some kind) (e : End) (id : Nat) :
    (f.set k none).count (some (.pipe e id)) + hit kind e id = f.count (some (.pipe e id)) := by
  obtain ⟨hlt, hk⟩ := List.getElem?_eq_some_iff.mp (join_eq_some_iff.mp h)
  have hpos : hit kind e id ≤ f.count (some (.pipe e id)) := by
    unfold hit
    split
    next heq => exact count_pos_iff.mpr (heq ▸ hk ▸ getElem_mem hlt)
    next => omega
  rw [count_set hlt, hk]
  simp [hit] at hpos ⊢
  omega

theorem count_set_some (hlt : k < f.length) (h : f[k]?.join = none) (kind : FdKind) (e : End) (id : Nat) :
    (f.set k (some kind)).count (some (.pipe e id)) =
      f.count (some (.pipe e id)) + hit kind e id := by
  have hk : f[k] = none := by simpa [getElem?_eq_getElem hlt] using h
  rw [count_set hlt, hk]
  simp [hit]

theorem hit_le_slots (h : T.table i = some f) (hk : f[k]?.join = some kind)
    (e : End) (id : Nat) : hit kind e id ≤ T.slots e id :=
  (Nat.le_add_left _ _).trans ((count_set_none hk e id).le.trans (count_le_slots h e id))

end Slots

section Pipes

variable {p q : Pipe} {e : End}

@[simp] theorem refcnt_setEnd (n : Nat) (o : Bool) (e' : End) :
    (p.setEnd n o e).refcnt e' = if e' = e then n else p.refcnt e' := by
  cases e <;> cases e' <;> rfl

@[simp] theorem isOpen_setEnd (n : Nat) (o : Bool) (e' : End) :
    (p.setEnd n o e).isOpen e' = if e' = e then o else p.isOpen e' := by
  cases e <;> cases e' <;> rfl

theorem closed_iff : (!p.readOpen && !p.writeOpen) = true ↔ ∀ e, p.isOpen e = false := by
  constructor
  · intro h e
    cases e <;> simp_all [Pipe.isOpen]
  · intro h
    simpa [Pipe.isOpen] using And.intro (h .read) (h .write)

end Pipes

/-- Every count is the number of descriptors, and a pipe is there as long as it has one. -/
structure Balanced (T : Tables) : Prop where
  count : ∀ id p, T.pipes id = some p → ∀ e, p.refcnt e = T.slots e id
  isOpen : ∀ id p, T.pipes id = some p → ∀ e, p.isOpen e = true ↔ 0 < p.refcnt e
  present : ∀ id, T.pipes id ≠ none ↔ ∃ e, 0 < T.slots e id
  fresh : ∀ id, T.nextId ≤ id → T.pipes id = none

namespace Balanced

variable {T T' U : Tables} {kind : FdKind}

theorem init : Balanced init where
  count := by intro id p h; simp [Tables.init] at h
  isOpen := by intro id p h; simp [Tables.init] at h
  present := by simp [Tables.init, slots]
  fresh := by intro id h; rfl

variable {id i j : Nat} {f : FdTable} {reopens : Nat → Bool}

theorem slots_eq_zero (b : Balanced T) (h : T.pipes id = none) (e : End) : T.slots e id = 0 := by
  by_contra hne
  exact (b.present id).mpr ⟨e, pos_of_ne_zero hne⟩ h

theorem of_slots_eq (b : Balanced T) (hp : T'.pipes = T.pipes) (hn : T'.nextId = T.nextId)
    (hs : ∀ e id, T'.slots e id = T.slots e id) : Balanced T' where
  count := by rw [hp]; intro id p h e; rw [hs]; exact b.count id p h e
  isOpen := by rw [hp]; exact b.isOpen
  present := by intro id; simp only [hp, hs]; exact b.present id
  fresh := by rw [hp, hn]; exact b.fresh

theorem hit_eq_zero (h : kind.isPipe = false) (e : End) (id : Nat) : hit kind e id = 0 := by
  cases kind <;> simp_all [hit, FdKind.isPipe]

theorem hit_pipe (e e' : End) (id id' : Nat) :
    hit (.pipe e id) e' id' = if id' = id ∧ e' = e then 1 else 0 := by
  simp only [hit, FdKind.pipe.injEq]
  congr 1
  exact propext ⟨fun h ↦ ⟨h.2.symm, h.1.symm⟩, fun h ↦ ⟨h.2.symm, h.1.symm⟩⟩

section

variable (b : Balanced T)
include b

theorem setPipe {q : Option Pipe} (hid : id < T.nextId)
    (hp : T'.pipes = update T.pipes id q) (hn : T'.nextId = T.nextId)
    (hs : ∀ e id', id' ≠ id → T'.slots e id' = T.slots e id')
    (hcount : ∀ p, q = some p → ∀ e, p.refcnt e = T'.slots e id)
    (hopen : ∀ p, q = some p → ∀ e, p.isOpen e = true ↔ 0 < p.refcnt e)
    (hpres : q ≠ none ↔ ∃ e, 0 < T'.slots e id) : Balanced T' where
  count := by
    intro id' p h e
    rw [hp] at h
    by_cases heq : id' = id
    · subst heq
      exact hcount p (by simpa using h) e
    · rw [update_of_ne heq] at h
      rw [hs e id' heq]
      exact b.count id' p h e
  isOpen := by
    intro id' p h e
    rw [hp] at h
    by_cases heq : id' = id
    · subst heq
      exact hopen p (by simpa using h) e
    · rw [update_of_ne heq] at h
      exact b.isOpen id' p h e
  present := by
    intro id'
    by_cases heq : id' = id
    · subst heq
      simpa [hp] using hpres
    · rw [hp, update_of_ne heq, b.present id']
      simp only [hs _ id' heq]
  fresh := by
    intro id' h
    have hne : id' ≠ id := by omega
    rw [hp, update_of_ne hne]
    exact b.fresh id' (hn ▸ h)

theorem lt_nextId {p : Pipe} (h : T.pipes id = some p) : id < T.nextId := by
  by_contra hge
  rw [b.fresh id (Nat.le_of_not_lt hge)] at h
  cases h

theorem pipe_of_slots {e : End} (h : 0 < T.slots e id) : ∃ p, T.pipes id = some p :=
  ne_none_iff_exists'.mp ((b.present id).mpr ⟨e, h⟩)

theorem refKind (hold : ∀ e id, hit kind e id ≤ T.slots e id)
    (h : T.refKind kind = some U) (hp : T'.pipes = U.pipes) (hn : T'.nextId = U.nextId)
    (hs : ∀ e id, T'.slots e id = T.slots e id + hit kind e id) : Balanced T' := by
  cases kind with
  | pipe e₀ id₀ =>
    have hpos : 0 < T.slots e₀ id₀ := lt_of_lt_of_le (by simp [hit_pipe]) (hold e₀ id₀)
    obtain ⟨p, hget⟩ := b.pipe_of_slots hpos
    simp only [refKind, hget, Pipe.ref, map_eq_some_iff] at h
    obtain ⟨q, hq, hU⟩ := h
    split at hq
    next hlt =>
      cases hq
      subst hU
      refine b.setPipe (b.lt_nextId hget) hp hn ?_ ?_ ?_ ?_
      · intro e id hne
        simp [hs, hit_pipe, hne]
      · rintro _ ⟨rfl⟩ e
        have := b.count id₀ p hget
        by_cases he : e = e₀ <;> simp [hs, hit_pipe, he, this]
      · rintro _ ⟨rfl⟩ e
        have h₁ := b.isOpen id₀ p hget e
        have h₂ := b.count id₀ p hget e₀
        by_cases he : e = e₀
        · subst he
          simp only [isOpen_setEnd, refcnt_setEnd, if_true, h₁]
          omega
        · simpa [he] using h₁
      · simp only [ne_eq, reduceCtorEq, not_false_eq_true, true_iff]
        exact ⟨e₀, by rw [hs]; omega⟩
    next => cases hq
  | _ =>
    cases h
    exact b.of_slots_eq hp hn fun e id ↦ by rw [hs, hit_eq_zero rfl]; omega

theorem closeKind (hp : T'.pipes = T.pipes) (hn : T'.nextId = T.nextId)
    (hs : ∀ e id, T'.slots e id + hit kind e id = T.slots e id) :
    ∃ U, T'.closeKind kind = some U ∧ Balanced U ∧ U.fds = T'.fds := by
  cases kind with
  | pipe e₀ id₀ =>
    have hs₀ : T'.slots e₀ id₀ + 1 = T.slots e₀ id₀ := by simpa [hit_pipe] using hs e₀ id₀
    obtain ⟨p, hget⟩ := b.pipe_of_slots (show 0 < T.slots e₀ id₀ by omega)
    have hcnt : p.refcnt e₀ = T'.slots e₀ id₀ + 1 := by rw [b.count id₀ p hget]; omega
    let q := p.setEnd (T'.slots e₀ id₀) (p.isOpen e₀ && T'.slots e₀ id₀ != 0) e₀
    have hcount : ∀ e, q.refcnt e = T'.slots e id₀ := fun e ↦ by
      by_cases he : e = e₀
      · simp [q, he]
      · have := hs e id₀
        simpa [q, he, b.count id₀ p hget, hit_pipe] using this.symm
    have hopen : ∀ e, q.isOpen e = true ↔ 0 < q.refcnt e := fun e ↦ by
      have := b.isOpen id₀ p hget e
      by_cases he : e = e₀
      · subst he
        simp only [q, isOpen_setEnd, refcnt_setEnd, if_true, Bool.and_eq_true, this, bne_iff_ne]
        omega
      · simpa [q, he] using this
    have hclosed : (!q.readOpen && !q.writeOpen) = true ↔ ¬ ∃ e, 0 < T'.slots e id₀ := by
      rw [closed_iff, not_exists]
      exact forall_congr' fun e ↦ by
        rw [← Bool.not_eq_true, hopen, hcount]
    simp only [closeKind, hp, hget, Pipe.close, hcnt]
    refine ⟨_, rfl, ?_, rfl⟩
    refine b.setPipe (b.lt_nextId hget) (congrArg (update · id₀ _) hp) hn ?_ ?_ ?_ ?_
    · intro e id hne
      simpa [hit_pipe, hne] using hs e id
    · intro p' h e
      split at h
      · cases h
      · cases h
        exact hcount e
    · intro p' h e
      split at h
      · cases h
      · cases h
        exact hopen e
    · split
      next hc => simpa using hclosed.mp hc
      next hc => simpa using not_not.mp (mt hclosed.mpr hc)
  | _ =>
    refine ⟨T', rfl, b.of_slots_eq hp hn fun e id ↦ ?_, rfl⟩
    have := hs e id
    rw [hit_eq_zero rfl] at this
    omega

end

theorem table_setTable (h : T.table i = some f) (g : Option FdTable) : (T.setTable i g).table i = g := by
  obtain ⟨hlt, -⟩ := List.getElem?_eq_some_iff.mp (table_eq h)
  simp [table, setTable, hlt]

theorem table_setTable_of_ne (h : j ≠ i) (g : Option FdTable) : (T.setTable i g).table j = T.table j := by
  simp [table, setTable, getElem?_set_ne h.symm]

variable {k m : Nat} {g : FdTable} {fd : Int}

theorem set_none_of_join (h : f[k]?.join = none) : f.set k none = f := by
  by_cases hlt : k < f.length
  · have hk : f[k] = none := by simpa [getElem?_eq_getElem hlt] using h
    rw [← hk, set_getElem_self]
  · exact set_eq_of_length_le (Nat.le_of_not_lt hlt)

theorem closeSlot (b : Balanced T) (hf : T.table i = some f) (k : Nat) :
    ∃ U, closeSlot i T k = some U ∧ Balanced U ∧ U.table i = some (f.set k none) := by
  simp only [Tables.closeSlot, hf]
  cases hk : f[k]?.join with
  | none =>
    exact ⟨T, rfl, b, hf.trans (congrArg some (set_none_of_join hk).symm)⟩
  | some kind =>
    have hs : ∀ e id, (T.setTable i (some (f.set k none))).slots e id + hit kind e id =
        T.slots e id := fun e id ↦ by
      have h₁ := slots_setTable hf (some (f.set k none)) e id
      have h₂ := count_set_none hk e id
      simp only [getD_some] at h₁
      omega
    obtain ⟨U, hU, hb, hfds⟩ :
        ∃ U, (T.setTable i (some _)).closeKind kind = some U ∧ Balanced U ∧
          U.fds = (T.setTable i (some _)).fds := b.closeKind rfl rfl hs
    refine ⟨U, hU, hb, ?_⟩
    rw [← table_setTable hf (some _), table, table, hfds]

theorem closeSlots (b : Balanced T) (hf : T.table i = some f) (m : Nat) :
    ∃ U, (List.range m).foldlM (Tables.closeSlot i) T = some U ∧ Balanced U ∧
      ∃ g, U.table i = some g ∧ g.length = f.length ∧ ∀ k, k < m → g[k]?.join = none := by
  induction m with
  | zero => exact ⟨T, rfl, b, f, hf, rfl, by omega⟩
  | succ m ih =>
    obtain ⟨U, hU, hb, g, hg, hlen, hnone⟩ := ih
    obtain ⟨V, hV, hbV, hgV⟩ := hb.closeSlot hg m
    refine ⟨V, ?_, hbV, g.set m none, hgV, by simpa using hlen, fun k hk ↦ ?_⟩
    · simp [range_succ, hU, hV]
    · rw [getElem?_set]
      split
      · split <;> rfl
      · exact hnone k (by omega)

theorem count_eq_zero (h : ∀ k, k < g.length → g[k]?.join = none) (e : End) (id : Nat) :
    g.count (some (.pipe e id)) = 0 := by
  rw [List.count_eq_zero]
  intro hmem
  obtain ⟨k, hk, hget⟩ := getElem_of_mem hmem
  have := h k hk
  rw [getElem?_eq_getElem hk, hget] at this
  cases this

theorem closeAll (b : Balanced T) (hf : T.table i = some f) : ∃ U, T.closeAll i = some U ∧ Balanced U := by
  obtain ⟨V, hV, hb, g, hg, hlen, hnone⟩ := b.closeSlots hf f.length
  refine ⟨V.setTable i none, by simp [Tables.closeAll, hf, hV], ?_⟩
  refine hb.of_slots_eq rfl rfl fun e id ↦ ?_
  have := slots_setTable hg none e id
  rw [count_eq_zero (fun k hk ↦ hnone k (hlen ▸ hk))] at this
  simpa using this

theorem refKind_fds (h : T.refKind kind = some U) : U.fds = T.fds := by
  cases kind with
  | pipe e id =>
    simp only [Tables.refKind] at h
    split at h
    · obtain ⟨q, -, rfl⟩ := map_eq_some_iff.mp h
      rfl
    · cases h; rfl
  | _ => cases h; rfl

theorem store (b : Balanced T) {g' : FdTable} (hf : T.table i = some f)
    (hk : f[k]?.join = some kind) (hg : T.table j = some g) (h : T.refKind kind = some U)
    (hcount : ∀ e id, g'.count (some (.pipe e id)) = g.count (some (.pipe e id)) + hit kind e id) :
    Balanced (U.setTable j (some g')) := by
  refine b.refKind (hit_le_slots hf hk) h rfl rfl fun e id ↦ ?_
  have hgU : U.table j = some g := by rw [table, refKind_fds h]; exact hg
  have hsU : U.slots e id = T.slots e id := by simp only [slots, refKind_fds h]
  have := slots_setTable hgU (some g') e id
  rw [getD_some, hcount] at this
  omega

theorem dup (b : Balanced T) {reopens : Bool} (h : T.dup i fd reopens = some T') : Balanced T' := by
  unfold Tables.dup at h
  split at h
  · cases h
  next f hf =>
    split at h
    · cases h; exact b
    · split at h
      · cases h; exact b
      next kind hk =>
        split at h
        · cases h; exact b
        · obtain ⟨U, hU, rfl⟩ := map_eq_some_iff.mp h
          exact b.store hf hk hf hU (count_allocFd f kind)

/-- The table of a child during `clone_fd_table`: the slots from `m` on are still empty. -/
structure Cloning (T : Tables) (i j : Nat) (f : FdTable) (m : Nat) : Prop where
  balanced : Balanced T
  ne : i ≠ j
  parent : T.table i = some f
  child : ∃ g, T.table j = some g ∧ g.length = f.length ∧ ∀ k, m ≤ k → g[k]?.join = none

theorem cloneSlot (c : Cloning T i j f m)
    (hm : m < f.length) (h : cloneSlot i j reopens T m = some T') : Cloning T' i j f (m + 1) := by
  obtain ⟨b, hne, hf, g, hg, hlen, hnone⟩ := c
  have hstay : Cloning T i j f (m + 1) := ⟨b, hne, hf, g, hg, hlen, fun k hk ↦ hnone k (by omega)⟩
  simp only [Tables.cloneSlot, hf, hg] at h
  split at h
  · cases h; exact hstay
  next kind hk =>
    split at h
    · cases h; exact hstay
    · obtain ⟨U, hU, rfl⟩ := map_eq_some_iff.mp h
      have hgU : U.table j = some g := by rw [table, refKind_fds hU]; exact hg
      have hfU : U.table i = some f := by rw [table, refKind_fds hU]; exact hf
      refine ⟨b.store hf hk hg hU fun e id ↦ count_set_some (hlen ▸ hm) (hnone m le_rfl) kind e id,
        hne, (table_setTable_of_ne hne _).trans hfU, g.set m (some kind),
        table_setTable hgU _, by simpa using hlen, fun k hk ↦ ?_⟩
      rw [getElem?_set_ne (by omega)]
      exact hnone k (by omega)

theorem cloneSlots (c : Cloning T i j f 0)
    (hm : m ≤ f.length) (h : (List.range m).foldlM (Tables.cloneSlot i j reopens) T = some T') :
    Cloning T' i j f m := by
  induction m generalizing T' with
  | zero => cases h; exact c
  | succ m ih =>
    rw [range_succ, foldlM_append] at h
    obtain ⟨U, hU, h⟩ := bind_eq_some_iff.mp h
    exact cloneSlot (ih (by omega) hU) hm (by simpa using h)

section

variable (b : Balanced T)
include b

theorem fork {created : Bool} (h : T.fork i reopens created = some T') : Balanced T' := by
  unfold Tables.fork at h
  split at h
  · cases h
  next f hf =>
    obtain ⟨U, hU, h⟩ := bind_eq_some_iff.mp h
    obtain ⟨hlt, -⟩ := List.getElem?_eq_some_iff.mp (table_eq hf)
    have c : Cloning { T with fds := T.fds ++ [some (replicate f.length none)] } i T.fds.length
        f 0 := by
      refine ⟨b.of_slots_eq rfl rfl fun e id ↦ ?_, hlt.ne, ?_, replicate f.length none, ?_,
        length_replicate, fun k _ ↦ ?_⟩
      · rw [slots_append]
        simp [count_replicate]
      · simpa [table, getElem?_append_left hlt] using hf
      · simp [table]
      · rw [getElem?_replicate]
        split <;> rfl
    obtain ⟨hb, -, -, g, hg, -⟩ := cloneSlots c le_rfl hU
    split at h
    · cases h; exact hb
    · obtain ⟨V, hV, hbV⟩ := hb.closeAll hg
      rw [hV] at h
      cases h
      exact hbV

theorem openKind (h : T.openKind i kind = some T') : Balanced T' := by
  unfold Tables.openKind at h
  split at h
  · cases h
  next f hf =>
    split at h
    · cases h
    next hkind =>
      cases h
      refine b.of_slots_eq rfl rfl fun e id ↦ ?_
      have := slots_setTable hf (some (f.allocFd kind)) e id
      rw [getD_some, count_allocFd, hit_eq_zero (Bool.eq_false_iff.mpr hkind)] at this
      omega

theorem sysPipe (h : T.sysPipe i = some T') : Balanced T' := by
  unfold Tables.sysPipe at h
  split at h
  · cases h
  next f hf =>
    split at h
    next =>
      cases h
      have b' : Balanced { T with nextId := T.nextId + 1 } :=
        ⟨b.count, b.isOpen, b.present, fun id h ↦ b.fresh id (Nat.le_of_succ_le h)⟩
      have hs : ∀ e id, (T.setTable i (some ((f.allocFd (.pipeRead T.nextId)).allocFd
          (.pipeWrite T.nextId)))).slots e id = T.slots e id + if id = T.nextId then 1 else 0 := by
        intro e id
        have h₁ := slots_setTable hf
          (some ((f.allocFd (.pipeRead T.nextId)).allocFd (.pipeWrite T.nextId))) e id
        rw [getD_some, count_allocFd, count_allocFd, hit_pipe, hit_pipe] at h₁
        cases e <;> simp at h₁ ⊢ <;> omega
      have hzero := b.slots_eq_zero (b.fresh T.nextId le_rfl)
      refine b'.setPipe (Nat.lt_succ_self _) rfl rfl (fun e id hne ↦ (hs e id).trans ?_) ?_ ?_ ?_
      · rw [if_neg hne]; rfl
      · rintro _ ⟨rfl⟩ e
        refine trans ?_ (hs e T.nextId).symm
        rw [hzero, if_pos rfl]
        cases e <;> rfl
      · rintro _ ⟨rfl⟩ e
        cases e <;> decide
      · simp only [ne_eq, reduceCtorEq, not_false_eq_true, true_iff]
        exact ⟨.read, lt_of_lt_of_eq (by rw [if_pos rfl]; omega) (hs .read T.nextId).symm⟩
    · cases h

theorem close (h : T.close i fd = some T') : Balanced T' := by
  unfold Tables.close at h
  split at h
  · cases h
  next f hf =>
    split at h
    · cases h; exact b
    · obtain ⟨U, hU, hb, -⟩ := b.closeSlot hf fd.toNat
      rw [hU] at h
      cases h
      exact hb

theorem step {c : FdCall} (h : T.step c = some T') : Balanced T' := by
  cases c with
  | start =>
    cases h
    refine b.of_slots_eq rfl rfl fun e id ↦ ?_
    rw [slots_append]
    simp [FdTable.new]
  | «open» i kind => exact b.openKind h
  | pipe i => exact b.sysPipe h
  | dup i fd reopens => exact b.dup h
  | fork i reopens created => exact b.fork h
  | close i fd => exact b.close h
  | exit i =>
    cases hf : T.table i with
    | none => simp [Tables.step, Tables.closeAll, hf] at h
    | some f =>
      obtain ⟨U, hU, hb⟩ := b.closeAll hf
      cases hU.symm.trans h
      exact hb

end

end Balanced

/-- In every state reached by pipe creation, `dup`, `fork`, `close` and exit, the counts of a
pipe are the numbers of its descriptors, an end is open as long as it has one, and the pipe is
registered as long as it has one. No count underflows when descriptors are closed. -/
theorem pipe_refcounts {T : Tables} (h : Run Tables.step always init T) :
    (∀ id p, T.pipes id = some p → ∀ e, p.refcnt e = T.slots e id ∧ (p.isOpen e = true ↔ 0 < p.refcnt e)) ∧
    (∀ id, T.pipes id ≠ none ↔ ∃ e, 0 < T.slots e id) ∧
    ∀ i f, T.table i = some f → (∀ fd, T.close i fd ≠ none) ∧ T.closeAll i ≠ none := by
  have b := h.invariant Balanced (fun _ _ _ hb _ hs ↦ hb.step hs) Balanced.init
  refine ⟨fun id p hp e ↦ ⟨b.count id p hp e, b.isOpen id p hp e⟩, b.present, fun i f hf ↦ ⟨fun fd ↦ ?_, ?_⟩⟩
  · unfold Tables.close
    rw [hf]
    dsimp only
    split
    · simp
    · obtain ⟨U, hU, -⟩ := b.closeSlot hf fd.toNat
      simp [hU]
  · obtain ⟨U, hU, -⟩ := b.closeAll hf
    simp [hU]

/-- A process makes a pipe, duplicates its read end and forks; the child closes its write end
and the parent exits. -/
def pipeline : List FdCall :=
  [.start, .pipe 0, .dup 0 3 true, .fork 0 (fun _ ↦ true) true, .close 1 4, .exit 0]

theorem pipe_refcounts_pipeline : ∃ T, Run Tables.step always init T ∧
    T.slots .read 1 = 2 ∧ T.slots .write 1 = 0 ∧ T.pipes 1 ≠ none := by
  have hT : (exec Tables.step init pipeline).isSome := by decide +kernel
  obtain ⟨T, hT⟩ := isSome_iff_exists.mp hT
  have hr : (exec Tables.step init pipeline).map (·.slots .read 1) = some 2 := by decide +kernel
  have hw : (exec Tables.step init pipeline).map (·.slots .write 1) = some 0 := by decide +kernel
  rw [hT] at hr hw
  have hrun := Run.of_exec hT
  have hr : T.slots .read 1 = 2 := Option.some.inj hr
  exact ⟨T, hrun, hr, Option.some.inj hw, ((pipe_refcounts hrun).2.1 1).mpr ⟨.read, by omega⟩⟩

end Tables

end Rxv6.Ipc
