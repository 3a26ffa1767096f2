import Rxv6.Userprog.Files
import Rxv6.Filesys.Unlink

namespace Rxv6.Userprog.Files

open Rxv6.Filesys Rxv6.Ipc Function List Option

section Spans

/-- An operation through one of the copies of a descriptor, from the offset at which it starts to the one
at which it ends. -/
structure Span (ι : Type*) where
  copy : ι
  start : Nat
  stop : Nat
  deriving DecidableEq

variable {ι : Type*} [DecidableEq ι] {o : ι → Nat} {c : ι} {p q : Nat} {l : List (Span ι)}

/-- Every operation starts where the one before it ended, through whatever copy, and the first one at
`p`. -/
def Shared : Nat → List (Span ι) → Prop
  | _, [] => True
  | p, a :: l => a.start = p ∧ Shared a.stop l

def Private : (ι → Nat) → List (Span ι) → Prop
  | _, [] => True
  | o, a :: l => a.start = o a.copy ∧ a.start ≤ a.stop ∧ Private (update o a.copy a.stop) l

def Alone (l : List (Span ι)) : Prop := l.Pairwise fun a b ↦ a.start ≠ a.stop → b.copy = a.copy

theorem Private.shared_ahead (h : Private o l) (hc : o c = q) (hlt : ∀ c', c' ≠ c → o c' < q) :
    Shared q l ↔ ∀ a ∈ l, a.copy = c := by
  induction l generalizing o q with
  | nil => simp [Shared]
  | cons a l ih =>
    obtain ⟨hstart, hle, hrest⟩ := h
    by_cases ha : a.copy = c
    · rw [ha] at hstart hrest
      have hahead : ∀ c', c' ≠ c → update o c a.stop c' < a.stop := fun c' hne ↦ by
        rw [update_of_ne hne]
        have := hlt c' hne
        omega
      simp [Shared, ih hrest _ hahead, ha, hstart, hc]
    · have hback : a.start ≠ q := by
        have := hlt a.copy ha
        omega
      simp [Shared, hback, ha]

theorem Private.shared_iff (h : Private o l) (hp : ∀ c, o c = p) : Shared p l ↔ Alone l := by
  induction l generalizing o with
  | nil => simp [Shared, Alone]
  | cons a l ih =>
    obtain ⟨hstart, hle, hrest⟩ := h
    rw [Alone, pairwise_cons, Shared, hstart, hp]
    by_cases hmove : a.start = a.stop
    · rw [← hmove, hstart, update_eq_self] at hrest
      rw [← hmove, hstart, hp, ih hrest hp]
      simp [Alone]
    · have hahead : ∀ c', c' ≠ a.copy → update o a.copy a.stop c' < a.stop := fun c' hne ↦ by
        rw [update_of_ne hne, hp, ← hp a.copy]
        omega
      rw [hrest.shared_ahead (update_self ..) hahead]
      refine ⟨fun ⟨_, hall⟩ ↦ ⟨fun b hb _ ↦ hall b hb, ?_⟩, fun ⟨hall, _⟩ ↦ ⟨rfl, fun b hb ↦ hall b hb ?_⟩⟩
      · exact pairwise_of_forall_mem_list fun b hb b' hb' _ ↦ (hall b' hb').trans (hall b hb).symm
      · rwa [← hp a.copy, ← hstart]

omit [DecidableEq ι] in
theorem Shared.apart (h : Shared p l) (hle : ∀ a ∈ l, a.start ≤ a.stop) :
    (∀ a ∈ l, p ≤ a.start) ∧ l.Pairwise fun a b ↦ a.stop ≤ b.start := by
  induction l generalizing p with
  | nil => simp
  | cons a l ih =>
    obtain ⟨hstart, hrest⟩ := h
    obtain ⟨hfrom, hpair⟩ := ih hrest fun b hb ↦ hle b (mem_cons_of_mem _ hb)
    have ha := hle a mem_cons_self
    refine ⟨fun b hb ↦ ?_, pairwise_cons.mpr ⟨hfrom, hpair⟩⟩
    rcases mem_cons.mp hb with rfl | hb
    · exact hstart.ge
    · have := hfrom b hb
      omega

theorem Private.start_le (h : Private o l) : ∀ a ∈ l, a.start ≤ a.stop := by
  induction l generalizing o with
  | nil => simp
  | cons a l ih => exact forall_mem_cons.mpr ⟨h.2.1, ih h.2.2⟩

end Spans

structure Desc where
  pid : Nat
  fd : Nat
  deriving DecidableEq

def FdKind.offset : FdKind → Nat
  | .fileDesc _ pos _ => pos.toNat
  | _ => 0

namespace System

def kind (s : System) (d : Desc) : Option FdKind := (s.proc d.pid).bind fun p ↦ p.fds[d.fd]?.join

def offset (s : System) (d : Desc) : Nat := (s.kind d).elim 0 FdKind.offset

def after (s : System) (op : Op) : System := (s.step op).getD s

end System

def Op.through : Op → Option Desc
  | .call pid (.read fd _) => some ⟨pid, fd⟩
  | .call pid (.write fd _) => some ⟨pid, fd⟩
  | _ => none

def Op.Spares (d : Desc) : Op → Prop
  | .call pid (.close fd) => Desc.mk pid fd ≠ d
  | .exit pid => pid ≠ d.pid
  | _ => True

/-- The reads and writes through the two descriptors `d` in a run. -/
def spans (d : Bool → Desc) (s : System) : List Op → List (Span Bool)
  | [] => []
  | op :: l =>
    if op.through = some (d false) then
      ⟨false, s.offset (d false), (s.after op).offset (d false)⟩ :: spans d (s.after op) l
    else if op.through = some (d true) then
      ⟨true, s.offset (d true), (s.after op).offset (d true)⟩ :: spans d (s.after op) l
    else spans d (s.after op) l

section Calls

variable {st : State}

theorem ends_then {α β : Type} {q : Prog α} {f : α → Prog β} {Q : β → State → Prop}
    (h : ∀ a st', Ends (f a) Q st') : Ends (q >>= f) Q st :=
  wp_seq Lib.Program.Prog.wp_true fun a st' _ ↦ h a st'

theorem le_bouncedWrite (s turns : Nat) : ∀ (buf : List UInt8) (pos : Nat) (st : State),
    Ends (bouncedWrite s turns buf pos) (fun pos' _ ↦ pos ≤ pos') st := by
  induction turns with
  | zero => exact fun _ _ _ ↦ le_rfl
  | succ turns ih =>
    intro buf pos st
    rw [bouncedWrite]
    split
    · exact le_rfl
    · refine ends_then fun n st' ↦ ?_
      split
      · exact Nat.le_add_right _ _
      · exact wp_mono (ih _ _ _) fun _ _ hle ↦ (Nat.le_add_right _ _).trans hle

theorem le_bouncedRead (s turns : Nat) : ∀ (size pos : Nat) (st : State),
    Ends (bouncedRead s turns size pos) (fun pos' _ ↦ pos ≤ pos') st := by
  induction turns with
  | zero => exact fun _ _ _ ↦ le_rfl
  | succ turns ih =>
    intro size pos st
    rw [bouncedRead]
    split
    · exact le_rfl
    · refine ends_then fun n st' ↦ ?_
      split
      · exact Nat.le_add_right _ _
      · exact wp_mono (ih _ _ _) fun _ _ hle ↦ (Nat.le_add_right _ _).trans hle

/-- What a call can do to the descriptor table `f`. -/
def Call.Edits (f : FdTable) (f' : FdTable) : Call → Prop
  | .close fd => f' = f ∨ f' = f.set fd none
  | .read fd _ | .write fd _ => f' = f ∨ ∃ s pos mode pos', f[fd]?.join = some (.fileDesc s pos mode) ∧
      pos.toNat ≤ pos' ∧ f' = f.set fd (some (.fileDesc s (pos' : Nat) mode))
  | .open .. | .dup _ => f' = f ∨ ∃ k, f' = f.allocFd k
  | _ => f' = f

theorem ends_serve (p : Process) (c : Call) (st : State) :
    Ends (serve p c) (fun p' _ ↦ c.Edits p.fds p'.fds) st := by
  cases c with
  | «open» path flags =>
    simp only [serve, sysOpen]
    split
    · exact .inr ⟨_, rfl⟩
    · -- Each flag has its own branch, and all of them end with the table or with a new descriptor.
      repeat' first
        | exact .inl rfl
        | exact .inr ⟨_, rfl⟩
        | refine ends_then fun _ _ ↦ ?_
        | split
  | close fd =>
    simp only [serve, sysClose]
    split
    · exact .inl rfl
    · exact ends_then fun _ _ ↦ .inr rfl
  | dup fd =>
    simp only [serve, sysDup]
    split
    · exact .inl rfl
    · exact ends_then fun _ _ ↦ .inr ⟨_, rfl⟩
  | read fd size =>
    simp only [serve, sysRead]
    split
    · next s pos mode hfd =>
      split
      · exact .inl rfl
      · exact wp_seq (le_bouncedRead ..) fun pos' _ hle ↦
          .inr ⟨s, pos, mode, pos', hfd, hle, rfl⟩
    · exact .inl rfl
  | write fd buf =>
    simp only [serve, sysWrite]
    split
    · next s pos mode hfd =>
      split
      · exact .inl rfl
      · exact wp_seq (le_bouncedWrite ..) fun pos' _ hle ↦
          .inr ⟨s, pos, mode, pos', hfd, hle, rfl⟩
    · exact .inl rfl
  | unlink path => exact ends_then fun _ _ ↦ rfl
  | link oldPath newPath => exact ends_then fun _ _ ↦ rfl
  | mkdir path => exact ends_then fun _ _ ↦ rfl
  | chdir path =>
    simp only [serve, sysChdir]
    split
    · exact rfl
    · refine ends_then fun r _ ↦ ?_
      cases r with
      | none => exact rfl
      | some s =>
        refine ends_then fun isDir _ ↦ ?_
        refine ends_then fun _ _ ↦ ?_
        cases isDir <;> exact rfl
  | exec path loads =>
    refine ends_then fun _ _ ↦ ?_
    exact ends_then fun _ _ ↦ rfl

/-- `alloc_fd` takes the first place that is free, or a new one. -/
def nextFd (f : FdTable) : Nat := (f.findIdx? (·.isNone)).getD f.length

variable {f : FdTable} {k k' : FdKind} {fd : Nat}

theorem allocFd_keeps (h : f[fd]?.join = some k) : (f.allocFd k')[fd]?.join = some k := by
  have hfd : f[fd]? = some (some k) := join_eq_some_iff.mp h
  have hlt : fd < f.length := (List.getElem?_eq_some_iff.mp hfd).1
  unfold FdTable.allocFd
  cases hfind : f.findIdx? (·.isNone) with
  | none =>
    rw [getElem?_append_left hlt, h]
  | some i =>
    obtain ⟨hi, hnone, -⟩ := findIdx?_eq_some_iff_getElem.mp hfind
    have hne : i ≠ fd := by
      rintro rfl
      rw [getElem?_eq_getElem hi, some.injEq] at hfd
      rw [hfd] at hnone
      cases hnone
    rw [getElem?_set_ne hne, h]

theorem allocFd_nextFd : (f.allocFd k)[nextFd f]?.join = some k := by
  unfold FdTable.allocFd nextFd
  cases hfind : f.findIdx? (·.isNone) with
  | none => simp
  | some i =>
    obtain ⟨hi, -⟩ := findIdx?_eq_some_iff_getElem.mp hfind
    simp [getElem?_set_self hi]

theorem nextFd_free : f[nextFd f]?.join = none := by
  unfold nextFd
  cases hfind : f.findIdx? (·.isNone) with
  | none => simp
  | some i =>
    obtain ⟨hi, hnone, -⟩ := findIdx?_eq_some_iff_getElem.mp hfind
    simpa [getElem?_eq_getElem hi] using hnone

end Calls

namespace System

variable {s : System} {d : Desc} {k : FdKind} {op : Op} {pid : Nat} {p : Process}

theorem proc_iff : s.proc pid = some p ↔ s.procs[pid]? = some (some p) := join_eq_some_iff

theorem kind_iff : s.kind d = some k ↔ ∃ p, s.proc d.pid = some p ∧ p.fds[d.fd]?.join = some k :=
  bind_eq_some_iff

theorem proc_after_call (hp : s.proc pid = some p) (c : Call) (i : Nat) :
    (s.after (.call pid c)).proc i = if i = pid then some (run (serve p c) s.st).1 else s.proc i := by
  have hlt : pid < s.procs.length := (List.getElem?_eq_some_iff.mp (proc_iff.mp hp)).1
  rw [after, step, hp, map_some, getD_some, proc]
  by_cases hi : i = pid
  · rw [hi, if_pos rfl, getElem?_set_self hlt, join_some]
  · rw [if_neg hi, getElem?_set_ne (symm hi), proc]

theorem after_of_none (hp : s.proc pid = none) (c : Call) : s.after (.call pid c) = s := by
  rw [after, step, hp, map_none, getD_none]

theorem proc_addProc (hp : s.proc pid = some p) (r : Option Process × State) :
    (s.addProc r).proc pid = some p := by
  have hlt : pid < s.procs.length := (List.getElem?_eq_some_iff.mp (proc_iff.mp hp)).1
  unfold addProc
  split
  · exact hp
  · rw [proc, getElem?_append_left hlt, ← proc, hp]

theorem kind_after_call (hk : s.kind d = some k) (c : Call) (hspare : Op.Spares d (.call pid c))
    (hthrough : Op.through (.call pid c) ≠ some d) : (s.after (.call pid c)).kind d = some k := by
  cases hp : s.proc pid with
  | none => rwa [after_of_none hp]
  | some p =>
    obtain ⟨p', hp', hfd⟩ := kind_iff.mp hk
    rw [kind_iff]
    simp only [proc_after_call hp]
    by_cases hpid : d.pid = pid
    · obtain rfl : p = p' := some.inj (hp.symm.trans (hpid ▸ hp'))
      refine ⟨_, if_pos hpid, ?_⟩
      have hends := run_of_ends (ends_serve p c s.st)
      have hset : ∀ fd o, Desc.mk pid fd ≠ d → (p.fds.set fd o)[d.fd]?.join = some k := fun fd o hne ↦ by
        have hfd' : fd ≠ d.fd := fun he ↦ hne (by rw [he, ← hpid])
        rw [getElem?_set_ne hfd', hfd]
      cases c with
      | «open» path flags | dup fd =>
        rcases hends with he | ⟨_, he⟩ <;> rw [he]
        exacts [hfd, allocFd_keeps hfd]
      | close fd =>
        rcases hends with he | he <;> rw [he]
        exacts [hfd, hset fd _ hspare]
      | read fd size | write fd buf =>
        rcases hends with he | ⟨_, _, _, _, -, -, he⟩ <;> rw [he]
        exacts [hfd, hset fd _ fun he ↦ hthrough (congrArg some he)]
      | unlink path => rwa [show _ = p.fds from hends]
      | link oldPath newPath => rwa [show _ = p.fds from hends]
      | mkdir path => rwa [show _ = p.fds from hends]
      | chdir path => rwa [show _ = p.fds from hends]
      | exec path loads => rwa [show _ = p.fds from hends]
    · exact ⟨p', by rw [if_neg hpid, hp'], hfd⟩

theorem kind_after (hk : s.kind d = some k) (hspare : op.Spares d) (hthrough : op.through ≠ some d) :
    (s.after op).kind d = some k := by
  obtain ⟨p, hp, hfd⟩ := kind_iff.mp hk
  cases op with
  | call pid c => exact kind_after_call hk c hspare hthrough
  | fork pid created =>
    rw [after, step]
    cases hpid : s.proc pid with
    | none => exact hk
    | some q => exact kind_iff.mpr ⟨p, proc_addProc hp _, hfd⟩
  | exit pid =>
    rw [after, step]
    cases hpid : s.proc pid with
    | none => exact hk
    | some q =>
      refine kind_iff.mpr ⟨p, ?_, hfd⟩
      rw [map_some, getD_some, proc, getElem?_set_ne hspare]
      exact hp
  | execute path loads => exact kind_iff.mpr ⟨p, proc_addProc hp _, hfd⟩

theorem kind_after_through {x : Nat} {pos mode : Int} (hk : s.kind d = some (.fileDesc x pos mode))
    (hthrough : op.through = some d) :
    ∃ pos', (s.after op).kind d = some (.fileDesc x pos' mode) ∧ pos.toNat ≤ pos'.toNat := by
  obtain ⟨p, hp, hfd⟩ := kind_iff.mp hk
  have hmoved : ∀ c, (c.Edits p.fds (run (serve p c) s.st).1.fds → (run (serve p c) s.st).1.fds = p.fds ∨
      ∃ y pos₀ mode₀ pos', p.fds[d.fd]?.join = some (.fileDesc y pos₀ mode₀) ∧ pos₀.toNat ≤ pos' ∧
        (run (serve p c) s.st).1.fds = p.fds.set d.fd (some (.fileDesc y pos' mode₀))) →
      ∃ pos', (s.after (.call d.pid c)).kind d = some (.fileDesc x pos' mode) ∧ pos.toNat ≤ pos'.toNat := by
    intro c hedits
    simp only [kind_iff, proc_after_call hp, if_true, some.injEq, exists_eq_left']
    rcases hedits (run_of_ends (ends_serve p c s.st)) with he | ⟨y, pos₀, mode₀, pos', hfd', hle, he⟩
    · exact ⟨pos, by rw [he, hfd], le_rfl⟩
    · obtain ⟨rfl, rfl, rfl⟩ := FdKind.fileDesc.inj (some.inj (hfd.symm.trans hfd'))
      have hlt : d.fd < p.fds.length := (List.getElem?_eq_some_iff.mp (join_eq_some_iff.mp hfd)).1
      exact ⟨pos', by rw [he, getElem?_set_self hlt, join_some], by simpa using hle⟩
  cases op with
  | call pid c =>
    cases c with
    | read fd size =>
      cases hthrough
      exact hmoved _ id
    | write fd buf =>
      cases hthrough
      exact hmoved _ id
    | _ => cases hthrough
  | _ => cases hthrough

end System

/-- The descriptor `e` is a copy of `d`, made by `dup` or by `fork`. -/
inductive Copied (s : System) : System → Desc → Desc → Prop
  | dup {pid : Nat} {p : Process} (fd : Nat) (hp : s.proc pid = some p) :
      Copied s (s.after (.call pid (.dup fd))) ⟨pid, fd⟩ ⟨pid, nextFd p.fds⟩
  | fork {pid : Nat} {p : Process} (fd : Nat) (hp : s.proc pid = some p) :
      Copied s (s.after (.fork pid true)) ⟨pid, fd⟩ ⟨s.procs.length, fd⟩

variable {s₀ s : System} {d : Bool → Desc} {k : FdKind}

theorem ends_sysDup {p : Process} {fd : Nat} (hfd : p.fds[fd]?.join = some k) (st : State) :
    Ends (sysDup p fd) (fun p' _ ↦ p'.fds = p.fds.allocFd k) st := by
  unfold sysDup
  rw [hfd]
  exact ends_then fun _ _ ↦ rfl

theorem ends_fork (p : Process) (st : State) : Ends (fork p true) (fun r _ ↦ r = some p) st := by
  refine ends_then fun _ _ ↦ ?_
  simp only [if_true]
  split
  · exact rfl
  · exact ends_then fun _ _ ↦ ends_then fun _ _ ↦ rfl

open Files.System

theorem Copied.kinds {d e : Desc} (h : Copied s₀ s d e) (hk : s₀.kind d = some k) :
    s.kind d = some k ∧ s.kind e = some k ∧ d ≠ e := by
  cases h with
  | @dup pid p fd hp =>
    obtain ⟨p', hp', hfd⟩ := kind_iff.mp hk
    obtain rfl : p = p' := some.inj (hp.symm.trans hp')
    refine ⟨kind_after_call hk _ trivial (nofun), ?_, fun he ↦ ?_⟩
    · rw [kind_iff]
      refine ⟨_, (proc_after_call hp _ _).trans (if_pos rfl), ?_⟩
      have hdup : (run (serve p (.dup fd)) s₀.st).1.fds = p.fds.allocFd k := run_of_ends (ends_sysDup hfd s₀.st)
      rw [hdup]
      exact allocFd_nextFd
    · rw [(Desc.mk.inj he).2, nextFd_free] at hfd
      cases hfd
  | @fork pid p fd hp =>
    have hlt : pid < s₀.procs.length := (List.getElem?_eq_some_iff.mp (proc_iff.mp hp)).1
    obtain ⟨p', hp', hfd⟩ := kind_iff.mp hk
    obtain rfl : p = p' := some.inj (hp.symm.trans hp')
    refine ⟨kind_after hk trivial (nofun), kind_iff.mpr ⟨p, ?_, hfd⟩, fun he ↦ ?_⟩
    · rw [System.after, step, hp, map_some, addProc, show (run (Files.fork p true) s₀.st).1 = some p from run_of_ends (ends_fork p s₀.st)]
      simp [proc]
    · exact hlt.ne (Desc.mk.inj he).1

def BothFiles (s : System) (d : Bool → Desc) : Prop :=
  ∀ b, ∃ x pos mode, s.kind (d b) = some (.fileDesc x pos mode)

theorem BothFiles.after {op : Op} (hf : BothFiles s d) (hspare : ∀ b, op.Spares (d b)) :
    BothFiles (s.after op) d ∧ (∀ b, op.through ≠ some (d b) → (s.after op).offset (d b) = s.offset (d b)) ∧
      ∀ b, op.through = some (d b) → s.offset (d b) ≤ (s.after op).offset (d b) := by
  refine ⟨fun b ↦ ?_, fun b hb ↦ ?_, fun b hb ↦ ?_⟩ <;> obtain ⟨x, pos, mode, hk⟩ := hf b
  · by_cases hb : op.through = some (d b)
    · obtain ⟨pos', hk', -⟩ := kind_after_through hk hb
      exact ⟨x, pos', mode, hk'⟩
    · exact ⟨x, pos, mode, kind_after hk (hspare b) hb⟩
  · rw [offset, offset, kind_after hk (hspare b) hb, hk]
  · obtain ⟨pos', hk', hle⟩ := kind_after_through hk hb
    rw [offset, offset, hk', hk]
    exact hle

theorem BothFiles.private_spans (hne : d false ≠ d true) (l : List Op) : ∀ s, BothFiles s d →
    (∀ op ∈ l, ∀ b, op.Spares (d b)) → Private (fun b ↦ s.offset (d b)) (spans d s l) := by
  induction l with
  | nil => exact fun _ _ _ ↦ trivial
  | cons op l ih =>
    intro s hf hspare
    obtain ⟨hf', hother, hself⟩ := hf.after (hspare op mem_cons_self)
    have hrest := ih _ hf' fun op' hop ↦ hspare op' (mem_cons_of_mem _ hop)
    have hupdate : ∀ b, op.through = some (d b) → (fun c ↦ (s.after op).offset (d c)) =
        update (fun c ↦ s.offset (d c)) b ((s.after op).offset (d b)) := fun b hb ↦ by
      funext c
      by_cases hc : c = b
      · rw [hc, update_self]
      · rw [update_of_ne hc]
        refine hother c fun he ↦ ?_
        have hd : d b = d c := some.inj (hb.symm.trans he)
        cases b <;> cases c <;> first | exact hc rfl | exact hne hd | exact hne hd.symm
    unfold spans
    split_ifs with hfalse htrue
    · exact ⟨rfl, hself false hfalse, hupdate false hfalse ▸ hrest⟩
    · exact ⟨rfl, hself true htrue, hupdate true htrue ▸ hrest⟩
    · rwa [show (fun b ↦ s.offset (d b)) = fun b ↦ (s.after op).offset (d b) from
        funext fun b ↦ (hother b (by cases b <;> assumption)).symm]

section Copies

variable {x : Nat} {pos mode : Int} {l : List Op}

section

variable (hcopy : Copied s₀ s (d false) (d true)) (hfile : s₀.kind (d false) = some (.fileDesc x pos mode))
  (hspare : ∀ op ∈ l, ∀ b, op.Spares (d b))
include hcopy hfile hspare

theorem Copied.private_spans :
    Private (fun b ↦ s.offset (d b)) (spans d s l) ∧ ∀ b, s.offset (d b) = pos.toNat := by
  obtain ⟨hd, he, hne⟩ := hcopy.kinds hfile
  have hkind : ∀ b, s.kind (d b) = some (.fileDesc x pos mode) := fun b ↦ by cases b <;> assumption
  refine ⟨BothFiles.private_spans hne l s (fun b ↦ ⟨x, pos, mode, hkind b⟩) hspare, fun b ↦ ?_⟩
  rw [offset, hkind]
  rfl

theorem Copied.shared_iff :
    Shared pos.toNat (spans d s l) ↔ Alone (spans d s l) := by
  obtain ⟨hprivate, hoffset⟩ := hcopy.private_spans hfile hspare
  exact hprivate.shared_iff hoffset

end

/-- A file descriptor and its copy by `dup` or `fork` share one offset, and their writes stay apart, as
long as no one uses one of them after bytes have moved through the other. Whatever else happens in the
system, the two are not closed. -/
theorem copies_share_offset (hcopy : Copied s₀ s (d false) (d true))
    (hfile : s₀.kind (d false) = some (.fileDesc x pos mode)) (hspare : ∀ op ∈ l, ∀ b, op.Spares (d b))
    (halone : Alone (spans d s l)) :
    Shared pos.toNat (spans d s l) ∧ (spans d s l).Pairwise fun a b ↦ a.stop ≤ b.start := by
  have hshared := (hcopy.shared_iff hfile hspare).mpr halone
  exact ⟨hshared, (hshared.apart (hcopy.private_spans hfile hspare).1.start_le).2⟩

end Copies

def redirected : System where
  st := oneFile.opened 2
  procs := [some ⟨1, FdTable.new ++ [some (.fileDesc 2 0 2)], none⟩]

def threeFour (b : Bool) : Desc := ⟨0, if b then 4 else 3⟩

theorem copied_redirected :
    Copied redirected (redirected.after (.call 0 (.dup 3))) (threeFour false) (threeFour true) := by
  have hp : redirected.proc 0 = some ⟨1, FdTable.new ++ [some (.fileDesc 2 0 2)], none⟩ := rfl
  exact .dup 3 hp

/-- Two writes through the copy only. -/
theorem copies_share_offset_copy :
    Shared 0 (spans threeFour (redirected.after (.call 0 (.dup 3)))
      [.call 0 (.write 4 [7]), .call 0 (.write 4 [8])]) := by
  have hspans : spans threeFour (redirected.after (.call 0 (.dup 3)))
      [.call 0 (.write 4 [7]), .call 0 (.write 4 [8])] = [⟨true, 0, 1⟩, ⟨true, 1, 2⟩] := by decide +kernel
  have hfile : redirected.kind (threeFour false) = some (.fileDesc 2 0 2) := rfl
  refine (copies_share_offset copied_redirected hfile ?_ ?_).1
  · intro op hop b
    simp only [mem_cons, not_mem_nil, or_false] at hop
    rcases hop with rfl | rfl <;> trivial
  · rw [hspans]
    unfold Alone
    simp

/-- A byte is written through descriptor 3 and one through its copy: the second takes the place of the
first, and the file has one byte. -/
theorem copies_overwrite :
    let s := redirected.after (.call 0 (.dup 3))
    let s' := (s.after (.call 0 (.write 3 [7]))).after (.call 0 (.write 4 [8]))
    Copied redirected s (threeFour false) (threeFour true) ∧
      spans threeFour s [.call 0 (.write 3 [7]), .call 0 (.write 4 [8])] = [⟨false, 0, 1⟩, ⟨true, 0, 1⟩] ∧
      (run (readAt 2 10 0) s'.st).1 = [8] := by
  refine ⟨copied_redirected, ?_, ?_⟩ <;> decide +kernel

end Rxv6.Userprog.Files
