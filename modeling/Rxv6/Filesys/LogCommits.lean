import Rxv6.Filesys.Log

namespace Rxv6.Filesys.Log

open Function Rxv6.Thread Rxv6.Lib.Runs List

/-- The part of its work that a thread is in. A commit copies from the start of `write_log` until its
header is on disk, and installs until it has cleared the header. -/
inductive Kind
  | idle
  | inside (op : Nat)
  | commit
  | copying
  | installing
  | clearing
  deriving DecidableEq

namespace Kind

def running (k : Kind) : Bool := k = copying ∨ k = installing

def isInside : Kind → Bool
  | inside _ => true
  | _ => false

end Kind

def Pc.kind : Pc → Kind
  | .idle => .idle
  | .inside op => .inside op
  | .commit => .commit
  | .logTurn .. | .logRead .. | .logWrite .. | .headWrite _ => .copying
  | .install | .installTurn .. | .bodyRead .. | .homeWrite .. => .installing
  | .clearWrite _ => .clearing

namespace System

def kind (s : System) (t : Tid) : Kind := (s.pc t).kind

structure Fresh (s : System) : Prop extends Quiet s where
  nodup : s.threads.Nodup
  records : s.records = []
  entries : s.entries = []
  commits : s.commits = []

def times (s : System) (r : Record) : Nat := s.commits.countP (r ∈ ·)

/-- Each recorded sector is in one commit: in at most one so far, and as long as it is in none the
header stands for it and an operation is open or a commit is going to write that header. -/
structure ExactlyOnce (s : System) : Prop where
  once : ∀ r ∈ s.records, s.times r ≤ 1
  kept : ∀ r ∈ s.records, s.times r = 0 → r ∈ s.entries ∧
    ∃ t, (s.kind t).isInside ∨ s.kind t = .commit ∨ s.kind t = .copying
  quiet : (∀ t, s.kind t = .idle) → ∀ r ∈ s.records, s.times r = 1

def HeadersClosed (s : System) : Prop :=
  ∀ t h, s.pc t = .headWrite h ∨ s.pc t = .clearWrite h → ∀ r ∈ s.records, r.sector ∈ h.entries →
    ∀ u, s.kind u ≠ .inside r.op

/-- A commit about to clear the header drops no entry that came after its `write_log`. -/
def ClearsLogged (s : System) : Prop :=
  ∀ t n i, s.pc t = .installTurn n i → n ≤ i → ∀ r ∈ s.entries, r ∈ s.pass t

def nobodyRuns (s : System) : Bool := s.threads.all fun u ↦ !(s.kind u).running

/-- `log_write` is not called while a commit runs, and a commit starts with a header that is not
empty only when no other runs and no operation with an entry in it is open. -/
def commitsApart (s : System) (x : Tid × Act) : Bool :=
  match x.2 with
  | .logWrite _ => s.nobodyRuns
  | .go => s.kind x.1 ≠ .commit ∨ s.header.n = 0 ∨
      (s.nobodyRuns = true ∧ ∀ r ∈ s.entries, ∀ u ∈ s.threads, s.kind u ≠ .inside r.op)
  | _ => true

end System

def CommitsApart (s : System) (x : Tid × Act) : Prop := s.commitsApart x = true

instance (s : System) (x : Tid × Act) : Decidable (CommitsApart s x) :=
  inferInstanceAs (Decidable (_ = true))

structure Inv (s : System) : Prop where
  nodup : s.threads.Nodup
  member : ∀ t, s.kind t ≠ .idle → t ∈ s.threads
  count : s.outstanding = s.threads.countP fun t ↦ (s.kind t).isInside
  ops : ∀ t op, s.kind t = .inside op → op < s.nextOp
  recordOps : ∀ r ∈ s.records, r.op < s.nextOp
  ids : ∀ r ∈ s.records, r.id < s.records.length
  entries : ∀ r ∈ s.entries, r ∈ s.records
  commits : ∀ c ∈ s.commits, ∀ r ∈ c, r ∈ s.records
  empty : s.header.n = 0 → s.entries = []
  opened : ∀ r ∈ s.records, ∀ t, s.kind t = .inside r.op → r ∈ s.entries
  single : ∀ t u, (s.kind t).running → (s.kind u).running → t = u
  closed : ∀ t, (s.kind t).running → ∀ r ∈ s.entries, ∀ u, s.kind u ≠ .inside r.op
  pass : ∀ t, (s.kind t).running → s.pass t = s.entries
  head : ∀ t h, s.pc t = .headWrite h → s.held t = s.entries
  cleared : ∀ t h, s.pc t = .clearWrite h → h.n = 0
  pending : ∀ r ∈ s.entries, (∀ t, s.kind t ≠ .installing) → s.times r = 0
  done : ∀ r ∈ s.records, (r ∉ s.entries ∨ ∃ t, s.kind t = .installing) → s.times r = 1
  alive : s.entries ≠ [] → ∃ t, (s.kind t).isInside ∨ s.kind t = .commit ∨ (s.kind t).running

variable {s s' : System} {t : Tid} {p : Pc}

theorem countP_update {α β : Type} [DecidableEq α] {f : α → β} {v : β} {P : β → Bool} {l : List α} {a : α}
    (hl : l.Nodup) (ha : a ∈ l) :
    l.countP (fun u ↦ P (update f a v u)) + (if P (f a) then 1 else 0) =
      l.countP (fun u ↦ P (f u)) + if P v then 1 else 0 := by
  induction l with
  | nil => cases ha
  | cons b l ih =>
    obtain ⟨hb, hl⟩ := nodup_cons.mp hl
    simp only [countP_cons]
    by_cases hab : a = b
    · subst hab
      have hrest : l.countP (fun u ↦ P (update f a v u)) = l.countP (fun u ↦ P (f u)) := by
        refine countP_congr fun u hu ↦ ?_
        rw [update_of_ne (ne_of_mem_of_not_mem hu hb)]
      rw [update_self]
      omega
    · have := ih hl ((mem_cons.mp ha).resolve_left hab)
      rw [update_of_ne fun he ↦ hab he.symm]
      omega

open Log.System

theorem System.kind_goto (s : System) (t : Tid) (p : Pc) :
    (s.goto t p).kind = update s.kind t p.kind := by
  funext u
  by_cases hu : u = t
  · rw [hu, update_self, kind, goto_pc_self]
  · rw [update_of_ne hu]
    exact congrArg Pc.kind (update_of_ne hu _ _)

structure Same (s s' : System) : Prop where
  threads : s'.threads = s.threads
  records : s'.records = s.records
  entries : s'.entries = s.entries
  commits : s'.commits = s.commits
  header : s'.header = s.header

structure Heads (s : System) (entries : List Record) : Prop where
  head : ∀ t h, s.pc t = .headWrite h → s.held t = entries
  cleared : ∀ t h, s.pc t = .clearWrite h → h.n = 0

theorem Heads.goto {es : List Record} (h : Heads s es) (hhead : ∀ hd, p = .headWrite hd → s.held t = es)
    (hclear : ∀ hd, p = .clearWrite hd → hd.n = 0) : Heads (s.goto t p) es := by
  constructor <;> intro u hd hu <;> by_cases hut : u = t
  · subst hut
    rw [goto_pc_self] at hu
    exact hhead hd hu
  · rw [goto_pc_of_ne hut] at hu
    exact h.head u hd hu
  · subst hut
    rw [goto_pc_self] at hu
    exact hclear hd hu
  · rw [goto_pc_of_ne hut] at hu
    exact h.cleared u hd hu

open Kind

namespace Inv

section

variable (h : Inv s)

include h

theorem heads : Heads s s.entries := ⟨h.head, h.cleared⟩

theorem same (hsame : Same s s') (hkind : s'.kind = s.kind)
    (hout : s'.outstanding = s.outstanding) (hop : s'.nextOp = s.nextOp) (hpass : s'.pass = s.pass)
    (hheads : Heads s' s.entries) : Inv s' := by
  have htimes : s'.times = s.times := by
    funext r
    rw [times, times, hsame.commits]
  obtain ⟨hthreads, hrecords, hentries, hcommits, hheader⟩ := hsame
  constructor
  all_goals
    try simp only [hthreads, hrecords, hentries, hcommits, hheader, hkind, hout, hop, hpass, htimes]
  case nodup => exact h.nodup
  case member => exact h.member
  case count => exact h.count
  case ops => exact h.ops
  case recordOps => exact h.recordOps
  case ids => exact h.ids
  case entries => exact h.entries
  case commits => exact h.commits
  case empty => exact h.empty
  case opened => exact h.opened
  case single => exact h.single
  case closed => exact h.closed
  case pass => exact h.pass
  case head => exact hheads.head
  case cleared => exact hheads.cleared
  case pending => exact h.pending
  case done => exact h.done
  case alive => exact h.alive

variable {k : Kind} {op x : Nat} {hd : Header}

theorem move (ht : t ∈ s.threads) (hsame : Same s s') (hkind : s'.kind = update s.kind t k)
    (hout : s'.outstanding + (if (s.kind t).isInside then 1 else 0) =
      s.outstanding + if k.isInside then 1 else 0)
    (hop : s.nextOp ≤ s'.nextOp) (hopen : ∀ op, k = .inside op → s.nextOp ≤ op ∧ op < s'.nextOp)
    (hrun : k.running → (∀ u, ¬ (s.kind u).running) ∧ (∀ r ∈ s.entries, ∀ u, s.kind u ≠ .inside r.op) ∧
      s'.pass t = s.entries) (hinst : k ≠ .installing) (hinst' : s.kind t ≠ .installing)
    (hpass : ∀ u, u ≠ t → s'.pass u = s.pass u) (hheads : Heads s' s.entries)
    (halive : s.entries ≠ [] → (k.isInside ∨ k = .commit ∨ k.running) ∨
      ∃ u, u ≠ t ∧ ((s.kind u).isInside ∨ s.kind u = .commit ∨ (s.kind u).running)) : Inv s' := by
  have htimes : s'.times = s.times := by
    funext r
    rw [times, times, hsame.commits]
  obtain ⟨hthreads, hrecords, hentries, hcommits, hheader⟩ := hsame
  have hself : s'.kind t = k := by rw [hkind, update_self]
  have hother : ∀ u, u ≠ t → s'.kind u = s.kind u := fun u hu ↦ by rw [hkind, update_of_ne hu]
  have hinside : ∀ u op, s'.kind u = .inside op → op < s.nextOp → s.kind u = .inside op := by
    intro u op hu hlt
    by_cases hut : u = t
    · rw [hut, hself] at hu
      have := (hopen op hu).1
      omega
    · rwa [hother u hut] at hu
  have hinstalling : ∀ u, s'.kind u = .installing ↔ s.kind u = .installing := by
    intro u
    by_cases hut : u = t
    · rw [hut, hself]
      exact ⟨fun hu ↦ absurd hu hinst, fun hu ↦ absurd hu hinst'⟩
    · rw [hother u hut]
  constructor
  all_goals try simp only [hthreads, hrecords, hentries, hcommits, hheader, htimes]
  case nodup => exact h.nodup
  case member =>
    intro u hu
    by_cases hut : u = t
    · exact hut ▸ ht
    · exact h.member u (hother u hut ▸ hu)
  case count =>
    have hcount := countP_update (f := s.kind) (v := k) (P := isInside) h.nodup ht
    have hold := h.count
    rw [hkind]
    split_ifs at hcount hout <;> omega
  case ops =>
    intro u op hu
    by_cases hut : u = t
    · exact (hopen op (by rw [← hself, ← hut, hu])).2
    · exact (h.ops u op (hother u hut ▸ hu)).trans_le hop
  case recordOps => exact fun r hr ↦ (h.recordOps r hr).trans_le hop
  case ids => exact h.ids
  case entries => exact h.entries
  case commits => exact h.commits
  case empty => exact h.empty
  case opened => exact fun r hr u hu ↦ h.opened r hr u (hinside u _ hu (h.recordOps r hr))
  case single =>
    intro u v hu hv
    by_cases hut : u = t <;> by_cases hvt : v = t
    · rw [hut, hvt]
    · rw [hut, hself] at hu
      rw [hother v hvt] at hv
      exact absurd hv ((hrun hu).1 v)
    · rw [hvt, hself] at hv
      rw [hother u hut] at hu
      exact absurd hu ((hrun hv).1 u)
    · rw [hother u hut] at hu
      rw [hother v hvt] at hv
      exact h.single u v hu hv
  case closed =>
    intro u hu r hr v hv
    have hv := hinside v _ hv (h.recordOps r (h.entries r hr))
    by_cases hut : u = t
    · rw [hut, hself] at hu
      exact (hrun hu).2.1 r hr v hv
    · rw [hother u hut] at hu
      exact h.closed u hu r hr v hv
  case pass =>
    intro u hu
    by_cases hut : u = t
    · rw [hut, hself] at hu
      rw [hut, (hrun hu).2.2]
    · rw [hother u hut] at hu
      rw [hpass u hut, h.pass u hu]
  case head => exact hheads.head
  case cleared => exact hheads.cleared
  case pending => exact fun r hr hu ↦ h.pending r hr fun u ↦ (hinstalling u).not.mp (hu u)
  case done =>
    exact fun r hr hu ↦ h.done r hr (hu.imp_right fun ⟨u, hu⟩ ↦ ⟨u, (hinstalling u).mp hu⟩)
  case alive =>
    intro hne
    rcases halive hne with hk | ⟨u, hut, hu⟩
    · exact ⟨t, by rwa [hself]⟩
    · exact ⟨u, by rwa [hother u hut]⟩

theorem nobody (hn : s.nobodyRuns = true) (u : Tid) : ¬ (s.kind u).running := by
  intro hu
  have hmem : u ∈ s.threads := h.member u fun hk ↦ by simp [hk, running] at hu
  have := all_eq_true.mp hn u hmem
  simp [hu] at this

section

variable (hk : s.kind t = .inside op) (hn : s.nobodyRuns = true)
include hk hn

theorem record
    (hhd : hd.n ≠ 0) :
    Inv { s with records := ⟨s.records.length, op, x⟩ :: s.records,
                 entries := ⟨s.records.length, op, x⟩ :: s.entries, header := hd } := by
  have hquiet := h.nobody hn
  have hnew : (⟨s.records.length, op, x⟩) ∉ s.records := fun hr ↦ lt_irrefl _ (h.ids _ hr)
  have htimes : s.times ⟨s.records.length, op, x⟩ = 0 := by
    rw [times, countP_eq_zero]
    intro c hc hr
    exact hnew (h.commits c hc _ (of_decide_eq_true hr))
  refine ⟨h.nodup, h.member, h.count, h.ops, ?_, ?_, ?_, ?_, fun h0 ↦ absurd h0 hhd, ?_, h.single, ?_, ?_,
    ?_, h.cleared, ?_, ?_, fun _ ↦ ⟨t, .inl (congrArg isInside hk)⟩⟩
  · rintro r hr
    rcases mem_cons.mp hr with rfl | hr
    · exact h.ops t op hk
    · exact h.recordOps r hr
  · rintro r hr
    rcases mem_cons.mp hr with rfl | hr
    · exact Nat.lt_succ_self _
    · exact (h.ids r hr).trans (Nat.lt_succ_self _)
  · rintro r hr
    exact mem_cons.mpr ((mem_cons.mp hr).imp_right (h.entries r))
  · exact fun c hc r hr ↦ mem_cons_of_mem _ (h.commits c hc r hr)
  · intro r hr u hu
    exact mem_cons.mpr ((mem_cons.mp hr).imp_right fun hr ↦ h.opened r hr u hu)
  · exact fun u hu ↦ absurd hu (hquiet u)
  · exact fun u hu ↦ absurd hu (hquiet u)
  · intro u hd hu
    refine absurd ?_ (hquiet u)
    rw [kind, show s.pc u = _ from hu]
    rfl
  · intro r hr hinst
    rcases mem_cons.mp hr with rfl | hr
    · exact htimes
    · exact h.pending r hr hinst
  · intro r hr hor
    have hor : r ∉ Record.mk s.records.length op x :: s.entries := by
      refine hor.resolve_right ?_
      rintro ⟨u, hu⟩
      refine hquiet u ?_
      rw [show s.kind u = _ from hu]
      rfl
    rw [mem_cons, not_or] at hor
    exact h.done r ((mem_cons.mp hr).resolve_left hor.1) (.inl hor.2)

theorem logWrite
    (hs : s.logWrite op x = some s') : Inv s' := by
  unfold System.logWrite at hs
  simp only at hs
  split at hs
  · cases hs
  · split at hs <;> cases hs
    · next hx =>
      refine h.record hk hn fun h0 ↦ ?_
      simp [Header.entries, h0] at hx
    · exact h.record hk hn (Nat.succ_ne_zero _)

end

theorem advance (hrun : (s.kind t).running) (hk : k = .installing ∨ k = .clearing)
    (hkind : s'.kind = update s.kind t k) (hthreads : s'.threads = s.threads)
    (hout : s'.outstanding = s.outstanding) (hop : s'.nextOp = s.nextOp)
    (hrecords : s'.records = s.records) (hentries : ∀ r ∈ s'.entries, r ∈ s.entries)
    (hempty : s'.header.n = 0 → s'.entries = []) (hpass : k.running → s'.pass t = s'.entries)
    (hcommits : ∀ c ∈ s'.commits, ∀ r ∈ c, r ∈ s.records)
    (hopened : ∀ r ∈ s.entries, r ∈ s'.entries ∨ ∀ u, s.kind u ≠ .inside r.op)
    (hpc : ∀ u, u ≠ t → s'.pc u = s.pc u) (hclear : ∀ hd, s'.pc t = .clearWrite hd → hd.n = 0)
    (htimes : ∀ r ∈ s.records, s'.times r = 1) (hpending : k = .clearing → s'.entries = []) : Inv s' := by
  have hself : s'.kind t = k := by rw [hkind, update_self]
  have hother : ∀ u, u ≠ t → s'.kind u = s.kind u := fun u hu ↦ by rw [hkind, update_of_ne hu]
  have hnot : ∀ u, u ≠ t → ¬ (s'.kind u).running := fun u hu hr ↦
    hu (h.single u t (hother u hu ▸ hr) hrun)
  have hinside : ∀ u op, s'.kind u = .inside op → s.kind u = .inside op := by
    intro u op hu
    by_cases hut : u = t
    · rw [hut, hself] at hu
      rcases hk with rfl | rfl <;> cases hu
    · rwa [hother u hut] at hu
  have hmem : t ∈ s.threads := h.member t fun hi ↦ by simp [hi, running] at hrun
  constructor
  all_goals try simp only [hthreads, hrecords, hop, hout]
  case nodup => exact h.nodup
  case member =>
    intro u hu
    by_cases hut : u = t
    · exact hut ▸ hmem
    · exact h.member u (hother u hut ▸ hu)
  case count =>
    have hcount := countP_update (f := s.kind) (v := k) (P := isInside) h.nodup hmem
    have hold : (s.kind t).isInside = false := by
      cases ht : s.kind t <;> simp_all [running, isInside]
    have hnew : k.isInside = false := by rcases hk with rfl | rfl <;> rfl
    simp only [hold, hnew, Bool.false_eq_true, if_false, add_zero] at hcount
    rw [hkind, hcount, h.count]
  case ops => exact fun u op hu ↦ h.ops u op (hinside u op hu)
  case recordOps => exact h.recordOps
  case ids => exact h.ids
  case entries => exact fun r hr ↦ h.entries r (hentries r hr)
  case commits => exact hcommits
  case empty => exact hempty
  case opened =>
    intro r hr u hu
    have hu := hinside u _ hu
    exact (hopened r (h.opened r hr u hu)).resolve_right fun hc ↦ hc u hu
  case single =>
    intro u v hu hv
    by_cases hut : u = t
    · by_cases hvt : v = t
      · rw [hut, hvt]
      · exact absurd hv (hnot v hvt)
    · exact absurd hu (hnot u hut)
  case closed => exact fun _ _ r hr v hv ↦ h.closed t hrun r (hentries r hr) v (hinside v _ hv)
  case pass =>
    intro u hu
    by_cases hut : u = t
    · rw [hut, hself] at hu
      rw [hut, hpass hu]
    · exact absurd hu (hnot u hut)
  case head =>
    intro u hd hu
    have hcopy : s'.kind u = .copying := by rw [kind, hu]; rfl
    by_cases hut : u = t
    · rw [hut, hself] at hcopy
      rcases hk with rfl | rfl <;> cases hcopy
    · exact absurd (by rw [hcopy]; rfl) (hnot u hut)
  case cleared =>
    intro u hd hu
    by_cases hut : u = t
    · exact hclear hd (hut ▸ hu)
    · exact h.cleared u hd (hpc u hut ▸ hu)
  case pending =>
    intro r hr hu
    rcases hk with rfl | rfl
    · exact absurd hself (hu t)
    · simp [hpending rfl] at hr
  case done => exact fun r hr _ ↦ htimes r hr
  case alive =>
    intro hne
    rcases hk with rfl | rfl
    · exact ⟨t, .inr (.inr (by rw [hself]; rfl))⟩
    · exact absurd (hpending rfl) hne

theorem headWrite (hpc : s.pc t = .headWrite hd) :
    Inv ({ s.devWrite s.start hd.encode with commits := s.held t :: s.commits }.goto t .install) := by
  have hk : s.kind t = .copying := by rw [kind, hpc]; rfl
  have hrun : (s.kind t).running := by rw [hk]; rfl
  have hheld := h.head t hd hpc
  have hinst : ∀ u, s.kind u ≠ .installing := fun u hu ↦ by
    obtain rfl := h.single u t (by rw [hu]; rfl) hrun
    rw [hk] at hu
    cases hu
  refine h.advance hrun (.inl rfl) (kind_goto _ t .install) rfl rfl rfl rfl (fun _ hr ↦ hr) h.empty
    (fun _ ↦ h.pass t hrun) (fun c hc r hr ↦ ?_) (fun r hr ↦ .inl hr)
    (fun u hu ↦ goto_pc_of_ne hu) (fun hd hu ↦ ?_) (fun r hr ↦ ?_) (nofun)
  · rcases mem_cons.mp hc with rfl | hc
    · exact h.entries r (hheld ▸ hr)
    · exact h.commits c hc r hr
  · rw [goto_pc_self] at hu
    cases hu
  · change (s.held t :: s.commits).countP (r ∈ ·) = 1
    rw [hheld]
    by_cases hin : r ∈ s.entries
    · have hzero := h.pending r hin hinst
      rw [times] at hzero
      simp [hin, hzero]
    · have hone := h.done r hr (.inl hin)
      rw [times] at hone
      simp [hin, hone]

theorem clear (hk : s.kind t = .installing) (sectors : Nat → Nat) :
    Inv ({ s with header := ⟨0, sectors⟩, entries := [] }.goto t (.clearWrite ⟨0, sectors⟩)) := by
  have hrun : (s.kind t).running := by rw [hk]; rfl
  refine h.advance hrun (.inr rfl) (kind_goto _ t _) rfl rfl rfl rfl
    (nofun) (fun _ ↦ rfl) (nofun) h.commits
    (fun r hr ↦ .inr (h.closed t hrun r hr)) (fun u hu ↦ goto_pc_of_ne hu) (fun hd hu ↦ ?_)
    (fun r hr ↦ h.done r hr (.inr ⟨t, hk⟩)) (fun _ ↦ rfl)
  rw [goto_pc_self] at hu
  cases hu
  rfl

theorem devWrite (x : Nat) (v : Sector) : Inv (s.devWrite x v) :=
  h.same ⟨rfl, rfl, rfl, rfl, rfl⟩ rfl rfl rfl rfl ⟨h.head, h.cleared⟩

theorem goto (hk : p.kind = s.kind t) (hhead : ∀ hd, p = .headWrite hd → s.held t = s.entries)
    (hclear : ∀ hd, p ≠ .clearWrite hd) : Inv (s.goto t p) := by
  refine h.same ⟨rfl, rfl, rfl, rfl, rfl⟩ ?_ rfl rfl rfl (h.heads.goto hhead fun hd he ↦ absurd he (hclear hd))
  rw [kind_goto, hk, update_eq_self]

theorem beginOp (ht : t ∈ s.threads) (hk : s.kind t = .idle) :
    Inv ({ s with outstanding := s.outstanding + 1, nextOp := s.nextOp + 1 }.goto t (.inside s.nextOp)) := by
  refine h.move ht ⟨rfl, rfl, rfl, rfl, rfl⟩ (kind_goto _ t _)
    (by rw [hk]; simp [isInside, Pc.kind, System.goto]) (Nat.le_succ _) ?_ (nofun)
    (nofun) (by simp [hk]) (fun _ _ ↦ rfl) ?_ fun _ ↦ .inl (.inl rfl)
  · rintro op ⟨⟩
    exact ⟨le_rfl, Nat.lt_succ_self _⟩
  · exact Heads.goto ⟨h.head, h.cleared⟩ (nofun) (nofun)

theorem endOp (hk : s.kind t = .inside op) : Inv ({ s with outstanding := s.outstanding - 1 }.goto t
      (if s.outstanding - 1 = 0 then .commit else .idle)) := by
  have ht : t ∈ s.threads := h.member t (by simp [hk])
  by_cases hlast : s.outstanding - 1 = 0
  · rw [if_pos hlast]
    exact h.move ht ⟨rfl, rfl, rfl, rfl, rfl⟩ (kind_goto _ t _)
      (by rw [hk]; simp [isInside, Pc.kind, System.goto]) le_rfl (nofun)
      (nofun) (nofun) (by simp [hk]) (fun _ _ ↦ rfl)
      (Heads.goto ⟨h.head, h.cleared⟩ (nofun) (nofun)) fun _ ↦ .inl (.inr (.inl rfl))
  · rw [if_neg hlast]
    refine h.move ht ⟨rfl, rfl, rfl, rfl, rfl⟩ (kind_goto _ t _)
      (by rw [hk]; simp [isInside, Pc.kind, System.goto]) le_rfl (nofun)
      (nofun) (nofun) (by simp [hk]) (fun _ _ ↦ rfl)
      (Heads.goto ⟨h.head, h.cleared⟩ (nofun) (nofun)) fun _ ↦ .inr ?_
    -- another operation is open, or `outstanding` would be down to zero
    have hcount := countP_update (f := s.kind) (v := idle) (P := isInside) h.nodup ht
    have hout := h.count
    have hin : (s.kind t).isInside = true := by rw [hk]; rfl
    rw [if_pos hin, if_neg (by decide)] at hcount
    have hpos : 0 < s.threads.countP fun u ↦ (update s.kind t idle u).isInside := by omega
    obtain ⟨u, -, hu⟩ := countP_pos_iff.mp hpos
    have hut : u ≠ t := by
      rintro rfl
      rw [update_self] at hu
      cases hu
    rw [update_of_ne hut] at hu
    exact ⟨u, hut, .inl hu⟩

theorem startCommit (hk : s.kind t = .commit) (hok : CommitsApart s (t, .go)) :
    Inv (if s.header.n = 0 then s.goto t .idle
      else { s with pass := update s.pass t s.entries }.goto t (.logTurn s.header.n 0)) := by
  have ht : t ∈ s.threads := h.member t (by simp [hk])
  split
  · next hn =>
    exact h.move ht ⟨rfl, rfl, rfl, rfl, rfl⟩ (kind_goto _ t _) (by rw [hk]; rfl) le_rfl
      (nofun) (nofun) (nofun) (by simp [hk])
      (fun _ _ ↦ rfl) (h.heads.goto (by simp) (by simp)) fun hne ↦ absurd (h.empty hn) hne
  · next hn =>
    simp only [CommitsApart, commitsApart, hk, hn, ne_eq, not_true_eq_false, false_or,
      decide_eq_true_eq] at hok
    refine h.move ht ⟨rfl, rfl, rfl, rfl, rfl⟩ (kind_goto _ t _) (by rw [hk]; rfl) le_rfl
      (nofun) (fun _ ↦ ⟨h.nobody hok.1, fun r hr u hu ↦ ?_, update_self ..⟩)
      (nofun) (by simp [hk]) (fun u hu ↦ update_of_ne hu ..)
      (Heads.goto ⟨h.head, h.cleared⟩ (by simp) (by simp)) fun _ ↦ .inl (.inr (.inr rfl))
    exact hok.2 r hr u (h.member u (by simp [hu])) hu

theorem commitStep (hok : CommitsApart s (t, .go)) (hs : s.commitStep t = some s') : Inv s' := by
  unfold System.commitStep at hs
  cases hpc : s.pc t with
  | idle => simp [hpc] at hs
  | inside op => simp [hpc] at hs
  | commit =>
    have hstart := h.startCommit (by rw [kind, hpc]; rfl) hok
    rw [hpc] at hs
    simp only at hs
    split at hs <;> cases hs
    · next hn => rwa [if_pos hn] at hstart
    · next hn => rwa [if_neg hn] at hstart
  | logTurn n i =>
    have hk : s.kind t = .copying := by rw [kind, hpc]; rfl
    rw [hpc] at hs
    simp only at hs
    split at hs <;> cases hs
    · exact h.goto hk.symm (by simp) (by simp)
    · -- no other thread stands in front of a header, so only its own is remembered anew
      have hheld : Inv { s with held := update s.held t s.entries } := by
        refine h.same ⟨rfl, rfl, rfl, rfl, rfl⟩ rfl rfl rfl rfl ⟨fun u hd hu ↦ ?_, h.cleared⟩
        have hut : u ≠ t := by
          rintro rfl
          cases hpc.symm.trans hu
        exact (update_of_ne hut ..).trans (h.head u hd hu)
      exact hheld.goto hk.symm (fun _ _ ↦ update_self ..) (by simp)
  | logRead n i src | install | bodyRead n i dst =>
    rw [hpc] at hs
    cases hs
    exact h.goto (by rw [kind, hpc]; rfl) (by simp) (by simp)
  | logWrite n i buf | homeWrite n i dst buf =>
    rw [hpc] at hs
    cases hs
    exact (h.devWrite _ _).goto (congrArg Pc.kind hpc).symm (by simp) (by simp)
  | headWrite hd =>
    rw [hpc] at hs
    cases hs
    exact h.headWrite hpc
  | installTurn n i =>
    have hk : s.kind t = .installing := by rw [kind, hpc]; rfl
    rw [hpc] at hs
    simp only at hs
    split at hs <;> cases hs
    · exact h.goto hk.symm (by simp) (by simp)
    · exact h.clear hk s.header.sectors
  | clearWrite hd =>
    have hk : s.kind t = .clearing := by rw [kind, hpc]; rfl
    rw [hpc] at hs
    cases hs
    have hw := h.devWrite s.start hd.encode
    have hkw : (s.devWrite s.start hd.encode).kind t = .clearing := hk
    refine hw.move (h.member t (by simp [hk])) ⟨rfl, rfl, rfl, rfl, rfl⟩ (kind_goto _ t _)
      (by rw [hkw]; rfl) le_rfl (nofun) (nofun) (nofun)
      (by simp [hkw]) (fun _ _ ↦ rfl) (hw.heads.goto (by simp) (by simp)) fun hne ↦ .inr ?_
    obtain ⟨u, hu⟩ := h.alive hne
    refine ⟨u, ?_, hu⟩
    rintro rfl
    simp [hk, isInside, running] at hu

theorem step {x : Tid × Act} (hok : CommitsApart s x) (hs : s.step x = some s') : Inv s' := by
  obtain ⟨t, a⟩ := x
  cases a with
  | go => exact h.commitStep hok hs
  | beginOp =>
    cases hpc : s.pc t <;> simp only [System.step, hpc, reduceCtorEq] at hs
    split at hs <;> cases hs
    next ht => exact h.beginOp ht (by rw [kind, hpc]; rfl)
  | update x f =>
    cases hpc : s.pc t <;> simp only [System.step, hpc, reduceCtorEq, Option.some.injEq] at hs
    subst hs
    exact h.devWrite _ _
  | logWrite x =>
    cases hpc : s.pc t <;> simp only [System.step, hpc, reduceCtorEq] at hs
    exact h.logWrite (by rw [kind, hpc]; rfl) hok hs
  | endOp =>
    cases hpc : s.pc t <;> simp only [System.step, hpc, reduceCtorEq, Option.some.injEq] at hs
    subst hs
    exact h.endOp (by rw [kind, hpc]; rfl)

end

theorem init (h : s.Fresh) : Inv s := by
  have hkind : ∀ t, s.kind t = .idle := fun t ↦ by rw [kind, h.idle t]; rfl
  have hpc : ∀ t (p : Pc), s.pc t = p → p = .idle := fun t p hp ↦ hp.symm.trans (h.idle t)
  constructor
  all_goals try simp [hkind, h.records, h.entries, h.commits, h.outstanding, running, isInside]
  case nodup => exact h.nodup
  case head => exact fun t hd hp ↦ by cases hpc t _ hp
  case cleared => exact fun t hd hp ↦ by cases hpc t _ hp

theorem exactlyOnce (h : Inv s) : s.ExactlyOnce := by
  have hcases : ∀ r ∈ s.records, s.times r = 1 ∨
      (s.times r = 0 ∧ r ∈ s.entries ∧ ∀ t, s.kind t ≠ .installing) := by
    intro r hr
    by_cases hdone : r ∉ s.entries ∨ ∃ t, s.kind t = .installing
    · exact .inl (h.done r hr hdone)
    · simp only [not_or, not_not, not_exists] at hdone
      exact .inr ⟨h.pending r hdone.1 hdone.2, hdone⟩
  have hkept : ∀ r ∈ s.records, s.times r = 0 → r ∈ s.entries ∧
      ∃ t, (s.kind t).isInside ∨ s.kind t = .commit ∨ s.kind t = .copying := by
    intro r hr h0
    rcases hcases r hr with h1 | ⟨-, hin, hinst⟩
    · omega
    · obtain ⟨t, ht⟩ := h.alive (ne_nil_of_mem hin)
      refine ⟨hin, t, ht.imp_right (Or.imp_right fun hrun ↦ ?_)⟩
      simpa [running, hinst t] using hrun
  refine ⟨fun r hr ↦ ?_, hkept, fun hidle r hr ↦ ?_⟩
  · rcases hcases r hr with h1 | ⟨h0, -⟩ <;> omega
  · refine (hcases r hr).resolve_right ?_
    rintro ⟨h0, -⟩
    obtain ⟨-, t, ht⟩ := hkept r hr h0
    simp [hidle t, isInside] at ht

theorem headersClosed (h : Inv s) : s.HeadersClosed := by
  rintro t hd (hpc | hpc) r hr hin u hu
  · refine h.closed t ?_ r (h.opened r hr u hu) u hu
    rw [kind, hpc]
    rfl
  · simp [Header.entries, h.cleared t hd hpc] at hin

theorem clearsLogged (h : Inv s) : s.ClearsLogged := by
  intro t n i hpc _ r hr
  rwa [h.pass t (by rw [kind, hpc]; rfl)]

end Inv

/-- As long as commits stay apart from `log_write` and from each other, every recorded sector is in
one commit, no header is written over an open operation and no late entry is cleared. -/
theorem log_commits {s₀ s : System} (h₀ : s₀.Fresh) (h : Run System.step CommitsApart s₀ s) :
    s.ExactlyOnce ∧ s.HeadersClosed ∧ s.ClearsLogged := by
  have hinv : Inv s := h.invariant Inv (fun _ _ _ hi hok hs ↦ hi.step hok hs) (Inv.init h₀)
  exact ⟨hinv.exactlyOnce, hinv.headersClosed, hinv.clearsLogged⟩

def twoThreads : System where
  disk _ := Sector.zero
  start := 100
  outstanding := 0
  header := .empty
  threads := [1, 2]
  pc _ := .idle
  nextOp := 0
  records := []
  entries := []
  commits := []
  pass _ := []
  held _ := []

theorem fresh_twoThreads : twoThreads.Fresh :=
  ⟨⟨rfl, rfl, fun _ ↦ rfl⟩, by decide, rfl, rfl, rfl⟩

def oneCommit : List (Tid × Act) :=
  (1, .beginOp) :: (1, .logWrite 50) :: (1, .endOp) :: List.replicate 10 (1, .go)

theorem log_commits_once : ∃ s, execWhile System.step CommitsApart twoThreads oneCommit = some s ∧
    s.commits.length = 1 ∧ s.ExactlyOnce ∧ s.HeadersClosed ∧ s.ClearsLogged := by
  obtain ⟨s, hs, hlen⟩ : ∃ s, execWhile System.step CommitsApart twoThreads oneCommit = some s ∧
      s.commits.length = 1 := ⟨_, rfl, rfl⟩
  exact ⟨s, hs, hlen, log_commits fresh_twoThreads (Run.of_execWhile hs)⟩

/-- Thread 1 has ended its operation and its commit has copied sector 50 to the log. Now thread 2
begins an operation and logs sector 60, which the header of thread 1 then names. -/
def lateEntry : List (Tid × Act) :=
  [(1, .beginOp), (1, .logWrite 50), (1, .endOp), (1, .go), (1, .go), (1, .go), (1, .go),
    (2, .beginOp), (2, .logWrite 60), (1, .go)]

/-- `committing` is never set: the header on its way to the disk names a sector of an operation that
is still open. -/
theorem commit_takes_open_entry :
    ∃ s, Run System.step always twoThreads s ∧ ¬ s.HeadersClosed := by
  obtain ⟨s, hs, hrec, hpc, hkind⟩ : ∃ s, exec System.step twoThreads lateEntry = some s ∧
      (⟨1, 1, 60⟩) ∈ s.records ∧ (∃ h, s.pc 1 = .headWrite h ∧ 60 ∈ h.entries) ∧
      s.kind 2 = .inside 1 := ⟨_, rfl, by decide, ⟨_, rfl, by decide⟩, rfl⟩
  refine ⟨s, Run.of_exec hs, fun hclosed ↦ ?_⟩
  obtain ⟨h, hh, hin⟩ := hpc
  exact hclosed 1 h (.inl hh) _ hrec hin 2 hkind

end Rxv6.Filesys.Log
