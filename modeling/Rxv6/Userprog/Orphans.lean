import Rxv6.Userprog.ProcessTable

namespace Rxv6.Userprog.Orphans

open Function Rxv6.Thread Rxv6.Lib.Runs List Option

/-- The main thread starts `init` with `execute` and calls `wait` for it. -/
inductive MainPc
  | execute
  | wait (tid : Tid)
  | blocked (tid : Tid)
  | done
  deriving DecidableEq, Repr

/-- The tid of the main thread, which is the first one that `allocate_tid` hands out. -/
def mainTid : Tid := 1

structure State where
  main : MainPc
  nextTid : Tid
  /-- The user processes that have not exited. -/
  live : List Tid
  /-- Who called `execute` or `fork` for a process, and which process is `init`. -/
  creator : Tid → Tid
  initTid : Option Tid
  states : States
  /-- The finished calls of `wait_any_child`: the caller, the child and its status. -/
  returned : List (Tid × Tid × Int)

/-- A call by the main thread or by a live process. `created` says whether `thread::create`
finds a page for the thread, and `loads` whether the program can be loaded. -/
inductive Call
  | main (created loads : Bool)
  | execute (p : Tid) (created loads : Bool)
  | fork (p : Tid) (created : Bool)
  | exit (p : Tid) (status : Int)
  | wait (p : Tid)
  deriving DecidableEq, Repr

namespace State

/-- The record of a new process. `execute` has taken the signal of `load_sema`; after `fork` it
is still there. -/
def newState (s : State) (p : Tid) (forked : Bool) : ProcessState where
  tid := s.nextTid
  parentTid := p
  exitStatus := -1
  exited := false
  waited := false
  waitSema := ⟨0, []⟩
  loadSema := ⟨if forked then 1 else 0, []⟩
  loadSuccess := true
  executableSector := none

def spawn (s : State) (p : Tid) (forked : Bool) : State :=
  { s with
    nextTid := s.nextTid + 1
    live := s.nextTid :: s.live
    creator := update s.creator s.nextTid p
    states := s.states.insert (s.newState p forked) }

/-- `execute`, and whether it succeeds. When the program cannot be loaded, the record is removed
again and the thread is gone. -/
def execute (s : State) (p : Tid) (created loads : Bool) : State × Bool :=
  if ¬ created then (s, false)
  else if loads then (s.spawn p false, true)
  else
    ({ s with
      nextTid := s.nextTid + 1
      states := (s.states.insert (s.newState p false)).remove s.nextTid }, false)

def fork (s : State) (p : Tid) (created : Bool) : State :=
  if created then s.spawn p true else s

def exit (s : State) (p : Tid) (status : Int) : State :=
  { s with
    live := s.live.erase p
    states := (s.states.modify p fun ps ↦
      { ps with exitStatus := status, exited := true, waitSema := Wait.upEnd ps.waitSema }).reparent p }

def exitedChild (s : State) (p : Tid) : Option ProcessState :=
  s.states.find? fun ps ↦ ps.parentTid = p ∧ ps.exited ∧ ¬ ps.waited

/-- `wait_any_child`. It is blocked (`none`) while there are children and none has exited. -/
def waitAnyChild (s : State) (p : Tid) : Option State :=
  match s.exitedChild p with
  | some ps =>
    -- `wait` marks the record and gets through `down` on `wait_sema`
    if ps.waitSema.value = 0 then none
    else
      some { s with
        states := s.states.remove ps.tid
        returned := (p, ps.tid, ps.exitStatus) :: s.returned }
  | none =>
    if s.states.any fun ps ↦ ps.parentTid = p ∧ ¬ ps.waited then none
    else some { s with returned := (p, -1, -1) :: s.returned }

/-- The next statement of the main thread; `wait` marks the record of `init` and blocks. -/
def mainStep (s : State) (created loads : Bool) : Option State :=
  match s.main with
  | .execute =>
    let r := s.execute mainTid created loads
    if r.2 then some { r.1 with main := .wait s.nextTid, initTid := some s.nextTid }
    else some { r.1 with main := .done }
  | .wait t =>
    match s.states.get t with
    | none => some { s with main := .done }
    | some ps =>
      if ps.waited then some { s with main := .done }
      else some { s with
        main := .blocked t
        states := s.states.modify t fun ps ↦ { ps with waited := true } }
  | .blocked t =>
    match s.states.get t with
    | none => none
    | some ps =>
      if ps.waitSema.value = 0 then none
      else some { s with main := .done, states := s.states.remove t }
  | .done => none

def step (s : State) : Call → Option State
  | .main created loads => s.mainStep created loads
  | .execute p created loads => if p ∈ s.live then some (s.execute p created loads).1 else none
  | .fork p created => if p ∈ s.live then some (s.fork p created) else none
  | .exit p status => if p ∈ s.live then some (s.exit p status) else none
  | .wait p => if p ∈ s.live then s.waitAnyChild p else none

/-- The state when the main thread comes to `execute("init")`, after some kernel threads. -/
def boot (n : Nat) : State where
  main := .execute
  nextTid := 2 + n
  live := []
  creator := fun _ ↦ 0
  initTid := none
  states := []
  returned := []

end State

/-- Every exited process that nobody has waited for belongs to a live process: its creator or,
when that has exited, `init`. -/
def Owned (s : State) : Prop :=
  ∀ ps ∈ s.states, ps.exited = true → ps.waited = false → ps.parentTid ∈ s.live ∧
      (ps.parentTid = s.creator ps.tid ∨ s.creator ps.tid ∉ s.live ∧ s.initTid = some ps.parentTid)

def waitsOf (p : Tid) : State → Call → Prop := fun _ c ↦ c = .wait p

/-- The parent of an exited process gets it back from `wait_any_child` when it calls often enough. -/
def Reapable (s : State) : Prop :=
  ∀ ps ∈ s.states, ps.exited = true → ps.waited = false → ∃ t, Run State.step (waitsOf ps.parentTid) s t ∧
      (ps.parentTid, ps.tid, ps.exitStatus) ∈ t.returned ∧ t.states.get ps.tid = none

/-- A process exits before its creator does; `init`, which the main thread has created, exits only
after the main thread has called `wait`. -/
def beforeCreator (s : State) : Call → Bool
  | .exit p _ => s.creator p ∈ s.live || (s.states.get p).any (·.waited)
  | _ => true

def BeforeCreator (s : State) (c : Call) : Prop := beforeCreator s c = true

instance (s : State) (c : Call) : Decidable (BeforeCreator s c) := inferInstanceAs (Decidable (_ = _))

structure Inv (s : State) : Prop where
  low : mainTid < s.nextTid
  liveTid : ∀ p ∈ s.live, mainTid < p ∧ p < s.nextTid
  liveNodup : s.live.Nodup
  nodup : (s.states.map (·.tid)).Nodup
  tid : ∀ ps ∈ s.states, s.creator ps.tid < ps.tid ∧ ps.tid < s.nextTid
  owner : ∀ ps ∈ s.states,
    (ps.parentTid = s.creator ps.tid ∧ (s.creator ps.tid ∈ s.live ∨ s.creator ps.tid = mainTid)) ∨
      (s.creator ps.tid ∉ s.live ∧ s.creator ps.tid ≠ mainTid ∧ ps.exited = false)
  ofMain : ∀ ps ∈ s.states, s.creator ps.tid = mainTid → ps.exited = true → ps.waited = true
  waited : ∀ ps ∈ s.states, ps.waited = true → s.creator ps.tid = mainTid
  value : ∀ ps ∈ s.states, ps.exited = true → 0 < ps.waitSema.value
  main : ∀ t, s.main = .wait t → s.creator t = mainTid ∧ t < s.nextTid

variable {s s' : State}

open State

theorem boot_inv (n : Nat) : Inv (State.boot n) := by
  refine ⟨?_, ?_, ?_, ?_, ?_, ?_, ?_, ?_, ?_, ?_⟩ <;> simp [boot]
  exact lt_of_lt_of_le (by decide) (le_add_of_nonneg_right (Int.natCast_nonneg n))

variable {ps : ProcessState} {l : States} {p : Tid}

variable {ps' : ProcessState} {t : Tid} {status : Int}

theorem Inv.eq_of_tid (hi : Inv s) (h : ps ∈ s.states) (h' : ps' ∈ s.states)
    (ht : ps.tid = ps'.tid) : ps = ps' :=
  inj_on_of_nodup_map hi.nodup h h' ht

theorem mem_of_get (h : l.get t = some ps) : ps ∈ l :=
  mem_of_find?_eq_some h

theorem Inv.sublist (hi : Inv s) (hl : l.Sublist s.states) {m : MainPc}
    (hm : ∀ t, m ≠ .wait t) {r : List (Tid × Tid × Int)} :
    Inv { s with states := l, main := m, returned := r } where
  low := hi.low
  liveTid := hi.liveTid
  liveNodup := hi.liveNodup
  nodup := hi.nodup.sublist (hl.map _)
  tid ps h := hi.tid ps (hl.subset h)
  owner ps h := hi.owner ps (hl.subset h)
  ofMain ps h := hi.ofMain ps (hl.subset h)
  waited ps h := hi.waited ps (hl.subset h)
  value ps h := hi.value ps (hl.subset h)
  main t h := absurd h (hm t)

theorem mem_insert : ps' ∈ l.insert ps ↔ ps' = ps ∨ (ps' ∈ l ∧ ps'.tid ≠ ps.tid) := by
  simp only [States.insert, mem_append, mem_cons, mem_filter, decide_eq_true_eq]
  constructor
  · rintro (⟨h, hlt⟩ | rfl | ⟨h, hlt⟩)
    · exact .inr ⟨h, hlt.ne⟩
    · exact .inl rfl
    · exact .inr ⟨h, hlt.ne'⟩
  · rintro (rfl | ⟨h, hne⟩)
    · exact .inr (.inl rfl)
    · rcases lt_or_gt_of_ne hne with hlt | hlt
      · exact .inl ⟨h, hlt⟩
      · exact .inr (.inr ⟨h, hlt⟩)

theorem nodup_insert (h : (l.map (·.tid)).Nodup) : ((l.insert ps).map (·.tid)).Nodup := by
  simp only [States.insert, map_append, map_cons]
  refine Nodup.append (h.sublist (filter_sublist.map _))
    (nodup_cons.mpr ⟨?_, h.sublist (filter_sublist.map _)⟩) ?_
  · simp only [List.mem_map, mem_filter, decide_eq_true_eq, not_exists, not_and, and_imp]
    exact fun a _ hlt he ↦ hlt.ne' he
  · intro t ht ht'
    simp only [List.mem_map, mem_filter, decide_eq_true_eq, mem_cons] at ht ht'
    obtain ⟨a, ⟨-, ha⟩, rfl⟩ := ht
    rcases ht' with h | ⟨b, ⟨-, hb⟩, hab⟩
    · exact ha.ne h
    · exact (ha.trans hb).ne hab.symm

theorem Inv.spawn (hi : Inv s) (hp : p ∈ s.live ∨ p = mainTid) (forked : Bool) :
    Inv (s.spawn p forked) := by
  have hplt : p < s.nextTid := hp.elim (fun h ↦ (hi.liveTid p h).2) fun h ↦ h ▸ hi.low
  -- the records that were there keep their creator
  have hold : ∀ ps ∈ s.states, update s.creator s.nextTid p ps.tid = s.creator ps.tid :=
    fun ps h ↦ update_of_ne (hi.tid ps h).2.ne _ _
  have hnew : (s.spawn p forked).creator (s.newState p forked).tid = p := update_self ..
  have hnotLive : s.nextTid ∉ s.live := fun h ↦ lt_irrefl _ (hi.liveTid _ h).2
  refine ⟨?_, ?_, nodup_cons.mpr ⟨hnotLive, hi.liveNodup⟩, nodup_insert hi.nodup, ?_, ?_, ?_, ?_,
    ?_, ?_⟩
  · exact hi.low.trans (lt_add_one _)
  · intro q hq
    rcases mem_cons.mp hq with rfl | hq
    · exact ⟨hi.low, lt_add_one _⟩
    · exact ⟨(hi.liveTid q hq).1, (hi.liveTid q hq).2.trans (lt_add_one _)⟩
  · intro ps hps
    rcases mem_insert.mp hps with rfl | ⟨h, -⟩
    · rw [hnew]
      exact ⟨hplt, lt_add_one _⟩
    · exact ⟨(hold ps h).trans_lt (hi.tid ps h).1, (hi.tid ps h).2.trans (lt_add_one _)⟩
  · intro ps hps
    rcases mem_insert.mp hps with rfl | ⟨h, -⟩
    · rw [hnew]
      exact .inl ⟨rfl, hp.imp_left (mem_cons_of_mem _)⟩
    · simp only [State.spawn, hold ps h, mem_cons, not_or]
      rcases hi.owner ps h with ⟨h₁, h₂⟩ | ⟨h₁, h₂, h₃⟩
      · exact .inl ⟨h₁, h₂.imp_left .inr⟩
      · exact .inr ⟨⟨((hi.tid ps h).1.trans (hi.tid ps h).2).ne, h₁⟩, h₂, h₃⟩
  · intro ps hps hc he
    rcases mem_insert.mp hps with rfl | ⟨h, -⟩
    · cases he
    · exact hi.ofMain ps h ((hold ps h).symm.trans hc) he
  · intro ps hps hw
    rcases mem_insert.mp hps with rfl | ⟨h, -⟩
    · cases hw
    · exact (hold ps h).trans (hi.waited ps h hw)
  · intro ps hps he
    rcases mem_insert.mp hps with rfl | ⟨h, -⟩
    · cases he
    · exact hi.value ps h he
  · intro t ht
    obtain ⟨hc, hlt⟩ := hi.main t ht
    exact ⟨(update_of_ne hlt.ne _ _).trans hc, hlt.trans (lt_add_one _)⟩

theorem Inv.execute (hi : Inv s) (hp : p ∈ s.live ∨ p = mainTid) (created loads : Bool) :
    Inv (s.execute p created loads).1 := by
  unfold State.execute
  split
  · exact hi
  · split
    · exact hi.spawn hp false
    · have hmem : ∀ ps, ps ∈ (s.states.insert (s.newState p false)).remove s.nextTid →
          ps ∈ s.states := by
        intro ps hps
        obtain ⟨hps, hne⟩ := mem_filter.mp hps
        rcases mem_insert.mp hps with rfl | ⟨h, -⟩
        · simp [newState] at hne
        · exact h
      have hlt := lt_add_one s.nextTid
      exact {
        low := hi.low.trans hlt
        liveTid := fun q hq ↦ ⟨(hi.liveTid q hq).1, (hi.liveTid q hq).2.trans hlt⟩
        liveNodup := hi.liveNodup
        nodup := (nodup_insert hi.nodup).sublist (filter_sublist.map _)
        tid := fun ps h ↦ ⟨(hi.tid ps (hmem ps h)).1, (hi.tid ps (hmem ps h)).2.trans hlt⟩
        owner := fun ps h ↦ hi.owner ps (hmem ps h)
        ofMain := fun ps h ↦ hi.ofMain ps (hmem ps h)
        waited := fun ps h ↦ hi.waited ps (hmem ps h)
        value := fun ps h ↦ hi.value ps (hmem ps h)
        main := fun t h ↦ ⟨(hi.main t h).1, (hi.main t h).2.trans hlt⟩ }

theorem mem_exit (h : ps ∈ (s.exit p status).states) :
    ∃ a ∈ s.states, ps.tid = a.tid ∧ ps.waited = a.waited ∧
      (a.tid = p → ps.exited = true ∧ 0 < ps.waitSema.value) ∧
      (a.tid ≠ p → ps.exited = a.exited ∧ ps.waitSema = a.waitSema) ∧
      (a.parentTid = p → ps.parentTid = Wait.initTid ∧ ps.exited = false) ∧
      (a.parentTid ≠ p → ps.parentTid = a.parentTid) := by
  obtain ⟨b, hb, rfl⟩ := mem_map.mp h
  obtain ⟨hb, hkeep⟩ := mem_filter.mp hb
  obtain ⟨a, ha, rfl⟩ := mem_map.mp hb
  refine ⟨a, ha, ?_⟩
  by_cases ht : a.tid = p <;> by_cases hp : a.parentTid = p <;> simp_all [Wait.upEnd]

theorem exit_tids (p : Tid) (status : Int) :
    ((s.exit p status).states.map (·.tid)).Sublist (s.states.map (·.tid)) := by
  have hfst : ∀ l : States, (l.map fun ps : ProcessState ↦
      if ps.parentTid = p then { ps with parentTid := Wait.initTid } else ps).map (·.tid) =
        l.map (·.tid) := fun l ↦ by
    rw [List.map_map]
    exact map_congr_left fun ps _ ↦ by simp only [comp_apply]; split <;> rfl
  have hsnd : ∀ f : ProcessState → ProcessState, (∀ ps, (f ps).tid = ps.tid) →
      (s.states.modify p f).map (·.tid) = s.states.map (·.tid) := fun f hf ↦ by
    rw [States.modify, List.map_map]
    exact map_congr_left fun ps _ ↦ by
      simp only [comp_apply]
      split
      · exact hf ps
      · rfl
  simp only [exit, States.reparent, hfst]
  refine (filter_sublist.map _).trans ?_
  rw [hsnd (fun ps ↦ { ps with
    exitStatus := status, exited := true, waitSema := Wait.upEnd ps.waitSema }) fun _ ↦ rfl]

section

variable (hi : Inv s)
include hi

theorem Inv.exit (hp : p ∈ s.live)
    (hok : BeforeCreator s (.exit p status)) : Inv (s.exit p status) := by
  have hnot : p ∉ s.live.erase p := by
    rw [hi.liveNodup.mem_erase_iff]
    simp
  have hsub : ∀ q, q ∉ s.live → q ∉ s.live.erase p := fun q hq h ↦ hq (mem_of_mem_erase h)
  simp only [BeforeCreator, beforeCreator, Bool.or_eq_true, decide_eq_true_eq, Option.any_eq_true] at hok
  -- the guard, for the record of the exiting process
  have hself : ∀ a ∈ s.states, a.tid = p → s.creator a.tid ∈ s.live ∨ a.waited = true := by
    rintro a ha rfl
    refine hok.imp_right ?_
    rintro ⟨b, hb, hw⟩
    rwa [hi.eq_of_tid ha (mem_of_get hb) (States.tid_of_get hb).symm]
  refine ⟨hi.low, fun q hq ↦ hi.liveTid q (mem_of_mem_erase hq), hi.liveNodup.erase p, ?_, ?_, ?_,
    ?_, ?_, ?_, hi.main⟩
  · exact hi.nodup.sublist (exit_tids p status)
  · intro ps hps
    obtain ⟨a, ha, ht, -⟩ := mem_exit hps
    rw [ht]
    exact hi.tid a ha
  · intro ps hps
    obtain ⟨a, ha, ht, -, hown, hother, hchild, hkeep⟩ := mem_exit hps
    rw [ht]
    by_cases hpar : a.parentTid = p
    · -- a running child of the exiting process goes to the main thread
      obtain ⟨-, he⟩ := hchild hpar
      refine .inr ?_
      rcases hi.owner a ha with ⟨h₁, -⟩ | ⟨h₁, h₂, -⟩
      · rw [show (s.exit p status).creator a.tid = p from h₁.symm.trans hpar]
        exact ⟨hnot, (hi.liveTid p hp).1.ne', he⟩
      · exact ⟨hsub _ h₁, h₂, he⟩
    · rw [hkeep hpar]
      rcases hi.owner a ha with ⟨h₁, h₂⟩ | ⟨h₁, h₂, h₃⟩
      · refine .inl ⟨h₁, h₂.imp_left fun h ↦ ?_⟩
        exact (mem_erase_of_ne (h₁ ▸ hpar)).mpr h
      · by_cases h : a.tid = p
        · rcases hself a ha h with hl | hw
          · exact absurd hl h₁
          · exact absurd (hi.waited a ha hw) h₂
        · exact .inr ⟨hsub _ h₁, h₂, (hother h).1.trans h₃⟩
  · intro ps hps hc he
    obtain ⟨a, ha, ht, hw, hown, hother, -⟩ := mem_exit hps
    rw [ht] at hc
    rw [hw]
    by_cases h : a.tid = p
    · refine (hself a ha h).resolve_left fun hl ↦ ?_
      exact (hi.liveTid _ hl).1.ne hc.symm
    · exact hi.ofMain a ha hc ((hother h).1 ▸ he)
  · intro ps hps hw
    obtain ⟨a, ha, ht, hw', -⟩ := mem_exit hps
    rw [ht]
    exact hi.waited a ha (hw' ▸ hw)
  · intro ps hps he
    obtain ⟨a, ha, -, -, hown, hother, -⟩ := mem_exit hps
    by_cases h : a.tid = p
    · exact (hown h).2
    · rw [(hother h).2]
      exact hi.value a ha ((hother h).1 ▸ he)

theorem Inv.waitAnyChild (hs : s.waitAnyChild p = some s') : Inv s' := by
  have hsub : ∀ {l : States} {r}, l.Sublist s.states → Inv { s with states := l, returned := r } :=
    fun {l r} hl ↦ ⟨hi.low, hi.liveTid, hi.liveNodup, hi.nodup.sublist (hl.map _),
      fun ps h ↦ hi.tid ps (hl.subset h), fun ps h ↦ hi.owner ps (hl.subset h),
      fun ps h ↦ hi.ofMain ps (hl.subset h), fun ps h ↦ hi.waited ps (hl.subset h),
      fun ps h ↦ hi.value ps (hl.subset h), hi.main⟩
  unfold State.waitAnyChild at hs
  split at hs
  · split at hs
    · cases hs
    · cases hs
      exact hsub filter_sublist
  · split at hs
    · cases hs
    · cases hs
      exact hsub (Sublist.refl _)

theorem Inv.mark (ht : s.main = .wait t) :
    Inv { s with
      main := .blocked t
      states := s.states.modify t fun ps ↦ { ps with waited := true } } := by
  have hmem : ∀ ps ∈ s.states.modify t fun ps ↦ { ps with waited := true },
      ∃ a ∈ s.states, ps.tid = a.tid ∧ ps.parentTid = a.parentTid ∧ ps.exited = a.exited ∧
        ps.waitSema = a.waitSema ∧ (ps.waited = true → a.waited = true ∨ a.tid = t) ∧
        (a.waited = true → ps.waited = true) := by
    intro ps hps
    obtain ⟨a, ha, rfl⟩ := mem_map.mp hps
    refine ⟨a, ha, ?_⟩
    split <;> simp_all
  have hnodup : ((s.states.modify t fun ps ↦ { ps with waited := true }).map (·.tid)).Nodup := by
    rw [States.modify, List.map_map]
    have : s.states.map ((·.tid) ∘ fun ps : ProcessState ↦
        if ps.tid = t then { ps with waited := true } else ps) = s.states.map (·.tid) :=
      map_congr_left fun ps _ ↦ by simp only [comp_apply]; split <;> rfl
    exact this ▸ hi.nodup
  refine ⟨hi.low, hi.liveTid, hi.liveNodup, hnodup, fun ps hps ↦ ?_, fun ps hps ↦ ?_,
    fun ps hps hc he ↦ ?_, fun ps hps hw ↦ ?_, fun ps hps he ↦ ?_, by rintro _ ⟨⟩⟩
  all_goals obtain ⟨a, ha, h₁, h₂, h₃, h₄, h₅, h₆⟩ := hmem ps hps
  · rw [h₁]
    exact hi.tid a ha
  · rw [h₁, h₂, h₃]
    exact hi.owner a ha
  · rw [h₁] at hc
    exact h₆ (hi.ofMain a ha hc (h₃ ▸ he))
  · rw [h₁]
    rcases h₅ hw with h | rfl
    · exact hi.waited a ha h
    · exact (hi.main _ ht).1
  · rw [h₄]
    exact hi.value a ha (h₃ ▸ he)

theorem Inv.mainStep {created loads : Bool}
    (hs : s.mainStep created loads = some s') : Inv s' := by
  unfold State.mainStep at hs
  split at hs
  next hpc =>
    have he := hi.execute (.inr rfl) created loads
    simp only [] at hs
    split at hs
    next hok =>
      cases hs
      have hspawn : s.execute mainTid created loads = (s.spawn mainTid false, true) := by
        unfold State.execute at hok ⊢
        split at hok
        · cases hok
        · split at hok
          · simp_all
          · cases hok
      rw [hspawn] at he ⊢
      refine ⟨he.low, he.liveTid, he.liveNodup, he.nodup, he.tid, he.owner, he.ofMain, he.waited,
        he.value, fun t ht ↦ ?_⟩
      cases ht
      exact ⟨update_self .., lt_add_one _⟩
    · cases hs
      exact he.sublist (Sublist.refl _) (by simp)
  next t ht =>
    split at hs
    · cases hs
      exact hi.sublist (Sublist.refl _) (by simp)
    · split at hs
      · cases hs
        exact hi.sublist (Sublist.refl _) (by simp)
      · cases hs
        exact hi.mark ht
  next =>
    split at hs
    · cases hs
    · split at hs
      · cases hs
      · cases hs
        exact hi.sublist filter_sublist (by simp)
  next => cases hs

theorem Inv.step {c : Call} (hok : BeforeCreator s c) (hs : s.step c = some s') :
    Inv s' := by
  cases c with
  | main created loads => exact hi.mainStep hs
  | execute p created loads | fork p created | exit p status | wait p =>
    simp only [State.step] at hs
    split at hs
    next hp =>
      first
        | exact hi.waitAnyChild hs
        | cases hs
          first
            | exact hi.execute (.inl hp) created loads
            | exact hi.exit hp hok
            | (unfold fork; split; exacts [hi.spawn (.inl hp) true, hi])
    · cases hs

theorem Inv.owned : Owned s := by
  intro ps hps he hw
  rcases hi.owner ps hps with ⟨h₁, h₂ | h₂⟩ | ⟨-, -, h⟩
  · exact ⟨h₁ ▸ h₂, .inl h₁⟩
  · rw [hi.ofMain ps hps h₂ he] at hw
    cases hw
  · rw [he] at h
    cases h

theorem Inv.waitAnyChild_some (hps : ps ∈ s.states)
    (he : ps.exited = true) (hw : ps.waited = false) :
    ∃ q ∈ s.states, q.parentTid = ps.parentTid ∧
      s.waitAnyChild ps.parentTid = some { s with
        states := s.states.remove q.tid
        returned := (ps.parentTid, q.tid, q.exitStatus) :: s.returned } := by
  have hsome : (s.exitedChild ps.parentTid).isSome :=
    find?_isSome.mpr ⟨ps, hps, by simp [he, hw]⟩
  obtain ⟨q, hq⟩ := isSome_iff_exists.mp hsome
  have hprop := find?_some hq
  simp only [decide_eq_true_eq] at hprop
  have hmem := mem_of_find?_eq_some hq
  refine ⟨q, hmem, hprop.1, ?_⟩
  simp [State.waitAnyChild, hq, (hi.value q hmem hprop.2.1).ne']

theorem Inv.reapable : Reapable s := by
  intro ps hps he hw
  obtain ⟨hlive, -⟩ := hi.owned ps hps he hw
  -- every call removes one record, and the record of the child is the only one with its key
  induction hn : s.states.length using Nat.strongRecOn generalizing s with
  | ind n ih =>
    obtain ⟨q, hq, hparent, hstep⟩ := hi.waitAnyChild_some hps he hw
    set s₁ : State := { s with
      states := s.states.remove q.tid
      returned := (ps.parentTid, q.tid, q.exitStatus) :: s.returned } with hs₁
    have hrun : Run State.step (waitsOf ps.parentTid) s s₁ :=
      Run.one rfl (by simp only [State.step, hlive]; exact hstep)
    by_cases ht : q.tid = ps.tid
    · cases hi.eq_of_tid hq hps ht
      refine ⟨s₁, hrun, by simp [hs₁], ?_⟩
      simp only [hs₁, States.get_remove, if_true]
    · have hps₁ : ps ∈ s₁.states := mem_filter.mpr ⟨hps, by simpa using Ne.symm ht⟩
      have hlt : s₁.states.length < n := by
        rw [← hn]
        exact length_filter_lt_length_iff_exists.mpr ⟨q, hq, by simp⟩
      obtain ⟨t, hrun', hret, hget⟩ := ih _ hlt (hi.waitAnyChild hstep) hps₁ hlive rfl
      exact ⟨t, hrun.trans hrun', hret, hget⟩

end

/-- When every process exits before its creator, each exited process belongs to a live process,
and that process gets it back from `wait_any_child`. -/
theorem exited_owned {n : Nat} (h : Run State.step BeforeCreator (State.boot n) s) :
    Owned s ∧ Reapable s := by
  have hi := h.invariant Inv (fun _ _ _ hi hok hs ↦ hi.step hok hs) (boot_inv n)
  exact ⟨hi.owned, hi.reapable⟩

/-- `init` (tid 3) forks a shell, which exits. -/
def shellExits : List Call := [.main true true, .main true true, .fork 3 true, .exit 4 0]

theorem exited_owned_shellExits : ∃ s, Run State.step BeforeCreator (State.boot 1) s ∧
    (s.states.any fun ps ↦ ps.exited && !ps.waited) = true ∧ Owned s ∧ Reapable s := by
  have hsome : (execWhile State.step BeforeCreator (State.boot 1) shellExits).map
      (fun s ↦ s.states.any fun ps ↦ ps.exited && !ps.waited) = some true := by decide +kernel
  obtain ⟨s, hs, hany⟩ := map_eq_some_iff.mp hsome
  have hrun := Run.of_execWhile hs
  exact ⟨s, hrun, hany, exited_owned hrun⟩

def shellExitsFirst : List Call :=
  [.main true true, .main true true, .fork 3 true, .fork 4 true, .exit 4 0, .exit 5 7]

theorem orphan_belongs_to_main : ∃ s, Run State.step always (State.boot 1) s ∧ ¬ Owned s ∧
    ∃ ps ∈ s.states, ps.tid = 5 ∧ ps.exited = true ∧ ps.waited = false ∧ ps.parentTid = mainTid ∧
      s.initTid = some 3 ∧ 3 ∈ s.live := by
  have hseen : (exec State.step (State.boot 1) shellExitsFirst).map (fun s ↦
      (s.states.get 5).any fun ps ↦ ps.exited && !ps.waited && ps.parentTid = 1) = some true := by
    decide +kernel
  have hlive : (exec State.step (State.boot 1) shellExitsFirst).map (fun s ↦ (s.live, s.initTid)) =
      some ([3], some 3) := by decide +kernel
  obtain ⟨s, hs, hany⟩ := map_eq_some_iff.mp hseen
  rw [hs] at hlive
  obtain ⟨hl, hinit⟩ := Prod.mk.inj (Option.some.inj hlive)
  simp only [Option.any_eq_true, Bool.and_eq_true, Bool.not_eq_true', decide_eq_true_eq] at hany
  obtain ⟨ps, hps, ⟨he, hw⟩, hp⟩ := hany
  refine ⟨s, Run.of_exec hs, fun howned ↦ ?_, ps, mem_of_get hps, States.tid_of_get hps, he, hw, hp, hinit,
    by simp [hl]⟩
  have := (howned ps (mem_of_get hps) he hw).1
  rw [hl, hp] at this
  simp at this

end Rxv6.Userprog.Orphans
