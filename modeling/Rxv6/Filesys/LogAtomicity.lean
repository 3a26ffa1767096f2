import Rxv6.Filesys.Log

namespace Rxv6.Filesys.Log

open Function Sector Rxv6.Thread Rxv6.Lib.Runs List Option

abbrev Update := Nat × (Sector → Sector)

/-- `bread`, modify, `bwrite` and `log_write` for each update. -/
def updates (us : List Update) : List Act := us.flatMap fun u ↦ [.update u.1 u.2, .logWrite u.1]

def transaction (us : List Update) : List Act := .beginOp :: updates us ++ [.endOp]

def System.perform (s : System) (t : Tid) (l : List Act) : Option System :=
  exec System.step s (l.map fun a ↦ (t, a))

def Crashed (s : System) (t : Tid) (us : List Update) (s' : System) : Prop :=
  ∃ j k, s.perform t ((transaction us ++ List.replicate j Act.go).take k) = some s'

def written (us : List Update) (d : Nat → Sector) : Nat → Sector :=
  us.foldl (fun d u ↦ update d u.1 (u.2 (d u.1))) d

def Uniform (us : List Update) (d₀ d : Nat → Sector) : Prop :=
  (∀ u ∈ us, d u.1 = d₀ u.1) ∨ ∀ u ∈ us, d u.1 = written us d₀ u.1

def Atomic (s : System) (t : Tid) (us : List Update) : Prop :=
  ∀ s', Crashed s t us s' → ∃ d, recover s.start s'.disk = some d ∧ Uniform us s.disk d

/-- `log_write` finds room in the header for each of the sectors. -/
def Accepted (us : List Update) : Prop :=
  ∀ j < us.length, ((us.take j).map Prod.fst).eraseDups.length < logSize

/-- The first updates of the transaction, up to any one that is reached, leave no mixture of old and new
contents. -/
def NoMixture (us : List Update) (d : Nat → Sector) : Prop :=
  ∀ vs u ws, us = vs ++ u :: ws → Accepted vs → Uniform us d (written (vs ++ [u]) d)

/-- Neither the header of the log nor one of the `LOGSIZE` sectors behind it. -/
def Outside (start x : Nat) : Prop := x < start ∨ start + logSize < x

instance (start x : Nat) : Decidable (Outside start x) := inferInstanceAs (Decidable (_ ∨ _))

namespace System

theorem entries_append (h : Header) (x : Nat) :
    Header.entries ⟨h.n + 1, update h.sectors h.n x⟩ = h.entries ++ [x] := by
  simp only [Header.entries, range_succ, map_append, map_singleton, update_self]
  congr 1
  refine map_congr_left fun i hi ↦ update_of_ne ?_ ..
  exact (mem_range.mp hi).ne

@[simp] theorem length_entries (h : Header) : h.entries.length = h.n := by simp [Header.entries]

def absorb (xs : List Nat) (x : Nat) : List Nat := if x ∈ xs then xs else xs ++ [x]

theorem eraseDups_snoc (ys : List Nat) (x : Nat) : (ys ++ [x]).eraseDups = absorb ys.eraseDups x := by
  rw [eraseDups_append, absorb]
  split <;> simp_all [List.removeAll, eraseDups_cons]

end System

namespace Header

variable {h : Header} {i : Nat}

theorem word_foldl_setWord {f : Nat → Nat} {b : Sector} {j : Nat} :
    ∀ l : List Nat, j ∉ l.map (1 + ·) →
      word (l.foldl (fun b i ↦ setWord b (1 + i) (f i)) b) j = word b j := by
  intro l
  induction l generalizing b with
  | nil => exact fun _ ↦ rfl
  | cons i l ih =>
    intro hj
    simp only [map_cons, mem_cons, not_or] at hj
    rw [foldl_cons, ih hj.2, word_setWord_ne hj.1]

theorem word_encode_zero (hn : h.n < 4294967296) : word h.encode 0 = h.n := by
  rw [encode, word_foldl_setWord _ (by simp), word_setWord_self (by omega) hn]

theorem word_encode_succ (hi : i < logSize) (hs : h.sectors i < 4294967296) :
    word h.encode (1 + i) = h.sectors i := by
  have hsplit : range logSize = range i ++ i :: (range (logSize - i - 1)).map (i + 1 + ·) := by
    have hsum : logSize = i + 1 + (logSize - i - 1) := by omega
    conv_lhs => rw [hsum, range_add, range_succ, append_assoc]
    rfl
  unfold logSize at hi
  rw [encode, hsplit, foldl_append, foldl_cons, word_foldl_setWord, word_setWord_self (by omega) hs]
  simp only [List.mem_map]
  omega

theorem decode_encode (h₀ : Header) (hn : h.n ≤ logSize) (hs : ∀ i < h.n, h.sectors i < 4294967296) :
    (h₀.decode h.encode).n = h.n ∧ ∀ i < h.n, (h₀.decode h.encode).sectors i = h.sectors i := by
  have hn' : word h.encode 0 = h.n := word_encode_zero (hn.trans_lt (by decide))
  refine ⟨hn', fun i hi ↦ ?_⟩
  have hlt : i < logSize := hi.trans_le hn
  simp only [decode, hn']
  rw [if_pos (lt_min hi hlt), word_encode_succ hlt (hs i hi)]

end Header

section Recovery

variable {start : Nat} {d F : Nat → Sector}

/-- The log on disk is empty, or it holds the bytes of `F` for the sectors of its header. -/
def Logged (start : Nat) (F d : Nat → Sector) : Prop :=
  word (d start) 0 = 0 ∨ ∃ h : Header, d start = h.encode ∧ h.n ≤ logSize ∧
    (∀ i < h.n, Outside start (h.sectors i) ∧ h.sectors i < 4294967296) ∧
    ∀ i < h.n, d (start + 1 + i) = F (h.sectors i)

theorem installTrans_outside {h : Header} (hn : h.n ≤ logSize)
    (hout : ∀ i < h.n, Outside start (h.sectors i))
    (hbody : ∀ i < h.n, d (start + 1 + i) = F (h.sectors i))
    (hhome : ∀ x, Outside start x → d x = F x) :
    ∀ x, Outside start x → installTrans start h d x = F x := by
  -- the turns before `n` write to home sectors only, so the copies in the log stay
  have hturns : ∀ n ≤ h.n, (∀ x, Outside start x →
        (range n).foldl (fun d i ↦ update d (h.sectors i) (d (start + 1 + i))) d x = F x) ∧
      ∀ i < h.n,
        (range n).foldl (fun d i ↦ update d (h.sectors i) (d (start + 1 + i))) d (start + 1 + i) =
          F (h.sectors i) := by
    intro n
    induction n with
    | zero => exact fun _ ↦ ⟨hhome, hbody⟩
    | succ n ih =>
      intro hle
      obtain ⟨ihhome, ihbody⟩ := ih (by omega)
      simp only [range_succ, foldl_append, foldl_cons, foldl_nil]
      refine ⟨fun x hx ↦ ?_, fun i hi ↦ ?_⟩
      · by_cases hxn : x = h.sectors n
        · rw [hxn, update_self, ihbody n (by omega)]
        · rw [update_of_ne hxn, ihhome x hx]
      · have hne : start + 1 + i ≠ h.sectors n := by
          have := hout n (by omega)
          unfold Outside at this
          omega
        rw [update_of_ne hne, ihbody i hi]
  exact (hturns h.n le_rfl).1

theorem recover_of_logged (hhome : ∀ x, Outside start x → d x = F x) (hlog : Logged start F d) :
    ∃ d', recover start d = some d' ∧ ∀ x, Outside start x → d' x = F x := by
  rcases hlog with hclean | ⟨h, hd, hn, hs, hbody⟩
  · exact ⟨d, if_pos hclean, hhome⟩
  obtain ⟨hnum, hsec⟩ := Header.decode_encode Header.empty hn fun i hi ↦ (hs i hi).2
  unfold recover
  simp only [hd, hnum]
  by_cases h0 : h.n = 0
  · exact ⟨d, if_pos h0, hhome⟩
  · rw [if_neg h0, if_pos hn]
    refine ⟨_, rfl, fun x hx ↦ ?_⟩
    have hne : x ≠ start := by
      unfold Outside at hx
      omega
    rw [update_of_ne hne]
    refine installTrans_outside (hnum.trans_le hn) (fun i hi ↦ ?_) (fun i hi ↦ ?_) hhome x hx
    · rw [hsec i (hnum ▸ hi)]
      exact (hs i (hnum ▸ hi)).1
    · rw [hsec i (hnum ▸ hi)]
      exact hbody i (hnum ▸ hi)

end Recovery

variable {s s' : System} {t : Tid} {us : List Update} {F : Nat → Sector} {start x : Nat} {l : List Act}

structure Fits (start : Nat) (h : Header) : Prop where
  le : h.n ≤ logSize
  outside : ∀ i < h.n, Outside start (h.sectors i) ∧ h.sectors i < 4294967296

structure Open (start : Nat) (t : Tid) (s : System) : Prop where
  base : s.start = start
  pc : ∃ op, s.pc t = .inside op
  outstanding : s.outstanding = 1
  fits : Fits start s.header
  clean : word (s.disk start) 0 = 0

open Log.System

theorem Open.update (h : Open start t s) {x : Nat} {f : Sector → Sector} (hx : Outside start x)
    (hs : s.step (t, .update x f) = some s') :
    Open start t s' ∧ s'.disk = Function.update s.disk x (f (s.disk x)) := by
  obtain ⟨op, hpc⟩ := h.pc
  simp only [step, hpc, some.injEq] at hs
  subst hs
  refine ⟨⟨h.base, ⟨op, hpc⟩, h.outstanding, h.fits, ?_⟩, rfl⟩
  have hne : start ≠ x := by
    unfold Outside at hx
    omega
  exact (congrArg (word · 0) (update_of_ne hne _ _)).trans h.clean

theorem Open.logWrite (h : Open start t s) {x : Nat} (hx : Outside start x ∧ x < 4294967296)
    (hs : s.step (t, .logWrite x) = some s') : Open start t s' ∧ s'.disk = s.disk := by
  obtain ⟨op, hpc⟩ := h.pc
  simp only [step, hpc, System.logWrite] at hs
  split at hs
  · cases hs
  · next hroom =>
    split at hs <;> cases hs
    · exact ⟨⟨h.base, ⟨op, hpc⟩, h.outstanding, h.fits, h.clean⟩, rfl⟩
    · refine ⟨⟨h.base, ⟨op, hpc⟩, h.outstanding, ⟨by simp only; omega, fun i hi ↦ ?_⟩, h.clean⟩, rfl⟩
      simp only at hi ⊢
      by_cases hin : i = s.header.n
      · rw [hin, update_self]
        exact hx
      · rw [update_of_ne hin]
        exact h.fits.outside i (by omega)

section

variable (hus : ∀ u ∈ us, Outside start u.1 ∧ u.1 < 4294967296)
include hus

theorem Open.perform_updates {k : Nat}
    (h : Open start t s) (hs : s.perform t ((updates us).take k) = some s') : Open start t s' := by
  refine exec_invariant (fun a x b hx ha hstep ↦ ?_) hs h
  obtain ⟨act, hact, rfl⟩ := mem_map.mp hx
  obtain ⟨u, hu, hact⟩ := mem_flatMap.mp (mem_of_mem_take hact)
  rcases mem_pair.mp hact with rfl | rfl
  · exact (ha.update (hus u hu).1 hstep).1
  · exact (ha.logWrite (hus u hu) hstep).1

theorem Open.disk_updates
    (h : Open start t s) (hs : s.perform t (updates us) = some s') : s'.disk = written us s.disk := by
  induction us generalizing s with
  | nil =>
    cases hs
    rfl
  | cons u us ih =>
    obtain ⟨a, ha, hs⟩ := bind_eq_some_iff.mp hs
    obtain ⟨b, hb, hs⟩ := bind_eq_some_iff.mp hs
    obtain ⟨hoa, hda⟩ := h.update (hus u mem_cons_self).1 ha
    obtain ⟨hob, hdb⟩ := hoa.logWrite (hus u mem_cons_self) hb
    rw [ih (fun v hv ↦ hus v (mem_cons_of_mem _ hv)) hob hs, hdb, hda]
    rfl

end

/-- The updates `pre` were made on the disk `d` and logged. -/
structure Logging (pre : List Update) (d : Nat → Sector) (s : System) : Prop where
  accepted : Accepted pre
  entries : s.header.entries = (pre.map Prod.fst).eraseDups
  disk : s.disk = written pre d

section Reach

variable {pre vs : List Update} {u : Update} {d : Nat → Sector}

theorem written_snoc : written (pre ++ [u]) d = Function.update (written pre d) u.1 (u.2 (written pre d u.1)) := by
  simp [written]

theorem accepted_snoc : Accepted (pre ++ [u]) ↔ Accepted pre ∧ (pre.map Prod.fst).eraseDups.length < logSize := by
  simp only [Accepted, length_append, length_singleton, Nat.forall_lt_succ_right, take_left]
  refine and_congr_left fun _ ↦ forall₂_congr fun j hj ↦ ?_
  rw [take_append_of_le_length hj.le]

theorem Accepted.left (h : Accepted (pre ++ vs)) : Accepted pre := fun j hj ↦ by
  have := h j (by rw [length_append]; omega)
  rwa [take_append_of_le_length hj.le] at this

theorem Logging.update (h : Logging pre d s) (ho : Open start t s) (hu : Outside start u.1) :
    ∃ s', s.step (t, .update u.1 u.2) = some s' ∧ Open start t s' ∧ s'.header = s.header ∧
      s'.disk = written (pre ++ [u]) d := by
  obtain ⟨op, hpc⟩ := ho.pc
  have hs : s.step (t, .update u.1 u.2) = some (s.devWrite u.1 (u.2 (s.disk u.1))) := by
    simp only [step, hpc]
  refine ⟨_, hs, (ho.update hu hs).1, rfl, ?_⟩
  rw [(ho.update hu hs).2, written_snoc, h.disk]

/-- A call of `log_write` after the `bwrite` of `u` returns if and only if the header has room. -/
theorem Logging.logWrite (h : Logging pre d s) (ho : Open start t s') (hu : Outside start u.1 ∧ u.1 < 4294967296)
    (hheader : s'.header = s.header) (hdisk : s'.disk = written (pre ++ [u]) d) :
    (Accepted (pre ++ [u]) → ∃ b, s'.step (t, .logWrite u.1) = some b) ∧
    ∀ b, s'.step (t, .logWrite u.1) = some b → Open start t b ∧ Logging (pre ++ [u]) d b := by
  obtain ⟨op, hpc⟩ := ho.pc
  have hn : s'.header.n = (pre.map Prod.fst).eraseDups.length := by rw [hheader, ← length_entries, h.entries]
  refine ⟨fun hacc ↦ ?_, fun b hb ↦ ⟨(ho.logWrite hu hb).1, ?_⟩⟩
  · have hroom := (accepted_snoc.mp hacc).2
    simp only [step, hpc, System.logWrite]
    rw [if_neg (by omega)]
    split <;> exact ⟨_, rfl⟩
  · have hdisk' := (ho.logWrite hu hb).2.trans hdisk
    simp only [step, hpc, System.logWrite] at hb
    split at hb
    · cases hb
    · next hroom =>
      refine ⟨accepted_snoc.mpr ⟨h.accepted, by omega⟩, ?_, hdisk'⟩
      rw [map_append, map_singleton, eraseDups_snoc, ← h.entries, ← hheader, absorb]
      split at hb
      · next hx =>
        cases hb
        rw [if_pos hx]
      · next hx =>
        cases hb
        rw [if_neg hx]
        exact entries_append ..

theorem Logging.perform (h : Logging pre d s) (ho : Open start t s)
    (hvs : ∀ u ∈ vs, Outside start u.1 ∧ u.1 < 4294967296) (hacc : Accepted (pre ++ vs)) :
    ∃ s', s.perform t (updates vs) = some s' ∧ Open start t s' ∧ Logging (pre ++ vs) d s' := by
  induction vs generalizing pre s with
  | nil => exact ⟨s, rfl, ho, by rwa [append_nil]⟩
  | cons u vs ih =>
    rw [append_cons] at hacc
    obtain ⟨a, ha, hoa, hheader, hdisk⟩ := h.update ho (hvs u mem_cons_self).1
    obtain ⟨hsome, hlog⟩ := h.logWrite hoa (hvs u mem_cons_self) hheader hdisk
    obtain ⟨b, hb⟩ := hsome hacc.left
    obtain ⟨hob, hlb⟩ := hlog b hb
    obtain ⟨s', hs', ho', hl'⟩ := ih hlb hob (fun v hv ↦ hvs v (mem_cons_of_mem _ hv)) hacc
    exact ⟨s', bind_eq_some_iff.mpr ⟨a, ha, bind_eq_some_iff.mpr ⟨b, hb, hs'⟩⟩, ho', by rwa [append_cons]⟩

/-- Inside a transaction the disk is that after one of the updates it has reached. -/
theorem Logging.reached {k : Nat} (h : Logging pre d s) (ho : Open start t s)
    (hvs : ∀ u ∈ vs, Outside start u.1 ∧ u.1 < 4294967296) (hs : s.perform t ((updates vs).take k) = some s') :
    s'.disk = written pre d ∨ ∃ ws u xs, vs = ws ++ u :: xs ∧ Accepted (pre ++ ws) ∧
      s'.disk = written (pre ++ ws ++ [u]) d := by
  induction vs generalizing pre s k with
  | nil =>
    rw [updates, flatMap_nil, take_nil] at hs
    cases hs
    exact .inl h.disk
  | cons u vs ih =>
    obtain ⟨a, ha, hoa, hheader, hdisk⟩ := h.update ho (hvs u mem_cons_self).1
    have hfirst : ∃ ws v xs, u :: vs = ws ++ v :: xs ∧ Accepted (pre ++ ws) ∧
        written (pre ++ [u]) d = written (pre ++ ws ++ [v]) d :=
      ⟨[], u, vs, rfl, by rw [append_nil]; exact h.accepted, by rw [append_nil]⟩
    match k with
    | 0 =>
      cases hs
      exact .inl h.disk
    | 1 =>
      obtain ⟨c, hc, hs⟩ := bind_eq_some_iff.mp hs
      cases ha.symm.trans hc
      cases hs
      rw [hdisk]
      exact .inr hfirst
    | k + 2 =>
      obtain ⟨c, hc, hs⟩ := bind_eq_some_iff.mp hs
      cases ha.symm.trans hc
      obtain ⟨b, hb, hs⟩ := bind_eq_some_iff.mp hs
      obtain ⟨hob, hlb⟩ := (h.logWrite hoa (hvs u mem_cons_self) hheader hdisk).2 b hb
      obtain hsame | ⟨ws, v, xs, rfl, hacc, hv⟩ := ih hlb hob (fun v hv ↦ hvs v (mem_cons_of_mem _ hv)) hs
      · rw [hsame]
        exact .inr hfirst
      · exact .inr ⟨u :: ws, v, xs, rfl, by rwa [append_cons], by rwa [append_cons pre]⟩

end Reach

/-- The first `i` sectors of the log hold the bytes of the first `i` sectors of the header. -/
def Copied (F : Nat → Sector) (s : System) (i : Nat) : Prop :=
  ∀ j < i, s.disk (s.start + 1 + j) = F (s.header.sectors j)

def Stage (F : Nat → Sector) (s : System) : Pc → Prop
  | .idle | .commit => word (s.disk s.start) 0 = 0
  | .inside _ => False
  | .logTurn n i => n = s.header.n ∧ i ≤ n ∧ word (s.disk s.start) 0 = 0 ∧ Copied F s i
  | .logRead n i src =>
    n = s.header.n ∧ i < n ∧ src = s.header.sectors i ∧ word (s.disk s.start) 0 = 0 ∧ Copied F s i
  | .logWrite n i buf =>
    n = s.header.n ∧ i < n ∧ buf = F (s.header.sectors i) ∧ word (s.disk s.start) 0 = 0 ∧ Copied F s i
  | .headWrite h => h = s.header ∧ word (s.disk s.start) 0 = 0 ∧ Copied F s s.header.n
  | .install => s.disk s.start = s.header.encode ∧ Copied F s s.header.n
  | .installTurn n _ => n = s.header.n ∧ s.disk s.start = s.header.encode ∧ Copied F s s.header.n
  | .bodyRead n i dst => n = s.header.n ∧ i < n ∧ dst = s.header.sectors i ∧
      s.disk s.start = s.header.encode ∧ Copied F s s.header.n
  | .homeWrite n i dst buf => n = s.header.n ∧ i < n ∧ dst = s.header.sectors i ∧ buf = F dst ∧
      s.disk s.start = s.header.encode ∧ Copied F s s.header.n
  | .clearWrite h => h.n = 0

/-- The transaction is over: the home sectors hold `F`, whatever the commit has done so far. -/
structure Committing (start : Nat) (F : Nat → Sector) (t : Tid) (s : System) : Prop where
  base : s.start = start
  home : ∀ x, Outside start x → s.disk x = F x
  fits : Fits start s.header
  logged : Logged start F s.disk
  stage : Stage F s (s.pc t)

namespace Committing

theorem ne_start (hx : Outside start x) : x ≠ start := by
  unfold Outside at hx
  omega

theorem ne_body {x i : Nat} (hx : Outside start x) (hi : i < logSize) : x ≠ start + 1 + i := by
  unfold Outside at hx
  omega

theorem goto (h : Committing start F t s) {pc : Pc} (hstage : Stage F s pc) :
    Committing start F t (s.goto t pc) := by
  refine ⟨h.base, h.home, h.fits, h.logged, ?_⟩
  rw [goto_pc_self]
  exact hstage

theorem commitStep (h : Committing start F t s) (hs : s.commitStep t = some s') :
    Committing start F t s' := by
  have hstage := h.stage
  obtain rfl := h.base
  unfold commitStep at hs
  cases hpc : s.pc t with
  | idle => simp [hpc] at hs
  | inside op => simp [hpc] at hs
  | commit =>
    rw [hpc] at hs hstage
    simp only at hs
    split at hs <;> cases hs
    · exact h.goto hstage
    · refine ⟨rfl, h.home, h.fits, h.logged, ?_⟩
      rw [goto_pc_self]
      exact ⟨rfl, Nat.zero_le _, hstage, fun j hj ↦ absurd hj (Nat.not_lt_zero j)⟩
  | logTurn n i =>
    rw [hpc] at hs hstage
    obtain ⟨hn, hi, hclean, hcopied⟩ := hstage
    simp only at hs
    split at hs <;> cases hs
    · next hlt => exact h.goto ⟨hn, hlt, rfl, hclean, hcopied⟩
    · next hge =>
      have hall : Copied F s s.header.n := by rwa [← hn, show n = i by omega]
      refine ⟨rfl, h.home, h.fits, h.logged, ?_⟩
      rw [goto_pc_self]
      exact ⟨rfl, hclean, hall⟩
  | logRead n i src =>
    rw [hpc] at hs hstage
    obtain ⟨hn, hi, rfl, hclean, hcopied⟩ := hstage
    cases hs
    exact h.goto ⟨hn, hi, h.home _ (h.fits.outside i (hn ▸ hi)).1, hclean, hcopied⟩
  | logWrite n i buf =>
    rw [hpc] at hs hstage
    obtain ⟨hn, hi, rfl, hclean, hcopied⟩ := hstage
    cases hs
    have hlt : i < logSize := by
      have := h.fits.le
      omega
    set buf := F _ with hbuf
    have hclean' : word (update s.disk (s.start + 1 + i) buf s.start) 0 = 0 := by
      rw [update_of_ne (by omega), hclean]
    have hcopied' : ∀ j < i + 1,
        update s.disk (s.start + 1 + i) buf (s.start + 1 + j) = F (s.header.sectors j) := by
      intro j hj
      by_cases hji : j = i
      · rw [hji, update_self]
      · rw [update_of_ne (by omega)]
        exact hcopied j (by omega)
    refine ⟨rfl, fun x hx ↦ ?_, h.fits, .inl hclean', ?_⟩
    · exact (update_of_ne (ne_body hx hlt) _ _).trans (h.home x hx)
    · rw [goto_pc_self]
      exact ⟨hn, hi, hclean', hcopied'⟩
  | headWrite hd =>
    rw [hpc] at hs hstage
    obtain ⟨rfl, hclean, hcopied⟩ := hstage
    cases hs
    have hcopied' : ∀ j < s.header.n,
        update s.disk s.start s.header.encode (s.start + 1 + j) = F (s.header.sectors j) := fun j hj ↦ by
      rw [update_of_ne (by omega)]
      exact hcopied j hj
    refine ⟨rfl, fun x hx ↦ ?_, h.fits, .inr ⟨s.header, update_self .., h.fits.le, h.fits.outside, ?_⟩, ?_⟩
    · exact (update_of_ne (ne_start hx) _ _).trans (h.home x hx)
    · exact hcopied'
    · rw [goto_pc_self]
      exact ⟨update_self .., hcopied'⟩
  | install =>
    rw [hpc] at hs hstage
    cases hs
    exact h.goto ⟨rfl, hstage⟩
  | installTurn n i =>
    rw [hpc] at hs hstage
    obtain ⟨hn, hhead, hcopied⟩ := hstage
    simp only at hs
    split at hs <;> cases hs
    · next hlt => exact h.goto ⟨hn, hlt, rfl, hhead, hcopied⟩
    · refine ⟨rfl, h.home, ⟨Nat.zero_le _, fun j hj ↦ absurd hj (Nat.not_lt_zero j)⟩, h.logged, ?_⟩
      rw [goto_pc_self]
      rfl
  | bodyRead n i dst =>
    rw [hpc] at hs hstage
    obtain ⟨hn, hi, rfl, hhead, hcopied⟩ := hstage
    cases hs
    exact h.goto ⟨hn, hi, rfl, hcopied i (hn ▸ hi), hhead, hcopied⟩
  | homeWrite n i dst buf =>
    rw [hpc] at hs hstage
    obtain ⟨hn, hi, rfl, rfl, hhead, hcopied⟩ := hstage
    cases hs
    -- the home sector holds these bytes already
    have hsame : s.devWrite (s.header.sectors i) (F (s.header.sectors i)) = s := by
      rw [devWrite, ← h.home _ (h.fits.outside i (hn ▸ hi)).1, update_eq_self]
    rw [hsame]
    exact h.goto ⟨hn, hhead, hcopied⟩
  | clearWrite hd =>
    rw [hpc] at hs hstage
    cases hs
    have hzero : word hd.encode 0 = 0 := by
      have h0 : hd.n = 0 := hstage
      rw [Header.word_encode_zero (by omega), h0]
    have hclean : word (update s.disk s.start hd.encode s.start) 0 = 0 := by rw [update_self, hzero]
    refine ⟨rfl, fun x hx ↦ ?_, h.fits, .inl hclean, ?_⟩
    · exact (update_of_ne (ne_start hx) _ _).trans (h.home x hx)
    · rw [goto_pc_self]
      exact hclean

end Committing

theorem Open.endOp (h : Open start t s) (hs : s.step (t, .endOp) = some s') :
    Committing start s.disk t s' := by
  obtain ⟨op, hpc⟩ := h.pc
  simp only [step, hpc, h.outstanding, some.injEq] at hs
  subst hs
  refine ⟨h.base, fun _ _ ↦ rfl, h.fits, .inl h.clean, ?_⟩
  rw [goto_pc_self]
  exact (congrArg (fun b ↦ word (s.disk b) 0) h.base).trans h.clean

theorem Open.beginOp (hf : s.Quiet) (ht : t ∈ s.threads) (hclean : word (s.disk s.start) 0 = 0) :
    ∃ a, s.step (t, .beginOp) = some a ∧ Open s.start t a ∧ Logging [] s.disk a := by
  refine ⟨{ s with outstanding := s.outstanding + 1, nextOp := s.nextOp + 1 }.goto t _,
    ?_, ⟨rfl, ⟨s.nextOp, update_self ..⟩, ?_, ⟨?_, ?_⟩, hclean⟩, nofun, ?_, rfl⟩
  · simp only [step, hf.idle t, if_pos ht]
  · exact congrArg (· + 1) hf.outstanding
  · exact hf.header.trans_le (Nat.zero_le _)
  · exact fun i hi ↦ absurd (hf.header ▸ hi) (Nat.not_lt_zero i)
  · exact length_eq_zero_iff.mp ((length_entries _).trans hf.header)

theorem perform_append {l l' : List Act} :
    s.perform t (l ++ l') = (s.perform t l).bind fun a ↦ a.perform t l' := by
  rw [System.perform, map_append, exec_append]
  rfl

theorem Committing.perform (hl : ∀ a ∈ l, a = .go) (h : Committing start F t s)
    (hs : s.perform t l = some s') : Committing start F t s' := by
  refine exec_invariant (fun a x b hx ha hstep ↦ ?_) hs h
  obtain ⟨act, hact, rfl⟩ := mem_map.mp hx
  obtain rfl := hl act hact
  exact ha.commitStep hstep

theorem crashed_cases (h : Crashed s t us s') :
    (∃ k, s.perform t ((Act.beginOp :: updates us).take k) = some s') ∨
    ∃ a b l, s.perform t (Act.beginOp :: updates us) = some a ∧ a.step (t, .endOp) = some b ∧
      (∀ x ∈ l, x = Act.go) ∧ b.perform t l = some s' := by
  obtain ⟨j, k, hs⟩ := h
  rw [transaction, append_assoc, take_append] at hs
  by_cases hk : k ≤ (Act.beginOp :: updates us).length
  · rw [Nat.sub_eq_zero_of_le hk, take_zero, append_nil] at hs
    exact .inl ⟨k, hs⟩
  · right
    obtain ⟨m, hm⟩ : ∃ m, k - (Act.beginOp :: updates us).length = m + 1 :=
      Nat.exists_eq_succ_of_ne_zero (by omega)
    rw [take_of_length_le (by omega), hm, perform_append] at hs
    obtain ⟨a, ha, hs⟩ := bind_eq_some_iff.mp hs
    obtain ⟨b, hb, hs⟩ := bind_eq_some_iff.mp hs
    exact ⟨a, b, _, ha, hb, fun x hx ↦ eq_of_mem_replicate (mem_of_mem_take hx), hs⟩

section Atomicity

variable (hf : s.Quiet) (ht : t ∈ s.threads) (hclean : word (s.disk s.start) 0 = 0)
  (hus : ∀ u ∈ us, Outside s.start u.1 ∧ u.1 < 4294967296)
include hf ht hclean hus

theorem recover_take {k : Nat} (hs : s.perform t ((Act.beginOp :: updates us).take k) = some s') :
    recover s.start s'.disk = some s'.disk := by
  obtain ⟨a, ha, hopen, -⟩ := Open.beginOp hf ht hclean
  cases k with
  | zero =>
    cases hs
    exact if_pos hclean
  | succ k =>
    obtain ⟨c, hc, hs⟩ := bind_eq_some_iff.mp hs
    cases ha.symm.trans hc
    exact if_pos (hopen.perform_updates hus hs).clean

theorem recover_commit {a b : System}
    (ha : s.perform t (Act.beginOp :: updates us) = some a) (hb : a.step (t, .endOp) = some b)
    (hl : ∀ x ∈ l, x = Act.go) (hs : b.perform t l = some s') :
    ∃ d, recover s.start s'.disk = some d ∧ ∀ u ∈ us, d u.1 = written us s.disk u.1 := by
  obtain ⟨c, hc, hopen, hlog⟩ := Open.beginOp hf ht hclean
  obtain ⟨c', hc', ha⟩ := bind_eq_some_iff.mp ha
  cases hc.symm.trans hc'
  have hlast : Open s.start t a := by
    refine hopen.perform_updates hus (k := (updates us).length) ?_
    rw [take_length]
    exact ha
  have hcommit := (hlast.endOp hb).perform hl hs
  obtain ⟨d, hd, hhome⟩ := recover_of_logged hcommit.home hcommit.logged
  refine ⟨d, hd, fun u hu ↦ ?_⟩
  rw [hhome _ (hus u hu).1, hopen.disk_updates hus ha, hlog.disk]
  rfl

end Atomicity

/-- A transaction is atomic if and only if its own `bwrite`s, which go to the home sectors at once,
never leave a mixture: the log adds nothing. -/
theorem transaction_atomic_iff (hf : s.Quiet) (ht : t ∈ s.threads) (hclean : word (s.disk s.start) 0 = 0)
    (hus : ∀ u ∈ us, Outside s.start u.1 ∧ u.1 < 4294967296) : Atomic s t us ↔ NoMixture us s.disk := by
  obtain ⟨a, ha, hopen, hlog⟩ := Open.beginOp hf ht hclean
  constructor
  · -- the power fails right after the `bwrite` of `u`
    rintro hatomic vs u ws rfl hacc
    obtain ⟨b, hb, hob, hlb⟩ := hlog.perform hopen (fun v hv ↦ hus v (mem_append_left _ hv)) hacc
    obtain ⟨c, hc, -, -, hcd⟩ := hlb.update hob (hus u (by simp)).1
    have hs : s.perform t ((Act.beginOp :: updates (vs ++ u :: ws)).take ((updates vs).length + 2)) = some c := by
      have htake : (updates (vs ++ u :: ws)).take ((updates vs).length + 1) = updates vs ++ [.update u.1 u.2] := by
        rw [show updates (vs ++ u :: ws) = updates vs ++ .update u.1 u.2 :: .logWrite u.1 :: updates ws by
          simp [updates], take_length_add_append]
        rfl
      rw [take_succ_cons, htake]
      refine bind_eq_some_iff.mpr ⟨a, ha, ?_⟩
      refine perform_append.trans (bind_eq_some_iff.mpr ⟨b, hb, ?_⟩)
      exact bind_eq_some_iff.mpr ⟨c, hc, rfl⟩
    have hcrash : Crashed s t (vs ++ u :: ws) c := by
      refine ⟨0, (updates vs).length + 2, ?_⟩
      rw [transaction, append_assoc, take_append_of_le_length (by simp [updates]), hs]
    obtain ⟨d, hd, huniform⟩ := hatomic c hcrash
    rw [recover_take hf ht hclean hus hs] at hd
    cases hd
    rwa [hcd] at huniform
  · intro hmix s' hcrash
    rcases crashed_cases hcrash with ⟨k, hs⟩ | ⟨a, b, l, ha, hb, hl, hs⟩
    · refine ⟨_, recover_take hf ht hclean hus hs, ?_⟩
      cases k with
      | zero =>
        cases hs
        exact .inl fun _ _ ↦ rfl
      | succ k =>
        obtain ⟨c, hc, hs⟩ := bind_eq_some_iff.mp hs
        cases ha.symm.trans hc
        obtain hsame | ⟨vs, u, ws, hus, hacc, hd⟩ := hlog.reached hopen hus hs
        · rw [hsame]
          exact .inl fun _ _ ↦ rfl
        · rw [hd]
          exact hmix vs u ws hus hacc
    · obtain ⟨d, hd, hnew⟩ := recover_commit hf ht hclean hus ha hb hl hs
      exact ⟨d, hd, .inr hnew⟩

def zeroed : System where
  disk _ := zero
  start := 100
  outstanding := 0
  header := .empty
  threads := [1]
  pc _ := .idle
  nextOp := 0
  records := []
  entries := []
  commits := []
  pass _ := []
  held _ := []

theorem quiet_zeroed : zeroed.Quiet := ⟨rfl, rfl, fun _ ↦ rfl⟩

def ones : Sector → Sector := fun _ _ ↦ 1

theorem ones_ne_zero (b : Sector) : ones b ≠ zero := fun h ↦
  absurd (show (1 : UInt8) = 0 from congrFun h 0) (by decide)

/-- One `bwrite` is atomic by itself. -/
theorem transaction_atomic_single : Atomic zeroed 1 [(50, ones)] := by
  refine (transaction_atomic_iff quiet_zeroed (mem_singleton_self 1) word_zero ?_).mpr ?_
  · intro u hu
    rw [mem_singleton.mp hu]
    decide
  · intro vs u ws hus _
    cases vs with
    | nil =>
      cases hus
      exact .inr fun _ _ ↦ rfl
    | cons v vs => simp at hus

/-- The power fails between the two `bwrite`s of a transaction. The header was not written, and the
first sector stays new beside the old second one. -/
theorem transaction_half_done : ¬ Atomic zeroed 1 [(50, ones), (51, ones)] := by
  intro h
  obtain ⟨s', hs, hdisk⟩ : ∃ s', zeroed.perform 1 [.beginOp, .update 50 ones] = some s' ∧
      s'.disk = update (fun _ ↦ zero) 50 (ones zero) := ⟨_, rfl, rfl⟩
  obtain ⟨d, hd, huniform⟩ := h s' ⟨0, 2, hs⟩
  have hrecover : recover zeroed.start s'.disk = some s'.disk := by
    refine if_pos ?_
    rw [hdisk]
    exact word_zero
  cases hrecover.symm.trans hd
  rw [hdisk] at huniform
  rcases huniform with hold | hnew
  · exact ones_ne_zero zero (hold (50, ones) mem_cons_self)
  · exact ones_ne_zero zero (hnew (51, ones) (mem_cons_of_mem _ mem_cons_self)).symm

end Rxv6.Filesys.Log
