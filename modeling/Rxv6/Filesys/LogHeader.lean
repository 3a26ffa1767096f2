import Rxv6.Filesys.LogAtomicity

namespace Rxv6.Filesys.Log

open Function Sector List

namespace System

/-- The calls of `log_write` of a transaction, each with its operation. -/
def logWrites (s : System) (calls : List (Nat × Nat)) : Option System :=
  calls.foldlM (fun s c ↦ s.logWrite c.1 c.2) s

variable {s : System} {calls : List (Nat × Nat)}

theorem length_absorb_le (xs : List Nat) (x : Nat) : xs.length ≤ (absorb xs x).length := by
  unfold absorb
  split <;> simp

theorem logWrite_spec {op x : Nat} (hspare : s.header.n = logSize → x ∉ s.header.entries) :
    (logSize < (absorb s.header.entries x).length → s.logWrite op x = none) ∧
      ((absorb s.header.entries x).length ≤ logSize →
        ∃ s', s.logWrite op x = some s' ∧ s'.header.entries = absorb s.header.entries x) := by
  unfold absorb
  by_cases hx : x ∈ s.header.entries
  · rw [if_pos hx, length_entries]
    refine ⟨fun h ↦ if_pos h.le, fun h ↦ ⟨_, (if_neg ?_).trans (if_pos hx), rfl⟩⟩
    exact (h.lt_of_ne fun h ↦ hspare h hx).not_ge
  · rw [if_neg hx, length_append, length_entries]
    refine ⟨fun h ↦ if_pos (Nat.lt_succ_iff.mp h), fun h ↦ ⟨_, (if_neg ?_).trans (if_neg hx), entries_append ..⟩⟩
    exact Nat.not_le.mpr h

def SparesFull (xs : List Nat) : Prop :=
  ∀ ys x zs, xs = ys ++ x :: zs → ys.eraseDups.length = logSize → x ∉ ys

theorem SparesFull.of_nodup {xs : List Nat} (h : xs.Nodup) : SparesFull xs := fun _ _ _ hxs _ hx ↦
  disjoint_of_nodup_append (hxs ▸ h) hx mem_cons_self

theorem logWrites_spec (h₀ : s.header.n = 0) (hspare : SparesFull (calls.map Prod.snd)) :
    (logSize < (calls.map Prod.snd).eraseDups.length → s.logWrites calls = none) ∧
      ((calls.map Prod.snd).eraseDups.length ≤ logSize →
        ∃ s', s.logWrites calls = some s' ∧ s'.header.entries = (calls.map Prod.snd).eraseDups) := by
  -- by induction on the calls from the last one: the header before it holds the sectors of the others
  induction calls using List.reverseRecOn with
  | nil => exact ⟨by simp, fun _ ↦ ⟨s, rfl, by simp [Header.entries, h₀]⟩⟩
  | append_singleton calls c ih =>
    obtain ⟨op, x⟩ := c
    obtain ⟨ihnone, ihsome⟩ := ih fun ys y zs h ↦ hspare ys y (zs ++ [x]) (by simp [h])
    have hrun : s.logWrites (calls ++ [(op, x)]) = (s.logWrites calls).bind fun s ↦ s.logWrite op x := by
      simp [logWrites]
    rw [hrun, map_append, map_singleton, eraseDups_snoc]
    obtain hle | hgt := le_or_gt (calls.map Prod.snd).eraseDups.length logSize
    · obtain ⟨s₁, hs₁, hentries⟩ := ihsome hle
      rw [hs₁, ← hentries]
      refine logWrite_spec fun hn hx ↦ hspare (calls.map Prod.snd) x [] (by simp) ?_ ?_
      · rw [← hentries, length_entries, hn]
      · rwa [hentries, mem_eraseDups] at hx
    · rw [ihnone hgt]
      exact ⟨fun _ ↦ rfl, fun h ↦ absurd ((length_absorb_le ..).trans h) hgt.not_ge⟩

end System

section Install

variable (dst src : Nat → Nat) (d : Nat → Sector)

def installed (n : Nat) : Nat → Sector := (List.range n).foldl (fun d i ↦ update d (dst i) (d (src i))) d

theorem installed_succ (n : Nat) :
    installed dst src d (n + 1) = update (installed dst src d n) (dst n) (installed dst src d n (src n)) := by
  simp only [installed, range_succ, foldl_append, foldl_cons, foldl_nil]

theorem installed_other {n x : Nat} (h : ∀ i < n, dst i ≠ x) : installed dst src d n x = d x := by
  induction n with
  | zero => rfl
  | succ n ih => rw [installed_succ, update_of_ne (h n n.lt_succ_self).symm, ih fun i hi ↦ h i (hi.trans n.lt_succ_self)]

/-- The last of the turns with one destination decides, if its source was not overwritten before. -/
theorem installed_last {n i : Nat} (hi : i < n) (hlast : ∀ j < n, i < j → dst j ≠ dst i)
    (hsrc : ∀ j < i, dst j ≠ src i) : installed dst src d n (dst i) = d (src i) := by
  induction n with
  | zero => exact absurd hi i.not_lt_zero
  | succ n ih =>
    rw [installed_succ]
    obtain rfl | hlt := (Nat.lt_succ_iff.mp hi).eq_or_lt
    · rw [update_self, installed_other dst src d hsrc]
    · rw [update_of_ne (hlast n n.lt_succ_self hlt).symm, ih hlt fun j hj ↦ hlast j (hj.trans n.lt_succ_self)]

theorem installed_again {n j : Nat} (hj : j ≤ n) (hsrc : ∀ i < n, ∀ k < n, dst i ≠ src k) :
    installed dst src (installed dst src d j) n = installed dst src d n := by
  -- a sector that was written before has its block again once its turn has come
  have hturns : ∀ m ≤ n, ∀ x, (∃ i < m, dst i = x) ∨ (∀ i < j, dst i ≠ x) →
      installed dst src (installed dst src d j) m x = installed dst src d m x := by
    intro m
    induction m with
    | zero =>
      rintro - x (⟨i, hi, -⟩ | hx)
      · exact absurd hi i.not_lt_zero
      · exact installed_other dst src d hx
    | succ m ih =>
      intro hm x hx
      rw [installed_succ, installed_succ]
      by_cases hxm : x = dst m
      · rw [hxm, update_self, update_self]
        exact ih (by omega) _ (.inr fun i hi ↦ hsrc i (by omega) m (by omega))
      · rw [update_of_ne hxm, update_of_ne hxm]
        refine ih (by omega) x (hx.imp_left fun ⟨i, hi, hix⟩ ↦ ⟨i, ?_, hix⟩)
        exact (Nat.lt_succ_iff.mp hi).lt_of_ne fun him ↦ hxm (him ▸ hix.symm)
  funext x
  by_cases hx : ∃ i < n, dst i = x
  · exact hturns n le_rfl x (.inl hx)
  · exact hturns n le_rfl x (.inr fun i hi hix ↦ hx ⟨i, hi.trans_le hj, hix⟩)

end Install

/-- What `recover` makes of the disk: the header is cleared, every destination among the first `n`
sectors of the header has the block of its last turn, and the rest is as it was. -/
structure Recovered (start : Nat) (disk d : Nat → Sector) : Prop where
  cleared : word (d start) 0 = 0
  other : ∀ x, x ≠ start → (∀ i < word (disk start) 0, word (disk start) (1 + i) ≠ x) → d x = disk x
  last : ∀ i < word (disk start) 0, word (disk start) (1 + i) ≠ start →
    (∀ j < word (disk start) 0, i < j → word (disk start) (1 + j) ≠ word (disk start) (1 + i)) →
    (∀ j < i, word (disk start) (1 + j) ≠ start + 1 + i) →
    d (word (disk start) (1 + i)) = disk (start + 1 + i)

theorem recover_spec {start : Nat} {disk : Nat → Sector} (hn : word (disk start) 0 ≤ logSize) :
    ∃ d, recover start disk = some d ∧ Recovered start disk d := by
  have hsectors : ∀ i < word (disk start) 0,
      (Header.empty.decode (disk start)).sectors i = word (disk start) (1 + i) := by
    intro i hi
    exact if_pos (lt_min hi (hi.trans_le hn))
  by_cases h₀ : word (disk start) 0 = 0
  · refine ⟨disk, if_pos h₀, h₀, fun _ _ _ ↦ rfl, fun i hi ↦ ?_⟩
    omega
  · refine ⟨_, (if_neg h₀).trans (if_pos hn), ?_, fun x hx hother ↦ ?_, fun i hi hne hlast hsrc ↦ ?_⟩
    · rw [update_self, Header.word_encode_zero (show 0 < 4294967296 by decide)]
    · rw [update_of_ne hx]
      exact installed_other _ _ _ fun i hi ↦ hsectors i hi ▸ hother i hi
    · rw [update_of_ne hne, ← hsectors i hi]
      refine installed_last _ _ _ hi (fun j hj hij ↦ ?_) fun j hj ↦ ?_
      · rw [hsectors i hi, hsectors j hj]
        exact hlast j hj hij
      · rw [hsectors j (hj.trans hi)]
        exact hsrc j hj

theorem recover_large {start : Nat} {disk : Nat → Sector} (h : logSize < word (disk start) 0) :
    recover start disk = none :=
  (if_neg (Nat.ne_zero_of_lt h)).trans (if_neg h.not_ge)

/-- `install_trans` on a device of `size` sectors, with the array bound of `sectors` and the assertions of
`BlockDevice::read` and `BlockDevice::write`. -/
def installOn (size start : Nat) (h : Header) (disk : Nat → Sector) : Option (Nat → Sector) :=
  (List.range h.n).foldlM (fun d i ↦
    if i < logSize ∧ start + 1 + i < size ∧ h.sectors i < size then
      some (update d (h.sectors i) (d (start + 1 + i)))
    else none) disk

/-- `recover` on a device of `size` sectors. -/
def recoverOn (size start : Nat) (disk : Nat → Sector) : Option (Nat → Sector) :=
  if start < size then
    let h := Header.empty.decode (disk start)
    if h.n = 0 then some disk
    else (installOn size start h disk).map fun d ↦ update d start (Header.encode ⟨0, h.sectors⟩)
  else none

/-- The header names at most `LOGSIZE` sectors, and the log and they are on the device. -/
def Installable (size start : Nat) (b : Sector) : Prop :=
  start < size ∧ word b 0 ≤ logSize ∧ ∀ i < word b 0, start + 1 + i < size ∧ word b (1 + i) < size

theorem foldlM_guard {α : Type*} {p : Nat → Prop} [DecidablePred p] {f : α → Nat → α} {a : α} (n : Nat) :
    (List.range n).foldlM (fun d i ↦ if p i then some (f d i) else none) a =
      if ∀ i < n, p i then some ((List.range n).foldl f a) else none := by
  induction n with
  | zero => simp
  | succ n ih =>
    rw [range_succ, foldlM_append, ih, foldl_append]
    by_cases hall : ∀ i < n, p i
    · by_cases hn : p n
      · have hsucc : ∀ i < n + 1, p i := Nat.forall_lt_succ_right.mpr ⟨hall, hn⟩
        rw [if_pos hall, if_pos hsucc]
        simp [hn]
      · have hsucc : ¬ ∀ i < n + 1, p i := fun h ↦ hn (h n n.lt_succ_self)
        rw [if_pos hall, if_neg hsucc]
        simp [hn]
    · have hsucc : ¬ ∀ i < n + 1, p i := fun h ↦ hall fun i hi ↦ h i (by omega)
      rw [if_neg hall, if_neg hsucc]
      rfl

/-- On a device `recover` panics unless everything the header names is there. -/
theorem recoverOn_eq (size start : Nat) (disk : Nat → Sector) [Decidable (Installable size start (disk start))] :
    recoverOn size start disk = if Installable size start (disk start) then recover start disk else none := by
  have hturns : (∀ i < word (disk start) 0,
      i < logSize ∧ start + 1 + i < size ∧ (Header.empty.decode (disk start)).sectors i < size) ↔
      word (disk start) 0 ≤ logSize ∧ ∀ i < word (disk start) 0, start + 1 + i < size ∧ word (disk start) (1 + i) < size := by
    constructor
    · intro h
      have hle : word (disk start) 0 ≤ logSize := by
        by_contra hgt
        exact absurd (h logSize (by omega)).1 (lt_irrefl _)
      refine ⟨hle, fun i hi ↦ ⟨(h i hi).2.1, ?_⟩⟩
      have hs := (h i hi).2.2
      rwa [show (Header.empty.decode (disk start)).sectors i = _ from if_pos (lt_min hi (hi.trans_le hle))] at hs
    · rintro ⟨hle, h⟩ i hi
      refine ⟨hi.trans_le hle, (h i hi).1, ?_⟩
      rw [show (Header.empty.decode (disk start)).sectors i = _ from if_pos (lt_min hi (hi.trans_le hle))]
      exact (h i hi).2
  have hinstall := foldlM_guard (p := fun i ↦ i < logSize ∧ start + 1 + i < size ∧
      (Header.empty.decode (disk start)).sectors i < size)
    (f := fun d i ↦ update d ((Header.empty.decode (disk start)).sectors i) (d (start + 1 + i))) (a := disk)
    (word (disk start) 0)
  by_cases hstart : start < size
  · rw [recoverOn, if_pos hstart]
    simp only [Installable, hstart, true_and, ← hturns]
    change (if word (disk start) 0 = 0 then some disk else _) = if _ then (if word (disk start) 0 = 0 then some disk else
      if word (disk start) 0 ≤ logSize then _ else none) else none
    by_cases h0 : word (disk start) 0 = 0
    · simp [h0]
    · rw [if_neg h0, if_neg h0, installOn]
      change Option.map _ ((List.range (word (disk start) 0)).foldlM _ disk) = _
      rw [hinstall]
      split_ifs with hall hle
      · rfl
      · exact absurd (hturns.mp hall).1 hle
      · rfl
  · rw [recoverOn, if_neg hstart, if_neg fun h ↦ hstart h.1]

/-- A transaction that never names a sector again on a full header fails exactly when it names more
than `LOGSIZE` sectors, and otherwise the header has them in the order of their first calls; `recover`
installs what the header names exactly when it names at most `LOGSIZE` sectors and all are on the device. -/
theorem header_exact {s : System} {calls : List (Nat × Nat)} {size start : Nat} {disk : Nat → Sector}
    (h₀ : s.header.n = 0) (hspare : System.SparesFull (calls.map Prod.snd)) :
    (s.logWrites calls = none ↔ logSize < (calls.map Prod.snd).eraseDups.length) ∧
      (∀ s', s.logWrites calls = some s' → s'.header.entries = (calls.map Prod.snd).eraseDups) ∧
      ((∃ d, recoverOn size start disk = some d ∧ Recovered start disk d) ↔
        Installable size start (disk start)) := by
  classical
  have hrecover : (∃ d, recoverOn size start disk = some d ∧ Recovered start disk d) ↔
      Installable size start (disk start) := by
    rw [recoverOn_eq]
    refine ⟨fun ⟨d, hd, _⟩ ↦ ?_, fun h ↦ ?_⟩
    · by_contra hnot
      rw [if_neg hnot] at hd
      cases hd
    · rw [if_pos h]
      exact recover_spec h.2.1
  obtain ⟨hnone, hsome⟩ := System.logWrites_spec h₀ hspare
  obtain hle | hgt := le_or_gt (calls.map Prod.snd).eraseDups.length logSize
  · obtain ⟨s₁, hs₁, hentries⟩ := hsome hle
    simp only [hs₁, reduceCtorEq, hle.not_gt, Option.some.injEq, true_and]
    exact ⟨fun s' hs' ↦ hs' ▸ hentries, hrecover⟩
  · simp only [hnone hgt, hgt, reduceCtorEq, false_implies, implies_true, true_and]
    exact hrecover

theorem header_exact_two : zeroed.logWrites [(1, 50), (1, 51)] ≠ none ∧
    ∃ d, recoverOn 200 100 zeroed.disk = some d ∧ Recovered 100 zeroed.disk d := by
  have hspare : System.SparesFull ([(1, 50), (1, 51)].map Prod.snd) := .of_nodup (by decide)
  have hzero : word (zeroed.disk 100) 0 = 0 := word_zero
  obtain ⟨hnone, -, hrecover⟩ := @header_exact zeroed _ 200 100 zeroed.disk rfl hspare
  refine ⟨fun h ↦ absurd (hnone.mp h) (by decide), hrecover.mpr ⟨by decide, by omega, fun i hi ↦ ?_⟩⟩
  omega

/-- Ten sectors fill the header, and the first of them is then refused instead of absorbed; and a header
of eleven sectors on the disk is not ignored. -/
theorem full_header_panics :
    zeroed.header.n = 0 ∧ zeroed.logWrites (((List.range 10).map (50 + ·) ++ [50]).map ((1, ·))) = none ∧
      ((List.range 10).map (50 + ·) ++ [50]).eraseDups.length = logSize ∧
      recoverOn 200 100 (fun _ ↦ setWord zero 0 11) = none := by
  classical
  refine ⟨rfl, rfl, by decide, (recoverOn_eq ..).trans (if_neg fun h ↦ ?_)⟩
  exact absurd h.2.1 (by decide)

section Restart

variable {start : Nat} {disk d : Nat → Sector}

/-- The header that `recover` finds. -/
def headerAt (start : Nat) (disk : Nat → Sector) : Header := Header.empty.decode (disk start)

theorem recover_eq : recover start disk = if (headerAt start disk).n = 0 then some disk
    else if (headerAt start disk).n ≤ logSize then
      some (update (installTrans start (headerAt start disk) disk) start
        (Header.encode ⟨0, (headerAt start disk).sectors⟩))
    else none := rfl

def Bounded (start : Nat) (disk : Nat → Sector) : Prop :=
  (headerAt start disk).n ≤ logSize ∧
    ∀ i < (headerAt start disk).n, Outside start ((headerAt start disk).sectors i)

/-- The disk after a recovery that came to its end, or that a crash stopped after `j` blocks. -/
def Restarted (start : Nat) (disk d : Nat → Sector) : Prop :=
  recover start disk = some d ∨
    ∃ j ≤ (headerAt start disk).n, d = installTrans start ⟨j, (headerAt start disk).sectors⟩ disk

theorem Bounded.restart (h : Bounded start disk) (hd : Restarted start disk d) :
    Bounded start d ∧ recover start d = recover start disk := by
  obtain ⟨hn, hout⟩ := h
  rcases hd with hd | ⟨j, hj, hd⟩
  · obtain ⟨d', hd', hrec⟩ := recover_spec hn
    obtain rfl : d = d' := Option.some_inj.mp (hd.symm.trans hd')
    have hzero : (headerAt start d).n = 0 := hrec.cleared
    refine ⟨⟨by omega, fun i hi ↦ ?_⟩, (if_pos hrec.cleared).trans hd'.symm⟩
    omega
  · have hne : ∀ i < (headerAt start disk).n, ∀ k ≤ logSize, (headerAt start disk).sectors i ≠ start + k := by
      intro i hi k hk
      have := hout i hi
      unfold Outside at this
      omega
    have hhead : d start = disk start :=
      hd ▸ installed_other _ _ disk fun i hi ↦ hne i (Nat.lt_of_lt_of_le hi hj) 0 (Nat.zero_le _)
    have hsame : headerAt start d = headerAt start disk := congrArg (Header.empty.decode ·) hhead
    have hagain : installTrans start (headerAt start disk) d = installTrans start (headerAt start disk) disk := by
      rw [hd]
      exact installed_again _ _ disk hj fun i hi k hk ↦ add_assoc start 1 k ▸ hne i hi (1 + k) (by omega)
    refine ⟨by rw [Bounded, hsame]; exact ⟨hn, hout⟩, ?_⟩
    simp only [recover_eq, hsame, hagain]
    refine ite_congr rfl (fun h₀ ↦ congrArg some ?_) fun _ ↦ rfl
    rw [hd, show j = 0 by omega]
    rfl

/-- However often a crash stops the recovery, the one that comes to its end leaves the disk that the
first one would have left. -/
theorem recover_restarted (h : Bounded start disk) (hd : Relation.ReflTransGen (Restarted start) disk d) :
    recover start d = recover start disk := by
  have hinv : Bounded start d ∧ recover start d = recover start disk := by
    induction hd with
    | refl => exact ⟨h, rfl⟩
    | tail _ hstep ih =>
      obtain ⟨hb, hrec⟩ := ih.1.restart hstep
      exact ⟨hb, hrec.trans ih.2⟩
  exact hinv.2

end Restart

def twoLogged : Nat → Sector := update (fun _ ↦ zero) 100 (Header.encode ⟨2, (50 + ·)⟩)

/-- Of the two blocks of a commit one is installed before the crash. -/
theorem recover_restarted_two : ∃ d, Restarted 100 twoLogged d ∧ recover 100 d = recover 100 twoLogged := by
  obtain ⟨hn, hs⟩ := @Header.decode_encode ⟨2, (50 + ·)⟩ .empty (by decide) fun i (hi : i < 2) ↦ by
    change 50 + i < _
    omega
  have hd : Restarted 100 twoLogged _ := .inr ⟨1, hn.ge.trans' (by decide), rfl⟩
  refine ⟨_, hd, recover_restarted ⟨hn.trans_le (by decide), fun i hi ↦ .inl ?_⟩ (.single hd)⟩
  have hi : i < 2 := hi.trans_eq hn
  exact (hs i hi).trans_lt (show 50 + i < 100 by omega)

end Rxv6.Filesys.Log
