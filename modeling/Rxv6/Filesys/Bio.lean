import Rxv6.Lib.Runs
import Rxv6.Filesys.Sector
import Rxv6.Thread.Scheduler

namespace Rxv6.Filesys.Bio

open Function Rxv6.Thread Rxv6.Lib.Runs List Option

def nbuf : Nat := 30

/-- A cached sector. `valid` and `dirty` are the two bits of `flags`. -/
structure Buf where
  valid : Bool
  dirty : Bool
  sector : Nat
  refcnt : Nat
  data : Sector

/-- A reference that `bread` has returned and `brelse` has not taken back. `pending` says that the
buffer was modified through it since its last `bwrite`. -/
structure Handle where
  tid : Tid
  buf : Nat
  sector : Nat
  pending : Bool
  deriving DecidableEq

/-- Where a thread stands inside `bread`, with the lock of the cache. -/
inductive Pc
  | idle
  | scan (x : Nat)
  | writeBack (i x : Nat)
  | fill (i x : Nat)
  deriving DecidableEq

/-- `contents` remembers what each sector was given last. -/
structure System where
  disk : Nat → Sector
  bufs : Nat → Buf
  lock : Option Tid
  pc : Tid → Pc
  handles : List Handle
  contents : Nat → Sector

inductive Act
  | bread (x : Nat)
  | go
  | modify (h : Handle) (f : Sector → Sector)
  | bwrite (h : Handle)
  | brelse (h : Handle)

namespace System

def setBuf (s : System) (i : Nat) (b : Buf) : System := { s with bufs := update s.bufs i b }

def cached (s : System) (x : Nat) : Option Nat :=
  (List.range nbuf).find? fun i ↦ (s.bufs i).sector = x ∧ (s.bufs i).valid

def unreferenced (s : System) : Option Nat := (List.range nbuf).find? fun i ↦ (s.bufs i).refcnt = 0

/-- `bread` returns: the lock is released and the caller has a reference. -/
def done (s : System) (t : Tid) (i x : Nat) : System :=
  { s with lock := none, pc := update s.pc t .idle, handles := ⟨t, i, x, false⟩ :: s.handles }

def retarget (s : System) (t : Tid) (i x : Nat) : System :=
  { s.setBuf i { s.bufs i with valid := false, dirty := false, sector := x, refcnt := 1 } with
    pc := update s.pc t (.fill i x) }

def breadStep (s : System) (t : Tid) : Option System :=
  match s.pc t with
  | .idle => none
  | .scan x =>
    match s.cached x with
    | some i => some ((s.setBuf i { s.bufs i with refcnt := (s.bufs i).refcnt + 1 }).done t i x)
    | none =>
      match s.unreferenced with
      | none => none
      | some i =>
        if (s.bufs i).dirty then some { s with pc := update s.pc t (.writeBack i x) }
        else some (s.retarget t i x)
  | .writeBack i x =>
    some ({ s with disk := update s.disk (s.bufs i).sector (s.bufs i).data }.retarget t i x)
  | .fill i x => some ((s.setBuf i { s.bufs i with data := s.disk x, valid := true }).done t i x)

def modify (s : System) (h : Handle) (f : Sector → Sector) : System :=
  let b := s.bufs h.buf
  { s.setBuf h.buf { b with data := f b.data } with
    handles := { h with pending := true } :: s.handles.erase h
    contents := update s.contents b.sector (f b.data) }

def bwrite (s : System) (h : Handle) : System :=
  let b := s.bufs h.buf
  { s.setBuf h.buf { b with dirty := false } with
    disk := update s.disk b.sector b.data
    handles := { h with pending := false } :: s.handles.erase h }

def brelse (s : System) (h : Handle) : Option System :=
  let b := s.bufs h.buf
  if s.lock = none ∧ b.refcnt ≠ 0 then
    some { s.setBuf h.buf { b with refcnt := b.refcnt - 1 } with handles := s.handles.erase h }
  else none

def step (s : System) (x : Tid × Act) : Option System :=
  let t := x.1
  match x.2 with
  | .go => s.breadStep t
  | .bread x =>
    if s.pc t = .idle ∧ s.lock = none then
      some { s with lock := some t, pc := update s.pc t (.scan x) }
    else none
  | .modify h f => if s.pc t = .idle ∧ h ∈ s.handles ∧ h.tid = t then some (s.modify h f) else none
  | .bwrite h => if s.pc t = .idle ∧ h ∈ s.handles ∧ h.tid = t then some (s.bwrite h) else none
  | .brelse h => if s.pc t = .idle ∧ h ∈ s.handles ∧ h.tid = t then s.brelse h else none

/-- `bio::init`. -/
def init (disk : Nat → Sector) : System where
  disk := disk
  bufs _ := ⟨false, false, 0, 0, Sector.zero⟩
  lock := none
  pc _ := .idle
  handles := []
  contents := disk

structure Refines (s : System) : Prop where
  unique : ∀ i j, (s.bufs i).valid → (s.bufs j).valid → (s.bufs i).sector = (s.bufs j).sector → i = j
  /-- A referenced buffer still is the buffer of its sector. -/
  referenced : ∀ h ∈ s.handles, (s.bufs h.buf).valid ∧ (s.bufs h.buf).sector = h.sector
  unreferenced : ∀ i, (s.bufs i).valid → (s.bufs i).refcnt = 0 → (s.bufs i).data = s.disk (s.bufs i).sector
  /-- What `bread` has returned is the most recent contents. -/
  latest : ∀ h ∈ s.handles, (s.bufs h.buf).data = s.contents h.sector

end System

def writtenFirst (x : Tid × Act) : Bool :=
  match x.2 with
  | .brelse h => !h.pending
  | _ => true

/-- A buffer is not released between its modification and its `bwrite`. -/
def WrittenFirst (_ : System) (x : Tid × Act) : Prop := writtenFirst x = true

instance (s : System) (x : Tid × Act) : Decidable (WrittenFirst s x) :=
  inferInstanceAs (Decidable (_ = true))

def users (hs : List Handle) (i : Nat) : Nat := hs.countP (·.buf = i)

/-- What holds of the bytes: the buffers and the disk together stand for `contents`. -/
structure Cache (disk : Nat → Sector) (bufs : Nat → Buf) (hs : List Handle) (contents : Nat → Sector) :
    Prop where
  range : ∀ i, (bufs i).valid → i < nbuf
  held : ∀ h ∈ hs, (bufs h.buf).valid ∧ (bufs h.buf).sector = h.sector
  unique : ∀ i j, (bufs i).valid → (bufs j).valid → (bufs i).sector = (bufs j).sector → i = j
  data : ∀ i, (bufs i).valid → (bufs i).data = contents (bufs i).sector
  clean : ∀ i, (bufs i).valid → (∀ h ∈ hs, h.buf = i → h.pending = false) →
    (bufs i).data = disk (bufs i).sector
  rest : ∀ x, (∀ i, (bufs i).valid → (bufs i).sector ≠ x) → disk x = contents x

structure Inv (s : System) : Prop where
  cache : Cache s.disk s.bufs s.handles s.contents
  notDirty : ∀ i, (s.bufs i).dirty = false
  lock : ∀ t, s.pc t ≠ .idle → s.lock = some t
  noWriteBack : ∀ t i x, s.pc t ≠ .writeBack i x
  ref : ∀ i, (∀ t x, s.pc t ≠ .fill i x) → (s.bufs i).refcnt = users s.handles i
  fill : ∀ t i x, s.pc t = .fill i x → i < nbuf ∧ (s.bufs i).valid = false ∧ (s.bufs i).sector = x ∧
    (s.bufs i).refcnt = 1 ∧ users s.handles i = 0 ∧ ∀ j, (s.bufs j).valid → (s.bufs j).sector ≠ x

variable {s s' : System} {t : Tid} {i x : Nat} {h : Handle}

theorem users_cons (hs : List Handle) : users (h :: hs) i = users hs i + if h.buf = i then 1 else 0 := by
  simp only [users, countP_cons, decide_eq_true_eq]

variable {hs : List Handle}

theorem users_erase (hmem : h ∈ hs) : users hs i = users (hs.erase h) i + if h.buf = i then 1 else 0 := by
  rw [← users_cons]
  exact (perm_cons_erase hmem).countP_eq _

theorem users_eq_zero : users hs i = 0 ↔ ∀ h ∈ hs, h.buf ≠ i := by
  simp [users]

theorem users_replace {h' : Handle} (hmem : h ∈ hs) (hb : h'.buf = h.buf) :
    users (h' :: hs.erase h) i = users hs i := by
  rw [users_cons, users_erase hmem, hb]

theorem cached_some (h : s.cached x = some i) : (s.bufs i).sector = x ∧ (s.bufs i).valid = true := by
  simpa using find?_some h

theorem cached_none (hinv : Inv s) (h : s.cached x = none) :
    ∀ j, (s.bufs j).valid → (s.bufs j).sector ≠ x := by
  intro j hj hx
  have := find?_eq_none.mp h j (mem_range.mpr (hinv.cache.range j hj))
  simp [hx, hj] at this

theorem unreferenced_some (h : s.unreferenced = some i) : i < nbuf ∧ (s.bufs i).refcnt = 0 :=
  ⟨mem_range.mp (mem_of_find?_eq_some h), by simpa using find?_some h⟩

namespace Cache

variable {disk contents : Nat → Sector} {bufs bufs' : Nat → Buf} {hs : List Handle} {v : Sector}

section

variable (hc : Cache disk bufs hs contents)

include hc

theorem congr (hb : ∀ j, (bufs' j).valid = (bufs j).valid ∧ (bufs' j).sector = (bufs j).sector ∧
      (bufs' j).data = (bufs j).data) : Cache disk bufs' hs contents := by
  have hv := fun j ↦ (hb j).1
  have hs' := fun j ↦ (hb j).2.1
  have hd := fun j ↦ (hb j).2.2
  constructor <;> simp only [hv, hs', hd]
  case range => exact hc.range
  case held => exact hc.held
  case unique => exact hc.unique
  case data => exact hc.data
  case clean => exact hc.clean
  case rest => exact hc.rest

theorem cons (hvalid : (bufs i).valid) :
    Cache disk bufs (⟨t, i, (bufs i).sector, false⟩ :: hs) contents := by
  refine ⟨hc.range, fun h hh ↦ ?_, hc.unique, hc.data, fun j hj hp ↦ ?_, hc.rest⟩
  · rcases mem_cons.mp hh with rfl | hh
    · exact ⟨hvalid, rfl⟩
    · exact hc.held h hh
  · exact hc.clean j hj fun h hh ↦ hp h (mem_cons_of_mem _ hh)

theorem erase (hp : h.pending = false) : Cache disk bufs (hs.erase h) contents := by
  refine ⟨hc.range, fun g hg ↦ hc.held g (mem_of_mem_erase hg), hc.unique, hc.data,
    fun j hj hall ↦ hc.clean j hj fun g hg hb ↦ ?_, hc.rest⟩
  by_cases hgh : g = h
  · rw [hgh, hp]
  · exact hall g ((mem_erase_of_ne hgh).mpr hg) hb

variable {b : Buf}

theorem drop (hu : users hs i = 0) (hb : b.valid = false) : Cache disk (update bufs i b) hs contents := by
  have hne : ∀ h ∈ hs, h.buf ≠ i := users_eq_zero.mp hu
  have hkept : ∀ j, (update bufs i b j).valid → update bufs i b j = bufs j := by
    intro j hj
    refine update_of_ne ?_ _ _
    rintro rfl
    rw [update_self, hb] at hj
    cases hj
  refine ⟨fun j hj ↦ ?_, fun h hh ↦ ?_, fun j k hj hk he ↦ ?_, fun j hj ↦ ?_, fun j hj hp ↦ ?_, fun y hy ↦ ?_⟩
  · exact hc.range j (hkept j hj ▸ hj)
  · rw [update_of_ne (hne h hh)]
    exact hc.held h hh
  · rw [hkept j hj, hkept k hk] at he
    exact hc.unique j k (hkept j hj ▸ hj) (hkept k hk ▸ hk) he
  · have hdata := hc.data j (hkept j hj ▸ hj)
    rwa [hkept j hj]
  · have hclean := hc.clean j (hkept j hj ▸ hj) hp
    rwa [hkept j hj]
  · by_cases hold : (bufs i).valid ∧ (bufs i).sector = y
    · rw [← hold.2, ← hc.clean i hold.1 fun h hh he ↦ absurd he (hne h hh), hc.data i hold.1]
    · refine hc.rest y fun j hj he ↦ ?_
      by_cases hji : j = i
      · exact hold ⟨hji ▸ hj, hji ▸ he⟩
      · exact hy j (by rwa [update_of_ne hji]) (by rwa [update_of_ne hji])

theorem load (hi : i < nbuf) (hinvalid : (bufs i).valid = false)
    (hnone : ∀ j, (bufs j).valid → (bufs j).sector ≠ x) (hsec : b.sector = x)
    (hdata : b.data = disk x) : Cache disk (update bufs i b) hs contents := by
  have hne : ∀ h ∈ hs, h.buf ≠ i := fun h hh he ↦ by
    have := (hc.held h hh).1
    rw [he, hinvalid] at this
    cases this
  have hother : ∀ j, j ≠ i → update bufs i b j = bufs j := fun j hj ↦ update_of_ne hj ..
  refine ⟨fun j hj ↦ ?_, fun h hh ↦ ?_, fun j k hj hk he ↦ ?_, fun j hj ↦ ?_, fun j hj hp ↦ ?_, fun y hy ↦ ?_⟩
  · by_cases hji : j = i
    · exact hji ▸ hi
    · exact hc.range j (hother j hji ▸ hj)
  · rw [hother _ (hne h hh)]
    exact hc.held h hh
  · by_cases hji : j = i <;> by_cases hki : k = i
    · rw [hji, hki]
    · rw [hji, update_self, hsec, hother k hki] at he
      exact absurd he.symm (hnone k (hother k hki ▸ hk))
    · rw [hki, update_self, hsec, hother j hji] at he
      exact absurd he (hnone j (hother j hji ▸ hj))
    · rw [hother j hji, hother k hki] at he
      exact hc.unique j k (hother j hji ▸ hj) (hother k hki ▸ hk) he
  · by_cases hji : j = i
    · rw [hji, update_self, hdata, hsec, hc.rest x hnone]
    · have := hc.data j (hother j hji ▸ hj)
      rwa [hother j hji]
  · by_cases hji : j = i
    · rw [hji, update_self, hdata, hsec]
    · have := hc.clean j (hother j hji ▸ hj) hp
      rwa [hother j hji]
  · refine hc.rest y fun j hj he ↦ ?_
    have hji : j ≠ i := by
      rintro rfl
      rw [hinvalid] at hj
      cases hj
    exact hy j (by rwa [hother j hji]) (by rwa [hother j hji])

theorem held_replace (hmem : h ∈ hs) (p : Bool) : ∀ g ∈ { h with pending := p } :: hs.erase h,
    (bufs g.buf).valid ∧ (bufs g.buf).sector = g.sector :=
  forall_mem_cons.mpr ⟨hc.held h hmem, fun g hg ↦ hc.held g (mem_of_mem_erase hg)⟩

theorem clean_replace (p : Bool) (hi : (bufs i).valid) (hne : i ≠ h.buf)
    (hp : ∀ g ∈ { h with pending := p } :: hs.erase h, g.buf = i → g.pending = false) :
    (bufs i).data = disk (bufs i).sector := by
  refine hc.clean i hi fun g hg hgi ↦ hp g (mem_cons_of_mem _ ((mem_erase_of_ne ?_).mpr hg)) hgi
  rintro rfl
  exact hne hgi.symm

theorem modify (hmem : h ∈ hs) : Cache disk (update bufs h.buf { bufs h.buf with data := v })
      ({ h with pending := true } :: hs.erase h) (update contents (bufs h.buf).sector v) := by
  obtain ⟨hvalid, -⟩ := hc.held h hmem
  have hold := (forall_update_iff bufs (b := { bufs h.buf with data := v }) fun j b ↦
    b.valid = (bufs j).valid ∧ b.sector = (bufs j).sector).mpr ⟨⟨rfl, rfl⟩, fun _ _ ↦ ⟨rfl, rfl⟩⟩
  have hv := fun j ↦ (hold j).1
  have hs' := fun j ↦ (hold j).2
  refine ⟨fun j hj ↦ ?_, fun g hg ↦ ?_, fun j k hj hk he ↦ ?_, fun j hj ↦ ?_, fun j hj hp ↦ ?_, fun y hy ↦ ?_⟩
  · exact hc.range j (hv j ▸ hj)
  · rw [hv, hs']
    exact hc.held_replace hmem true g hg
  · rw [hs', hs'] at he
    exact hc.unique j k (hv j ▸ hj) (hv k ▸ hk) he
  · rw [hv] at hj
    by_cases hjb : j = h.buf
    · rw [hjb, update_self]
      exact (update_self (bufs h.buf).sector v contents).symm
    · rw [update_of_ne hjb, update_of_ne fun he ↦ hjb (hc.unique j _ hj hvalid he)]
      exact hc.data j hj
  · rw [hv] at hj
    have hjb : j ≠ h.buf := by
      rintro rfl
      cases hp _ mem_cons_self rfl
    rw [update_of_ne hjb]
    exact hc.clean_replace true hj hjb hp
  · have hy' : ∀ j, (bufs j).valid → (bufs j).sector ≠ y := fun j hj ↦ by
      have := hy j (by rwa [hv])
      rwa [hs'] at this
    rw [update_of_ne (hy' _ hvalid).symm]
    exact hc.rest y hy'

theorem write (hmem : h ∈ hs) :
    Cache (update disk (bufs h.buf).sector (bufs h.buf).data) bufs
      ({ h with pending := false } :: hs.erase h) contents := by
  obtain ⟨hvalid, -⟩ := hc.held h hmem
  refine ⟨hc.range, hc.held_replace hmem false, hc.unique, hc.data, fun j hj hp ↦ ?_, fun y hy ↦ ?_⟩
  · by_cases hjb : j = h.buf
    · rw [hjb, update_self]
    · rw [update_of_ne fun he ↦ hjb (hc.unique j _ hj hvalid he)]
      exact hc.clean_replace false hj hjb hp
  · rw [update_of_ne (hy _ hvalid).symm]
    exact hc.rest y hy

end

end Cache

theorem pc_update (p : Pc) (hidle : ∀ u ≠ t, s.pc u = .idle) (u : Tid) :
    update s.pc t p u = .idle ∨ u = t ∧ update s.pc t p u = p := by
  by_cases hu : u = t
  · exact .inr ⟨hu, hu ▸ update_self ..⟩
  · exact .inl ((update_of_ne hu ..).trans (hidle u hu))

namespace Inv

section

variable (hinv : Inv s)

include hinv

theorem alone (ht : s.pc t ≠ .idle) {u : Tid} (hu : u ≠ t) : s.pc u = .idle := by
  by_contra hne
  have := (hinv.lock u hne).symm.trans (hinv.lock t ht)
  exact hu (Option.some.inj this)

theorem nobody (hl : s.lock = none) (u : Tid) : s.pc u = .idle := by
  by_contra hne
  cases hl.symm.trans (hinv.lock u hne)

theorem notDirty_update {b : Buf} (hb : b.dirty = false) : ∀ j, (update s.bufs i b j).dirty = false :=
  (forall_update_iff s.bufs fun _ b ↦ b.dirty = false).mpr ⟨hb, fun j _ ↦ hinv.notDirty j⟩

theorem bread (hl : s.lock = none) : Inv { s with lock := some t, pc := update s.pc t (.scan x) } := by
  have hpc := pc_update (.scan x) fun u (_ : u ≠ t) ↦ hinv.nobody hl u
  refine ⟨hinv.cache, hinv.notDirty, fun u hu ↦ ?_, fun u i y hu ↦ ?_, fun i _ ↦ ?_, fun u i y hu ↦ ?_⟩
  · obtain ⟨rfl, -⟩ := (hpc u).resolve_left hu
    rfl
  · rcases hpc u with h | ⟨-, h⟩ <;> cases h.symm.trans hu
  · exact hinv.ref i fun u y hu ↦ by cases (hinv.nobody hl u).symm.trans hu
  · rcases hpc u with h | ⟨-, h⟩ <;> cases h.symm.trans hu

theorem done (ht : s.pc t ≠ .idle) {b : Buf} (hdirty : b.dirty = false)
    (href : b.refcnt = users s.handles i + 1) (hfill : ∀ j y, s.pc t = .fill j y → j = i)
    (hcache : Cache s.disk (update s.bufs i b) (⟨t, i, x, false⟩ :: s.handles) s.contents) :
    Inv ((s.setBuf i b).done t i x) := by
  have hidle := (forall_update_iff s.pc fun _ p ↦ p = .idle).mpr ⟨rfl, fun _ hu ↦ hinv.alone ht hu⟩
  refine ⟨hcache, hinv.notDirty_update hdirty, fun u hu ↦ absurd (hidle u) hu, fun u j y hu ↦ ?_, fun j _ ↦ ?_,
    fun u j y hu ↦ ?_⟩
  · cases (hidle u).symm.trans hu
  · change (update s.bufs i b j).refcnt = users (⟨t, i, x, false⟩ :: s.handles) j
    rw [users_cons]
    by_cases hj : j = i
    · rw [hj, update_self, href, if_pos rfl]
    · rw [update_of_ne hj, if_neg fun he ↦ hj he.symm, hinv.ref j, Nat.add_zero]
      intro u y hu
      by_cases hut : u = t
      · exact hj (hfill j y (hut ▸ hu))
      · cases (hinv.alone ht hut).symm.trans hu
  · cases (hidle u).symm.trans hu

theorem retarget (hpc : s.pc t = .scan x) (hi : i < nbuf) (hfree : (s.bufs i).refcnt = 0)
    (hnone : ∀ j, (s.bufs j).valid → (s.bufs j).sector ≠ x) : Inv (s.retarget t i x) := by
  have ht : s.pc t ≠ .idle := by simp [hpc]
  have hnofill : ∀ u j y, s.pc u ≠ .fill j y := fun u j y hu ↦ by
    by_cases hut : u = t
    · rw [hut, hpc] at hu
      cases hu
    · cases (hinv.alone ht hut).symm.trans hu
  have husers : users s.handles i = 0 := by rw [← hinv.ref i fun u y ↦ hnofill u i y, hfree]
  have hpc' := pc_update (.fill i x) fun _ hu ↦ hinv.alone ht hu
  refine ⟨hinv.cache.drop husers rfl, hinv.notDirty_update rfl, fun u hu ↦ ?_, fun u j y hu ↦ ?_, fun j hj ↦ ?_,
    fun u j y hu ↦ ?_⟩
  · obtain ⟨rfl, -⟩ := (hpc' u).resolve_left hu
    exact hinv.lock u ht
  · rcases hpc' u with h | ⟨-, h⟩ <;> cases h.symm.trans hu
  · have hji : j ≠ i := by
      rintro rfl
      exact hj t x (update_self ..)
    exact (congrArg Buf.refcnt (update_of_ne hji ..)).trans (hinv.ref j fun u y ↦ hnofill u j y)
  · rcases hpc' u with h | ⟨-, h⟩
    · cases h.symm.trans hu
    · cases h.symm.trans hu
      change _ ∧ (update s.bufs i _ i).valid = false ∧ (update s.bufs i _ i).sector = x ∧
        (update s.bufs i _ i).refcnt = 1 ∧ _ ∧ ∀ j, (update s.bufs i _ j).valid → (update s.bufs i _ j).sector ≠ x
      rw [update_self]
      refine ⟨hi, rfl, rfl, rfl, husers, fun j hj ↦ ?_⟩
      have hji : j ≠ i := by
        rintro rfl
        rw [update_self] at hj
        cases hj
      rw [update_of_ne hji] at hj ⊢
      exact hnone j hj

theorem breadStep (hs : s.breadStep t = some s') : Inv s' := by
  unfold System.breadStep at hs
  cases hpc : s.pc t with
  | idle => simp [hpc] at hs
  | writeBack i y => exact absurd hpc (hinv.noWriteBack t i y)
  | scan y =>
    have ht : s.pc t ≠ .idle := by simp [hpc]
    rw [hpc] at hs
    simp only at hs
    cases hc : s.cached y with
    | some i =>
      obtain ⟨hsec, hvalid⟩ := cached_some hc
      rw [hc] at hs
      cases hs
      refine hinv.done ht (hinv.notDirty i) ?_ (by simp [hpc]) ?_
      · refine congrArg (· + 1) (hinv.ref i fun u z hu ↦ ?_)
        rw [(hinv.fill u i z hu).2.1] at hvalid
        cases hvalid
      · refine (hsec ▸ hinv.cache.cons hvalid).congr fun j ↦ ?_
        by_cases hj : j = i
        · rw [hj, update_self]
          exact ⟨rfl, rfl, rfl⟩
        · rw [update_of_ne hj]
          exact ⟨rfl, rfl, rfl⟩
    | none =>
      rw [hc] at hs
      cases hu : s.unreferenced with
      | none => simp [hu] at hs
      | some i =>
        obtain ⟨hi, hfree⟩ := unreferenced_some hu
        rw [hu] at hs
        simp only [hinv.notDirty i, Bool.false_eq_true, if_false, Option.some.injEq] at hs
        subst hs
        exact hinv.retarget hpc hi hfree (cached_none hinv hc)
  | fill i y =>
    obtain ⟨hi, hinvalid, hsec, href, husers, hnone⟩ := hinv.fill t i y hpc
    rw [hpc] at hs
    cases hs
    refine hinv.done (by simp [hpc]) (hinv.notDirty i) (by rw [husers]; exact href) ?_ ?_
    · intro j z hz
      rw [hpc] at hz
      cases hz
      rfl
    · have hload := hinv.cache.load hi hinvalid hnone (b := { s.bufs i with data := s.disk y, valid := true })
        hsec rfl
      have hcons := hload.cons (t := t) (by rw [update_self])
      rwa [update_self, hsec] at hcons

theorem rewrite (hpc : s'.pc = s.pc) (hlock : s'.lock = s.lock)
    (hbufs : ∀ j, (s'.bufs j).valid = (s.bufs j).valid ∧ (s'.bufs j).sector = (s.bufs j).sector ∧
      (s'.bufs j).refcnt = (s.bufs j).refcnt ∧ (s'.bufs j).dirty = false)
    (husers : ∀ j, users s'.handles j = users s.handles j)
    (hcache : Cache s'.disk s'.bufs s'.handles s'.contents) : Inv s' := by
  refine ⟨hcache, fun j ↦ (hbufs j).2.2.2, ?_, ?_, fun j hj ↦ ?_, fun u j y hu ↦ ?_⟩
  · rw [hpc, hlock]
    exact hinv.lock
  · rw [hpc]
    exact hinv.noWriteBack
  · rw [(hbufs j).2.2.1, husers]
    exact hinv.ref j (hpc ▸ hj)
  · rw [hpc] at hu
    obtain ⟨hj, hinvalid, hsec, href, hzero, hnone⟩ := hinv.fill u j y hu
    rw [(hbufs j).1, (hbufs j).2.1, (hbufs j).2.2.1, husers]
    refine ⟨hj, hinvalid, hsec, href, hzero, fun k hk ↦ ?_⟩
    rw [(hbufs k).1] at hk
    rw [(hbufs k).2.1]
    exact hnone k hk

theorem modify (hmem : h ∈ s.handles) (f : Sector → Sector) : Inv (s.modify h f) := by
  refine hinv.rewrite rfl rfl (fun j ↦ ?_) (fun j ↦ users_replace hmem rfl) (hinv.cache.modify hmem)
  by_cases hj : j = h.buf
  · simp only [System.modify, System.setBuf, hj, update_self, hinv.notDirty, and_self]
  · simp only [System.modify, System.setBuf, update_of_ne hj, hinv.notDirty, and_self]

theorem bwrite (hmem : h ∈ s.handles) : Inv (s.bwrite h) := by
  have hbufs : (s.bwrite h).bufs = s.bufs := by
    refine (congrArg (update s.bufs h.buf) ?_).trans (update_eq_self _ _)
    rw [← hinv.notDirty h.buf]
  refine hinv.rewrite rfl rfl (fun j ↦ ?_) (fun j ↦ users_replace hmem rfl) ?_
  · rw [hbufs]
    exact ⟨rfl, rfl, rfl, hinv.notDirty j⟩
  · rw [hbufs]
    exact hinv.cache.write hmem

theorem brelse (hmem : h ∈ s.handles) (hp : h.pending = false) (hs : s.brelse h = some s') : Inv s' := by
  obtain ⟨⟨hlock, -⟩, hs⟩ := ite_none_right_eq_some.mp hs
  cases hs
  have hidle := hinv.nobody hlock
  have hbufs : ∀ j, (update s.bufs h.buf { s.bufs h.buf with refcnt := (s.bufs h.buf).refcnt - 1 } j) =
      { s.bufs j with refcnt := (s.bufs j).refcnt - if h.buf = j then 1 else 0 } := by
    intro j
    by_cases hj : h.buf = j
    · rw [← hj, update_self, if_pos rfl]
    · rw [update_of_ne (Ne.symm hj), if_neg hj, Nat.sub_zero]
  refine ⟨(hinv.cache.erase hp).congr fun j ↦ ?_, fun j ↦ ?_, hinv.lock, hinv.noWriteBack, fun j _ ↦ ?_,
    fun u j y hu ↦ ?_⟩
  · have hb := hbufs j
    exact ⟨(congrArg Buf.valid hb :), (congrArg Buf.sector hb :), (congrArg Buf.data hb :)⟩
  · exact (congrArg Buf.dirty (hbufs j)).trans (hinv.notDirty j)
  · refine (congrArg Buf.refcnt (hbufs j)).trans ?_
    have href := hinv.ref j fun u y hu ↦ by cases (hidle u).symm.trans hu
    have herase := users_erase (i := j) hmem
    change (s.bufs j).refcnt - _ = users (s.handles.erase h) j
    omega
  · cases (hidle u).symm.trans hu

theorem step {x : Tid × Act} (hok : WrittenFirst s x) (hs : s.step x = some s') : Inv s' := by
  obtain ⟨t, a⟩ := x
  cases a with
  | bread x =>
    obtain ⟨⟨-, hlock⟩, hs⟩ := ite_none_right_eq_some.mp hs
    cases hs
    exact hinv.bread hlock
  | go => exact hinv.breadStep hs
  | modify h f =>
    obtain ⟨⟨-, hmem, -⟩, hs⟩ := ite_none_right_eq_some.mp hs
    cases hs
    exact hinv.modify hmem f
  | bwrite h =>
    obtain ⟨⟨-, hmem, -⟩, hs⟩ := ite_none_right_eq_some.mp hs
    cases hs
    exact hinv.bwrite hmem
  | brelse h =>
    obtain ⟨⟨-, hmem, -⟩, hs⟩ := ite_none_right_eq_some.mp hs
    exact hinv.brelse hmem (Bool.not_eq_true' _ ▸ hok) hs

end

theorem init (disk : Nat → Sector) : Inv (System.init disk) where
  cache := ⟨nofun, nofun, nofun, nofun, nofun, fun _ _ ↦ rfl⟩
  notDirty _ := rfl
  lock _ h := absurd rfl h
  noWriteBack _ _ _ := nofun
  ref _ _ := rfl
  fill _ _ _ := nofun

theorem refines (hinv : Inv s) : s.Refines where
  unique := hinv.cache.unique
  referenced := hinv.cache.held
  unreferenced i hi h0 := by
    have husers : users s.handles i = 0 := by
      rw [← hinv.ref i fun t x ht ↦ ?_, h0]
      have := (hinv.fill t i x ht).2.1
      rw [hi] at this
      cases this
    exact hinv.cache.clean i hi fun h hh he ↦ absurd he (users_eq_zero.mp husers h hh)
  latest h hh := by
    obtain ⟨hvalid, hsec⟩ := hinv.cache.held h hh
    rw [hinv.cache.data _ hvalid, hsec]

end Inv

end Rxv6.Filesys.Bio
