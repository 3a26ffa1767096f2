import Rxv6.Lib.Runs
import Rxv6.Vm.State

namespace Rxv6.Vm.PageTables

open Function Rxv6.Lib.Runs Option

abbrev Word := BitVec 32

def pteP : Word := 0x1

def pteW : Word := 0x2

def pteU : Word := 0x4

def pteA : Word := 0x20

def pteD : Word := 0x40

def pteAddr : Word := 0xFFFFF000

structure IsPage (p : Nat) : Prop where
  kernel : physBase ≤ p
  below : p < 2 ^ 32
  aligned : p % pgsize = 0

def vtop (p : Nat) : Word := BitVec.ofNat 32 (p - physBase)

def ptov (w : Word) : Nat := w.toNat + physBase

def tableWord (pt : Nat) : Word := vtop pt ||| pteP ||| pteW ||| pteU

def pageWord (kpage : Nat) (writable : Bool) : Word :=
  vtop kpage ||| (pteP ||| pteU ||| if writable then pteW else 0#32)

def decode (w : Word) : Option Pte :=
  if w &&& pteP = 0#32 then none
  else some ⟨ptov (w &&& pteAddr), w &&& pteW ≠ 0#32, w &&& pteA ≠ 0#32, w &&& pteD ≠ 0#32⟩

section Words

variable {p q i j : Nat} {w f m : Word}

section

variable (hp : IsPage p)
include hp

theorem IsPage.word_eq_iff (hq : IsPage q) (hi : i < 1024) (hj : j < 1024) :
    p + 4 * i = q + 4 * j ↔ p = q ∧ i = j := by
  have hp := hp.aligned
  have hq := hq.aligned
  simp only [pgsize] at hp hq
  omega

theorem IsPage.outside (hq : IsPage q) (hne : p ≠ q) (hi : i < 1024) :
    ¬ (q ≤ p + 4 * i ∧ p + 4 * i < q + pgsize) := by
  have hp := hp.aligned
  have hq := hq.aligned
  simp only [pgsize] at *
  omega

theorem ptov_vtop : ptov (vtop p) = p := by
  have hk := hp.kernel
  have hb := hp.below
  rw [ptov, vtop, BitVec.toNat_ofNat]
  omega

theorem vtop_and_low : vtop p &&& 0xFFF#32 = 0#32 := by
  have hb := hp.below
  have ha := hp.aligned
  have hbase : physBase = 786432 * 4096 := rfl
  apply BitVec.eq_of_toNat_eq
  rw [BitVec.toNat_and, vtop, BitVec.toNat_ofNat, Nat.mod_eq_of_lt (by omega)]
  change (p - physBase) &&& (2 ^ 12 - 1) = 0
  rw [Nat.and_two_pow_sub_one_eq_mod]
  simp only [pgsize] at ha
  omega

theorem vtop_or_and (hm : 0xFFF#32 &&& m = m) : (vtop p ||| f) &&& m = f &&& m := by
  have hzero : vtop p &&& m = 0#32 := by rw [← hm, ← BitVec.and_assoc, vtop_and_low hp, BitVec.zero_and]
  rw [BitVec.and_or_distrib_right, hzero, BitVec.zero_or]

theorem vtop_or_addr (hf : f &&& pteAddr = 0#32) : (vtop p ||| f) &&& pteAddr = vtop p := by
  have hkeep : vtop p &&& pteAddr = vtop p := by
    have hsplit : (vtop p &&& pteAddr) ||| (vtop p &&& 0xFFF#32) = vtop p := by
      rw [← BitVec.and_or_distrib_left]
      exact BitVec.and_allOnes
    rwa [vtop_and_low hp, BitVec.or_zero] at hsplit
  rw [BitVec.and_or_distrib_right, hf, hkeep, BitVec.or_zero]

end

theorem tableWord_eq : tableWord p = vtop p ||| (pteP ||| pteW ||| pteU) := by
  simp only [tableWord, BitVec.or_assoc]

theorem tableWord_addr (hp : IsPage p) : ptov (tableWord p &&& pteAddr) = p := by
  rw [tableWord_eq, vtop_or_addr hp (by decide), ptov_vtop hp]

theorem tableWord_present (hp : IsPage p) : tableWord p &&& pteP ≠ 0#32 := by
  rw [tableWord_eq, vtop_or_and hp (by decide)]
  decide

theorem tableWord_ne_zero (hp : IsPage p) : tableWord p ≠ 0#32 := by
  intro h
  exact tableWord_present hp (by rw [h, BitVec.zero_and])

@[simp] theorem decode_zero : decode 0#32 = none := rfl

theorem decode_pageWord (hp : IsPage p) (b : Bool) : decode (pageWord p b) = some ⟨p, b, false, false⟩ := by
  have haddr : pageWord p b &&& pteAddr = vtop p := vtop_or_addr hp (by cases b <;> decide)
  have hflag : ∀ m : Word, 0xFFF#32 &&& m = m →
      pageWord p b &&& m = (pteP ||| pteU ||| if b then pteW else 0#32) &&& m := fun m hm ↦ vtop_or_and hp hm
  rw [decode, haddr, ptov_vtop hp, hflag pteP (by decide), hflag pteW (by decide), hflag pteA (by decide),
    hflag pteD (by decide)]
  cases b <;> rfl

theorem decode_setAccessed :
    decode (w ||| pteA) = (decode w).map fun e ↦ { e with accessed := true } := by
  have hkeep : ∀ m : Word, pteA &&& m = 0#32 → (w ||| pteA) &&& m = w &&& m := fun m hm ↦ by
    rw [BitVec.and_or_distrib_right, hm, BitVec.or_zero]
  have hset : (w ||| pteA) &&& pteA ≠ 0#32 := by
    rw [BitVec.and_or_distrib_right]
    intro h
    exact absurd (BitVec.or_eq_zero_iff.mp h).2 (by decide)
  rw [decode, decode, hkeep pteP (by decide), hkeep pteW (by decide), hkeep pteD (by decide),
    hkeep pteAddr (by decide)]
  split <;> simp [hset]

theorem decode_clearAccessed :
    decode (w &&& ~~~pteA) = (decode w).map fun e ↦ { e with accessed := false } := by
  have hkeep : ∀ m : Word, ~~~pteA &&& m = m → w &&& ~~~pteA &&& m = w &&& m := fun m hm ↦ by
    rw [BitVec.and_assoc, hm]
  have hclear : w &&& ~~~pteA &&& pteA = 0#32 := by
    rw [BitVec.and_assoc, show ~~~pteA &&& pteA = 0#32 by decide, BitVec.and_zero]
  rw [decode, decode, hkeep pteP (by decide), hkeep pteW (by decide), hkeep pteD (by decide),
    hkeep pteAddr (by decide)]
  split <;> simp [hclear]

end Words

/-- The words of memory by their kernel address, and the pages that `palloc` has handed out. `dirs` are
the directories that `create` has made, `created` the tables that `lookup` has made for them. -/
structure State where
  mem : Nat → Word
  initPageDir : Nat
  used : Finset Nat
  dirs : Finset Nat
  created : List (Nat × Nat)

def zeroed (mem : Nat → Word) (page : Nat) : Nat → Word :=
  fun x ↦ if page ≤ x ∧ x < page + pgsize then 0#32 else mem x

def copied (mem : Nat → Word) (src dst : Nat) : Nat → Word :=
  fun x ↦ if dst ≤ x ∧ x < dst + 4 * 1024 then mem (src + (x - dst)) else mem x

namespace State

variable (s : State)

/-- `page` is what `palloc::get_page` returns. -/
def create (page : Option Nat) : Option Nat × State :=
  match page with
  | none => (none, s)
  | some pd =>
    (some pd, { s with
      mem := copied (zeroed s.mem pd) s.initPageDir pd
      used := insert pd s.used
      dirs := insert pd s.dirs })

def table (pd i : Nat) : Nat := ptov (s.mem (pd + 4 * i) &&& pteAddr)

def slot (pd va : Nat) : Nat := s.table pd (pdeIdx va) + 4 * pteIdx va

/-- `lookup` with a null result as `none`. -/
def lookup (pd va : Nat) (create : Bool) (page : Option Nat) : Option Nat × State :=
  let pde := pd + 4 * pdeIdx va
  if s.mem pde = 0#32 then
    if create then
      match page with
      | none => (none, s)
      | some pt =>
        let s := { s with
          mem := update (zeroed s.mem pt) pde (tableWord pt)
          used := insert pt s.used
          created := (pd, pt) :: s.created }
        (some (s.slot pd va), s)
    else (none, s)
  else (some (s.slot pd va), s)

def setPage (pd upage kpage : Nat) (writable : Bool) (page : Option Nat) : Bool × State :=
  match s.lookup pd upage true page with
  | (none, s) => (false, s)
  | (some pte, s) => (true, { s with mem := update s.mem pte (pageWord kpage writable) })

def getPage (pd uaddr : Nat) : Option Nat :=
  match (s.lookup pd uaddr false none).1 with
  | none => none
  | some pte =>
    if s.mem pte &&& pteP = 0#32 then none else some (ptov (s.mem pte &&& pteAddr) + uaddr % pgsize)

def clearPage (pd upage : Nat) : State :=
  match (s.lookup pd upage false none).1 with
  | none => s
  | some pte => { s with mem := update s.mem pte 0#32 }

def isAccessed (pd upage : Nat) : Bool :=
  match (s.lookup pd upage false none).1 with
  | none => false
  | some pte => s.mem pte &&& pteA ≠ 0#32

def setAccessed (pd upage : Nat) (val : Bool) : State :=
  match (s.lookup pd upage false none).1 with
  | none => s
  | some pte => { s with mem := update s.mem pte (if val then s.mem pte ||| pteA else s.mem pte &&& ~~~pteA) }

def isDirty (pd upage : Nat) : Bool :=
  match (s.lookup pd upage false none).1 with
  | none => false
  | some pte => s.mem pte &&& pteD ≠ 0#32

def pte (pd va : Nat) : Word := if s.mem (pd + 4 * pdeIdx va) = 0#32 then 0#32 else s.mem (s.slot pd va)

variable {s} {pd va : Nat}

theorem lookup_none (h : s.mem (pd + 4 * pdeIdx va) = 0#32) : (s.lookup pd va false none).1 = none := by
  simp [lookup, h]

theorem lookup_some (h : s.mem (pd + 4 * pdeIdx va) ≠ 0#32) (create : Bool) (page : Option Nat) :
    s.lookup pd va create page = (some (s.slot pd va), s) := by
  simp [lookup, h]

theorem pte_none (h : s.mem (pd + 4 * pdeIdx va) = 0#32) : s.pte pd va = 0#32 := if_pos h

theorem pte_some (h : s.mem (pd + 4 * pdeIdx va) ≠ 0#32) : s.pte pd va = s.mem (s.slot pd va) := if_neg h

theorem getPage_eq : s.getPage pd va = (decode (s.pte pd va)).map (·.kpage + va % pgsize) := by
  by_cases h : s.mem (pd + 4 * pdeIdx va) = 0#32
  · simp only [getPage, lookup_none h, pte_none h, decode_zero, map_none]
  · simp only [getPage, lookup_some h, pte_some h, decode]
    split <;> rfl

theorem isAccessed_eq : s.isAccessed pd va = decide (s.pte pd va &&& pteA ≠ 0#32) := by
  by_cases h : s.mem (pd + 4 * pdeIdx va) = 0#32
  · simp only [isAccessed, lookup_none h, pte_none h]
    rfl
  · simp only [isAccessed, lookup_some h, pte_some h]

/-- The directory entries `0 .. PHYS_BASE >> 22` are those of user addresses. -/
def userPdes : Nat := physBase / 2 ^ 22

theorem pdeIdx_lt (h : va < physBase) : pdeIdx va < userPdes := by
  simp only [pdeIdx, userPdes, physBase] at *
  omega

theorem pteIdx_lt : pteIdx va < 1024 := Nat.mod_lt _ (by decide)

/-- Entry `i` of directory `pd` points to the page table `pt`. -/
structure HasTable (s : State) (pd i pt : Nat) : Prop where
  dir : pd ∈ s.dirs
  user : i < userPdes
  page : IsPage pt
  word : s.mem (pd + 4 * i) = tableWord pt

/-- The directories and their tables are distinct pages in use. `kernel` is the content of the initial
directory. -/
structure Sound (kernel : Nat → Word) (s : State) : Prop where
  blank : ∀ i < userPdes, kernel i = 0#32
  initPage : IsPage s.initPageDir
  initUsed : s.initPageDir ∈ s.used
  initKept : ∀ i < 1024, s.mem (s.initPageDir + 4 * i) = kernel i
  dirPage : ∀ pd ∈ s.dirs, IsPage pd ∧ pd ∈ s.used ∧ pd ≠ s.initPageDir
  half : ∀ pd ∈ s.dirs, ∀ i, userPdes ≤ i → i < 1024 → s.mem (pd + 4 * i) = kernel i
  table : ∀ pd ∈ s.dirs, ∀ i < userPdes, s.mem (pd + 4 * i) ≠ 0#32 → ∃ pt, s.HasTable pd i pt
  tablePage : ∀ pd i pt, s.HasTable pd i pt → pt ∈ s.used ∧ pt ∉ s.dirs ∧ pt ≠ s.initPageDir
  distinct : ∀ pd i pd' i' pt, s.HasTable pd i pt → s.HasTable pd' i' pt → pd = pd' ∧ i = i'

variable {kernel : Nat → Word} {i pt : Nat} {mem : Nat → Word}

theorem HasTable.table_eq (h : s.HasTable pd i pt) : s.table pd i = pt := by
  rw [table, h.word, tableWord_addr h.page]

theorem HasTable.ne_zero (h : s.HasTable pd i pt) : s.mem (pd + 4 * i) ≠ 0#32 := by
  rw [h.word]
  exact tableWord_ne_zero h.page

theorem HasTable.slot_eq (h : s.HasTable pd (pdeIdx va) pt) : s.slot pd va = pt + 4 * pteIdx va := by
  rw [slot, h.table_eq]

theorem HasTable.pte_eq (h : s.HasTable pd (pdeIdx va) pt) : s.pte pd va = s.mem (pt + 4 * pteIdx va) := by
  rw [pte_some h.ne_zero, h.slot_eq]

theorem userPdes_lt : userPdes < 1024 := by decide

theorem hasTable_congr {q : Nat}
    (hdir : ∀ pd ∈ s.dirs, ∀ i < 1024, mem (pd + 4 * i) = s.mem (pd + 4 * i)) :
    HasTable { s with mem := mem } q i pt ↔ s.HasTable q i pt := by
  have hlt := userPdes_lt
  constructor
  · intro h
    exact ⟨h.dir, h.user, h.page, (hdir q h.dir i (h.user.trans hlt)).symm.trans h.word⟩
  · intro h
    exact ⟨h.dir, h.user, h.page, (hdir q h.dir i (h.user.trans hlt)).trans h.word⟩

theorem Sound.congr (hs : Sound kernel s)
    (hinit : ∀ i < 1024, mem (s.initPageDir + 4 * i) = s.mem (s.initPageDir + 4 * i))
    (hdir : ∀ pd ∈ s.dirs, ∀ i < 1024, mem (pd + 4 * i) = s.mem (pd + 4 * i)) :
    Sound kernel { s with mem := mem } where
  blank := hs.blank
  initPage := hs.initPage
  initUsed := hs.initUsed
  initKept i hi := (hinit i hi).trans (hs.initKept i hi)
  dirPage := hs.dirPage
  half pd hpd i hi hi' := (hdir pd hpd i hi').trans (hs.half pd hpd i hi hi')
  table := by
    intro pd hpd i hi hne
    change mem (pd + 4 * i) ≠ 0#32 at hne
    rw [hdir pd hpd i (hi.trans userPdes_lt)] at hne
    obtain ⟨pt, hpt⟩ := hs.table pd hpd i hi hne
    exact ⟨pt, (hasTable_congr hdir).mpr hpt⟩
  tablePage pd i pt h := hs.tablePage pd i pt ((hasTable_congr hdir).mp h)
  distinct pd i pd' i' pt h h' :=
    hs.distinct pd i pd' i' pt ((hasTable_congr hdir).mp h) ((hasTable_congr hdir).mp h')

/-- The state after a store through the pointer of `lookup`. -/
def store (s : State) (pd va : Nat) (w : Word) : State := { s with mem := update s.mem (s.slot pd va) w }

theorem store_mem {q : Nat} {w : Word} (ht : s.HasTable pd (pdeIdx va) pt)
    (hq : IsPage q) (hne : q ≠ pt) (hi : i < 1024) : (s.store pd va w).mem (q + 4 * i) = s.mem (q + 4 * i) := by
  refine update_of_ne (fun h ↦ hne ?_) _ _
  rw [ht.slot_eq, hq.word_eq_iff ht.page hi pteIdx_lt] at h
  exact h.1

section

variable (hs : Sound kernel s) (hpd : pd ∈ s.dirs) (hva : va < physBase)
  (ht : s.mem (pd + 4 * pdeIdx va) ≠ 0#32) (w : Word)
include hs hpd hva ht w

theorem Sound.store_dirs :
    ∀ q ∈ s.dirs, ∀ i < 1024, (s.store pd va w).mem (q + 4 * i) = s.mem (q + 4 * i) := by
  intro q hq i hi
  obtain ⟨pt, hpt⟩ := hs.table pd hpd _ (pdeIdx_lt hva) ht
  obtain ⟨-, hnotDir, -⟩ := hs.tablePage _ _ _ hpt
  exact store_mem hpt (hs.dirPage q hq).1 (fun h ↦ hnotDir (h ▸ hq)) hi

theorem Sound.store :
    Sound kernel (s.store pd va w) ∧ ∀ pd' ∈ s.dirs, ∀ va' < physBase, (s.store pd va w).pte pd' va' =
      if pd' = pd ∧ va' / pgsize = va / pgsize then w else s.pte pd' va' := by
  have hdirs := hs.store_dirs hpd hva ht w
  obtain ⟨pt, hpt⟩ := hs.table pd hpd _ (pdeIdx_lt hva) ht
  obtain ⟨-, -, hnotInit⟩ := hs.tablePage _ _ _ hpt
  refine ⟨hs.congr (fun i hi ↦ store_mem hpt hs.initPage (symm hnotInit) hi) hdirs, fun pd' hpd' va' hva' ↦ ?_⟩
  have hpde := hdirs pd' hpd' (pdeIdx va') ((pdeIdx_lt hva').trans userPdes_lt)
  by_cases hz : s.mem (pd' + 4 * pdeIdx va') = 0#32
  · have hnone : (s.store pd va w).pte pd' va' = 0#32 := pte_none (hpde.trans hz)
    rw [hnone, pte_none hz, if_neg]
    rintro ⟨rfl, hpage⟩
    rw [(Pagedir.idx_eq_iff.mpr hpage).1] at hz
    exact ht hz
  · obtain ⟨pt', hpt'⟩ := hs.table pd' hpd' _ (pdeIdx_lt hva') hz
    have hnew : (s.store pd va w).HasTable pd' (pdeIdx va') pt' := (hasTable_congr hdirs).mpr hpt'
    rw [hnew.pte_eq, hpt'.pte_eq]
    by_cases hsame : pd' = pd ∧ va' / pgsize = va / pgsize
    · obtain ⟨rfl, hpage⟩ := hsame
      obtain ⟨hd, hp⟩ := Pagedir.idx_eq_iff.mpr hpage
      have hslot : s.slot pd' va' = s.slot pd' va := by rw [slot, slot, hd, hp]
      rw [if_pos ⟨rfl, hpage⟩, ← hpt'.slot_eq, hslot]
      exact update_self ..
    · rw [if_neg hsame]
      refine update_of_ne (fun h ↦ hsame ?_) _ _
      rw [hpt.slot_eq, hpt'.page.word_eq_iff hpt.page pteIdx_lt pteIdx_lt] at h
      obtain ⟨rfl, hp⟩ := h
      obtain ⟨rfl, hd⟩ := hs.distinct _ _ _ _ _ hpt' hpt
      exact ⟨rfl, Pagedir.idx_eq_iff.mp ⟨hd, hp⟩⟩

end

/-- The state after `lookup` has made the table `pt` for an address. -/
def addTable (s : State) (pd va pt : Nat) : State :=
  { s with
    mem := update (zeroed s.mem pt) (pd + 4 * pdeIdx va) (tableWord pt)
    used := insert pt s.used
    created := (pd, pt) :: s.created }

theorem lookup_addTable (h : s.mem (pd + 4 * pdeIdx va) = 0#32) :
    s.lookup pd va true (some pt) = (some ((s.addTable pd va pt).slot pd va), s.addTable pd va pt) := by
  simp [lookup, h, addTable]

theorem addTable_mem {q : Nat} (hpd : IsPage pd) (hpt : IsPage pt) (hne : pd ≠ pt) (hva : va < physBase)
    (hq : IsPage q) (hi : i < 1024) : (s.addTable pd va pt).mem (q + 4 * i) =
      if q = pd ∧ i = pdeIdx va then tableWord pt else if q = pt then 0#32 else s.mem (q + 4 * i) := by
  have hidx := (pdeIdx_lt hva).trans userPdes_lt
  by_cases hpde : q = pd ∧ i = pdeIdx va
  · obtain ⟨rfl, rfl⟩ := hpde
    rw [if_pos ⟨rfl, rfl⟩]
    exact update_self ..
  · rw [if_neg hpde]
    have hout : q + 4 * i ≠ pd + 4 * pdeIdx va := fun h ↦ hpde ((hq.word_eq_iff hpd hi hidx).mp h)
    have hsame : (s.addTable pd va pt).mem (q + 4 * i) = zeroed s.mem pt (q + 4 * i) := update_of_ne hout _ _
    rw [hsame, zeroed]
    by_cases hqt : q = pt
    · subst hqt
      have : pgsize = 4096 := rfl
      rw [if_pos (by omega), if_pos rfl]
    · rw [if_neg (hq.outside hpt hqt hi), if_neg hqt]

section AddTable

variable (hs : Sound kernel s) (hpd : pd ∈ s.dirs) (hva : va < physBase)
  (hz : s.mem (pd + 4 * pdeIdx va) = 0#32) (hpt : IsPage pt) (hfresh : pt ∉ s.used)

include hs hpd hva hpt hfresh

theorem Sound.addTable_used {q : Nat} (hq : IsPage q) (hqu : q ∈ s.used) (hi : i < 1024) :
    (s.addTable pd va pt).mem (q + 4 * i) =
      if q = pd ∧ i = pdeIdx va then tableWord pt else s.mem (q + 4 * i) := by
  obtain ⟨hpage, hused, -⟩ := hs.dirPage pd hpd
  have hne : ∀ q ∈ s.used, q ≠ pt := fun q hq h ↦ hfresh (h ▸ hq)
  rw [addTable_mem hpage hpt (hne pd hused) hva hq hi, if_neg (hne q hqu)]

include hz

theorem Sound.hasTable_addTable {q pt' : Nat} : (s.addTable pd va pt).HasTable q i pt' ↔
    q = pd ∧ i = pdeIdx va ∧ pt' = pt ∨ s.HasTable q i pt' := by
  have hlt := userPdes_lt
  have hmem : ∀ q ∈ s.dirs, ∀ i < userPdes, (s.addTable pd va pt).mem (q + 4 * i) =
      if q = pd ∧ i = pdeIdx va then tableWord pt else s.mem (q + 4 * i) := fun q hq i hi ↦
    hs.addTable_used hpd hva hpt hfresh (hs.dirPage q hq).1 (hs.dirPage q hq).2.1 (hi.trans hlt)
  constructor
  · intro h
    have hword := h.word
    rw [hmem q h.dir i h.user] at hword
    split at hword
    · next hsame =>
      refine .inl ⟨hsame.1, hsame.2, ?_⟩
      rw [← tableWord_addr h.page, ← hword, tableWord_addr hpt]
    · exact .inr ⟨h.dir, h.user, h.page, hword⟩
  · rintro (⟨rfl, rfl, rfl⟩ | h)
    · exact ⟨hpd, pdeIdx_lt hva, hpt, by rw [hmem q hpd _ (pdeIdx_lt hva), if_pos ⟨rfl, rfl⟩]⟩
    · refine ⟨h.dir, h.user, h.page, ?_⟩
      rw [hmem q h.dir i h.user, if_neg]
      · exact h.word
      · rintro ⟨rfl, rfl⟩
        exact h.ne_zero hz

theorem Sound.addTable : Sound kernel (s.addTable pd va pt) := by
  have hlt := userPdes_lt
  have hpdInit := (hs.dirPage pd hpd).2.2
  have hmem : ∀ q ∈ s.dirs, ∀ i < 1024, (s.addTable pd va pt).mem (q + 4 * i) =
      if q = pd ∧ i = pdeIdx va then tableWord pt else s.mem (q + 4 * i) := fun q hq i hi ↦
    hs.addTable_used hpd hva hpt hfresh (hs.dirPage q hq).1 (hs.dirPage q hq).2.1 hi
  have hiff : ∀ q i pt', (s.addTable pd va pt).HasTable q i pt' ↔
      q = pd ∧ i = pdeIdx va ∧ pt' = pt ∨ s.HasTable q i pt' := fun q i pt' ↦
    hs.hasTable_addTable hpd hva hz hpt hfresh
  refine {
    blank := hs.blank
    initPage := hs.initPage
    initUsed := Finset.mem_insert_of_mem hs.initUsed
    initKept := ?_
    dirPage := ?_
    half := ?_
    table := ?_
    tablePage := ?_
    distinct := ?_ }
  · intro i hi
    refine (hs.addTable_used hpd hva hpt hfresh hs.initPage hs.initUsed hi).trans ?_
    rw [if_neg fun h ↦ hpdInit h.1.symm]
    exact hs.initKept i hi
  · intro q hq
    obtain ⟨hpage, hused, hinit⟩ := hs.dirPage q hq
    exact ⟨hpage, Finset.mem_insert_of_mem hused, hinit⟩
  · intro q hq i hi hi'
    rw [hmem q hq i hi', if_neg]
    · exact hs.half q hq i hi hi'
    · rintro ⟨-, rfl⟩
      exact absurd (pdeIdx_lt hva) (not_lt.mpr hi)
  · intro q hq i hi hnz
    by_cases hsame : q = pd ∧ i = pdeIdx va
    · exact ⟨pt, (hiff q i pt).mpr (.inl ⟨hsame.1, hsame.2, rfl⟩)⟩
    · rw [hmem q hq i (hi.trans hlt), if_neg hsame] at hnz
      obtain ⟨pt', hpt'⟩ := hs.table q hq i hi hnz
      exact ⟨pt', (hiff q i pt').mpr (.inr hpt')⟩
  · intro q i pt' h
    rcases (hiff q i pt').mp h with ⟨-, -, rfl⟩ | h
    · exact ⟨Finset.mem_insert_self _ _, fun hd ↦ hfresh (hs.dirPage _ hd).2.1,
        fun hi ↦ hfresh (hi ▸ hs.initUsed)⟩
    · obtain ⟨hu, hd, hi⟩ := hs.tablePage q i pt' h
      exact ⟨Finset.mem_insert_of_mem hu, hd, hi⟩
  · intro q i q' i' pt' h h'
    rcases (hiff q i pt').mp h with ⟨rfl, rfl, rfl⟩ | hq <;>
      rcases (hiff q' i' _).mp h' with ⟨rfl, rfl, he⟩ | hq'
    · exact ⟨rfl, rfl⟩
    · exact absurd (hs.tablePage _ _ _ hq').1 hfresh
    · exact absurd (he ▸ (hs.tablePage _ _ _ hq).1) hfresh
    · exact hs.distinct _ _ _ _ _ hq hq'

theorem Sound.pte_addTable : ∀ pd' ∈ s.dirs, ∀ va' < physBase,
    (s.addTable pd va pt).pte pd' va' = s.pte pd' va' := by
  intro pd' hpd' va' hva'
  obtain ⟨hpage, hused, -⟩ := hs.dirPage pd' hpd'
  by_cases hsame : pd' = pd ∧ pdeIdx va' = pdeIdx va
  · obtain ⟨rfl, hi⟩ := hsame
    have hne : pd' ≠ pt := fun h ↦ hfresh (h ▸ hused)
    have hnew : (s.addTable pd' va pt).HasTable pd' (pdeIdx va') pt :=
      (hs.hasTable_addTable hpd hva hz hpt hfresh).mpr (.inl ⟨rfl, hi, rfl⟩)
    rw [← hi] at hz
    rw [hnew.pte_eq, pte_none hz, addTable_mem hpage hpt hne hva hpt pteIdx_lt,
      if_neg (fun h ↦ hne h.1.symm), if_pos rfl]
  · have hpde : (s.addTable pd va pt).mem (pd' + 4 * pdeIdx va') = s.mem (pd' + 4 * pdeIdx va') := by
      rw [hs.addTable_used hpd hva hpt hfresh hpage hused ((pdeIdx_lt hva').trans userPdes_lt), if_neg hsame]
    by_cases hz' : s.mem (pd' + 4 * pdeIdx va') = 0#32
    · rw [pte_none (hpde.trans hz'), pte_none hz']
    · obtain ⟨pt', hpt'⟩ := hs.table pd' hpd' _ (pdeIdx_lt hva') hz'
      obtain ⟨hu, hd, -⟩ := hs.tablePage _ _ _ hpt'
      have hnew : (s.addTable pd va pt).HasTable pd' (pdeIdx va') pt' :=
        (hs.hasTable_addTable hpd hva hz hpt hfresh).mpr (.inr hpt')
      rw [hnew.pte_eq, hpt'.pte_eq, hs.addTable_used hpd hva hpt hfresh hpt'.page hu pteIdx_lt, if_neg]
      rintro ⟨rfl, -⟩
      exact hd hpd

end AddTable

section Create

variable (hs : Sound kernel s) (hpd : IsPage pd) (hfresh : pd ∉ s.used)

include hpd hfresh

theorem create_used {q : Nat} (hq : IsPage q) (hqu : q ∈ s.used) (hi : i < 1024) :
    (s.create (some pd)).2.mem (q + 4 * i) = s.mem (q + 4 * i) := by
  have hout := hq.outside hpd (fun h ↦ hfresh (h ▸ hqu)) hi
  have hpg : pgsize = 4 * 1024 := rfl
  simp only [create, copied, zeroed, ← hpg, if_neg hout]

include hs

theorem Sound.create_copy (hi : i < 1024) : (s.create (some pd)).2.mem (pd + 4 * i) = kernel i := by
  have hout := hs.initPage.outside hpd (fun h ↦ hfresh (h ▸ hs.initUsed)) hi
  have hin : pd ≤ pd + 4 * i ∧ pd + 4 * i < pd + 4 * 1024 := by omega
  have hofs : s.initPageDir + (pd + 4 * i - pd) = s.initPageDir + 4 * i := by omega
  simp only [create, copied, if_pos hin, hofs, zeroed, if_neg hout]
  exact hs.initKept i hi

theorem Sound.hasTable_create {q : Nat} : (s.create (some pd)).2.HasTable q i pt ↔ s.HasTable q i pt := by
  have hlt := userPdes_lt
  constructor
  · intro h
    rcases Finset.mem_insert.mp h.dir with rfl | hq
    · refine absurd h.word ?_
      rw [hs.create_copy hpd hfresh (h.user.trans hlt), hs.blank i h.user]
      exact symm (tableWord_ne_zero h.page)
    · obtain ⟨hpage, hused, -⟩ := hs.dirPage q hq
      exact ⟨hq, h.user, h.page, (create_used hpd hfresh hpage hused (h.user.trans hlt)).symm.trans h.word⟩
  · intro h
    obtain ⟨hpage, hused, -⟩ := hs.dirPage q h.dir
    exact ⟨Finset.mem_insert_of_mem h.dir, h.user, h.page,
      (create_used hpd hfresh hpage hused (h.user.trans hlt)).trans h.word⟩

theorem Sound.create : Sound kernel (s.create (some pd)).2 := by
  have hlt := userPdes_lt
  have hiff : ∀ q i pt, (s.create (some pd)).2.HasTable q i pt ↔ s.HasTable q i pt := fun q i pt ↦
    hs.hasTable_create hpd hfresh
  refine {
    blank := hs.blank
    initPage := hs.initPage
    initUsed := Finset.mem_insert_of_mem hs.initUsed
    initKept := fun i hi ↦ (create_used hpd hfresh hs.initPage hs.initUsed hi).trans (hs.initKept i hi)
    dirPage := ?_
    half := ?_
    table := ?_
    tablePage := ?_
    distinct := fun q i q' i' pt h h' ↦
      hs.distinct q i q' i' pt ((hiff q i pt).mp h) ((hiff q' i' pt).mp h') }
  · intro q hq
    rcases Finset.mem_insert.mp hq with rfl | hq
    · exact ⟨hpd, Finset.mem_insert_self _ _, fun h ↦ hfresh (h ▸ hs.initUsed)⟩
    · obtain ⟨hpage, hused, hinit⟩ := hs.dirPage q hq
      exact ⟨hpage, Finset.mem_insert_of_mem hused, hinit⟩
  · intro q hq i hi hi'
    rcases Finset.mem_insert.mp hq with rfl | hq
    · exact hs.create_copy hpd hfresh hi'
    · obtain ⟨hpage, hused, -⟩ := hs.dirPage q hq
      exact (create_used hpd hfresh hpage hused hi').trans (hs.half q hq i hi hi')
  · intro q hq i hi hnz
    rcases Finset.mem_insert.mp hq with rfl | hq
    · rw [hs.create_copy hpd hfresh (hi.trans hlt), hs.blank i hi] at hnz
      exact absurd rfl hnz
    · obtain ⟨hpage, hused, -⟩ := hs.dirPage q hq
      rw [create_used hpd hfresh hpage hused (hi.trans hlt)] at hnz
      obtain ⟨pt, hpt⟩ := hs.table q hq i hi hnz
      exact ⟨pt, (hiff q i pt).mpr hpt⟩
  · intro q i pt h
    obtain ⟨hu, hd, hi⟩ := hs.tablePage q i pt ((hiff q i pt).mp h)
    refine ⟨Finset.mem_insert_of_mem hu, fun hm ↦ ?_, hi⟩
    rcases Finset.mem_insert.mp hm with rfl | hm
    · exact hfresh hu
    · exact hd hm

theorem Sound.pte_create (hva : va < physBase) : (s.create (some pd)).2.pte pd va = 0#32 ∧
    ∀ pd' ∈ s.dirs, (s.create (some pd)).2.pte pd' va = s.pte pd' va := by
  have hidx := (pdeIdx_lt hva).trans userPdes_lt
  constructor
  · apply pte_none
    rw [hs.create_copy hpd hfresh hidx, hs.blank _ (pdeIdx_lt hva)]
  · intro pd' hpd'
    obtain ⟨hpage, hused, -⟩ := hs.dirPage pd' hpd'
    have hpde := create_used hpd hfresh hpage hused hidx
    by_cases hz : s.mem (pd' + 4 * pdeIdx va) = 0#32
    · rw [pte_none (hpde.trans hz), pte_none hz]
    · obtain ⟨pt, hpt⟩ := hs.table pd' hpd' _ (pdeIdx_lt hva) hz
      have hnew : (s.create (some pd)).2.HasTable pd' (pdeIdx va) pt := (hs.hasTable_create hpd hfresh).mpr hpt
      rw [hnew.pte_eq, hpt.pte_eq, create_used hpd hfresh hpt.page (hs.tablePage _ _ _ hpt).1 pteIdx_lt]

end Create

theorem setPage_cases (s : State) (pd upage kpage : Nat) (writable : Bool) (page : Option Nat) :
    page = none ∧ s.mem (pd + 4 * pdeIdx upage) = 0#32 ∧ s.setPage pd upage kpage writable page = (false, s) ∨
    s.mem (pd + 4 * pdeIdx upage) ≠ 0#32 ∧
      s.setPage pd upage kpage writable page = (true, s.store pd upage (pageWord kpage writable)) ∨
    ∃ pt, page = some pt ∧ s.mem (pd + 4 * pdeIdx upage) = 0#32 ∧ s.setPage pd upage kpage writable page =
      (true, (s.addTable pd upage pt).store pd upage (pageWord kpage writable)) := by
  by_cases hz : s.mem (pd + 4 * pdeIdx upage) = 0#32
  · cases page with
    | none => exact .inl ⟨rfl, hz, by simp [setPage, lookup, hz]⟩
    | some pt => exact .inr (.inr ⟨pt, rfl, hz, by rw [setPage, lookup_addTable hz]; rfl⟩)
  · exact .inr (.inl ⟨hz, by rw [setPage, lookup_some hz]; rfl⟩)

theorem clearPage_cases (s : State) (pd upage : Nat) :
    s.mem (pd + 4 * pdeIdx upage) = 0#32 ∧ s.clearPage pd upage = s ∨
    s.mem (pd + 4 * pdeIdx upage) ≠ 0#32 ∧ s.clearPage pd upage = s.store pd upage 0#32 := by
  by_cases hz : s.mem (pd + 4 * pdeIdx upage) = 0#32
  · exact .inl ⟨hz, by simp only [clearPage, lookup_none hz]⟩
  · exact .inr ⟨hz, by simp only [clearPage, lookup_some hz]; rfl⟩

theorem setAccessed_cases (s : State) (pd upage : Nat) (val : Bool) :
    s.mem (pd + 4 * pdeIdx upage) = 0#32 ∧ s.setAccessed pd upage val = s ∨
    s.mem (pd + 4 * pdeIdx upage) ≠ 0#32 ∧ s.setAccessed pd upage val = s.store pd upage
      (if val then s.pte pd upage ||| pteA else s.pte pd upage &&& ~~~pteA) := by
  by_cases hz : s.mem (pd + 4 * pdeIdx upage) = 0#32
  · exact .inl ⟨hz, by simp only [setAccessed, lookup_none hz]⟩
  · exact .inr ⟨hz, by simp only [setAccessed, lookup_some hz, pte_some hz]; rfl⟩

end State

inductive Act
  | create (page : Option Nat)
  | setPage (pd upage kpage : Nat) (writable : Bool) (page : Option Nat)
  | clearPage (pd upage : Nat)
  | setAccessed (pd upage : Nat) (val : Bool)

def UserPage (upage : Nat) : Prop := upage < physBase ∧ upage % pgsize = 0

namespace State

/-- A call and what it returns; `create` and `set_page` can fail. -/
def step (s : State) : Act → Bool × State
  | .create page => ((s.create page).1.isSome, (s.create page).2)
  | .setPage pd upage kpage writable page => s.setPage pd upage kpage writable page
  | .clearPage pd upage => (true, s.clearPage pd upage)
  | .setAccessed pd upage val => (true, s.setAccessed pd upage val)

/-- `palloc::get_page` returns null or a page that is not in use. -/
def Fresh (s : State) (page : Option Nat) : Prop := ∀ p, page = some p → IsPage p ∧ p ∉ s.used

def Allowed (s : State) : Act → Prop
  | .create page => s.Fresh page
  | .setPage pd upage kpage _ page => pd ∈ s.dirs ∧ UserPage upage ∧ IsPage kpage ∧ s.Fresh page
  | .clearPage pd upage => pd ∈ s.dirs ∧ UserPage upage
  | .setAccessed pd upage _ => pd ∈ s.dirs ∧ UserPage upage

end State

def Act.Names (pd n : Nat) : Act → Prop
  | .create page => page = some pd
  | .setPage pd' upage _ _ _ => pd = pd' ∧ n = upage / pgsize
  | .clearPage pd' upage => pd = pd' ∧ n = upage / pgsize
  | .setAccessed pd' upage _ => pd = pd' ∧ n = upage / pgsize

instance (pd n : Nat) : (a : Act) → Decidable (a.Names pd n)
  | .create page => inferInstanceAs (Decidable (page = some pd))
  | .setPage pd' upage _ _ _ => inferInstanceAs (Decidable (pd = pd' ∧ n = upage / pgsize))
  | .clearPage pd' upage => inferInstanceAs (Decidable (pd = pd' ∧ n = upage / pgsize))
  | .setAccessed pd' upage _ => inferInstanceAs (Decidable (pd = pd' ∧ n = upage / pgsize))

/-- What the last call about a page says of its mapping, given that of the calls before. -/
def Act.mapping (a : Act) (ok : Bool) (before : Option Nat) : Option Nat :=
  match a with
  | .create _ => none
  | .setPage _ _ kpage _ _ => if ok then some kpage else none
  | .clearPage _ _ => none
  | .setAccessed _ _ _ => before

abbrev History := List (Act × Bool)

/-- The page of the last `set_page` for page `n`, if that succeeded and no `clear_page` followed. -/
def lastSet (pd n : Nat) : History → Option Nat
  | [] => none
  | (a, ok) :: h => if a.Names pd n then a.mapping ok (lastSet pd n h) else lastSet pd n h

namespace State

variable {kernel : Nat → Word} {s : State} {pd va : Nat} {a : Act}

theorem step_dirs (hpd : pd ∈ s.dirs) : pd ∈ (s.step a).2.dirs := by
  cases a with
  | create page =>
    cases page with
    | none => exact hpd
    | some p => exact Finset.mem_insert_of_mem hpd
  | setPage pd' upage kpage writable page =>
    rcases s.setPage_cases pd' upage kpage writable page with ⟨-, -, h⟩ | ⟨-, h⟩ | ⟨pt, -, -, h⟩ <;>
      (rw [step, h]; exact hpd)
  | clearPage pd' upage =>
    rcases s.clearPage_cases pd' upage with ⟨-, h⟩ | ⟨-, h⟩ <;> (rw [step, h]; exact hpd)
  | setAccessed pd' upage val =>
    rcases s.setAccessed_cases pd' upage val with ⟨-, h⟩ | ⟨-, h⟩ <;> (rw [step, h]; exact hpd)

def Stored (kernel : Nat → Word) (s s' : State) (pd va : Nat) (w : Word) : Prop :=
  Sound kernel s' ∧ s'.dirs = s.dirs ∧ ∀ pd' ∈ s.dirs, ∀ va' < physBase,
    s'.pte pd' va' = if pd' = pd ∧ va' / pgsize = va / pgsize then w else s.pte pd' va'

theorem Sound.stored (hs : Sound kernel s) (hpd : pd ∈ s.dirs) (hva : va < physBase)
    (ht : s.mem (pd + 4 * pdeIdx va) ≠ 0#32) (w : Word) : Stored kernel s (s.store pd va w) pd va w :=
  ⟨(hs.store hpd hva ht w).1, rfl, (hs.store hpd hva ht w).2⟩

theorem pte_congr {va' : Nat} (h : va' / pgsize = va / pgsize) : s.pte pd va' = s.pte pd va := by
  obtain ⟨hd, hp⟩ := Pagedir.idx_eq_iff.mpr h
  rw [pte, pte, slot, slot, hd, hp]

theorem Sound.unchanged (hs : Sound kernel s) (hz : s.mem (pd + 4 * pdeIdx va) = 0#32) :
    Stored kernel s s pd va 0#32 := by
  refine ⟨hs, rfl, fun pd' _ va' _ ↦ ?_⟩
  split
  · next h =>
    obtain ⟨rfl, hpage⟩ := h
    rw [pte_congr hpage, pte_none hz]
  · rfl

theorem Sound.setPage {upage : Nat} {page : Option Nat} (hs : Sound kernel s) (hpd : pd ∈ s.dirs)
    (hva : upage < physBase) (hfresh : s.Fresh page) (kpage : Nat) (writable : Bool) :
    (s.setPage pd upage kpage writable page).1 = true ∧
      Stored kernel s (s.setPage pd upage kpage writable page).2 pd upage (pageWord kpage writable) ∨
    s.setPage pd upage kpage writable page = (false, s) ∧ Stored kernel s s pd upage 0#32 := by
  rcases s.setPage_cases pd upage kpage writable page with ⟨-, hz, h⟩ | ⟨hnz, h⟩ | ⟨pt, hpt, hz, h⟩
  · exact .inr ⟨h, hs.unchanged hz⟩
  · rw [h]
    exact .inl ⟨rfl, hs.stored hpd hva hnz _⟩
  · rw [h]
    obtain ⟨hpage, hnew⟩ := hfresh pt hpt
    have hs' := hs.addTable hpd hva hz hpage hnew
    have htable : (s.addTable pd upage pt).HasTable pd (pdeIdx upage) pt :=
      (hs.hasTable_addTable hpd hva hz hpage hnew).mpr (.inl ⟨rfl, rfl, rfl⟩)
    have hkeep := hs.pte_addTable hpd hva hz hpage hnew
    have hdirs : (s.addTable pd upage pt).dirs = s.dirs := rfl
    obtain ⟨hsound, -, hpte⟩ := hs'.stored (hdirs ▸ hpd) hva htable.ne_zero _
    refine .inl ⟨rfl, hsound, rfl, fun pd' hpd' va' hva' ↦ ?_⟩
    rw [hpte pd' hpd' va' hva', hkeep pd' hpd' va' hva']

section

variable (hs : Sound kernel s) (hpd : pd ∈ s.dirs) (hva : va < physBase)
include hs hpd hva

theorem Sound.clearPage :
    Stored kernel s (s.clearPage pd va) pd va 0#32 := by
  rcases s.clearPage_cases pd va with ⟨hz, h⟩ | ⟨hnz, h⟩ <;> rw [h]
  · exact hs.unchanged hz
  · exact hs.stored hpd hva hnz _

theorem Sound.setAccessed (val : Bool) :
    ∃ w, Stored kernel s (s.setAccessed pd va val) pd va w ∧
      (decode w).map (·.kpage) = (decode (s.pte pd va)).map (·.kpage) := by
  rcases s.setAccessed_cases pd va val with ⟨hz, h⟩ | ⟨hnz, h⟩ <;> rw [h]
  · exact ⟨_, hs.unchanged hz, by rw [pte_none hz]⟩
  · refine ⟨_, hs.stored hpd hva hnz _, ?_⟩
    cases val with
    | true => rw [if_pos rfl, decode_setAccessed, map_map]; rfl
    | false => rw [if_neg Bool.false_ne_true, decode_clearAccessed, map_map]; rfl

end

theorem Sound.step (hs : Sound kernel s) (ha : s.Allowed a) :
    Sound kernel (s.step a).2 ∧ ∀ pd ∈ (s.step a).2.dirs, ∀ va < physBase,
      (a.Names pd (va / pgsize) → (decode ((s.step a).2.pte pd va)).map (·.kpage) =
        a.mapping (s.step a).1 ((decode (s.pte pd va)).map (·.kpage))) ∧
      (¬ a.Names pd (va / pgsize) → pd ∈ s.dirs ∧ (s.step a).2.pte pd va = s.pte pd va) := by
  -- The calls about one page have their effect said by `Stored`.
  have hstored : ∀ {s' : State} {pd' upage : Nat} {w : Word}, Stored kernel s s' pd' upage w →
      Sound kernel s' ∧ ∀ pd ∈ s'.dirs, ∀ va < physBase,
        (pd = pd' ∧ va / pgsize = upage / pgsize → s'.pte pd va = w ∧ s.pte pd va = s.pte pd' upage) ∧
        (¬ (pd = pd' ∧ va / pgsize = upage / pgsize) → pd ∈ s.dirs ∧ s'.pte pd va = s.pte pd va) := by
    rintro s' pd' upage w ⟨hsound, hdirs, hpte⟩
    refine ⟨hsound, fun pd hpd va hva ↦ ⟨?_, ?_⟩⟩
    · rintro ⟨rfl, hpage⟩
      exact ⟨by rw [hpte pd (hdirs ▸ hpd) va hva, if_pos ⟨rfl, hpage⟩], pte_congr hpage⟩
    · intro hne
      exact ⟨hdirs ▸ hpd, by rw [hpte pd (hdirs ▸ hpd) va hva, if_neg hne]⟩
  cases a with
  | create page =>
    cases page with
    | none => exact ⟨hs, fun pd hpd va _ ↦ ⟨fun h ↦ absurd h (by simp [Act.Names]), fun _ ↦ ⟨hpd, rfl⟩⟩⟩
    | some p =>
      obtain ⟨hpage, hnew⟩ := ha p rfl
      refine ⟨hs.create hpage hnew, fun pd hpd va hva ↦ ⟨?_, ?_⟩⟩
      · intro hn
        obtain rfl := some.inj hn
        change (decode ((s.create (some p)).2.pte p va)).map _ = none
        rw [(hs.pte_create hpage hnew hva).1, decode_zero, map_none]
      · intro hn
        have hpd' : pd ∈ s.dirs := (Finset.mem_insert.mp hpd).resolve_left fun h ↦ hn (congrArg some h.symm)
        exact ⟨hpd', (hs.pte_create hpage hnew hva).2 pd hpd'⟩
  | setPage pd' upage kpage writable page =>
    obtain ⟨hpd', hup, hk, hfresh⟩ := ha
    rcases hs.setPage hpd' hup.1 hfresh kpage writable with ⟨hok, hst⟩ | ⟨hfail, hst⟩
    · obtain ⟨hsound, hpte⟩ := hstored hst
      refine ⟨hsound, fun pd hpd va hva ↦ ⟨fun hn ↦ ?_, (hpte pd hpd va hva).2⟩⟩
      simp only [step, hok]
      rw [((hpte pd hpd va hva).1 hn).1, decode_pageWord hk]
      rfl
    · obtain ⟨hsound, hpte⟩ := hstored hst
      have hstep : s.step (.setPage pd' upage kpage writable page) = (false, s) := hfail
      rw [hstep]
      refine ⟨hsound, fun pd hpd va hva ↦ ⟨fun hn ↦ ?_, (hpte pd hpd va hva).2⟩⟩
      rw [((hpte pd hpd va hva).1 hn).1]
      rfl
  | clearPage pd' upage =>
    obtain ⟨hsound, hpte⟩ := hstored (hs.clearPage ha.1 ha.2.1)
    refine ⟨hsound, fun pd hpd va hva ↦ ⟨fun hn ↦ ?_, (hpte pd hpd va hva).2⟩⟩
    simp only [step]
    rw [((hpte pd hpd va hva).1 hn).1]
    rfl
  | setAccessed pd' upage val =>
    obtain ⟨w, hst, hw⟩ := hs.setAccessed ha.1 ha.2.1 val
    obtain ⟨hsound, hpte⟩ := hstored hst
    refine ⟨hsound, fun pd hpd va hva ↦ ⟨fun hn ↦ ?_, (hpte pd hpd va hva).2⟩⟩
    obtain ⟨hnew, hold⟩ := (hpte pd hpd va hva).1 hn
    simp only [step, Act.mapping]
    rw [hnew, hold, hw]

structure Booted (s : State) : Prop where
  initPage : IsPage s.initPageDir
  initUsed : s.initPageDir ∈ s.used
  blank : ∀ i < userPdes, s.mem (s.initPageDir + 4 * i) = 0#32
  noDirs : s.dirs = ∅

theorem Booted.sound (h : Booted s) : Sound (fun i ↦ s.mem (s.initPageDir + 4 * i)) s := by
  have hno : ∀ pd, pd ∉ s.dirs := fun pd ↦ h.noDirs ▸ Finset.notMem_empty pd
  exact {
    blank := h.blank
    initPage := h.initPage
    initUsed := h.initUsed
    initKept := fun _ _ ↦ rfl
    dirPage := fun pd hpd ↦ absurd hpd (hno pd)
    half := fun pd hpd ↦ absurd hpd (hno pd)
    table := fun pd hpd ↦ absurd hpd (hno pd)
    tablePage := fun pd _ _ ht ↦ absurd ht.dir (hno pd)
    distinct := fun pd _ _ _ _ ht ↦ absurd ht.dir (hno pd) }

def record (t : State × History) (a : Act) : Option (State × History) :=
  some ((t.1.step a).2, (a, (t.1.step a).1) :: t.2)

def Recorded (t : State × History) (a : Act) : Prop := t.1.Allowed a

theorem run_record {t₀ t : State × History} (h : Run record Recorded t₀ t) (ha : t.1.Allowed a) :
    Run record Recorded t₀ ((t.1.step a).2, (a, (t.1.step a).1) :: t.2) := .snoc h ha rfl

def Agrees (kernel : Nat → Word) (t : State × History) : Prop :=
  Sound kernel t.1 ∧ ∀ pd ∈ t.1.dirs, ∀ va < physBase,
    (decode (t.1.pte pd va)).map (·.kpage) = lastSet pd (va / pgsize) t.2

theorem Agrees.record {t t' : State × History} (h : Agrees kernel t) (ha : Recorded t a)
    (hstep : record t a = some t') : Agrees kernel t' := by
  obtain rfl := some.inj hstep
  obtain ⟨hs, hlast⟩ := h
  obtain ⟨hs', hpte⟩ := hs.step ha
  refine ⟨hs', fun pd hpd va hva ↦ ?_⟩
  rw [lastSet]
  split
  · next hn =>
    rw [(hpte pd hpd va hva).1 hn]
    -- A call about a page of a new directory forgets what was said before.
    cases a with
    | create page => rfl
    | setPage pd' upage kpage writable page => rfl
    | clearPage pd' upage => rfl
    | setAccessed pd' upage val =>
      obtain rfl := hn.1
      exact hlast pd ha.1 va hva
  · next hn =>
    obtain ⟨hold, hsame⟩ := (hpte pd hpd va hva).2 hn
    rw [hsame]
    exact hlast pd hold va hva

/-- What the page tables of directory `pd` stand for after the calls of `hist`. -/
structure PartialMap (start : State) (s : State) (hist : History) (pd : Nat) : Prop where
  find : ∀ va < physBase, s.getPage pd va = (lastSet pd (va / pgsize) hist).map (· + va % pgsize)
  apart : ∀ a, s.Allowed a → ∀ va < physBase, ¬ a.Names pd (va / pgsize) →
    (s.step a).2.getPage pd va = s.getPage pd va ∧ (s.step a).2.isAccessed pd va = s.isAccessed pd va ∧
      (s.step a).2.pte pd va &&& pteW = s.pte pd va &&& pteW
  failed : ∀ upage kpage writable page, s.Allowed (.setPage pd upage kpage writable page) →
    (s.setPage pd upage kpage writable page).1 = false → (s.setPage pd upage kpage writable page).2 = s
  kernelHalf : ∀ i, userPdes ≤ i → i < 1024 → s.mem (pd + 4 * i) = start.mem (start.initPageDir + 4 * i)

/-- The page-directory code is a partial map from user pages to kernel pages: after any calls, on any
directories, and however the allocation of page tables goes. -/
theorem pagedir_partial_map {start s : State} {hist : History} (hstart : Booted start)
    (hrun : Run record Recorded (start, []) (s, hist)) (hpd : pd ∈ s.dirs) : PartialMap start s hist pd := by
  have hagree : Agrees (fun i ↦ start.mem (start.initPageDir + 4 * i)) (s, hist) := by
    refine hrun.invariant _ (fun t a t' ht ha hstep ↦ ht.record ha hstep) ⟨hstart.sound, fun pd hpd ↦ ?_⟩
    rw [hstart.noDirs] at hpd
    exact absurd hpd (Finset.notMem_empty pd)
  obtain ⟨hs, hlast⟩ := hagree
  refine ⟨fun va hva ↦ ?_, fun a ha va hva hn ↦ ?_, fun upage kpage writable page ha hfail ↦ ?_, hs.half pd hpd⟩
  · rw [getPage_eq, ← hlast pd hpd va hva, map_map]
    rfl
  · obtain ⟨-, hsame⟩ := ((hs.step ha).2 pd (step_dirs hpd) va hva).2 hn
    rw [getPage_eq, getPage_eq, isAccessed_eq, isAccessed_eq, hsame]
    exact ⟨rfl, rfl, rfl⟩
  · rcases hs.setPage ha.1 ha.2.1.1 ha.2.2.2 kpage writable with ⟨hok, -⟩ | ⟨h, -⟩
    · rw [hfail] at hok
      cases hok
    · rw [h]

def machine : State := ⟨fun _ ↦ 0#32, physBase, {physBase}, ∅, []⟩

theorem isPage_physBase_add {n : Nat} (hn : n < 2 ^ 18) : IsPage (physBase + n * pgsize) := by
  have hbase : physBase = 786432 * pgsize := rfl
  refine ⟨Nat.le_add_right _ _, ?_, ?_⟩
  · simp only [physBase, pgsize]
    omega
  · rw [hbase, ← add_mul, Nat.mul_mod_left]

theorem machine_booted : machine.Booted :=
  ⟨isPage_physBase_add (n := 0) (by decide), Finset.mem_singleton_self _, fun _ _ ↦ rfl, rfl⟩

def makeDir : Act := .create (some (physBase + 1 * pgsize))

def mapPage : Act :=
  .setPage (physBase + 1 * pgsize) 0x8048000 (physBase + 3 * pgsize) true (some (physBase + 2 * pgsize))

def mapFails : Act := .setPage (physBase + 1 * pgsize) 0 (physBase + 4 * pgsize) true none

theorem pagedir_partial_map_machine : ∃ s hist, Run record Recorded (machine, []) (s, hist) ∧
    hist.map Prod.snd = [false, true, true] ∧ PartialMap machine s hist (physBase + 1 * pgsize) := by
  have hdir : physBase + 1 * pgsize ∈ (machine.step makeDir).2.dirs := Finset.mem_insert_self _ _
  have h₁ : machine.Allowed makeDir := by
    rintro p ⟨⟩
    exact ⟨isPage_physBase_add (by decide), by decide⟩
  have h₂ : (machine.step makeDir).2.Allowed mapPage := by
    refine ⟨hdir, ⟨by decide, by decide⟩, isPage_physBase_add (by decide), ?_⟩
    rintro p ⟨⟩
    exact ⟨isPage_physBase_add (by decide), by decide⟩
  have h₃ : ((machine.step makeDir).2.step mapPage).2.Allowed mapFails := by
    refine ⟨step_dirs hdir, ⟨by decide, by decide⟩, isPage_physBase_add (by decide), ?_⟩
    rintro p ⟨⟩
  have hrun := run_record (run_record (run_record (.refl (machine, [])) h₁) h₂) h₃
  exact ⟨_, _, hrun, by decide, pagedir_partial_map machine_booted hrun (step_dirs (step_dirs hdir))⟩

end State

end Rxv6.Vm.PageTables
