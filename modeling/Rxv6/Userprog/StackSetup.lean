import Rxv6.Userprog.Argv

namespace Rxv6.Userprog.StackSetup

open Rxv6.Vm Rxv6.Lib.Words Rxv6.Userprog.Argv List

@[irreducible]
def upage : Nat := physBase - pgsize

theorem upage_add : upage + pgsize = physBase := by
  unfold upage
  decide

/-- The page that `alloc_frame` returns: the kernel maps at most 64 MB of RAM from `PHYS_BASE` on. -/
structure Kpage where
  addr : Nat
  kernel : physBase ≤ addr
  ram : addr + pgsize ≤ physBase + 64 * 1024 * 1024

/-- A store through the kernel's mapping: the user pointer at that moment, the kernel address and the
number of bytes. -/
structure Store where
  sp : Nat
  addr : Nat
  len : Nat

/-- `setup_stack` on its way: `sp` is `str_ptr` and later `sp`, `kstrPtr` its kernel mirror. -/
structure Setup where
  mem : Mem
  sp : Nat
  kstrPtr : Nat
  argAddrs : List Nat
  stores : List Store

/-- One turn of the loop over the strings. `.error`: a subtraction overflows, which is a panic. -/
def pushString (s : Setup) (arg : List UInt8) : Except Setup Setup :=
  let len := arg.length + 1
  if s.sp < len then .error s
  else
    let kstrPtr := s.kstrPtr - len
    .ok { mem := writeBytes s.mem kstrPtr (arg ++ [0])
          sp := s.sp - len
          kstrPtr := kstrPtr
          argAddrs := s.argAddrs ++ [s.sp - len]
          stores := s.stores ++ [⟨s.sp - len, kstrPtr, len⟩] }

def writeStackWord (kpage : Kpage) (s : Setup) (offset value : Nat) : Setup :=
  { s with
    mem := writeBytes s.mem (kpage.addr + offset) (wordBytes value)
    stores := s.stores ++ [⟨s.sp, kpage.addr + offset, 4⟩] }

@[simp]
theorem writeStackWord_argAddrs (kpage : Kpage) (s : Setup) (offset value : Nat) :
    (writeStackWord kpage s offset value).argAddrs = s.argAddrs := rfl

/-- `sp -= 4` and `write_stack_word(kpage, sp - upage, value)`. -/
def pushWord (kpage : Kpage) (s : Setup) (value : Nat) : Except Setup Setup :=
  let s := { s with sp := s.sp - 4 }
  if s.sp < upage then .error s
  else .ok (writeStackWord kpage s (s.sp - upage) value)

/-- What `setup_stack` does with the page, once it has one. -/
def fill (kpage : Kpage) (mem : Mem) (args : List (List UInt8)) : Except Setup Setup := do
  let s ← args.reverse.foldlM pushString ⟨mem, physBase, kpage.addr + pgsize, [], []⟩
  let s := { s with argAddrs := s.argAddrs.reverse, sp := s.sp / 4 * 4 }
  let s ← pushWord kpage s 0
  let s ← s.argAddrs.reverse.foldlM (pushWord kpage) s
  let s ← pushWord kpage s s.sp
  let s ← pushWord kpage s args.length
  pushWord kpage s 0

def arguments (cmdline : Str) : List (List UInt8) := (splitWhitespace cmdline).map asBytes

/-- `setup_stack`. `frame` is what `alloc_frame` gives, and `installed` what `install_page` answers. -/
def setupStack (frame : Option Kpage) (installed : Bool) (mem : Mem) (cmdline : Str) :
    Except Setup (Option Setup) :=
  match frame with
  | none => .ok none
  | some kpage => if installed then (fill kpage mem (arguments cmdline)).map some else .ok none

def Setup.user (kpage : Kpage) (s : Setup) : Mem := fun x ↦ s.mem (kpage.addr + (x - upage))

structure Inside (kpage : Kpage) (s : Setup) : Prop where
  stores : ∀ w ∈ s.stores, kpage.addr ≤ w.addr ∧ w.addr + w.len ≤ kpage.addr + pgsize ∧ upage ≤ w.sp
  sp : upage ≤ s.sp

/-- The stores through the kernel's mapping make the same page as pushes in user memory. -/
structure Mirrors (kpage : Kpage) (s : Setup) (t : Stack) : Prop where
  sp : s.sp = t.sp
  top : t.sp ≤ physBase
  mem : ∀ x, upage ≤ x → s.user kpage x = t.mem x
  inside : Inside kpage s

section Step

variable {kpage : Kpage} {s : Setup} {t : Stack}

theorem user_writeBytes {mem : Mem} {a x : Nat} {bs : List UInt8} (ha : upage ≤ a) (hx : upage ≤ x) :
    writeBytes mem (kpage.addr + (a - upage)) bs (kpage.addr + (x - upage)) =
      if a ≤ x ∧ x < a + bs.length then bs.getD (x - a) 0 else mem (kpage.addr + (x - upage)) := by
  rw [writeBytes]
  by_cases h : a ≤ x ∧ x < a + bs.length
  · rw [if_pos h, if_pos (by omega),
      show kpage.addr + (x - upage) - (kpage.addr + (a - upage)) = x - a by omega]
  · rw [if_neg h, if_neg (by omega)]

theorem Mirrors.store (h : Mirrors kpage s t) (bs : List UInt8) (hroom : upage + bs.length ≤ t.sp)
    {s' : Setup} (hsp : s'.sp = t.sp - bs.length)
    (hmem : s'.mem = writeBytes s.mem (kpage.addr + (t.sp - bs.length - upage)) bs)
    (hstores : s'.stores =
      s.stores ++ [⟨t.sp - bs.length, kpage.addr + (t.sp - bs.length - upage), bs.length⟩]) :
    Mirrors kpage s' (t.push bs) where
  sp := hsp
  top := Stack.sp_push_le.trans h.top
  mem := by
    intro x hx
    rw [Setup.user, hmem, user_writeBytes (by omega) hx]
    simp only [Stack.push, writeBytes]
    rw [← h.mem x hx, Setup.user]
  inside := by
    have htop := h.top
    have hup := upage_add
    refine ⟨fun w hw ↦ ?_, by omega⟩
    rw [hstores, mem_append, mem_singleton] at hw
    rcases hw with hw | rfl
    · exact h.inside.stores w hw
    · dsimp only
      omega

theorem Mirrors.pushWord (h : Mirrors kpage s t) (value : Nat) (hroom : upage + 4 ≤ t.sp) :
    ∃ s', pushWord kpage s value = .ok s' ∧ Mirrors kpage s' (t.push (wordBytes value)) ∧
      s'.argAddrs = s.argAddrs := by
  have hsp := h.sp
  have hlen : (wordBytes value).length = 4 := rfl
  have hge : ¬ s.sp - 4 < upage := Nat.not_lt.2 (Nat.le_sub_of_add_le (hsp ▸ hroom))
  have hok : StackSetup.pushWord kpage s value =
      .ok (writeStackWord kpage { s with sp := s.sp - 4 } (s.sp - 4 - upage) value) := by
    simp only [StackSetup.pushWord, hge, if_false]
  refine ⟨_, hok, h.store _ (by exact hroom) ?_ ?_ ?_, ?_⟩
  · simp only [writeStackWord, hlen, hsp]
  · simp only [writeStackWord, hlen, hsp]
  · simp only [writeStackWord, hlen, hsp]
  · rw [writeStackWord_argAddrs]

theorem Mirrors.pushWords (h : Mirrors kpage s t) (ns : List Nat) (hroom : upage + 4 * ns.length ≤ t.sp) :
    ∃ s', ns.foldlM (StackSetup.pushWord kpage) s = .ok s' ∧ Mirrors kpage s' (t.pushWords ns) := by
  induction ns generalizing s t with
  | nil => exact ⟨s, rfl, h⟩
  | cons n ns ih =>
    rw [length_cons] at hroom
    obtain ⟨s₁, hs₁, hm₁, -⟩ := h.pushWord n (by omega)
    have hsp : (t.push (wordBytes n)).sp = t.sp - 4 := rfl
    obtain ⟨s₂, hs₂, hm₂⟩ := ih hm₁ (by omega)
    exact ⟨s₂, by rw [foldlM_cons, hs₁]; exact hs₂, hm₂⟩

end Step

section Fill

variable {kpage : Kpage} {mem : Mem} {args : List (List UInt8)}

def blank (kpage : Kpage) (mem : Mem) : Stack := ⟨fun x ↦ mem (kpage.addr + (x - upage)), physBase⟩

theorem mirrors_pushStrings (kpage : Kpage) (mem : Mem) (hfit : (args.map fun a ↦ a.length + 1).sum ≤ pgsize) :
    ∃ s, args.reverse.foldlM pushString ⟨mem, physBase, kpage.addr + pgsize, [], []⟩ = .ok s ∧
      Mirrors kpage s ((blank kpage mem).pushStrings args).1 ∧
      s.kstrPtr = kpage.addr + (s.sp - upage) ∧
      s.argAddrs.reverse = ((blank kpage mem).pushStrings args).2 := by
  have hup := upage_add
  induction args with
  | nil =>
    refine ⟨_, rfl, ⟨rfl, le_rfl, fun x _ ↦ rfl, ⟨fun w hw ↦ absurd hw not_mem_nil, ?_⟩⟩, ?_, rfl⟩
    · show upage ≤ physBase
      omega
    · show kpage.addr + pgsize = kpage.addr + (physBase - upage)
      omega
  | cons arg args ih =>
    rw [map_cons, sum_cons] at hfit
    obtain ⟨s, hs, hm, hk, ha⟩ := ih (by omega)
    rw [Stack.pushStrings_cons]
    set r := (blank kpage mem).pushStrings args with hr
    have hrsp : r.1.sp = physBase - (args.map fun a ↦ a.length + 1).sum := Stack.sp_pushStrings args
    have hsp := hm.sp
    have hlen : (arg ++ [0]).length = arg.length + 1 := by simp
    have hok : (arg :: args).reverse.foldlM pushString
        ⟨mem, physBase, kpage.addr + pgsize, [], []⟩ = pushString s arg := by
      rw [reverse_cons, foldlM_append, hs]
      exact bind_pure (pushString s arg)
    rw [hok, pushString]
    rw [if_neg (by omega), hk, hsp]
    have haddr : kpage.addr + (r.1.sp - upage) - (arg.length + 1) =
        kpage.addr + (r.1.sp - (arg.length + 1) - upage) := by omega
    refine ⟨_, rfl, hm.store (arg ++ [0]) (by omega) ?_ ?_ ?_, haddr, ?_⟩
    · rw [hlen]
    · rw [hlen, haddr]
    · rw [hlen, haddr]
    · rw [reverse_append, ha, Stack.pushString, Stack.push, hlen]
      rfl

theorem mirrors_fill (kpage : Kpage) (mem : Mem) (hfit : layoutSize args ≤ pgsize) :
    ∃ s t, fill kpage mem args = .ok s ∧ Argv.setupStack (blank kpage mem).mem args = some t ∧
      Mirrors kpage s t := by
  have hup := upage_add
  have hbase : physBase - pgsize = upage := by omega
  have htop : physBase = 3221225472 := rfl
  have hpage : pgsize = 4096 := rfl
  have hstr : (args.map fun a ↦ a.length + 1).sum ≤ pgsize := by rw [layoutSize] at hfit; omega
  obtain ⟨t, ht⟩ := Option.ne_none_iff_exists'.1 ((setupStack_sp (blank kpage mem).mem args).2 hfit)
  have hlow := (layout_setupStack ht).choose_spec.low
  obtain ⟨s₀, hs₀, hm₀, -, ha₀⟩ := mirrors_pushStrings kpage mem hstr
  have hsetup := ht
  simp only [Argv.setupStack] at ht
  split at ht
  next hle =>
    cases ht
    change _ ≤ ((((blank kpage mem).pushStrings args).1.align.push (wordBytes 0)).pushWords
      ((blank kpage mem).pushStrings args).2.reverse |>.pushWords _).sp at hlow
    set r := (blank kpage mem).pushStrings args with hr
    rw [Stack.sp_pushWords, Stack.sp_pushWords, length_reverse, length_cons, length_cons, length_singleton] at hlow
    have hsp₁ : (r.1.align.push (wordBytes 0)).sp = r.1.align.sp - 4 := rfl
    have hdiv : s₀.sp / 4 * 4 = r.1.align.sp := by rw [hm₀.sp]; rfl
    have hm₁ : Mirrors kpage ⟨s₀.mem, s₀.sp / 4 * 4, s₀.kstrPtr, s₀.argAddrs.reverse, s₀.stores⟩ r.1.align :=
      ⟨hdiv, (Nat.div_mul_le_self _ _).trans hm₀.top, hm₀.mem, hm₀.inside.stores, by
        show upage ≤ s₀.sp / 4 * 4
        omega⟩
    obtain ⟨s₂, hs₂, hm₂, ha₂⟩ := hm₁.pushWord 0 (by omega)
    obtain ⟨s₃, hs₃, hm₃⟩ := hm₂.pushWords r.2.reverse (by rw [length_reverse]; omega)
    obtain ⟨s₄, hs₄, hm₄⟩ := hm₃.pushWords [s₃.sp, args.length, 0] (by
      rw [Stack.sp_pushWords, length_reverse, length_cons, length_cons, length_singleton]
      omega)
    refine ⟨s₄, _, ?_, hsetup, ?_⟩
    · have hthree : (do
          let s ← pushWord kpage s₃ s₃.sp
          let s ← pushWord kpage s args.length
          pushWord kpage s 0) = .ok s₄ := by
        simpa only [foldlM_cons, foldlM_nil, bind_pure] using hs₄
      have hrev : s₂.argAddrs.reverse = r.2.reverse := by rw [ha₂, ha₀]
      rw [← hrev] at hs₃
      rw [fill, hs₀]
      show (pushWord kpage ⟨s₀.mem, s₀.sp / 4 * 4, s₀.kstrPtr, s₀.argAddrs.reverse, s₀.stores⟩ 0 >>= _) = _
      rw [hs₂]
      show (s₂.argAddrs.reverse.foldlM (pushWord kpage) s₂ >>= _) = _
      rw [hs₃]
      exact hthree
    · rw [hm₃.sp] at hm₄
      exact hm₄
  · cases ht

theorem bind_eq_ok {α β : Type} {x : Except Setup α} {f : α → Except Setup β} {b : β}
    (h : x >>= f = .ok b) : ∃ a, x = .ok a ∧ f a = .ok b := by
  cases x with
  | error e => cases h
  | ok a => exact ⟨a, rfl, h⟩

variable {s s' : Setup}

theorem sp_of_pushWord {value : Nat} (h : pushWord kpage s value = .ok s') :
    upage ≤ s'.sp ∧ s'.sp + 4 = s.sp ∧ s'.argAddrs = s.argAddrs := by
  have hup := upage_add
  have htop : physBase = 3221225472 := rfl
  have hpage : pgsize = 4096 := rfl
  simp only [pushWord] at h
  split at h
  · cases h
  · injection h with h
    have hsp : s'.sp = s.sp - 4 := by rw [← h, writeStackWord]
    refine ⟨by omega, by omega, ?_⟩
    rw [← h, writeStackWord_argAddrs]

theorem sp_of_pushWords {ns : List Nat} (h : ns.foldlM (pushWord kpage) s = .ok s') :
    s'.sp + 4 * ns.length = s.sp := by
  induction ns generalizing s with
  | nil => cases h; rfl
  | cons n ns ih =>
    obtain ⟨s₁, hs₁, h⟩ := bind_eq_ok h
    have h₁ := (sp_of_pushWord hs₁).2.1
    have h₂ := ih h
    rw [length_cons]
    omega

theorem sp_of_pushStrings (h : args.foldlM pushString s = .ok s') :
    s'.sp + (args.map fun a ↦ a.length + 1).sum = s.sp ∧
      s'.argAddrs.length = s.argAddrs.length + args.length := by
  induction args generalizing s with
  | nil => cases h; exact ⟨rfl, rfl⟩
  | cons arg args ih =>
    obtain ⟨s₁, hs₁, h⟩ := bind_eq_ok h
    obtain ⟨h₁, h₂⟩ := ih h
    simp only [pushString] at hs₁
    split at hs₁
    · cases hs₁
    · injection hs₁ with hs₁
      rw [← hs₁] at h₁ h₂
      simp only [length_append, length_singleton] at h₁ h₂
      simp only [map_cons, sum_cons, length_cons]
      omega

theorem layoutSize_of_fill (h : fill kpage mem args = .ok s) : layoutSize args ≤ pgsize := by
  have hup := upage_add
  obtain ⟨s₀, hs₀, h⟩ := bind_eq_ok h
  obtain ⟨hsp₀, hlen₀⟩ := sp_of_pushStrings hs₀
  obtain ⟨s₁, hs₁, h⟩ := bind_eq_ok h
  obtain ⟨-, hsp₁, ha₁⟩ := sp_of_pushWord hs₁
  obtain ⟨s₂, hs₂, h⟩ := bind_eq_ok h
  have hsp₂ := sp_of_pushWords hs₂
  obtain ⟨s₃, hs₃, h⟩ := bind_eq_ok h
  obtain ⟨-, hsp₃, -⟩ := sp_of_pushWord hs₃
  obtain ⟨s₄, hs₄, h⟩ := bind_eq_ok h
  obtain ⟨-, hsp₄, -⟩ := sp_of_pushWord hs₄
  obtain ⟨hlow, hsp₅, -⟩ := sp_of_pushWord h
  rw [ha₁] at hsp₂
  simp only [length_reverse, map_reverse, sum_reverse] at hsp₀ hlen₀ hsp₁ hsp₂
  rw [layoutSize]
  omega

end Fill

/-- A word-aligned stack with the words and the strings of a program's arguments: `[sp] = 0`,
`[sp + 4] = argc`, `[sp + 8] = argv`, the pointers at `argv`, and the null pointer after them. -/
structure Delivers (u : Mem) (sp array : Nat) (args : List (List UInt8)) (ptrs : List Nat) : Prop where
  aligned : sp % 4 = 0
  ret : readWord u sp = 0
  argc : readWord u (sp + 4) = args.length
  argv : readWord u (sp + 8) = array
  count : ptrs.length = args.length
  pointers : ∀ i (hi : i < ptrs.length), readWord u (array + 4 * i) = ptrs[i]
  null : readWord u (array + 4 * args.length) = 0
  strings : List.Forall₂ (fun p a ↦ Holds u p (a ++ [0])) ptrs args

def objects (sp argv : Nat) (args : List (List UInt8)) (ptrs : List Nat) : List (Nat × Nat) :=
  [(sp, 4), (sp + 4, 4), (sp + 8, 4)] ++ (List.range (args.length + 1)).map (fun i ↦ (argv + 4 * i, 4)) ++
    (ptrs.zip args).map fun x ↦ (x.1, x.2.length + 1)

section Layout

variable {args : List (List UInt8)} {ptrs : List Nat} {t : Stack}

theorem delivers_of_layout {u : Mem} (hl : Layout t args ptrs) (hu : ∀ x, upage ≤ x → u x = t.mem x) :
    Delivers u t.sp (t.sp + 12) args ptrs := by
  have htop := hl.top
  have hlow := hl.low
  have hup := upage_add
  have hbase : physBase = 3221225472 := rfl
  have hlen : ptrs.length = args.length := hl.strings.length_eq
  have hwords : Holds u t.sp ((0 :: args.length :: (t.sp + 12) :: (ptrs ++ [0])).flatMap wordBytes) :=
    holds_congr (fun x hx ↦ hu x (by omega)) hl.words
  have hsmall : ∀ p ∈ 0 :: args.length :: (t.sp + 12) :: (ptrs ++ [0]), p < 4294967296 := by
    intro p hp
    simp only [mem_cons, mem_append, not_mem_nil, or_false] at hp
    rcases hp with rfl | rfl | rfl | hp | rfl
    · decide
    · omega
    · omega
    · obtain ⟨i, hi, rfl⟩ := getElem_of_mem hp
      have := (hl.strings.get hi (hlen ▸ hi)).2.1
      simp only [get_eq_getElem] at this
      omega
    · decide
  have hword := readWord_of_array hwords hsmall
  refine ⟨hl.aligned, hword 0 (by simp), hword 1 (by simp), hword 2 (by simp), hlen, ?_, ?_, ?_⟩
  · intro i hi
    have h := hword (i + 3) (by simp; omega)
    rw [show t.sp + 12 + 4 * i = t.sp + 4 * (i + 3) by omega, h]
    simp [getElem_append_left hi]
  · have h := hword (args.length + 3) (by simp; omega)
    rw [show t.sp + 12 + 4 * args.length = t.sp + 4 * (args.length + 3) by omega, h]
    simp [getElem_append_right hlen.le]
  · refine hl.strings.imp fun p a h ↦ holds_congr (fun x hx ↦ hu x ?_) h.2.2
    omega

theorem objects_of_layout (hl : Layout t args ptrs) :
    (∀ o ∈ objects t.sp (t.sp + 12) args ptrs, upage ≤ o.1 ∧ o.1 + o.2 ≤ physBase) ∧
      (objects t.sp (t.sp + 12) args ptrs).Pairwise fun x y ↦ x.1 + x.2 ≤ y.1 := by
  have htop := hl.top
  have hlow := hl.low
  have hup := upage_add
  have hstr : ∀ x ∈ ptrs.zip args, t.sp + 4 * (args.length + 4) ≤ x.1 ∧ x.1 + x.2.length < physBase :=
    fun x hx ↦
      have h := (List.forall₂_iff_zip.1 hl.strings).2 hx
      ⟨h.1, h.2.1⟩
  constructor
  · intro o ho
    simp only [objects, mem_append, mem_cons, not_mem_nil, or_false, mem_map, mem_range] at ho
    rcases ho with ((rfl | rfl | rfl) | ⟨i, hi, rfl⟩) | ⟨x, hx, rfl⟩
    · omega
    · omega
    · omega
    · omega
    · have := hstr x hx
      omega
  · refine pairwise_append.2 ⟨pairwise_append.2 ⟨by simp, ?_, ?_⟩, ?_, ?_⟩
    · rw [pairwise_map]
      exact pairwise_lt_range.imp fun h ↦ by omega
    · intro x hx y hy
      obtain ⟨i, -, rfl⟩ := mem_map.1 hy
      simp only [mem_cons, not_mem_nil, or_false] at hx
      rcases hx with rfl | rfl | rfl
      · omega
      · omega
      · omega
    · rw [pairwise_map]
      exact hl.order.imp fun h ↦ by omega
    · intro x hx y hy
      obtain ⟨z, hz, rfl⟩ := mem_map.1 hy
      have := (hstr z hz).1
      rcases mem_append.1 hx with hx | hx
      · simp only [mem_cons, not_mem_nil, or_false] at hx
        rcases hx with rfl | rfl | rfl
        · omega
        · omega
        · omega
      · obtain ⟨i, hi, rfl⟩ := mem_map.1 hx
        have := mem_range.1 hi
        omega

end Layout

/-- A command line whose words fit in one page is laid out in the stack page as a program expects
it. -/
theorem setupStack_delivers (kpage : Kpage) (mem : Mem) (cmdline : Str)
    (hfit : layoutSize (arguments cmdline) ≤ pgsize) :
    ∃ s ptrs argv, setupStack (some kpage) true mem cmdline = .ok (some s) ∧
      Delivers (s.user kpage) s.sp argv (arguments cmdline) ptrs ∧
      (∀ o ∈ objects s.sp argv (arguments cmdline) ptrs, upage ≤ o.1 ∧ o.1 + o.2 ≤ physBase) ∧
      (objects s.sp argv (arguments cmdline) ptrs).Pairwise fun x y ↦ x.1 + x.2 ≤ y.1 := by
  obtain ⟨s, t, hs, ht, hm⟩ := mirrors_fill kpage mem hfit
  obtain ⟨ptrs, hl⟩ := layout_setupStack ht
  refine ⟨s, ptrs, t.sp + 12, by rw [setupStack, hs]; rfl, ?_⟩
  rw [hm.sp]
  exact ⟨delivers_of_layout hl hm.mem, objects_of_layout hl⟩

def firstPage : Kpage := ⟨physBase, by decide, by decide⟩

/-- The command line `ls  -l a`, with two blanks after its first word. -/
theorem setupStack_delivers_ls :
    arguments [108, 115, 32, 32, 45, 108, 32, 97] = [[108, 115], [45, 108], [97]] ∧
    ∃ s ptrs argv, setupStack (some firstPage) true (fun _ ↦ 0) [108, 115, 32, 32, 45, 108, 32, 97] = .ok (some s) ∧
      Delivers (s.user firstPage) s.sp argv [[108, 115], [45, 108], [97]] ptrs :=
  have hwords : arguments [108, 115, 32, 32, 45, 108, 32, 97] = [[108, 115], [45, 108], [97]] := by decide
  have ⟨s, ptrs, argv, hs, hd, _⟩ := setupStack_delivers firstPage (fun _ ↦ 0) [108, 115, 32, 32, 45, 108, 32, 97]
    (by decide)
  ⟨hwords, s, ptrs, argv, hs, hwords ▸ hd⟩

/-- `setup_stack` returns, and what it wrote lies in the page it allocated. -/
def Contained (frame : Option Kpage) (r : Except Setup (Option Setup)) : Prop :=
  ∃ o, r = .ok o ∧ ∀ kpage s, frame = some kpage → o = some s → Inside kpage s

/-- `setup_stack` stays in its page exactly when it gets no page or the layout of the arguments is
not larger than a page. -/
theorem setupStack_contained_iff (frame : Option Kpage) (installed : Bool) (mem : Mem) (cmdline : Str) :
    Contained frame (setupStack frame installed mem cmdline) ↔
      frame = none ∨ installed = false ∨ layoutSize (arguments cmdline) ≤ pgsize := by
  cases frame with
  | none => exact iff_of_true ⟨none, rfl, fun _ _ _ h ↦ by cases h⟩ (.inl rfl)
  | some kpage =>
    cases installed with
    | false => exact iff_of_true ⟨none, rfl, fun _ _ _ h ↦ by cases h⟩ (.inr (.inl rfl))
    | true =>
      simp only [reduceCtorEq, false_or]
      constructor
      · rintro ⟨o, ho, -⟩
        rw [setupStack] at ho
        cases hfill : fill kpage mem _ with
        | error e => rw [hfill] at ho; cases ho
        | ok s => exact layoutSize_of_fill hfill
      · intro hfit
        obtain ⟨s, t, hs, -, hm⟩ := mirrors_fill kpage mem hfit
        refine ⟨some s, by rw [setupStack, hs]; rfl, ?_⟩
        rintro _ _ ⟨⟩ ⟨⟩
        exact hm.inside

/-- User memory with a vector of `n` pointers at 64 that all point to one string at 256. -/
def sharedString (n : Nat) (a : List UInt8) : Mem :=
  writeBytes (writeBytes (fun _ ↦ 0) 256 (a ++ [0])) 64
    ((List.replicate n 256).flatMap wordBytes ++ wordBytes 0)

theorem readArgv_sharedString {n : Nat} {a : List UInt8} (hn : n ≤ 32) (ha : a.length ≤ 255)
    (hnul : 0 ∉ a) : readArgv (sharedString n a) 32 64 = List.replicate n a := by
  have hbase : physBase = 3221225472 := rfl
  have hsize : ((List.replicate n 256).flatMap wordBytes ++ wordBytes 0).length = 4 * (n + 1) := by
    simp [wordBytes]
    omega
  have hstrings : List.Forall₂
      (fun p b ↦ 0 < p ∧ p + b.length < physBase ∧ Holds (sharedString n a) p (b ++ [0]))
      (List.replicate n 256) (List.replicate n a) := by
    refine List.forall₂_iff_zip.2 ⟨by simp, fun h ↦ ?_⟩
    rw [zip_replicate'] at h
    obtain ⟨-, h⟩ := mem_replicate.1 h
    cases h
    refine ⟨by decide, by omega, holds_writeBytes_above holds_writeBytes ?_⟩
    omega
  refine readArgv_of_holds hstrings (fun b hb ↦ ?_) (fun b hb ↦ ?_) 32 64 ?_ ?_ holds_writeBytes
  · rw [(mem_replicate.1 hb).2]
    exact ha
  · rw [(mem_replicate.1 hb).2]
    exact hnul
  · rw [length_replicate]
    exact hn
  · rw [length_replicate]
    omega

/-- `exec` with seventeen strings of 255 bytes stores below the stack page. -/
theorem argv_overruns_stack_page :
    ∃ s, setupStack (some firstPage) true (fun _ ↦ 0)
        (buildCmdlineFromArgv (sharedString 17 (List.replicate 255 97)) 64) = .error s ∧
      (∃ w ∈ s.stores, w.addr < firstPage.addr) ∧
      ¬ Contained (some firstPage) (setupStack (some firstPage) true (fun _ ↦ 0)
        (buildCmdlineFromArgv (sharedString 17 (List.replicate 255 97)) 64)) := by
  have hplain : Plain (List.replicate 17 (List.replicate 255 97)) := by
    intro a ha
    rw [(mem_replicate.1 ha).2]
    refine ⟨ne_nil_of_length_pos (length_replicate.ge.trans' (by decide)), fun b hb ↦ ?_⟩
    rw [(mem_replicate.1 hb).2]
    decide
  have hargs : arguments (buildCmdlineFromArgv (sharedString 17 (List.replicate 255 97)) 64) =
      List.replicate 17 (List.replicate 255 97) := by
    rw [buildCmdlineFromArgv, readArgv_sharedString (by decide) length_replicate.le
      (fun h ↦ absurd (mem_replicate.1 h).2 (by decide))]
    rw [arguments, (splitWhitespace_plain hplain).1, (splitWhitespace_plain hplain).2]
  have hrun : (fill firstPage (fun _ ↦ 0) (List.replicate 17 (List.replicate 255 97))).casesOn
      (fun s ↦ s.stores.any fun w ↦ decide (w.addr < firstPage.addr))
      (fun _ ↦ false) = true := by decide +kernel
  cases hs : fill firstPage (fun _ ↦ 0) _ with
  | ok s => rw [hs] at hrun; cases hrun
  | error s =>
    rw [hs] at hrun
    obtain ⟨w, hw, hlow⟩ := any_eq_true.1 hrun
    have herr : setupStack (some firstPage) true (fun _ ↦ 0)
        (buildCmdlineFromArgv (sharedString 17 (List.replicate 255 97)) 64) = .error s := by
      rw [setupStack, hargs, hs]
      rfl
    refine ⟨s, herr, ⟨w, hw, of_decide_eq_true hlow⟩, ?_⟩
    rintro ⟨o, ho, -⟩
    rw [herr] at ho
    cases ho

end Rxv6.Userprog.StackSetup
