import Rxv6.Lib.Words
import Rxv6.Vm.State

namespace Rxv6.Userprog.Argv

open Rxv6.Vm Rxv6.Lib.Words List Option

abbrev Mem := Nat → UInt8

/-- A string whose characters come from `byte as char`, so they are at most U+00FF. -/
abbrev Str := List UInt8

/-- `char::is_whitespace`, up to U+00FF. -/
def isWhitespace (c : UInt8) : Bool := (9 ≤ c && c ≤ 13) || c = 32 || c = 0x85 || c = 0xA0

def encodeChar (c : UInt8) : List UInt8 :=
  if c < 0x80 then [c] else [(0xC0 : UInt8) ||| c >>> 6, (0x80 : UInt8) ||| c &&& 0x3F]

def asBytes (s : Str) : List UInt8 := s.flatMap encodeChar

def readWord (mem : Mem) (a : Nat) : Nat :=
  (mem a).toNat + 256 * (mem (a + 1)).toNat + 65536 * (mem (a + 2)).toNat +
    16777216 * (mem (a + 3)).toNat

def readString (mem : Mem) : Nat → Nat → Str
  | 0, _ => []
  | n + 1, sp =>
    if physBase ≤ sp then []
    else if mem sp = 0 then []
    else mem sp :: readString mem n (sp + 1)

def readArgv (mem : Mem) : Nat → Nat → List Str
  | 0, _ => []
  | n + 1, ptr =>
    if physBase < ptr + 4 then []
    else
      let strPtr := readWord mem ptr
      if strPtr = 0 then []
      else if physBase ≤ strPtr then []
      else readString mem 256 strPtr :: readArgv mem n (ptr + 4)

def buildCmdlineFromArgv (mem : Mem) (argvAddr : Nat) : Str := unwords 32 (readArgv mem 32 argvAddr)

def splitWhitespace (s : Str) : List Str := words isWhitespace s

structure Stack where
  mem : Mem
  sp : Nat

def wordBytes (n : Nat) : List UInt8 :=
  [UInt8.ofNat n, UInt8.ofNat (n / 256), UInt8.ofNat (n / 65536), UInt8.ofNat (n / 16777216)]

def writeBytes (mem : Mem) (a : Nat) (bs : List UInt8) : Mem := fun x ↦
  if a ≤ x ∧ x < a + bs.length then bs.getD (x - a) 0 else mem x

namespace Stack

def push (s : Stack) (bs : List UInt8) : Stack :=
  ⟨writeBytes s.mem (s.sp - bs.length) bs, s.sp - bs.length⟩

def pushString (arg : List UInt8) (r : Stack × List Nat) : Stack × List Nat :=
  let s := r.1.push (arg ++ [0])
  (s, s.sp :: r.2)

def pushStrings (s : Stack) (args : List (List UInt8)) : Stack × List Nat :=
  args.reverse.foldl (fun r arg ↦ pushString arg r) (s, [])

def pushWords (s : Stack) (l : List Nat) : Stack := l.foldl (fun s n ↦ s.push (wordBytes n)) s

def align (s : Stack) : Stack := { s with sp := s.sp / 4 * 4 }

end Stack

/-- `setup_stack` on the bytes of the arguments. `none`: they do not fit, and the source writes
below the stack page. -/
def setupStack (page : Mem) (args : List (List UInt8)) : Option Stack :=
  let r := (⟨page, physBase⟩ : Stack).pushStrings args
  let s := (r.1.align.push (wordBytes 0)).pushWords r.2.reverse
  let s := s.pushWords [s.sp, args.length, 0]
  if physBase - pgsize ≤ s.sp then some s else none

def cString (mem : Mem) : Nat → Nat → List UInt8
  | 0, _ => []
  | n + 1, p => if mem p = 0 then [] else mem p :: cString mem n (p + 1)

def Stack.argv (s : Stack) : List (List UInt8) :=
  (List.range (readWord s.mem (s.sp + 4))).map fun i ↦
    cString s.mem pgsize (readWord s.mem (readWord s.mem (s.sp + 8) + 4 * i))

/-- What a successful `exec` starts: the image and the stack of the program. -/
structure Started (Image : Type*) where
  image : Image
  stack : Option Stack

/-- `sys_exec` with `load`. `loads` gives what opening and loading the file of a name gives. -/
def sysExec {Image : Type*} (loads : List UInt8 → Option Image) (page mem : Mem) (path : Str)
    (argvAddr : Nat) : Option (Started Image) :=
  let cmdline :=
    if argvAddr ≠ 0 ∧ argvAddr < physBase then buildCmdlineFromArgv mem argvAddr else path
  match (splitWhitespace cmdline).head? with
  | none => none
  | some filename =>
    (loads (asBytes filename)).map fun image ↦
      ⟨image, setupStack page ((splitWhitespace cmdline).map asBytes)⟩

def Holds (mem : Mem) : Nat → List UInt8 → Prop
  | _, [] => True
  | a, b :: l => mem a = b ∧ Holds mem (a + 1) l

/-- The vector lies in user memory at `addr`, with its strings and the null pointer after it. -/
structure Represents (mem : Mem) (addr : Nat) (argv : List (List UInt8)) : Prop where
  nonzero : addr ≠ 0
  pointers : ∃ ptrs : List Nat,
    List.Forall₂ (fun p a ↦ 0 < p ∧ p + a.length < physBase ∧ Holds mem p (a ++ [0])) ptrs argv ∧
      Holds mem addr (ptrs.flatMap wordBytes ++ wordBytes 0)
  room : addr + 4 * (argv.length + 1) ≤ physBase

/-- A vector within the limits of `exec`, and whose strings fit in the stack page. -/
structure Admissible (page : Mem) (argv : List (List UInt8)) : Prop where
  count : argv.length ≤ 32
  length : ∀ a ∈ argv, a.length ≤ 255
  nul : ∀ a ∈ argv, 0 ∉ a
  fits : setupStack page argv ≠ none

def Plain (argv : List (List UInt8)) : Prop :=
  ∀ a ∈ argv, a ≠ [] ∧ ∀ b ∈ a, b < 0x80 ∧ isWhitespace b = false

instance (argv : List (List UInt8)) : Decidable (Plain argv) :=
  inferInstanceAs (Decidable (∀ a ∈ argv, a ≠ [] ∧ ∀ b ∈ a, b < 0x80 ∧ isWhitespace b = false))

section Memory

variable {mem : Mem} {a b n : Nat} {l l' bs : List UInt8}

theorem holds_append : Holds mem a (l ++ l') ↔ Holds mem a l ∧ Holds mem (a + l.length) l' := by
  induction l generalizing a with
  | nil => simp [Holds]
  | cons c l ih =>
    simp only [cons_append, Holds, ih, length_cons, and_assoc]
    rw [show a + 1 + l.length = a + (l.length + 1) by omega]

theorem holds_congr {mem' : Mem} (h : ∀ x, a ≤ x → mem' x = mem x) (hl : Holds mem a l) :
    Holds mem' a l := by
  induction l generalizing a with
  | nil => trivial
  | cons c l ih => exact ⟨(h a le_rfl).trans hl.1, ih (fun x hx ↦ h x (by omega)) hl.2⟩

theorem holds_of_getD (h : ∀ i, i < l.length → mem (a + i) = l.getD i 0) : Holds mem a l := by
  induction l generalizing a with
  | nil => trivial
  | cons c l ih =>
    refine ⟨h 0 (by simp), ih fun i hi ↦ ?_⟩
    have := h (i + 1) (by simpa using hi)
    rw [show a + 1 + i = a + (i + 1) by omega, this]
    rfl

theorem holds_writeBytes : Holds (writeBytes mem a bs) a bs :=
  holds_of_getD fun i hi ↦ by
    rw [writeBytes, if_pos (by omega), Nat.add_sub_cancel_left]

theorem holds_writeBytes_above (h : Holds mem b l) (hle : a + bs.length ≤ b) :
    Holds (writeBytes mem a bs) b l :=
  holds_congr (fun x hx ↦ by rw [writeBytes, if_neg (by omega)]) h

theorem readWord_of_holds (h : Holds mem a (wordBytes n)) (hn : n < 4294967296) :
    readWord mem a = n := by
  obtain ⟨h₀, h₁, h₂, h₃, -⟩ := h
  rw [readWord, h₀, h₁, h₂, h₃]
  simp only [UInt8.toNat_ofNat']
  omega

theorem readWord_of_array {ps : List Nat} (h : Holds mem a (ps.flatMap wordBytes))
    (hps : ∀ p ∈ ps, p < 4294967296) : ∀ i (hi : i < ps.length), readWord mem (a + 4 * i) = ps[i] := by
  induction ps generalizing a with
  | nil => intro i hi; simp at hi
  | cons p ps ih =>
    rw [flatMap_cons, holds_append] at h
    intro i hi
    cases i with
    | zero => exact readWord_of_holds h.1 (hps p (by simp))
    | succ i =>
      have := ih h.2 (fun q hq ↦ hps q (by simp [hq])) i (by simpa using hi)
      rw [show a + 4 * (i + 1) = a + (wordBytes p).length + 4 * i by simp [wordBytes]; omega, this]
      rfl

section

variable (h : Holds mem a (l ++ [0])) (hnul : 0 ∉ l) (hn : l.length < n)
include h hnul hn

theorem cString_of_holds :
    cString mem n a = l := by
  induction l generalizing a n with
  | nil =>
    obtain ⟨n, rfl⟩ : ∃ k, n = k + 1 := ⟨n - 1, by omega⟩
    simp [cString, h.1]
  | cons c l ih =>
    obtain ⟨n, rfl⟩ : ∃ k, n = k + 1 := ⟨n - 1, by omega⟩
    have hc : c ≠ 0 := fun hc ↦ hnul (by simp [hc])
    rw [cString, h.1, if_neg hc, ih h.2 (fun hm ↦ hnul (by simp [hm])) (by simpa using hn)]

theorem readString_of_holds
    (hroom : a + l.length < physBase) : readString mem n a = l := by
  induction l generalizing a n with
  | nil =>
    obtain ⟨n, rfl⟩ : ∃ k, n = k + 1 := ⟨n - 1, by omega⟩
    simp [readString, h.1]
  | cons c l ih =>
    obtain ⟨n, rfl⟩ : ∃ k, n = k + 1 := ⟨n - 1, by omega⟩
    have hc : c ≠ 0 := fun hc ↦ hnul (by simp [hc])
    simp only [length_cons] at hroom hn
    rw [readString, if_neg (by omega), h.1, if_neg hc,
      ih h.2 (fun hm ↦ hnul (by simp [hm])) (by omega) (by omega)]

end

end Memory

open Stack

namespace Stack

variable {s : Stack} {a : Nat} {l bs : List UInt8}

theorem holds_push : Holds (s.push bs).mem (s.push bs).sp bs := holds_writeBytes

theorem sp_push_le : (s.push bs).sp ≤ s.sp := Nat.sub_le _ _

theorem push_keeps (h : Holds s.mem a l) (ha : s.sp ≤ a) (hroom : 0 < (s.push bs).sp) :
    Holds (s.push bs).mem a l := by
  refine holds_writeBytes_above h ?_
  have hsp : (s.push bs).sp = s.sp - bs.length := rfl
  omega

theorem pushWords_cons (n : Nat) (ns : List Nat) :
    s.pushWords (n :: ns) = (s.push (wordBytes n)).pushWords ns := rfl

theorem pushWords_append (ns ns' : List Nat) :
    s.pushWords (ns ++ ns') = (s.pushWords ns).pushWords ns' := foldl_append

theorem sp_pushWords (ns : List Nat) : (s.pushWords ns).sp = s.sp - 4 * ns.length := by
  induction ns generalizing s with
  | nil => rfl
  | cons n ns ih =>
    rw [pushWords_cons, ih]
    simp only [push, wordBytes, length_cons, length_nil]
    omega

variable {ns addrs : List Nat} {args : List (List UInt8)}

theorem pushWords_keeps (h : Holds s.mem a l) (ha : s.sp ≤ a)
    (hroom : 0 < (s.pushWords ns).sp) : Holds (s.pushWords ns).mem a l := by
  induction ns generalizing s with
  | nil => exact h
  | cons n ns ih =>
    rw [pushWords_cons] at hroom
    have hpos : 0 < (s.push (wordBytes n)).sp := by
      rw [sp_pushWords] at hroom
      omega
    exact ih (push_keeps h ha hpos) (sp_push_le.trans ha) hroom

theorem holds_pushWords (hroom : 0 < (s.pushWords ns.reverse).sp) :
    Holds (s.pushWords ns.reverse).mem (s.pushWords ns.reverse).sp (ns.flatMap wordBytes) := by
  induction ns with
  | nil => trivial
  | cons n ns ih =>
    rw [reverse_cons, pushWords_append] at hroom ⊢
    set t := s.pushWords ns.reverse with ht
    have hstep : t.pushWords [n] = t.push (wordBytes n) := rfl
    rw [hstep] at hroom ⊢
    have hsp : (t.push (wordBytes n)).sp = t.sp - 4 := rfl
    rw [flatMap_cons, holds_append]
    refine ⟨holds_push, ?_⟩
    rw [show (t.push (wordBytes n)).sp + (wordBytes n).length = t.sp by
      rw [hsp]; simp only [wordBytes, length_cons, length_nil]; omega]
    exact push_keeps (ih (by omega)) le_rfl hroom

def Strings (s : Stack) (addrs : List Nat) (args : List (List UInt8)) : Prop :=
  List.Forall₂ (fun p a ↦ s.sp ≤ p ∧ p + a.length < physBase ∧ Holds s.mem p (a ++ [0])) addrs args

theorem Strings.push (h : s.Strings addrs args)
    (hroom : 0 < (s.push bs).sp) : (s.push bs).Strings addrs args :=
  h.imp fun _ _ ⟨h₁, h₂, h₃⟩ ↦ ⟨sp_push_le.trans h₁, h₂, push_keeps h₃ h₁ hroom⟩

theorem Strings.pushWords (h : s.Strings addrs args)
    (hroom : 0 < (s.pushWords ns).sp) : (s.pushWords ns).Strings addrs args :=
  h.imp fun _ _ ⟨h₁, h₂, h₃⟩ ↦
    ⟨(sp_pushWords ns).le.trans ((Nat.sub_le _ _).trans h₁), h₂, pushWords_keeps h₃ h₁ hroom⟩

theorem pushStrings_cons (arg : List UInt8) (args : List (List UInt8)) :
    s.pushStrings (arg :: args) = pushString arg (s.pushStrings args) := by
  simp [pushStrings]

theorem strings_pushStrings (hsp : s.sp = physBase) (hroom : 0 < (s.pushStrings args).1.sp) :
    (s.pushStrings args).1.Strings (s.pushStrings args).2 args ∧
      (s.pushStrings args).1.sp ≤ physBase := by
  induction args with
  | nil => exact ⟨.nil, hsp.le⟩
  | cons arg args ih =>
    rw [pushStrings_cons] at hroom ⊢
    set r := s.pushStrings args
    have hpush : (pushString arg r).1.sp = r.1.sp - (arg.length + 1) := by
      simp [pushString, push]
    obtain ⟨hstr, hle⟩ := ih (by omega)
    refine ⟨.cons ⟨le_rfl, ?_, holds_push⟩ (hstr.push hroom), by omega⟩
    show (pushString arg r).1.sp + arg.length < physBase
    omega

theorem Strings.align (h : s.Strings addrs args) : s.align.Strings addrs args :=
  h.imp fun _ _ ⟨h₁, h₂, h₃⟩ ↦ ⟨(Nat.div_mul_le_self _ _).trans h₁, h₂, h₃⟩

end Stack

def layoutSize (args : List (List UInt8)) : Nat :=
  (args.map fun a ↦ a.length + 1).sum + 4 * (args.length + 1) + 12

variable {s : Stack} {args : List (List UInt8)}

theorem Stack.sp_pushStrings (args : List (List UInt8)) :
    (s.pushStrings args).1.sp = s.sp - (args.map fun a ↦ a.length + 1).sum := by
  induction args with
  | nil => rfl
  | cons arg args ih =>
    rw [pushStrings_cons, map_cons, sum_cons]
    simp only [pushString, push, length_append, length_singleton]
    omega

theorem Stack.pairwise_pushStrings (hsp : s.sp = physBase) (hroom : 0 < (s.pushStrings args).1.sp) :
    ((s.pushStrings args).2.zip args).Pairwise fun x y ↦ x.1 + x.2.length < y.1 := by
  induction args with
  | nil => simp
  | cons arg args ih =>
    rw [pushStrings_cons] at hroom ⊢
    set r := s.pushStrings args with hr
    have hpush : (pushString arg r).1.sp = r.1.sp - (arg.length + 1) := by
      simp [pushString, push]
    have hstr : r.1.Strings r.2 args := (strings_pushStrings hsp (by rw [← hr]; omega)).1
    refine pairwise_cons.2 ⟨fun y hy ↦ ?_, ih (by omega)⟩
    have hy := ((forall₂_iff_zip.1 hstr).2 hy).1
    show (pushString arg r).1.sp + arg.length < y.1
    omega

/-- What `setup_stack` leaves in the stack page: the words from the stack pointer up to the null
pointer, and above them the strings. -/
structure Layout (s : Stack) (args : List (List UInt8)) (ptrs : List Nat) : Prop where
  aligned : s.sp % 4 = 0
  low : physBase - pgsize ≤ s.sp
  top : s.sp + 4 * (args.length + 4) ≤ physBase
  words : Holds s.mem s.sp ((0 :: args.length :: (s.sp + 12) :: (ptrs ++ [0])).flatMap wordBytes)
  strings : List.Forall₂ (fun p a ↦ s.sp + 4 * (args.length + 4) ≤ p ∧ p + a.length < physBase ∧
    Holds s.mem p (a ++ [0])) ptrs args
  order : (ptrs.zip args).Pairwise fun x y ↦ x.1 + x.2.length < y.1

theorem setupStack_sp (page : Mem) (args : List (List UInt8)) :
    setupStack page args ≠ none ↔ layoutSize args ≤ pgsize := by
  have hbase : physBase = 3221225472 := rfl
  have hpage : pgsize = 4096 := rfl
  have hlen : ∀ s : Stack, (s.pushStrings args).2.length = args.length := by
    intro s
    induction args with
    | nil => rfl
    | cons arg args ih => rw [pushStrings_cons]; exact congrArg (· + 1) ih
  simp only [setupStack, sp_pushWords, push, align, sp_pushStrings,
    length_reverse, hlen, length_cons, length_nil, wordBytes, layoutSize]
  split
  · simp only [ne_eq, reduceCtorEq, not_false_eq_true, true_iff]
    omega
  · simp only [ne_eq, not_true_eq_false, false_iff]
    omega

theorem layout_setupStack {page : Mem}
    (h : setupStack page args = some s) : ∃ ptrs, Layout s args ptrs := by
  unfold setupStack at h
  simp only [] at h
  set r := (⟨page, physBase⟩ : Stack).pushStrings args with hr
  set s₁ := r.1.align.push (wordBytes 0) with hs₁
  set s₂ := s₁.pushWords r.2.reverse with hs₂
  split at h
  next hfit =>
    cases h
    have hbase : physBase - pgsize = 3221221376 := rfl
    have hsp₃ : (s₂.pushWords [s₂.sp, args.length, 0]).sp = s₂.sp - 12 := sp_pushWords _
    have hsp₂ : s₂.sp = s₁.sp - 4 * r.2.length := by
      rw [sp_pushWords, length_reverse]
    have hsp₁ : s₁.sp = r.1.sp / 4 * 4 - 4 := rfl
    have hroom : 0 < r.1.sp := by omega
    obtain ⟨hstr, hle⟩ := strings_pushStrings rfl hroom
    rw [← hr] at hstr hle
    have hlen : r.2.length = args.length := hstr.length_eq
    have hpos₂ : 0 < s₂.sp := by omega
    have hpos₁ : 0 < s₁.sp := by omega
    have hpos₃ : 0 < (s₂.pushWords [s₂.sp, args.length, 0]).sp := by omega
    have hstr₂ : s₂.Strings r.2 args := (hstr.align.push hpos₁).pushWords hpos₂
    have hstr₃ := hstr₂.pushWords hpos₃
    -- the pointers with the null pointer above them, and the three words below them
    have hnull : Holds s₂.mem (s₂.sp + 4 * r.2.length) (wordBytes 0) := by
      rw [show s₂.sp + 4 * r.2.length = s₁.sp by omega]
      exact pushWords_keeps holds_push le_rfl hpos₂
    have harray : Holds s₂.mem s₂.sp ((r.2 ++ [0]).flatMap wordBytes) := by
      rw [flatMap_append, holds_append]
      refine ⟨holds_pushWords hpos₂, ?_⟩
      rw [show (r.2.flatMap wordBytes).length = 4 * r.2.length by
        simp [wordBytes, mul_comm]]
      simpa only [flatMap_cons, flatMap_nil, append_nil] using hnull
    have htopWords : Holds (s₂.pushWords [s₂.sp, args.length, 0]).mem
        (s₂.pushWords [s₂.sp, args.length, 0]).sp ([0, args.length, s₂.sp].flatMap wordBytes) :=
      have hroom₃ : 0 < (s₂.pushWords [0, args.length, s₂.sp].reverse).sp := by
        show 0 < (s₂.pushWords [s₂.sp, args.length, 0]).sp
        omega
      holds_pushWords hroom₃
    refine ⟨r.2, ?_, hbase.le.trans hfit, by omega, ?_, ?_, pairwise_pushStrings rfl hroom⟩
    · omega
    · have happ : (0 :: args.length :: ((s₂.pushWords [s₂.sp, args.length, 0]).sp + 12) ::
          (r.2 ++ [0])) = [0, args.length, s₂.sp] ++ (r.2 ++ [0]) := by
        rw [show (s₂.pushWords [s₂.sp, args.length, 0]).sp + 12 = s₂.sp by omega]
        rfl
      rw [happ, flatMap_append, holds_append]
      refine ⟨htopWords, ?_⟩
      rw [show (s₂.pushWords [s₂.sp, args.length, 0]).sp +
          ([0, args.length, s₂.sp].flatMap wordBytes).length = s₂.sp by
        simp only [flatMap_cons, flatMap_nil, wordBytes, length_append, length_cons, length_nil]
        omega]
      exact pushWords_keeps harray le_rfl (by omega)
    · refine forall₂_iff_zip.2 ⟨hlen, fun hz ↦ ?_⟩
      have h₁ := ((forall₂_iff_zip.1 hstr).2 hz).1
      obtain ⟨-, h₂, h₃⟩ := (forall₂_iff_zip.1 hstr₃).2 hz
      exact ⟨by omega, h₂, h₃⟩
  · cases h

theorem argv_setupStack {page : Mem}
    (h : setupStack page args = some s) (hnul : ∀ a ∈ args, 0 ∉ a) : s.argv = args := by
  obtain ⟨ptrs, hl⟩ := layout_setupStack h
  have htop : physBase = 3221225472 := rfl
  have hlow := hl.low
  have hsp := hl.top
  have hlen : ptrs.length = args.length := hl.strings.length_eq
  have hptrs : ∀ p ∈ ptrs, p < 4294967296 := by
    intro p hp
    obtain ⟨i, hi, rfl⟩ := getElem_of_mem hp
    have := (hl.strings.get hi (hlen ▸ hi)).2.1
    simp only [get_eq_getElem] at this
    omega
  have hword := readWord_of_array hl.words (by
    intro p hp
    simp only [mem_cons, mem_append, not_mem_nil, or_false] at hp
    rcases hp with rfl | rfl | rfl | hp | rfl
    · decide
    · omega
    · omega
    · exact hptrs p hp
    · decide)
  have hargc : readWord s.mem (s.sp + 4) = args.length := hword 1 (by simp)
  have hargv : readWord s.mem (s.sp + 8) = s.sp + 12 := hword 2 (by simp)
  unfold argv
  rw [hargc, hargv]
  refine ext_getElem (by simp) fun i hi hi' ↦ ?_
  have hi₂ : i < ptrs.length := hlen ▸ hi'
  obtain ⟨h₁, h₂, h₃⟩ := hl.strings.get hi₂ hi'
  simp only [get_eq_getElem] at h₁ h₂
  have hptr := hword (i + 3) (by simp; omega)
  rw [getElem_map, getElem_range, show s.sp + 12 + 4 * i = s.sp + 4 * (i + 3) by omega, hptr]
  simp only [getElem_cons_succ, getElem_append_left hi₂]
  exact cString_of_holds h₃ (hnul _ (getElem_mem hi')) (by omega)

theorem readArgv_of_holds {mem : Mem} {argv : List (List UInt8)} {ptrs : List Nat}
    (h : List.Forall₂ (fun p a ↦ 0 < p ∧ p + a.length < physBase ∧ Holds mem p (a ++ [0])) ptrs argv)
    (hlen : ∀ a ∈ argv, a.length ≤ 255) (hnul : ∀ a ∈ argv, 0 ∉ a) :
    ∀ n ptr, argv.length ≤ n → ptr + 4 * (argv.length + 1) ≤ physBase →
      Holds mem ptr (ptrs.flatMap wordBytes ++ wordBytes 0) → readArgv mem n ptr = argv := by
  have htop : physBase = 3221225472 := rfl
  induction h with
  | nil =>
    intro n ptr _ hroom hholds
    cases n with
    | zero => rfl
    | succ n =>
      have hword := readWord_of_holds hholds (by decide)
      simp only [readArgv, hword]
      exact if_neg (by omega)
  | @cons p a ptrs argv hp _ ih =>
    intro n ptr hn hroom hholds
    obtain ⟨n, rfl⟩ : ∃ k, n = k + 1 := ⟨n - 1, by simp at hn; omega⟩
    simp only [length_cons] at hn hroom
    rw [flatMap_cons, append_assoc, holds_append] at hholds
    have hword := readWord_of_holds hholds.1 (by omega)
    have hstr := readString_of_holds (n := 256) hp.2.2 (hnul a (by simp))
      (by have := hlen a (by simp); omega) hp.2.1
    have hrest := ih (fun x hx ↦ hlen x (by simp [hx])) (fun x hx ↦ hnul x (by simp [hx])) n (ptr + 4)
      (by omega) (by omega) hholds.2
    simp only [readArgv, hword]
    rw [if_neg (by omega), if_neg (by omega), if_neg (by omega), hstr, hrest]

theorem buildCmdline_of_represents {page mem : Mem} {addr : Nat} {argv : List (List UInt8)}
    (ha : Admissible page argv) (h : Represents mem addr argv) :
    buildCmdlineFromArgv mem addr = unwords 32 argv := by
  obtain ⟨ptrs, hp, hholds⟩ := h.pointers
  rw [buildCmdlineFromArgv, readArgv_of_holds hp ha.length ha.nul 32 addr ha.count h.room hholds]

section Encoding

theorem forall_byte {p : UInt8 → Prop} (h : ∀ n, n < 256 → p (UInt8.ofNat n)) (c : UInt8) : p c := by
  have := h c.toNat c.toNat_lt
  rwa [UInt8.ofNat_toNat] at this

def isHigh (c : UInt8) : Bool := 0x80 ≤ c && !isWhitespace c

theorem encodeChar_of_lt {c : UInt8} (h : c < 0x80) : encodeChar c = [c] := if_pos h

theorem encodeChar_ne_nil (c : UInt8) : encodeChar c ≠ [] := by
  unfold encodeChar
  split <;> simp

theorem zero_notMem_encodeChar (c : UInt8) : c ≠ 0 → 0 ∉ encodeChar c := by
  revert c
  exact forall_byte (by decide +kernel)

theorem isHigh_encodeChar (c : UInt8) : (if isHigh c then 1 else 0) ≤ (encodeChar c).countP isHigh := by
  revert c
  exact forall_byte (by decide +kernel)

theorem lead_of_isHigh (c : UInt8) : isHigh c = true →
    ∃ d ∈ encodeChar c, isHigh d = true ∧ (encodeChar d).countP isHigh = 2 := by
  revert c
  exact forall_byte (by decide +kernel)

theorem countP_le_asBytes (l : Str) : l.countP isHigh ≤ (asBytes l).countP isHigh := by
  induction l with
  | nil => rfl
  | cons c l ih =>
    have := isHigh_encodeChar c
    rw [asBytes, flatMap_cons, countP_append, countP_cons, ← asBytes]
    omega

variable {l : Str}

theorem countP_lt_asBytes {d : UInt8} (hd : d ∈ l) (hhigh : isHigh d = true)
    (htwo : (encodeChar d).countP isHigh = 2) : l.countP isHigh < (asBytes l).countP isHigh := by
  induction l with
  | nil => simp at hd
  | cons c l ih =>
    rw [asBytes, flatMap_cons, countP_append, countP_cons, ← asBytes]
    rcases mem_cons.mp hd with rfl | hd
    · have := countP_le_asBytes l
      rw [if_pos hhigh]
      omega
    · have := isHigh_encodeChar c
      have := ih hd
      omega

theorem asBytes_of_ascii (h : ∀ c ∈ l, c < 0x80) : asBytes l = l := by
  induction l with
  | nil => rfl
  | cons c l ih =>
    rw [asBytes, flatMap_cons, encodeChar_of_lt (h c (by simp)), ← asBytes, ih fun x hx ↦ h x (by simp [hx])]
    rfl

theorem plain_of_fixed (h : asBytes (l.filter (!isWhitespace ·)) = l) :
    ∀ c ∈ l, c < 0x80 ∧ isWhitespace c = false := by
  set f := l.filter _ with hf
  have hcount : l.countP isHigh = f.countP isHigh := by
    rw [countP_filter]
    exact countP_congr fun c _ ↦ by simp [isHigh]
  have hws : ∀ c ∈ f, isWhitespace c = false := by
    intro c hc
    rw [mem_filter] at hc
    exact Bool.eq_false_of_not_eq_true' hc.2
  have hascii : ∀ c ∈ f, c < 0x80 := by
    intro c hc
    by_contra hge
    have hhigh : isHigh c = true := by
      simp only [isHigh, hws c hc, Bool.not_false, Bool.and_true, decide_eq_true_eq]
      exact UInt8.not_lt.mp hge
    obtain ⟨d, hd, hdhigh, htwo⟩ := lead_of_isHigh c hhigh
    have hdl : d ∈ l := h ▸ mem_flatMap.mpr ⟨c, hc, hd⟩
    have hdf : d ∈ f := by
      rw [mem_filter]
      exact ⟨hdl, by simp [isHigh] at hdhigh; simp [hdhigh.2]⟩
    have := countP_lt_asBytes hdf hdhigh htwo
    rw [h] at this
    omega
  rw [asBytes_of_ascii hascii] at h
  intro c hc
  rw [← h] at hc
  exact ⟨hascii c hc, hws c hc⟩

end Encoding

variable {Image : Type*} {loads : List UInt8 → Option Image} {page mem : Mem} {path : Str}
  {addr : Nat} {argv : List (List UInt8)} {r : Started Image}

theorem splitWhitespace_plain (h : Plain argv) :
    splitWhitespace (unwords 32 argv) = argv ∧ argv.map asBytes = argv := by
  refine ⟨words_unwords rfl fun a ha ↦ ⟨(h a ha).1, fun c hc ↦ ((h a ha).2 c hc).2⟩, ?_⟩
  conv_rhs => rw [← map_id argv]
  exact map_congr_left fun a ha ↦ asBytes_of_ascii fun c hc ↦ ((h a ha).2 c hc).1

theorem asBytes_ne_nil {l : Str} (h : l ≠ []) : asBytes l ≠ [] := by
  cases l with
  | nil => exact absurd rfl h
  | cons c l =>
    exact fun he ↦ encodeChar_ne_nil c (append_eq_nil_iff.mp he).1

theorem flatten_map_asBytes (l : List Str) : (l.map asBytes).flatten = asBytes l.flatten := by
  induction l with
  | nil => rfl
  | cons a l ih => simp only [map_cons, flatten_cons, ih, asBytes, flatMap_append]

theorem plain_of_split (h : (splitWhitespace (unwords 32 argv)).map asBytes = argv) : Plain argv := by
  have hflat := congrArg flatten h
  rw [flatten_map_asBytes, splitWhitespace, flatten_words, filter_unwords rfl] at hflat
  have hplain := plain_of_fixed hflat
  intro a ha
  refine ⟨?_, fun c hc ↦ hplain c (mem_flatten.mpr ⟨a, ha, hc⟩)⟩
  rw [← h] at ha
  obtain ⟨t, ht, rfl⟩ := mem_map.mp ha
  exact asBytes_ne_nil (ne_nil_of_mem_words ht)

theorem zero_notMem_split (h : ∀ a ∈ argv, 0 ∉ a) :
    ∀ a ∈ (splitWhitespace (unwords 32 argv)).map asBytes, 0 ∉ a := by
  intro a ha hz
  obtain ⟨t, ht, rfl⟩ := mem_map.mp ha
  obtain ⟨c, hc, hz⟩ := mem_flatMap.mp hz
  have hmem : c ∈ (splitWhitespace (unwords 32 argv)).flatten := mem_flatten.mpr ⟨t, ht, hc⟩
  rw [splitWhitespace, flatten_words, filter_unwords rfl, mem_filter, mem_flatten] at hmem
  obtain ⟨⟨b, hb, hcb⟩, -⟩ := hmem
  refine zero_notMem_encodeChar c (fun hc0 ↦ h b hb ?_) hz
  rwa [← hc0]

theorem sysExec_some (ha : Admissible page argv) (hm : Represents mem addr argv)
    (h : sysExec loads page mem path addr = some r) :
    ∃ f, (splitWhitespace (unwords 32 argv)).head? = some f ∧ loads (asBytes f) = some r.image ∧
      r.stack = setupStack page ((splitWhitespace (unwords 32 argv)).map asBytes) := by
  have hlt : addr < physBase := by have := hm.room; omega
  simp only [sysExec, hm.nonzero, hlt, ne_eq, not_false_eq_true, buildCmdline_of_represents ha hm] at h
  split at h
  · cases h
  next f hf =>
    obtain ⟨image, himage, rfl⟩ := map_eq_some_iff.mp h
    exact ⟨f, hf, himage, rfl⟩

/-- A successful `exec` starts the file that `path` names with the vector it was given exactly when
every string is plain and the first one names the same file as `path`. -/
theorem exec_delivers_argv (ha : Admissible page argv) (hm : Represents mem addr argv)
    (h : sysExec loads page mem path addr = some r) :
    (loads (asBytes path) = some r.image ∧ ∃ s, r.stack = some s ∧ s.argv = argv) ↔
      Plain argv ∧ loads (asBytes path) = loads (argv.headD []) := by
  obtain ⟨f, hf, himage, hstack⟩ := sysExec_some ha hm h
  have hfirst : Plain argv → loads (argv.headD []) = some r.image := by
    intro hp
    obtain ⟨hsplit, hbytes⟩ := splitWhitespace_plain hp
    rw [hsplit] at hf
    obtain ⟨rest, rfl⟩ : ∃ rest, argv = f :: rest := by
      cases argv with
      | nil => simp at hf
      | cons a rest => exact ⟨rest, by simpa using hf⟩
    rw [map_cons, List.cons.injEq] at hbytes
    rw [← hbytes.1]
    exact himage
  constructor
  · rintro ⟨hpath, s, hs, hargv⟩
    rw [hstack] at hs
    rw [argv_setupStack hs (zero_notMem_split ha.nul)] at hargv
    have hp := plain_of_split hargv
    exact ⟨hp, hpath.trans (hfirst hp).symm⟩
  · rintro ⟨hp, hpath⟩
    obtain ⟨hsplit, hbytes⟩ := splitWhitespace_plain hp
    rw [hsplit, hbytes] at hstack
    obtain ⟨s, hs⟩ := ne_none_iff_exists'.mp ha.fits
    exact ⟨hpath.trans (hfirst hp), s, hstack.trans hs, argv_setupStack hs ha.nul⟩

def oneString (a : List UInt8) : Mem :=
  writeBytes (writeBytes (fun _ ↦ 0) 64 (wordBytes 128 ++ wordBytes 0)) 128 (a ++ [0])

theorem represents_oneString {a : List UInt8} (h : a.length ≤ 255) :
    Represents (oneString a) 64 [a] := by
  have htop : physBase = 3221225472 := rfl
  refine ⟨by decide, ⟨[128], .cons ⟨by decide, by omega, holds_writeBytes⟩ .nil, ?_⟩, by simp; omega⟩
  refine holds_of_getD fun i hi ↦ ?_
  have hi : i < 8 := hi
  rw [oneString, writeBytes, if_neg (by omega), writeBytes, if_pos ⟨by omega, by simp [wordBytes]; omega⟩,
    Nat.add_sub_cancel_left]
  rfl

/-- The strings `ls` and `-l` and the vector that points to them. -/
def lsMemory : Mem :=
  writeBytes (writeBytes (writeBytes (fun _ ↦ 0) 64 (wordBytes 128 ++ wordBytes 192 ++ wordBytes 0)) 128
    [108, 115, 0]) 192 [45, 108, 0]

theorem represents_lsMemory : Represents lsMemory 64 [[108, 115], [45, 108]] := by
  refine ⟨by decide, ⟨[128, 192], .cons ⟨by decide, by decide, ?_⟩ (.cons ⟨by decide, by decide, ?_⟩ .nil), ?_⟩,
    by decide⟩
  all_goals exact holds_of_getD (by decide)

/-- `exec("ls", {"ls", "-l", NULL})`. -/
theorem exec_delivers_argv_ls :
    Admissible (fun _ ↦ 0) [[108, 115], [45, 108]] ∧ Represents lsMemory 64 [[108, 115], [45, 108]] ∧
      ∃ r, sysExec some (fun _ ↦ 0) lsMemory [108, 115] 64 = some r ∧
        some (asBytes [108, 115]) = some r.image ∧ ∃ s, r.stack = some s ∧ s.argv = [[108, 115], [45, 108]] := by
  have ha : Admissible (fun _ ↦ 0) [[108, 115], [45, 108]] :=
    ⟨by decide, by decide, by decide, isSome_iff_ne_none.mp (by decide +kernel)⟩
  obtain ⟨r, hr⟩ := isSome_iff_exists.mp
    (show (sysExec some (fun _ ↦ 0) lsMemory [108, 115] 64).isSome by decide +kernel)
  exact ⟨ha, represents_lsMemory, r, hr, (exec_delivers_argv ha represents_lsMemory hr).mpr ⟨by decide +kernel, rfl⟩⟩

/-- `exec("x", {"a b", NULL})` starts the file `a` with two strings. -/
theorem exec_splits_blank :
    ∃ mem r, Admissible (fun _ ↦ 0) [[97, 32, 98]] ∧ Represents mem 64 [[97, 32, 98]] ∧
      sysExec some (fun _ ↦ 0) mem [120] 64 = some r ∧ r.image = [97] ∧
      (∃ s, r.stack = some s ∧ s.argv = [[97], [98]]) ∧
      ¬ (some (asBytes [120]) = some r.image ∧ ∃ s, r.stack = some s ∧ s.argv = [[97, 32, 98]]) := by
  have ha : Admissible (fun _ ↦ 0) [[97, 32, 98]] :=
    ⟨by decide, by decide, by decide, isSome_iff_ne_none.mp (by decide +kernel)⟩
  have hm : Represents (oneString [97, 32, 98]) 64 [[97, 32, 98]] := represents_oneString (by decide)
  obtain ⟨r, hr⟩ := isSome_iff_exists.mp
    (show (sysExec some (fun _ ↦ 0) (oneString [97, 32, 98]) [120] 64).isSome by decide +kernel)
  obtain ⟨s, hs⟩ := isSome_iff_exists.mp
    (show (setupStack (fun _ ↦ 0) [[97], [98]]).isSome by decide +kernel)
  obtain ⟨f, hf, himage, hstack⟩ := sysExec_some ha hm hr
  have hf : [97] = f := Option.some.inj hf
  have himage : r.image = [97] := by rw [← Option.some.inj himage, ← hf]; rfl
  have hstack : r.stack = some s := hstack.trans hs
  refine ⟨_, r, ha, hm, hr, himage, ⟨s, hstack, argv_setupStack hs (by decide)⟩, fun h ↦ ?_⟩
  rw [himage] at h
  exact absurd h.1 (by decide)

end Rxv6.Userprog.Argv
