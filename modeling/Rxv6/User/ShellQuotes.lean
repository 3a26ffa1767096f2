import Rxv6.User.ShellOrder

namespace Rxv6.User.Shell

open List

variable {W : Type} (os : Os W) {b : UInt8}

section Words

variable (st : Session W) {w : Text}

def singleQuoted (w : Text) : Text := '\x27' :: (w ++ ['\x27', ' '])

def escaped (w : Text) : Text := w.flatMap fun c ↦ ['\x5c', c]

theorem readWord_blank (t : Nat) (word : Text) : readWord os (t + 1) word [' '] st = (word, [' '], st) := rfl

theorem tokenize_word {c : Char} {cs w : Text} (hc : isBreak c = false) (hhash : c ≠ '#')
    (h : readWord os (cs.length + 2) [] (c :: cs) st = (w, [' '], st)) :
    tokenize os (' ' :: c :: cs) st = ([.ofWord w], st) := by
  rw [tokenize_blank, tokenize_cons, nextToken_word os hc hhash, h]
  rfl

theorem readWord_escaped (w : Text) : ∀ t word, w.length < t →
    readWord os t word (escaped w ++ [' ']) st = (word ++ w, [' '], st) := by
  induction w with
  | nil =>
    intro t word ht
    obtain ⟨t, rfl⟩ := Nat.exists_eq_add_of_lt ht
    rw [append_nil]
    exact readWord_blank os st _ word
  | cons c w ih =>
    intro t word ht
    obtain ⟨t, rfl⟩ := Nat.exists_eq_add_of_lt ht
    have hturn : readWord os (t + 1 + w.length + 1) word (escaped (c :: w) ++ [' ']) st =
        readWord os (t + 1 + w.length) (word ++ [c]) (escaped w ++ [' ']) st := rfl
    rw [show (c :: w).length + t + 1 = t + 1 + w.length + 1 by simp; omega, hturn, ih _ _ (by omega),
      append_assoc, singleton_append]

theorem length_escaped (w : Text) : (escaped w).length = 2 * w.length := by
  simp [escaped, Nat.mul_comm]

theorem tokenize_escaped (hw : w ≠ []) :
    tokenize os (' ' :: (escaped w ++ [' '])) st = ([.ofWord w], st) := by
  obtain ⟨c, w, rfl⟩ := exists_cons_of_ne_nil hw
  refine tokenize_word os st (by decide) (by decide) ?_
  have hlen : (c :: (escaped w ++ [' '])).length = 2 * w.length + 2 := by simp [length_escaped]
  refine readWord_escaped os st (c :: w) ((c :: (escaped w ++ [' '])).length + 2) [] ?_
  rw [length_cons]
  omega

theorem tokenize_singleQuoted (hw : '\x27' ∉ w) :
    tokenize os (' ' :: singleQuoted w) st = ([.ofWord w], st) := by
  refine tokenize_word os st (by decide) (by decide) ?_
  have hne : ∀ c ∈ w, decide (c ≠ '\x27') = true := fun c hc ↦ decide_eq_true fun h ↦ hw (h ▸ hc)
  have htake : (w ++ ['\x27', ' ']).takeWhile (· ≠ '\x27') = w := by
    rw [takeWhile_append_of_pos hne]
    exact append_nil w
  have hdrop : ((w ++ ['\x27', ' ']).dropWhile (· ≠ '\x27')).tail = [' '] := by
    rw [dropWhile_append_of_pos hne]
    rfl
  rw [readWord, htake, hdrop]
  exact readWord_blank os st _ w

end Words

section Bytes

/-- The bytes of a word: `push` encodes each character. -/
def wordBytes (w : Text) : List UInt8 := w.flatMap String.utf8EncodeChar

/-- The characters that `read_word` makes of bytes. -/
def asChars (s : List UInt8) : Text := s.map Char.ofUInt8

@[simp] theorem val_ofUInt8 (b : UInt8) : (Char.ofUInt8 b).val = b.toUInt32 := rfl

theorem utf8EncodeChar_of_lt (hb : b.toNat < 128) :
    String.utf8EncodeChar (Char.ofUInt8 b) = [b] := by
  simp [String.utf8EncodeChar, show ¬ 127 < b.toNat by omega]

theorem length_utf8EncodeChar (hb : 128 ≤ b.toNat) :
    (String.utf8EncodeChar (Char.ofUInt8 b)).length = 2 := by
  have hlt := b.toNat_lt
  simp [String.utf8EncodeChar, show ¬ b.toNat ≤ 127 by omega, show b.toNat ≤ 2047 by omega]

theorem le_length_wordBytes (s : List UInt8) : s.length ≤ (wordBytes (asChars s)).length := by
  induction s with
  | nil => exact le_rfl
  | cons b s ih =>
    have hb := String.length_utf8EncodeChar (Char.ofUInt8 b)
    have hpos := Char.utf8Size_pos (Char.ofUInt8 b)
    simp only [asChars, wordBytes, map_cons, flatMap_cons, length_append, length_cons] at ih ⊢
    omega

/-- The word has the bytes again if all of them are in ASCII. -/
theorem wordBytes_asChars (s : List UInt8) : wordBytes (asChars s) = s ↔ ∀ b ∈ s, b.toNat < 128 := by
  induction s with
  | nil => simp [wordBytes, asChars]
  | cons b s ih =>
    have hcons : wordBytes (asChars (b :: s)) = String.utf8EncodeChar (Char.ofUInt8 b) ++ wordBytes (asChars s) := rfl
    rw [hcons, forall_mem_cons, ← ih]
    by_cases hb : b.toNat < 128
    · simp [utf8EncodeChar_of_lt hb, hb]
    · refine iff_of_false (fun h ↦ ?_) fun h ↦ hb h.1
      have hlen := congrArg List.length h
      rw [length_append, length_utf8EncodeChar (Nat.le_of_not_lt hb), length_cons] at hlen
      have := le_length_wordBytes s
      omega

end Bytes

theorem isKeyword_ne_word (v w : Text) : isKeyword v ≠ some (.word w) := by
  have hite : ∀ {p : Prop} [Decidable p] {k : Token} {r : Option Token}, some k ≠ some (.word w) →
      r ≠ some (.word w) → (if p then some k else r) ≠ some (.word w) := by
    intro p _ k r hk hr
    split
    · exact hk
    · exact hr
  iterate 14 refine hite (by simp) ?_
  simp

/-- A word is itself, and not a reserved word. -/
theorem ofWord_eq_word {v w : Text} : Token.ofWord v = .word w ↔ isKeyword v = none ∧ v = w := by
  unfold Token.ofWord
  cases h : isKeyword v with
  | none => simp
  | some token =>
    have := isKeyword_ne_word v w
    simp_all

/-- The text is one word with the bytes `s`, and nothing is expanded. -/
def Literal (st : Session W) (text : Text) (s : List UInt8) : Prop :=
  ∃ w, tokenize os (' ' :: text) st = ([.word w], st) ∧ wordBytes w = s

def Ordinary (s : List UInt8) : Prop := (∀ b ∈ s, b.toNat < 128) ∧ isKeyword (asChars s) = none

theorem literal_iff {st : Session W} {text : Text} {s : List UInt8}
    (h : tokenize os (' ' :: text) st = ([.ofWord (asChars s)], st)) : Literal os st text s ↔ Ordinary s := by
  unfold Literal Ordinary
  rw [h, ← wordBytes_asChars]
  constructor
  · rintro ⟨w, hw, hs⟩
    simp only [Prod.mk.injEq, List.cons.injEq, and_true] at hw
    obtain ⟨hkey, rfl⟩ := ofWord_eq_word.mp hw
    exact ⟨hs, hkey⟩
  · rintro ⟨hs, hkey⟩
    exact ⟨asChars s, by rw [ofWord_eq_word.mpr ⟨hkey, rfl⟩], hs⟩

/-- Quoted text is literal exactly if it is in ASCII and not a reserved word, and escaped text if besides
it is not empty. -/
theorem quoting_literal_iff (st : Session W) (s : List UInt8) :
    ('\x27' ∉ asChars s → (Literal os st (singleQuoted (asChars s)) s ↔ Ordinary s)) ∧
      (Literal os st (escaped (asChars s) ++ [' ']) s ↔ Ordinary s ∧ s ≠ []) := by
  refine ⟨fun hs ↦ literal_iff os (tokenize_singleQuoted os st hs), ?_⟩
  by_cases hs : s = []
  · subst hs
    refine iff_of_false ?_ fun h ↦ h.2 rfl
    rintro ⟨w, hw, -⟩
    cases hw
  · rw [literal_iff os (tokenize_escaped os st (by simpa [asChars] using hs)), and_iff_left hs]

/-- The shell takes a reserved word in quotes for the reserved word, doubles a byte above ASCII and sees
no word in an empty escaped text. -/
theorem quoting_not_literal :
    (tokenize idle (' ' :: singleQuoted ['i', 'f']) (session [] [])).1 = [.kIf] ∧
      (¬ ∃ w, (tokenize idle (' ' :: singleQuoted (asChars [195, 169])) (session [] [])).1 = [.word w] ∧
        wordBytes w = [195, 169]) ∧
      (tokenize idle (' ' :: (escaped (asChars []) ++ [' '])) (session [] [])).1 = [] := by
  refine ⟨rfl, ?_, rfl⟩
  rintro ⟨w, hw, hs⟩
  cases hw
  cases hs

end Rxv6.User.Shell
