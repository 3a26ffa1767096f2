import Mathlib.Data.List.Basic

namespace Rxv6.Lib.Words

open List

variable {α : Type*} (sep : α → Bool)

/-- The words of a list, after the open word `cur`. -/
def wordsFrom : List α → List α → List (List α)
  | cur, [] => if cur.isEmpty then [] else [cur]
  | cur, c :: l =>
    if sep c then
      if cur.isEmpty then wordsFrom [] l else cur :: wordsFrom [] l
    else wordsFrom (cur ++ [c]) l

def words (l : List α) : List (List α) := wordsFrom sep [] l

def unwords (s : α) : List (List α) → List α
  | [] => []
  | [w] => w
  | w :: w' :: ws => w ++ s :: unwords s (w' :: ws)

variable {sep} {s : α} {cur w l : List α} {ws : List (List α)}

theorem flatten_wordsFrom : (wordsFrom sep cur l).flatten = cur ++ l.filter (!sep ·) := by
  induction l generalizing cur with
  | nil => cases cur <;> rfl
  | cons c l ih =>
    by_cases hc : sep c = true
    · cases cur with
      | nil => simp [wordsFrom, hc, ih]
      | cons a cur => simp [wordsFrom, hc, ih]
    · simp [wordsFrom, hc, ih]

theorem flatten_words : (words sep l).flatten = l.filter (!sep ·) := flatten_wordsFrom

theorem ne_nil_of_mem_wordsFrom (h : w ∈ wordsFrom sep cur l) : w ≠ [] := by
  induction l generalizing cur with
  | nil =>
    cases cur with
    | nil => simp [wordsFrom] at h
    | cons a cur =>
      simp only [wordsFrom, isEmpty_cons, Bool.false_eq_true, if_false, mem_singleton] at h
      simp [h]
  | cons c l ih =>
    simp only [wordsFrom] at h
    split at h
    · split at h
      · exact ih h
      next hcur =>
        rcases mem_cons.mp h with rfl | h
        · simpa using hcur
        · exact ih h
    · exact ih h

theorem ne_nil_of_mem_words (h : w ∈ words sep l) : w ≠ [] := ne_nil_of_mem_wordsFrom h

theorem wordsFrom_append (hw : ∀ c ∈ w, sep c = false) :
    wordsFrom sep cur (w ++ l) = wordsFrom sep (cur ++ w) l := by
  induction w generalizing cur with
  | nil => simp
  | cons c w ih =>
    have hc := hw c (by simp)
    rw [cons_append, wordsFrom, if_neg (by simp [hc]), ih fun x hx ↦ hw x (by simp [hx])]
    simp

theorem words_unwords (hs : sep s = true) (h : ∀ w ∈ ws, w ≠ [] ∧ ∀ c ∈ w, sep c = false) :
    words sep (unwords s ws) = ws := by
  induction ws with
  | nil => rfl
  | cons w ws ih =>
    obtain ⟨hne, hw⟩ := h w (by simp)
    have hempty : w.isEmpty = false := by simpa using hne
    cases ws with
    | nil =>
      have hlast : wordsFrom sep [] (w ++ []) = wordsFrom sep ([] ++ w) [] := wordsFrom_append hw
      rw [append_nil] at hlast
      simp [words, unwords, hlast, wordsFrom, hempty]
    | cons w' ws =>
      rw [words, unwords, wordsFrom_append hw, nil_append, wordsFrom, if_pos hs, hempty]
      exact congrArg (w :: ·) (ih fun x hx ↦ h x (by simp [hx]))

theorem filter_unwords (hs : sep s = true) :
    (unwords s ws).filter (!sep ·) = ws.flatten.filter (!sep ·) := by
  induction ws with
  | nil => rfl
  | cons w ws ih =>
    cases ws with
    | nil => simp [unwords]
    | cons w' ws =>
      rw [unwords, filter_append, filter_cons, if_neg (by simp [hs]), ih]
      simp

end Rxv6.Lib.Words
