import Mathlib.Logic.Basic

namespace Rxv6.Lib.Runs

open Option

variable {σ α : Type*}

/-- A finite run of a labelled transition function. Every label is taken in a
state for which the guard `ok` accepts it. -/
inductive Run (step : σ → α → Option σ) (ok : σ → α → Prop) : σ → σ → Prop
  | refl (s : σ) : Run step ok s s
  | snoc {a b c : σ} {x : α} :
      Run step ok a b → ok b x → step b x = some c → Run step ok a c

def always : σ → α → Prop := fun _ _ ↦ True

/-- Execute a list of labels; `none` when one of them is not enabled. -/
def exec (step : σ → α → Option σ) : σ → List α → Option σ
  | s, [] => some s
  | s, x :: xs => (step s x).bind fun t ↦ exec step t xs

def execWhile (step : σ → α → Option σ) (ok : σ → α → Prop) [∀ s x, Decidable (ok s x)] :
    σ → List α → Option σ
  | s, [] => some s
  | s, x :: xs => if ok s x then (step s x).bind fun t ↦ execWhile step ok t xs else none

section Exec

variable {step : σ → α → Option σ} {a b : σ} {l l' : List α}

theorem exec_append : exec step a (l ++ l') = (exec step a l).bind fun c ↦ exec step c l' := by
  induction l generalizing a with
  | nil => rfl
  | cons x l ih =>
    simp only [List.cons_append, exec, bind_assoc]
    congr 1
    funext t
    exact ih

theorem exec_invariant {I : σ → Prop} (hs : ∀ s x t, x ∈ l → I s → step s x = some t → I t)
    (h : exec step a l = some b) (ha : I a) : I b := by
  induction l generalizing a with
  | nil => exact Option.some.inj h ▸ ha
  | cons x l ih =>
    obtain ⟨c, hc, hrest⟩ := bind_eq_some_iff.mp h
    exact ih (fun s y t hy ↦ hs s y t (List.mem_cons_of_mem _ hy)) hrest
      (hs a x c List.mem_cons_self ha hc)

theorem exec_of_execWhile {ok : σ → α → Prop} [∀ s x, Decidable (ok s x)] (h : execWhile step ok a l = some b) :
    exec step a l = some b := by
  induction l generalizing a with
  | nil => exact h
  | cons x l ih =>
    simp only [execWhile] at h
    split at h
    · obtain ⟨t, ht, hrest⟩ := bind_eq_some_iff.mp h
      exact bind_eq_some_iff.mpr ⟨t, ht, ih hrest⟩
    · cases h

end Exec

namespace Run

variable {step : σ → α → Option σ} {ok ok' : σ → α → Prop} {a b c : σ}

theorem trans (h : Run step ok a b) (h' : Run step ok b c) : Run step ok a c := by
  induction h' with
  | refl => exact h
  | snoc _ hok hs ih => exact .snoc ih hok hs

theorem one {x : α} (hok : ok a x) (hs : step a x = some b) : Run step ok a b :=
  .snoc (.refl a) hok hs

theorem mono (hle : ∀ s x, ok s x → ok' s x) (h : Run step ok a b) : Run step ok' a b := by
  induction h with
  | refl => exact .refl _
  | snoc _ hok hs ih => exact .snoc ih (hle _ _ hok) hs

theorem invariant (I : σ → Prop)
    (hs : ∀ s x t, I s → ok s x → step s x = some t → I t)
    (h : Run step ok a b) (ha : I a) : I b := by
  induction h with
  | refl => exact ha
  | snoc _ hok hstep ih => exact hs _ _ _ ih hok hstep

theorem exists_of_rank (I goal : σ → Prop) (rank : σ → Nat)
    (hs : ∀ s, I s → ¬ goal s → ∃ x t, ok s x ∧ step s x = some t ∧ I t ∧ rank t < rank s)
    (ha : I a) : ∃ b, Run step ok a b ∧ I b ∧ goal b := by
  induction h : rank a using Nat.strongRecOn generalizing a with
  | ind n ih =>
    by_cases hg : goal a
    · exact ⟨a, .refl a, ha, hg⟩
    · obtain ⟨x, t, hok, hstep, ht, hlt⟩ := hs a ha hg
      obtain ⟨b, hrun, hb, hgb⟩ := ih (rank t) (h ▸ hlt) ht rfl
      exact ⟨b, (one hok hstep).trans hrun, hb, hgb⟩

theorem of_exec {l : List α} (h : exec step a l = some b) : Run step always a b := by
  induction l generalizing a with
  | nil => exact Option.some.inj h ▸ .refl a
  | cons x l ih =>
    simp only [exec, bind_eq_some_iff] at h
    obtain ⟨t, ht, hrest⟩ := h
    exact (one trivial ht).trans (ih hrest)

theorem of_execWhile [∀ s x, Decidable (ok s x)] {l : List α}
    (h : execWhile step ok a l = some b) : Run step ok a b := by
  induction l generalizing a with
  | nil => exact Option.some.inj h ▸ .refl a
  | cons x l ih =>
    simp only [execWhile] at h
    split at h
    · next hok =>
      obtain ⟨t, ht, hrest⟩ := bind_eq_some_iff.mp h
      exact (one hok ht).trans (ih hrest)
    · cases h

end Run

end Rxv6.Lib.Runs
