import Mathlib.Order.Bounds.Basic

namespace Rxv6.Lib.Inheritance

open Function Relation

variable {α β : Type*} [LinearOrder β]

structure Inherited (F : α → α → Prop) (base val : α → β) : Prop where
  base_le : ∀ t, base t ≤ val t
  feeds_le : ∀ w t, F w t → val w ≤ val t
  attained : ∀ t, val t = base t ∨ ∃ w, F w t ∧ val w = val t

/-- The value of `u` has been raised to `p`, and the node that `u` feeds has not been looked at. -/
structure Raising (F : α → α → Prop) (base val : α → β) (u : α) (p : β) : Prop where
  raised : val u = p
  base_le : ∀ t, base t ≤ val t
  feeds_le : ∀ w t, w ≠ u → F w t → val w ≤ val t
  attained : ∀ t, val t = base t ∨ (∃ w, F w t ∧ val w = val t) ∨ F u t ∧ val t < p

variable {F F' : α → α → Prop} {base base' val : α → β} {u t c : α} {p q : β}

namespace Inherited

section

variable (h : Inherited F base val)

include h

theorem le_of_transGen (ht : TransGen F u t) : val u ≤ val t := by
  induction ht with
  | single hf => exact h.feeds_le _ _ hf
  | tail _ hf ih => exact ih.trans (h.feeds_le _ _ hf)

theorem isGreatest (t : α) : IsGreatest (insert (base t) (val '' {w | TransGen F w t})) (val t) := by
  refine ⟨?_, ?_⟩
  · obtain e | ⟨w, hw, e⟩ := h.attained t
    · exact .inl e
    · exact .inr ⟨w, .single hw, e⟩
  · rintro x (rfl | ⟨w, hw, rfl⟩)
    · exact h.base_le t
    · exact h.le_of_transGen hw

theorem congr (hF : ∀ w t, F' w t ↔ F w t) : Inherited F' base val := by
  obtain rfl : F' = F := by
    funext w t
    exact propext (hF w t)
  exact h

theorem add (hsub : ∀ w t, F w t → F' w t)
    (hnew : ∀ w t, F' w t → F w t ∨ val w ≤ val t) : Inherited F' base val := by
  refine ⟨h.base_le, ?_, ?_⟩
  · intro w t hw
    exact (hnew w t hw).elim (h.feeds_le w t) id
  · intro t
    exact (h.attained t).imp_right (Exists.imp fun w hw ↦ hw.imp_left (hsub w t))

theorem set [DecidableEq α] (hc : ∀ t, ¬ F c t)
    (hF : ∀ w t, t ≠ c → (F' w t ↔ F w t)) (hFc : ∀ w, F' w c → w ≠ c ∧ val w ≤ q) (hbase : base' c = q)
    (hbase' : ∀ t, t ≠ c → base' t = base t) : Inherited F' base' (update val c q) := by
  refine ⟨?_, ?_, ?_⟩
  · intro t
    by_cases htc : t = c
    · subst htc
      simp [hbase]
    · simpa [htc, hbase' t htc] using h.base_le t
  · intro w t hw
    by_cases htc : t = c
    · subst htc
      simpa [(hFc w hw).1] using (hFc w hw).2
    · rw [hF w t htc] at hw
      have hwc : w ≠ c := fun e ↦ hc t (e ▸ hw)
      simpa [htc, hwc] using h.feeds_le w t hw
  · intro t
    by_cases htc : t = c
    · subst htc
      simp [hbase]
    · simp only [update_of_ne htc, hbase' t htc]
      obtain e | ⟨w, hw, e⟩ := h.attained t
      · exact .inl e
      · have hwc : w ≠ c := fun e ↦ hc t (e ▸ hw)
        exact .inr ⟨w, (hF w t htc).mpr hw, by rwa [update_of_ne hwc]⟩

theorem raising (hF : ∀ w t, w ≠ c → (F' w t ↔ F w t)) (hc : ∀ t, ¬ F c t) :
    Raising F' base val c (val c) := by
  refine ⟨rfl, h.base_le, ?_, ?_⟩
  · intro w t hwc hw
    exact h.feeds_le w t ((hF w t hwc).mp hw)
  · intro t
    obtain e | ⟨w, hw, e⟩ := h.attained t
    · exact .inl e
    · have hwc : w ≠ c := fun e ↦ hc t (e ▸ hw)
      exact .inr (.inl ⟨w, (hF w t hwc).mpr hw, e⟩)

end

end Inherited

namespace Raising

theorem done (h : Raising F base val u p) (hu : ∀ t, F u t → p ≤ val t) : Inherited F base val := by
  refine ⟨h.base_le, ?_, ?_⟩
  · intro w t hw
    by_cases hwu : w = u
    · subst hwu
      exact h.raised.trans_le (hu t hw)
    · exact h.feeds_le w t hwu hw
  · intro t
    obtain e | hw | ⟨hut, hlt⟩ := h.attained t
    · exact .inl e
    · exact .inr hw
    · exact absurd (hu t hut) (not_le.mpr hlt)

theorem next [DecidableEq α] (h : Raising F base val u p) (hut : F u t) (hone : ∀ s, F u s → s = t)
    (ht : val t < p) : Raising F base (update val t p) t p := by
  have hne : u ≠ t := fun e ↦ by
    rw [← e, h.raised] at ht
    exact lt_irrefl _ ht
  refine ⟨update_self .., ?_, ?_, ?_⟩
  · intro s
    by_cases hst : s = t
    · subst hst
      simpa using (h.base_le s).trans ht.le
    · simpa [hst] using h.base_le s
  · intro w s hwt hw
    rw [update_of_ne hwt]
    by_cases hwu : w = u
    · subst hwu
      rw [hone s hw, update_self, h.raised]
    · by_cases hst : s = t
      · subst hst
        rw [update_self]
        exact (h.feeds_le w s hwu hw).trans ht.le
      · rw [update_of_ne hst]
        exact h.feeds_le w s hwu hw
  · intro s
    by_cases hst : s = t
    · subst hst
      exact .inr (.inl ⟨u, hut, by rw [update_of_ne hne, update_self, h.raised]⟩)
    · rw [update_of_ne hst]
      obtain e | ⟨w, hw, e⟩ | ⟨hus, _⟩ := h.attained s
      · exact .inl e
      · by_cases hwt : w = t
        · subst hwt
          exact .inr (.inr ⟨hw, e ▸ ht⟩)
        · exact .inr (.inl ⟨w, hw, by rwa [update_of_ne hwt]⟩)
      · exact absurd (hone s hus) hst

end Raising

end Rxv6.Lib.Inheritance
