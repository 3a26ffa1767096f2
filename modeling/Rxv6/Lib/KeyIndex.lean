import Mathlib.Data.List.Nodup

namespace Rxv6.Lib.KeyIndex

open Function List Option

variable {α β : Type*} {key : α → β} {l : List α} {f : β → Option Nat} {a b : α} {i j : Nat} {k : β}

/-- The map `f` finds every element of the list under its key, and nothing else. -/
def Indexes (key : α → β) (l : List α) (f : β → Option Nat) : Prop :=
  ∀ k i, f k = some i ↔ ∃ a, l[i]? = some a ∧ key a = k

namespace Indexes

section

variable (h : Indexes key l f)
include h

theorem find (ha : l[i]? = some a) : f (key a) = some i := (h _ _).mpr ⟨a, ha, rfl⟩

theorem eq_of_key (ha : l[i]? = some a) (hb : l[j]? = some b) (hk : key a = key b) :
    i = j := by
  have hi := h.find ha
  rw [hk, h.find hb] at hi
  exact (Option.some.inj hi).symm

theorem nodup : (l.map key).Nodup := by
  rw [nodup_iff_getElem?_ne_getElem?]
  intro i j hij hj he
  rw [length_map] at hj
  simp only [getElem?_map, getElem?_eq_getElem hj, getElem?_eq_getElem (Nat.lt_trans hij hj),
    map_some, Option.some.injEq] at he
  have := h.eq_of_key (getElem?_eq_getElem _) (getElem?_eq_getElem hj) he
  omega

theorem isSome_iff : (f k).isSome ↔ ∃ a ∈ l, key a = k := by
  rw [isSome_iff_exists]
  constructor
  · rintro ⟨i, hi⟩
    obtain ⟨a, ha, hk⟩ := (h k i).mp hi
    exact ⟨a, mem_of_getElem? ha, hk⟩
  · rintro ⟨a, ha, rfl⟩
    obtain ⟨i, hi⟩ := getElem?_of_mem ha
    exact ⟨i, h.find hi⟩

end

theorem nil (key : α → β) : Indexes key [] fun _ ↦ none := by
  intro k i
  simp

section

variable {g : α → α} (h : Indexes key l f) (hg : ∀ a, key (g a) = key a)
include h hg

theorem map : Indexes key (l.map g) f := by
  intro k i
  simp [h k i, hg]

theorem modify (n : Nat) :
    Indexes key (l.modify n g) f := by
  intro k i
  rw [h k i, getElem?_modify]
  cases l[i]? with
  | none => simp
  | some a => by_cases hn : n = i <;> simp [hn, hg]

end

variable [DecidableEq β]

theorem push (h : Indexes key l f) (hnew : f (key a) = none) :
    Indexes key (l ++ [a]) (update f (key a) (some l.length)) := by
  intro k i
  rw [getElem?_append]
  by_cases hk : k = key a
  · subst hk
    rw [update_self]
    constructor
    · intro hi
      cases hi
      exact ⟨a, by simp, rfl⟩
    · rintro ⟨b, hb, hkb⟩
      split at hb
      · have hold := h.find hb
        rw [hkb, hnew] at hold
        cases hold
      · next hlt =>
        have hi : i - l.length = 0 := by
          by_contra hne
          rw [getElem?_eq_none (by simp; omega)] at hb
          cases hb
        exact congrArg some (by omega)
  · rw [update_of_ne hk, h k i]
    split
    · rfl
    · next hge =>
      rw [getElem?_eq_none (by omega)]
      constructor
      · rintro ⟨b, hb, -⟩
        cases hb
      · rintro ⟨b, hb, rfl⟩
        have hab := mem_of_getElem? hb
        rw [mem_singleton] at hab
        exact absurd (hab ▸ rfl) hk

end Indexes

variable [DecidableEq β] {ps : List (α × Nat)} {n : Nat}

/-- The positions from `n` on are entered again. -/
def reindex (key : α → β) (f : β → Option Nat) (n : Nat) (l : List α) : β → Option Nat :=
  (l.zipIdx.drop n).foldl (fun f p ↦ update f (key p.1) (some p.2)) f

theorem foldl_update_of_notMem (hk : ∀ p ∈ ps, key p.1 ≠ k) :
    (ps.foldl (fun f p ↦ update f (key p.1) (some p.2)) f) k = f k := by
  induction ps generalizing f with
  | nil => rfl
  | cons p ps ih =>
    rw [foldl_cons, ih fun q hq ↦ hk q (mem_cons_of_mem p hq)]
    exact update_of_ne (hk p mem_cons_self).symm _ _

theorem foldl_update_of_mem (hk : ∃ p ∈ ps, key p.1 = k)
    (hsame : ∀ p ∈ ps, key p.1 = k → p.2 = n) :
    (ps.foldl (fun f p ↦ update f (key p.1) (some p.2)) f) k = some n := by
  induction ps generalizing f with
  | nil =>
    obtain ⟨p, hp, -⟩ := hk
    cases hp
  | cons q ps ih =>
    rw [foldl_cons]
    by_cases hrest : ∃ p ∈ ps, key p.1 = k
    · exact ih hrest fun p hp ↦ hsame p (mem_cons_of_mem q hp)
    · rw [foldl_update_of_notMem fun p hp hkp ↦ hrest ⟨p, hp, hkp⟩]
      obtain ⟨p, hp, hkp⟩ := hk
      rcases mem_cons.mp hp with rfl | hp
      · rw [hkp, update_self, hsame p mem_cons_self hkp]
      · exact absurd ⟨p, hp, hkp⟩ hrest

theorem mem_drop_zipIdx {p : α × Nat} : p ∈ l.zipIdx.drop n ↔ n ≤ p.2 ∧ l[p.2]? = some p.1 := by
  rw [mem_iff_getElem?]
  constructor
  · rintro ⟨m, hm⟩
    rw [getElem?_drop, getElem?_zipIdx] at hm
    obtain ⟨a, ha, rfl⟩ := map_eq_some_iff.mp hm
    exact ⟨by simp, by simpa using ha⟩
  · rintro ⟨hn, hp⟩
    refine ⟨p.2 - n, ?_⟩
    rw [getElem?_drop, getElem?_zipIdx, show n + (p.2 - n) = p.2 by omega, hp]
    simp

theorem Indexes.remove (h : Indexes key l f) (ha : l[i]? = some a) :
    Indexes key (l.eraseIdx i) (reindex key (update f (key a) none) i (l.eraseIdx i)) := by
  have hget : ∀ j, (l.eraseIdx i)[j]? = if j < i then l[j]? else l[j + 1]? := fun j ↦ getElem?_eraseIdx ..
  have hinj : ∀ (j j' : Nat) b b', (l.eraseIdx i)[j]? = some b → (l.eraseIdx i)[j']? = some b' →
      key b = key b' → j = j' := by
    intro j j' b b' hb hb' hk
    rw [hget] at hb hb'
    split at hb <;> split at hb' <;> have := h.eq_of_key hb hb' hk <;> omega
  intro k j
  unfold reindex
  by_cases hback : ∃ p ∈ (l.eraseIdx i).zipIdx.drop i, key p.1 = k
  · obtain ⟨p, hp, rfl⟩ := hback
    obtain ⟨hip, hpl⟩ := mem_drop_zipIdx.mp hp
    rw [foldl_update_of_mem ⟨p, hp, rfl⟩ fun q hq hkq ↦ hinj _ _ _ _ (mem_drop_zipIdx.mp hq).2 hpl hkq]
    constructor
    · intro hj
      cases hj
      exact ⟨p.1, hpl, rfl⟩
    · rintro ⟨b, hb, hkb⟩
      exact congrArg some (hinj _ _ _ _ hpl hb hkb.symm)
  · rw [foldl_update_of_notMem fun p hp hk ↦ hback ⟨p, hp, hk⟩]
    have hfront : ∀ b, (l.eraseIdx i)[j]? = some b → key b = k → j < i := fun b hb hk ↦ by
      by_contra hge
      exact hback ⟨(b, j), mem_drop_zipIdx.mpr ⟨Nat.le_of_not_lt hge, hb⟩, hk⟩
    by_cases hk : k = key a
    · subst hk
      rw [update_self]
      constructor
      · intro hj
        cases hj
      · rintro ⟨b, hb, hkb⟩
        have hlt := hfront b hb hkb
        rw [hget, if_pos hlt] at hb
        have := h.eq_of_key hb ha hkb
        omega
    · rw [update_of_ne hk, h k j]
      constructor
      · rintro ⟨b, hb, hkb⟩
        have hji : j ≠ i := by
          rintro rfl
          rw [ha] at hb
          cases hb
          exact hk hkb.symm
        have hlt : j < i := by
          by_contra hge
          obtain ⟨n, rfl⟩ : ∃ n, j = n + 1 := ⟨j - 1, by omega⟩
          have hn : (l.eraseIdx i)[n]? = some b := by
            rw [hget, if_neg (by omega)]
            exact hb
          exact hback ⟨(b, n), mem_drop_zipIdx.mpr ⟨by omega, hn⟩, hkb⟩
        exact ⟨b, by rw [hget, if_pos hlt]; exact hb, hkb⟩
      · rintro ⟨b, hb, hkb⟩
        have hlt := hfront b hb hkb
        rw [hget, if_pos hlt] at hb
        exact ⟨b, hb, hkb⟩

/-- The entry of the element that has come to position `i`. -/
def patch (key : α → β) (f : β → Option Nat) (i : Nat) (l : List α) : β → Option Nat :=
  match l[i]? with
  | none => f
  | some b => update f (key b) (some i)

theorem Indexes.swapRemove (h : Indexes key l f) (ha : l[i]? = some a) (hb : l.getLast? = some b) :
    Indexes key (l.set i b).dropLast (patch key (update f (key a) none) i (l.set i b).dropLast) := by
  obtain ⟨hi, -⟩ := List.getElem?_eq_some_iff.mp ha
  have hlast : l[l.length - 1]? = some b := by rw [← getLast?_eq_getElem?, hb]
  have hget : ∀ j, (l.set i b).dropLast[j]? =
      if j < l.length - 1 then (if j = i then some b else l[j]?) else none := by
    intro j
    rw [getElem?_dropLast, length_set]
    split
    · by_cases hji : j = i
      · subst hji
        rw [if_pos rfl, getElem?_set_self hi]
      · rw [if_neg hji, getElem?_set_ne (Ne.symm hji)]
    · rfl
  intro k j
  unfold patch
  by_cases hend : i = l.length - 1
  · -- The last element itself goes.
    rw [hget i, if_neg (by omega), hget j]
    simp only
    by_cases hk : k = key a
    · subst hk
      rw [update_self]
      constructor
      · intro hj
        cases hj
      · rintro ⟨c, hc, hkc⟩
        split at hc
        · rw [if_neg (by omega)] at hc
          have := h.eq_of_key hc ha hkc
          omega
        · cases hc
    · rw [update_of_ne hk, h k j]
      constructor
      · rintro ⟨c, hc, hkc⟩
        obtain ⟨hj, -⟩ := List.getElem?_eq_some_iff.mp hc
        have hji : j ≠ i := by
          rintro rfl
          rw [ha] at hc
          cases hc
          exact hk hkc.symm
        exact ⟨c, by rw [if_pos (by omega), if_neg hji]; exact hc, hkc⟩
      · rintro ⟨c, hc, hkc⟩
        split at hc
        · rw [if_neg (by omega)] at hc
          exact ⟨c, hc, hkc⟩
        · cases hc
  · rw [hget i, if_pos (by omega), if_pos rfl, hget j]
    simp only
    by_cases hkb : k = key b
    · subst hkb
      rw [update_self]
      constructor
      · intro hj
        cases hj
        exact ⟨b, by rw [if_pos (by omega), if_pos rfl], rfl⟩
      · rintro ⟨c, hc, hkc⟩
        split at hc
        · split at hc
          · next hji => exact congrArg some hji.symm
          · have := h.eq_of_key hc hlast hkc
            omega
        · cases hc
    · rw [update_of_ne hkb]
      by_cases hk : k = key a
      · subst hk
        rw [update_self]
        constructor
        · intro hj
          cases hj
        · rintro ⟨c, hc, hkc⟩
          split at hc
          · split at hc
            · cases hc
              exact absurd hkc.symm hkb
            · next hji => exact absurd (h.eq_of_key hc ha hkc) hji
          · cases hc
      · rw [update_of_ne hk, h k j]
        constructor
        · rintro ⟨c, hc, hkc⟩
          obtain ⟨hj, -⟩ := List.getElem?_eq_some_iff.mp hc
          have hji : j ≠ i := by
            rintro rfl
            rw [ha] at hc
            cases hc
            exact hk hkc.symm
          have hjl : j ≠ l.length - 1 := by
            rintro rfl
            rw [hlast] at hc
            cases hc
            exact hkb hkc.symm
          exact ⟨c, by rw [if_pos (by omega), if_neg hji]; exact hc, hkc⟩
        · rintro ⟨c, hc, hkc⟩
          split at hc
          · split at hc
            · cases hc
              exact absurd hkc.symm hkb
            · exact ⟨c, hc, hkc⟩
          · cases hc

end Rxv6.Lib.KeyIndex
