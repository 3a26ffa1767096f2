import Mathlib.Tactic
import Mathlib.Data.List.GetD

namespace Rxv6.User.Tr

open List Function

/-- The loop over a range; `room` is `256 - len`. -/
def rangeLoop (hi : UInt8) : Nat → UInt8 → List UInt8
  | 0, _ => []
  | room + 1, c => if c ≤ hi then c :: (if c = 255 then [] else rangeLoop hi room (c + 1)) else []

/-- The loop of `expand_set` from the rest of the bytes on. -/
def expandLoop : Nat → List UInt8 → List UInt8
  | room, start :: dash :: stop :: rest =>
    if room = 0 then []
    else if dash = 45 then
      let result := rangeLoop (max start stop) room (min start stop)
      result ++ expandLoop (room - result.length) rest
    else start :: expandLoop (room - 1) (dash :: stop :: rest)
  | room, bytes => bytes.take room

/-- The array has always 256 bytes. -/
def expandSet (bytes : List UInt8) : List UInt8 :=
  let result := expandLoop 256 bytes
  result ++ replicate (256 - result.length) 0

def table (set1 set2 : List UInt8) : UInt8 → UInt8 :=
  (List.range set1.length).foldl (fun table i ↦
    update table (set1.getD i 0)
      (if i < set2.length then set2.getD i 0
        else if set2 ≠ [] then set2.getD (set2.length - 1) 0 else set1.getD i 0)) id

/-- What is written, given what the reads return. -/
def tr (arg1 arg2 : List UInt8) (reads : List (List UInt8)) : List UInt8 :=
  (reads.takeWhile (· ≠ [])).flatMap (map (table (expandSet arg1) (expandSet arg2)))

/-- The set that an argument stands for, of any length. -/
def expansion : List UInt8 → List UInt8
  | start :: dash :: stop :: rest =>
    if dash = 45 then
      (range' (min start stop).toNat ((max start stop).toNat + 1 - (min start stop).toNat)).map UInt8.ofNat ++
        expansion rest
    else start :: expansion (dash :: stop :: rest)
  | bytes => bytes

/-- `c` is what `b` becomes. -/
structure Translates (e₁ e₂ : List UInt8) (b c : UInt8) : Prop where
  same : b ∉ e₁ → c = b
  last : ∀ i, e₁[i]? = some b → (∀ j, i < j → e₁[j]? ≠ some b) →
    c = e₂.getD (min i (e₂.length - 1)) 0

open UInt8

theorem rangeLoop_eq (hi : UInt8) (room : Nat) : ∀ c, rangeLoop hi room c =
    ((range' c.toNat (hi.toNat + 1 - c.toNat)).map UInt8.ofNat).take room := by
  induction room with
  | zero => exact fun _ ↦ (take_zero ..).symm
  | succ room ih =>
    intro c
    rw [rangeLoop]
    split_ifs with hle h255
    · have hhi := toNat_lt hi
      have hc : c.toNat ≤ hi.toNat := le_iff_toNat_le.mp hle
      have hone : hi.toNat + 1 - c.toNat = 1 := by
        rw [h255] at hc ⊢
        change 255 ≤ _ at hc
        change _ - 255 = 1
        omega
      rw [hone, range'_one, map_singleton, UInt8.ofNat_toNat, take_succ_cons, take_nil]
    · have hc : c.toNat ≤ hi.toNat := le_iff_toNat_le.mp hle
      have hnext : (c + 1).toNat = c.toNat + 1 := by
        have hne : c.toNat ≠ 255 := fun h ↦ h255 (UInt8.toNat_inj.mp h)
        have hlt := toNat_lt c
        change (c.toNat + 1) % 256 = _
        omega
      rw [ih, hnext, show hi.toNat + 1 - c.toNat = hi.toNat + 1 - (c.toNat + 1) + 1 by omega, range'_succ,
        map_cons, UInt8.ofNat_toNat, take_succ_cons]
    · have hlt : hi.toNat < c.toNat := lt_iff_toNat_lt.mp (UInt8.not_le.mp hle)
      rw [show hi.toNat + 1 - c.toNat = 0 by omega]
      rfl

theorem expandLoop_eq (bytes : List UInt8) :
    ∀ room, expandLoop room bytes = (expansion bytes).take room := by
  fun_induction expansion bytes with
  | case1 start stop rest ih =>
    intro room
    rw [expandLoop, rangeLoop_eq, take_append]
    simp only [ih, length_take]
    split_ifs with h0
    · simp [h0]
    · congr 2
      omega
  | case2 start dash stop rest hdash ih =>
    intro room
    rw [expandLoop, if_neg hdash, ih]
    cases room with
    | zero => rfl
    | succ room => rw [if_neg (Nat.succ_ne_zero _), take_succ_cons, Nat.add_sub_cancel]
  | case3 bytes h =>
    intro room
    rw [expandLoop]
    exact h

theorem length_expandSet (bytes : List UInt8) : (expandSet bytes).length = 256 := by
  simp only [expandSet, expandLoop_eq, length_append, length_take, length_replicate]
  omega

theorem getD_expandSet (bytes : List UInt8) {i : Nat} (hi : i < 256) :
    (expandSet bytes).getD i 0 = (expansion bytes).getD i 0 := by
  simp only [expandSet, expandLoop_eq, getD_eq_getElem?_getD, getElem?_append, length_take, getElem?_take,
    getElem?_replicate]
  split_ifs with h
  · rfl
  · rw [getElem?_eq_none (by omega)]
    rfl
  · omega

theorem zero_notMem {bytes : List UInt8} (h : 0 ∉ bytes) : 0 ∉ expansion bytes := by
  fun_induction expansion bytes with
  | case1 start stop rest ih =>
    simp only [mem_cons, not_or] at h
    refine fun hmem ↦ (mem_append.mp hmem).elim (fun hrange ↦ ?_) (ih h.2.2.2)
    obtain ⟨k, hk, h0⟩ := mem_map.mp hrange
    have hlt := toNat_lt (max start stop)
    have hmin : min start stop = 0 := UInt8.toNat_inj.mp (by
      have hk0 := congrArg toNat h0
      rw [toNat_ofNat'] at hk0
      change _ = 0 at hk0
      change _ = 0
      have := mem_range'_1.mp hk
      omega)
    change (if start ≤ stop then start else stop) = 0 at hmin
    split_ifs at hmin
    · exact h.1 hmin.symm
    · exact h.2.2.1 hmin.symm
  | case2 start dash stop rest hdash ih =>
    rw [mem_cons, not_or] at h ⊢
    exact ⟨h.1, ih h.2⟩
  | case3 bytes _ => exact h

section Table

variable {key val : Nat → UInt8} {b : UInt8}

theorem foldl_update_none (n : Nat) (h : ∀ i < n, key i ≠ b) :
    (List.range n).foldl (fun table i ↦ update table (key i) (val i)) id b = b := by
  induction n with
  | zero => rfl
  | succ n ih =>
    rw [range_succ, foldl_append, foldl_cons, foldl_nil, update_of_ne (h n (by omega)).symm]
    exact ih fun i hi ↦ h i (by omega)

theorem foldl_update_last {i : Nat} (n : Nat) (hi : i < n) (hb : key i = b)
    (hlast : ∀ j, i < j → j < n → key j ≠ b) :
    (List.range n).foldl (fun table i ↦ update table (key i) (val i)) id b = val i := by
  induction n with
  | zero => cases hi
  | succ n ih =>
    rw [range_succ, foldl_append, foldl_cons, foldl_nil]
    by_cases hin : i = n
    · rw [← hb, hin, update_self]
    · rw [update_of_ne (hlast n (by omega) (by omega)).symm]
      exact ih (by omega) fun j hj hjn ↦ hlast j hj (by omega)

end Table

theorem table_eq (arg1 arg2 : List UInt8) : table (expandSet arg1) (expandSet arg2) = (List.range 256).foldl
    (fun table i ↦ update table ((expansion arg1).getD i 0) ((expansion arg2).getD i 0)) id := by
  rw [table, length_expandSet, length_expandSet]
  refine foldl_ext _ _ _ fun table i hi ↦ ?_
  have hi := mem_range.mp hi
  rw [if_pos hi, getD_expandSet _ hi, getD_expandSet _ hi]

/-- The position of the last occurrence of a byte. -/
def LastAt (e : List UInt8) (b : UInt8) (i : Nat) : Prop := e[i]? = some b ∧ ∀ j, i < j → e[j]? ≠ some b

/-- The arrays of 256 bytes lose nothing: a first set that fits its array is not longer than the second one and
fills its array if the second one does; and of a longer first set every byte becomes the same by the first 256
elements alone. -/
def Lossless (e₁ e₂ : List UInt8) : Prop :=
  if e₁.length ≤ 256 then e₁.length ≤ e₂.length ∧ (e₁.length = 256 ∨ e₂.length < 256)
  else ∀ b i, LastAt e₁ b i →
    (∀ j, LastAt (e₁.take 256) b j → e₂.getD j 0 = e₂.getD (min i (e₂.length - 1)) 0) ∧
      (b ∉ e₁.take 256 → e₂.getD (min i (e₂.length - 1)) 0 = b)

theorem exists_lastAt {e : List UInt8} {b : UInt8} (h : b ∈ e) : ∃ i, LastAt e b i := by
  induction e using List.reverseRecOn with
  | nil => cases h
  | append_singleton e c ih =>
    by_cases hc : c = b
    · refine ⟨e.length, by simp [hc], fun j hj ↦ ?_⟩
      rw [getElem?_eq_none (by simpa using hj)]
      exact nofun
    · obtain ⟨i, hi, hlast⟩ := ih ((mem_append.mp h).resolve_right fun h ↦ hc (mem_singleton.mp h).symm)
      have hlt := (List.getElem?_eq_some_iff.mp hi).1
      refine ⟨i, by rwa [getElem?_append_left hlt], fun j hj hb ↦ ?_⟩
      rw [getElem?_append] at hb
      split_ifs at hb
      · exact hlast j hj hb
      · exact hc (mem_singleton.mp (mem_of_getElem? hb)).symm

theorem expansion_ne_nil {bytes : List UInt8} (h : bytes ≠ []) : expansion bytes ≠ [] := by
  fun_cases expansion bytes with
  | case1 start stop rest =>
    have hle : (min start stop).toNat ≤ (max start stop).toNat := by
      change (if start ≤ stop then start else stop).toNat ≤ (if start ≤ stop then stop else start).toNat
      split_ifs with hle
      · exact le_iff_toNat_le.mp hle
      · exact (lt_iff_toNat_lt.mp (UInt8.not_le.mp hle)).le
    refine append_ne_nil_of_left_ne_nil (fun hnil ↦ ?_) _
    have hlen := congrArg length hnil
    rw [length_map, length_range', length_nil] at hlen
    omega
  | case2 => exact cons_ne_nil _ _
  | case3 => exact h

section Arrays

variable {e₁ e₂ : List UInt8} {b : UInt8}

/-- The table that the two arrays give. -/
def arrays (e₁ e₂ : List UInt8) : UInt8 → UInt8 :=
  (List.range 256).foldl (fun table i ↦ update table (e₁.getD i 0) (e₂.getD i 0)) id

theorem getD_eq_iff {j : Nat} : e₁.getD j 0 = b ↔ e₁[j]? = some b ∨ e₁.length ≤ j ∧ b = 0 := by
  rw [getD_eq_getElem?_getD]
  cases hj : e₁[j]? with
  | none =>
    have := getElem?_eq_none_iff.mp hj
    simp [this, eq_comm]
  | some c =>
    have := (List.getElem?_eq_some_iff.mp hj).1
    simp [this.not_ge]

theorem arrays_last {i : Nat} (hb : b ≠ 0) (hi : LastAt (e₁.take 256) b i) : arrays e₁ e₂ b = e₂.getD i 0 := by
  have hlt := (List.getElem?_eq_some_iff.mp hi.1).1
  rw [length_take] at hlt
  refine foldl_update_last 256 (by omega) (getD_eq_iff.mpr (.inl ?_)) fun j hij hj hkey ↦ ?_
  · rw [← hi.1, getElem?_take, if_pos (by omega)]
  · obtain hj' | ⟨-, h0⟩ := getD_eq_iff.mp hkey
    · exact hi.2 j hij (by rw [getElem?_take, if_pos hj, hj'])
    · exact hb h0

theorem arrays_notMem (hb : b ≠ 0) (hmem : b ∉ e₁.take 256) : arrays e₁ e₂ b = b := by
  refine foldl_update_none 256 fun i hi hkey ↦ ?_
  obtain hi' | ⟨-, h0⟩ := getD_eq_iff.mp hkey
  · exact hmem (mem_of_getElem? (i := i) (by rw [getElem?_take, if_pos hi, hi']))
  · exact hb h0

/-- What a NUL becomes, which the first set does not name. -/
theorem arrays_zero (h : 0 ∉ e₁) : arrays e₁ e₂ 0 = if e₁.length < 256 then e₂.getD 255 0 else 0 := by
  split_ifs with hlen
  · exact foldl_update_last 256 (by omega) (getD_eq_default _ _ (by omega)) (by omega)
  · refine foldl_update_none 256 fun i hi hkey ↦ ?_
    obtain hi' | ⟨hle, -⟩ := getD_eq_iff.mp hkey
    · exact h (mem_of_getElem? hi')
    · omega

variable (h₁ : 0 ∉ e₁)
include h₁

theorem translates_short (hle : e₁.length ≤ 256) (hne : e₁ ≠ []) (h₂ : 0 ∉ e₂) (hne₂ : e₂ ≠ []) :
    (∀ b, Translates e₁ e₂ b (arrays e₁ e₂ b)) ↔ e₁.length ≤ e₂.length ∧ (e₁.length = 256 ∨ e₂.length < 256) := by
  have htake : e₁.take 256 = e₁ := take_of_length_le hle
  have hpos := length_pos_iff.mpr hne
  have hpos₂ := length_pos_iff.mpr hne₂
  have hsome {i : Nat} (hi : i < e₂.length) : e₂.getD i 0 ≠ 0 := by
    rw [getD_eq_getElem _ _ hi]
    exact fun h0 ↦ h₂ (h0 ▸ getElem_mem hi)
  refine ⟨fun h ↦ ⟨?_, ?_⟩, fun ⟨hlen, hpad⟩ b ↦ ⟨fun hb ↦ ?_, fun i hi hlast ↦ ?_⟩⟩
  · -- the last element of the first set has no counterpart
    by_contra hlt
    obtain ⟨b, hb⟩ : ∃ b, e₁[e₁.length - 1]? = some b := ⟨_, getElem?_eq_getElem (by omega)⟩
    have hlast : LastAt e₁ b (e₁.length - 1) := ⟨hb, fun j hj ↦ by rw [getElem?_eq_none (by omega)]; exact nofun⟩
    have hval := (h b).last _ hlast.1 hlast.2
    rw [arrays_last (fun h0 ↦ h₁ (h0 ▸ mem_of_getElem? hb)) (by rwa [htake]), getD_eq_default _ _ (by omega),
      Nat.min_eq_right (by omega)] at hval
    exact hsome (by omega) hval.symm
  · by_contra hpad
    rw [not_or] at hpad
    have h0 := (h 0).same h₁
    rw [arrays_zero h₁, if_pos (by omega)] at h0
    exact hsome (by omega) h0
  · by_cases hb0 : b = 0
    · rw [hb0, arrays_zero h₁]
      split_ifs with hlt
      · exact getD_eq_default _ _ (by omega)
      · rfl
    · exact arrays_notMem hb0 (htake.symm ▸ hb)
  · have hlt := (List.getElem?_eq_some_iff.mp hi).1
    rw [arrays_last (fun h0 ↦ h₁ (h0 ▸ mem_of_getElem? hi)) (by rw [htake]; exact ⟨hi, hlast⟩),
      Nat.min_eq_left (by omega)]

theorem translates_long (hlong : ¬ e₁.length ≤ 256) : (∀ b, Translates e₁ e₂ b (arrays e₁ e₂ b)) ↔
    ∀ b i, LastAt e₁ b i →
      (∀ j, LastAt (e₁.take 256) b j → e₂.getD j 0 = e₂.getD (min i (e₂.length - 1)) 0) ∧
        (b ∉ e₁.take 256 → e₂.getD (min i (e₂.length - 1)) 0 = b) := by
  have hne {b : UInt8} {i : Nat} (hi : e₁[i]? = some b) : b ≠ 0 := fun h0 ↦ h₁ (h0 ▸ mem_of_getElem? hi)
  refine ⟨fun h b i hi ↦ ⟨fun j hj ↦ ?_, fun hb ↦ ?_⟩, fun h b ↦ ⟨fun hb ↦ ?_, fun i hi hlast ↦ ?_⟩⟩
  · rw [← arrays_last (hne hi.1) hj, (h b).last i hi.1 hi.2]
  · rw [← (h b).last i hi.1 hi.2, arrays_notMem (hne hi.1) hb]
  · by_cases hb0 : b = 0
    · rw [hb0, arrays_zero h₁, if_neg (by omega)]
    · exact arrays_notMem hb0 fun hmem ↦ hb (mem_of_mem_take hmem)
  · obtain ⟨hin, hout⟩ := h b i ⟨hi, hlast⟩
    by_cases hb : b ∈ e₁.take 256
    · obtain ⟨j, hj⟩ := exists_lastAt hb
      rw [arrays_last (hne hi) hj, hin j hj]
    · rw [arrays_notMem (hne hi) hb, hout hb]

end Arrays

/-- `tr` follows its law if and only if the arrays lose nothing of the two sets. -/
theorem tr_translates {arg1 arg2 : List UInt8} (hne : arg1 ≠ []) (hne₂ : arg2 ≠ []) (hnul : 0 ∉ arg1)
    (hnul₂ : 0 ∉ arg2) :
    (∃ f, (∀ b, Translates (expansion arg1) (expansion arg2) b (f b)) ∧
      ∀ reads, tr arg1 arg2 reads = (reads.takeWhile (· ≠ [])).flatten.map f) ↔
      Lossless (expansion arg1) (expansion arg2) := by
  have htable : table (expandSet arg1) (expandSet arg2) = arrays (expansion arg1) (expansion arg2) :=
    table_eq arg1 arg2
  have hlaw : (∀ b, Translates (expansion arg1) (expansion arg2) b (arrays (expansion arg1) (expansion arg2) b)) ↔
      Lossless (expansion arg1) (expansion arg2) := by
    rw [Lossless]
    split_ifs with hle
    · exact translates_short (zero_notMem hnul) hle (expansion_ne_nil hne) (zero_notMem hnul₂) (expansion_ne_nil hne₂)
    · exact translates_long (zero_notMem hnul) hle
  rw [← hlaw, ← htable]
  refine ⟨fun ⟨f, hf, htr⟩ b ↦ ?_, fun h ↦ ⟨_, h, fun reads ↦ (map_flatten ..).symm⟩⟩
  have hb : [table (expandSet arg1) (expandSet arg2) b] = [f b] := htr [[b]]
  rw [singleton_inj.mp hb]
  exact hf b

theorem tr_translates_upper : ∃ f, (∀ b, Translates [97, 98, 99] [65, 66, 67] b (f b)) ∧
    ∀ reads, tr [97, 45, 99] [65, 45, 67] reads = (reads.takeWhile (· ≠ [])).flatten.map f :=
  (@tr_translates [97, 45, 99] [65, 45, 67] (by decide) (by decide) (by decide) (by decide)).mpr
    ((if_pos (by decide)).mpr (by decide))

/-- The second of two letters has no counterpart and becomes a NUL. -/
theorem short_set_gives_nul : tr [97, 98] [120] [[98]] = [0] ∧
    ¬ ∀ b, Translates (expansion [97, 98]) (expansion [120]) b
      (table (expandSet [97, 98]) (expandSet [120]) b) := by
  have hb : table (expandSet [97, 98]) (expandSet [120]) 98 = 0 := by decide +kernel
  refine ⟨by decide +kernel, fun h ↦ ?_⟩
  have hlast := (h 98).last 1 rfl fun j hj ↦ by rw [getElem?_eq_none hj]; simp
  rw [hb] at hlast
  exact absurd hlast (by decide)

end Rxv6.User.Tr
