import Rxv6.Lib.Ring

namespace Rxv6.User.Tail

open List Function Lib

abbrev Line := List UInt8

/-- A slot of `ring` is the line up to its length in `rlens`, and `cur` the first `ci` bytes of `cur`. -/
structure State where
  ring : Nat → Line
  total : Nat
  cur : Line

namespace State

def store (t : State) : State := ⟨update t.ring (t.total % 256) t.cur, (t.total + 1) % 4294967296, []⟩

def byte (t : State) (b : UInt8) : State :=
  if b = 10 then t.store else if t.cur.length < 128 then { t with cur := t.cur ++ [b] } else t

def finish (t : State) : State := if t.cur ≠ [] then t.store else t

def print (nlines : Nat) (t : State) : List UInt8 :=
  let start := if nlines < t.total then t.total - nlines else 0
  (range' start (t.total - start)).flatMap fun i ↦ t.ring (i % 256) ++ [10]

end State

/-- The loop of `atoi`; the arithmetic of `usize` wraps in a user program. -/
def atoi (n : Nat) : List UInt8 → Nat
  | [] => n
  | b :: s => if b < 48 ∨ b > 57 then n else atoi ((n * 10 + (b - 48).toNat) % 4294967296) s

/-- `nlines`, from the first argument. -/
def nlines : Option (List UInt8) → Nat
  | some (45 :: s) => atoi 0 s
  | _ => 10

/-- What is written, given the first argument and what the reads return. -/
def tail (arg : Option (List UInt8)) (reads : List (List UInt8)) : List UInt8 :=
  (foldl (foldl State.byte) ⟨fun _ ↦ [], 0, []⟩ (reads.takeWhile (· ≠ []))).finish.print (nlines arg)

/-- The number that the first digits of a text write behind `n`. -/
def number (n : Nat) : List UInt8 → Nat
  | [] => n
  | b :: s => if b < 48 ∨ b > 57 then n else number (n * 10 + (b - 48).toNat) s

def input (reads : List (List UInt8)) : List UInt8 := (reads.takeWhile (· ≠ [])).flatten

/-- The lines of an input; `line` is the part of the first one that was seen. -/
def lines (line : Line) : List UInt8 → List Line
  | [] => if line = [] then [] else [line]
  | b :: input => if b = 10 then line :: lines [] input else lines (line ++ [b]) input

/-- The lines `done` were stored, and the ring holds the last 256 of them. -/
structure Inv (done : List Line) (t : State) : Prop where
  total : t.total = done.length % 4294967296
  ring : Ring.Holds 256 t.ring (done.length - 256) (done.drop (done.length - 256))

variable {done : List Line} {t : State} {n : Nat}

theorem Inv.from (h : Inv done t) (hn : done.length - 256 ≤ n) (hle : n ≤ done.length) :
    Ring.Holds 256 t.ring n (done.drop n) := by
  have hdrop := h.ring.drop (n := n - (done.length - 256)) (by rw [length_drop]; omega)
  rwa [drop_drop, Nat.add_sub_cancel' hn] at hdrop

theorem Inv.store (h : Inv done t) : Inv (done ++ [t.cur]) t.store := by
  have hlen : (done ++ [t.cur]).length = done.length + 1 := length_append
  refine ⟨by rw [hlen, Nat.add_mod, ← h.total]; rfl, ?_⟩
  have hhold := (h.from (n := done.length + 1 - 256) (by omega) (by omega)).store (l := [t.cur])
    (by rw [length_drop, length_singleton]; omega)
  rw [hlen, drop_append_of_le_length (by omega), State.store, h.total, Nat.mod_mod_of_dvd _ (by decide)]
  rwa [length_drop, Nat.add_sub_cancel' (by omega)] at hhold

theorem length_le_of_lines {line : Line} {input : List UInt8} (h : ∀ l ∈ lines line input, l.length ≤ n) :
    line.length ≤ n := by
  induction input generalizing line with
  | nil =>
    rw [lines] at h
    split_ifs at h with hnil
    · simp [hnil]
    · exact h line mem_cons_self
  | cons b input ih =>
    rw [lines] at h
    split_ifs at h
    · exact h line mem_cons_self
    · exact (by simp : line.length ≤ (line ++ [b]).length).trans (ih h)

theorem Inv.run (h : Inv done t) (input : List UInt8) (hl : ∀ l ∈ lines t.cur input, l.length ≤ 128) :
    Inv (done ++ lines t.cur input) (input.foldl State.byte t).finish := by
  induction input generalizing done t with
  | nil =>
    rw [foldl_nil, State.finish, lines]
    by_cases hcur : t.cur = []
    · rw [if_neg (not_not.mpr hcur), if_pos hcur, append_nil]
      exact h
    · rw [if_pos hcur, if_neg hcur]
      exact h.store
  | cons b input ih =>
    rw [foldl_cons, State.byte]
    rw [lines] at hl ⊢
    split_ifs at hl ⊢ with hb hfull
    · have hrun := ih h.store fun l hmem ↦ hl l (mem_cons_of_mem _ hmem)
      rwa [append_assoc] at hrun
    · exact ih (t := { t with cur := t.cur ++ [b] }) ⟨h.total, h.ring⟩ hl
    · have hle := length_le_of_lines hl
      rw [length_append, length_singleton] at hle
      omega

theorem atoi_eq (s : List UInt8) (n : Nat) : atoi (n % 4294967296) s = number n s % 4294967296 := by
  induction s generalizing n with
  | nil => rfl
  | cons b s ih =>
    rw [atoi, number]
    split_ifs
    · rfl
    · rw [← ih]
      congr 1
      omega

/-- Lines without a newline can be read off what was printed. -/
theorem flatMap_inj {A B : List Line} (hA : ∀ l ∈ A, 10 ∉ l) (hB : ∀ l ∈ B, 10 ∉ l) :
    A.flatMap (· ++ [10]) = B.flatMap (· ++ [10]) ↔ A = B := by
  refine ⟨fun h ↦ ?_, fun h ↦ h ▸ rfl⟩
  induction A generalizing B with
  | nil => cases B <;> simp_all
  | cons a A ih =>
    cases B with
    | nil => simp at h
    | cons b B =>
      simp only [flatMap_cons, append_assoc, singleton_append] at h
      have hline {l : Line} {rest : List UInt8} (hl : 10 ∉ l) : (l ++ 10 :: rest).takeWhile (· ≠ 10) = l := by
        rw [takeWhile_append_of_pos fun c hc ↦ by simpa using fun he : c = 10 ↦ hl (he ▸ hc)]
        simp
      have hab : a = b := by
        rw [← hline (hA a mem_cons_self), h, hline (hB b mem_cons_self)]
      subst hab
      have hrest := (cons.inj (append_cancel_left h)).2
      rw [ih (fun l hl ↦ hA l (mem_cons_of_mem _ hl)) (fun l hl ↦ hB l (mem_cons_of_mem _ hl)) hrest]

theorem newline_notMem_lines {line : Line} {input : List UInt8} (h : 10 ∉ line) : ∀ l ∈ lines line input, 10 ∉ l := by
  induction input generalizing line with
  | nil =>
    rw [lines]
    split_ifs <;> simp [h]
  | cons b input ih =>
    rw [lines]
    split_ifs with hb
    · exact forall_mem_cons.mpr ⟨h, ih not_mem_nil⟩
    · exact ih (by simpa [h] using Ne.symm hb)

/-- The last 256 lines have not been overwritten. -/
theorem Inv.slot (h : Inv done t) {k : Nat} (hk : k < done.length) (hlast : done.length ≤ k + 256) :
    done[k]? = some (t.ring (k % 256)) := by
  have hholds := h.from (n := k) (by omega) hk.le 0 (by rw [length_drop]; omega)
  rw [getElem?_eq_getElem hk]
  exact congrArg some (hholds.trans getElem_drop).symm

/-- Every line from `first` on that is no longer in the ring equals the line that took its slot. -/
def Repeats (done : List Line) (first : Nat) : Prop :=
  ∀ k, first ≤ k → k + 256 < done.length → done[k]? = done[k + 256]?

theorem Inv.slots_iff (h : Inv done t) (first : Nat) :
    (∀ k, first ≤ k → k < done.length → done[k]? = some (t.ring (k % 256))) ↔ Repeats done first := by
  constructor
  · intro hslots k hk hlt
    rw [hslots k hk (by omega), hslots (k + 256) (by omega) hlt, Nat.add_mod_right]
  · intro hrep k hk hlt
    -- by induction on the number of lines behind `k`, in steps of one round of the ring
    induction hn : done.length - k using Nat.strong_induction_on generalizing k with
    | _ n ih =>
      obtain hlast | hover := le_or_gt done.length (k + 256)
      · exact h.slot hlt hlast
      · rw [hrep k hk hover, ih (done.length - (k + 256)) (by omega) (k + 256) (by omega) hover rfl,
          Nat.add_mod_right]

/-- The lines that `tail` prints are the last `n` if and only if it prints as many and those that have left the
ring are repeated. -/
theorem Inv.print (h : Inv done t) (hdone : ∀ l ∈ done, 10 ∉ l) (n m : Nat) :
    t.print m = (done.drop (done.length - n)).flatMap (· ++ [10]) ↔
      min m (done.length % 4294967296) = min n done.length ∧ Repeats done (done.length - n) := by
  set p := min m (done.length % 4294967296) with hp
  have hmod : done.length % 4294967296 ≤ done.length := Nat.mod_le _ _
  have hslot (x : Nat) (hx : x < p) : (done.length % 4294967296 - p + x) % 256 = (done.length - p + x) % 256 := by
    omega
  have hprint : t.print m = ((List.range p).map fun x ↦ t.ring ((done.length - p + x) % 256)).flatMap (· ++ [10]) := by
    have hstart : (if m < done.length % 4294967296 then done.length % 4294967296 - m else 0) =
        done.length % 4294967296 - p := by split_ifs <;> omega
    rw [State.print, h.total, hstart, show done.length % 4294967296 - (done.length % 4294967296 - p) = p by omega,
      range'_eq_map_range, flatMap_map, flatMap_map]
    exact flatMap_congr fun x hx ↦ by rw [hslot x (mem_range.mp hx)]
  have hring (k : Nat) (hk : k < done.length) : 10 ∉ t.ring (k % 256) := by
    set j := k + 256 * ((done.length - 1 - k) / 256) with hj
    have hsame := h.slot (k := j) (by omega) (by omega)
    rw [hj, Nat.add_mul_mod_self_left] at hsame
    exact hdone _ (mem_of_getElem? hsame)
  rw [hprint, flatMap_inj, ← h.slots_iff]
  · constructor
    · intro heq
      have hlen : p = done.length - (done.length - n) := by
        simpa using congrArg length heq
      refine ⟨by omega, fun k hk hlt ↦ ?_⟩
      have hget := congrArg (·[k - (done.length - n)]?) heq
      simp only [getElem?_map, getElem?_drop, getElem?_range (show k - (done.length - n) < p by omega),
        Option.map_some] at hget
      rw [show done.length - n + (k - (done.length - n)) = k by omega,
        show done.length - p + (k - (done.length - n)) = k by omega] at hget
      exact hget.symm
    · rintro ⟨hpn, hall⟩
      refine ext_getElem? fun x ↦ ?_
      rw [getElem?_map, getElem?_drop]
      obtain hx | hx := lt_or_ge x p
      · rw [getElem?_range hx, hall _ (by omega) (by omega), Option.map_some,
          show done.length - n + x = done.length - p + x by omega]
      · rw [getElem?_eq_none (by simpa using hx), getElem?_eq_none (by omega), Option.map_none]
  · intro l hl
    obtain ⟨x, hx, rfl⟩ := mem_map.mp hl
    have := mem_range.mp hx
    exact hring _ (by omega)
  · exact fun l hl ↦ hdone l (mem_of_mem_drop hl)

/-- `tail` prints the last lines if and only if their number survives the arithmetic of `usize` and every line
to be printed that has left the ring of 256 lines is repeated by the line that took its slot. -/
theorem tail_prints_last (s : List UInt8) (reads : List (List UInt8))
    (hline : ∀ l ∈ lines [] (input reads), l.length ≤ 128) :
    tail (some (45 :: s)) reads = ((lines [] (input reads)).drop
        ((lines [] (input reads)).length - number 0 s)).flatMap (· ++ [10]) ↔
      min (number 0 s % 4294967296) ((lines [] (input reads)).length % 4294967296) =
          min (number 0 s) (lines [] (input reads)).length ∧
        Repeats (lines [] (input reads)) ((lines [] (input reads)).length - number 0 s) := by
  have hstart : Inv [] ⟨fun _ ↦ [], 0, []⟩ := ⟨rfl, fun i hi ↦ absurd hi (Nat.not_lt_zero i)⟩
  refine Iff.trans (Eq.congr_left ?_) ((hstart.run _ hline).print (newline_notMem_lines not_mem_nil) _ _)
  rw [tail, nlines, atoi_eq s 0, input, foldl_flatten]

theorem tail_prints_last_one : tail (some [45, 49]) [[97, 10], [98]] = [98, 10] :=
  (tail_prints_last [49] [[97, 10], [98]] (by decide)).mpr ⟨by decide, fun k _ hk ↦ by
    have : k + 256 < 2 := hk
    omega⟩

/-- The last of 257 lines takes the place of the first in the ring. -/
theorem first_line_overwritten : tail (some [45, 50, 53, 55]) [97 :: replicate 257 10] = replicate 257 10 ∧
    lines [] (input [97 :: replicate 257 10]) = [97] :: replicate 256 [] := by
  decide +kernel

end Rxv6.User.Tail
