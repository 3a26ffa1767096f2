import Mathlib.Tactic

namespace Rxv6.User.Factor

/-- The product is a `u128`, and the result a `u64`. -/
def mulMod (a b m : Nat) : Nat := a * b % 2 ^ 128 % m % 2 ^ 64

def powLoop (result base exp m : Nat) : Nat :=
  if exp = 0 then result
  else powLoop (if exp % 2 = 1 then mulMod result base m else result) (mulMod base base m) (exp / 2) m
termination_by exp
decreasing_by omega

def powMod (base exp m : Nat) : Nat := powLoop 1 (base % m) exp m

/-- The loop of `miller_test`, with the turns that are left. -/
def squareLoop (n : Nat) : Nat → Nat → Bool
  | 0, _ => false
  | turns + 1, x => if mulMod x x n = n - 1 then true else squareLoop n turns (mulMod x x n)

def millerTest (a d n r : Nat) : Bool :=
  let x := powMod a d n
  if x = 1 ∨ x = n - 1 then true else squareLoop n (r - 1) x

/-- The loop that writes `n - 1` as `2 ^ r * d`; `d` is never zero. -/
def oddPart (d r : Nat) : Nat × Nat :=
  if d % 2 = 0 ∧ d ≠ 0 then oddPart (d / 2) (r + 1) else (d, r)
termination_by d
decreasing_by omega

def witnesses : List Nat := [2, 325, 9375, 28178, 450775, 9780504, 1795265022]

def isPrime (n : Nat) : Bool :=
  if n < 2 then false
  else if n < 4 then true
  else if n % 2 = 0 ∨ n % 3 = 0 then false
  else
    let (d, r) := oddPart (n - 1) 0
    witnesses.all fun a ↦ a ≥ n || millerTest a d n r

variable {a b m n p x d r : Nat}

theorem mulMod_eq (ha : a < 2 ^ 64) (hb : b < 2 ^ 64) (hm : 0 < m) (hlt : m < 2 ^ 64) :
    mulMod a b m = a * b % m := by
  have hprod : a * b < 2 ^ 128 := (Nat.mul_lt_mul'' ha hb).trans_eq (by norm_num)
  rw [mulMod, Nat.mod_eq_of_lt hprod, Nat.mod_eq_of_lt ((Nat.mod_lt _ hm).trans hlt)]

theorem mulMod_lt (hm : 0 < m) : mulMod a b m < m := (Nat.mod_le _ _).trans_lt (Nat.mod_lt _ hm)

theorem powLoop_eq (hm : m < 2 ^ 64) (exp : Nat) : ∀ result base, result < m → base < m →
    powLoop result base exp m = result * base ^ exp % m := by
  induction exp using Nat.strong_induction_on with
  | _ exp ih =>
    intro result base hr hb
    have hmul (c : Nat) (hc : c < m) : mulMod c base m = c * base % m :=
      mulMod_eq (hc.trans hm) (hb.trans hm) (by omega) hm
    have hpow : mulMod base base m ^ (exp / 2) ≡ base ^ (2 * (exp / 2)) [MOD m] := by
      rw [hmul base hb, pow_mul, sq]
      exact (Nat.mod_modEq _ m).pow _
    rw [powLoop]
    split_ifs with h0 hodd
    · rw [h0, pow_zero, mul_one, Nat.mod_eq_of_lt hr]
    · rw [ih _ (by omega) _ _ (mulMod_lt (by omega)) (mulMod_lt (by omega)), hmul result hr]
      refine ((Nat.mod_modEq _ m).mul hpow).trans ?_
      rw [mul_assoc, ← pow_succ', show 2 * (exp / 2) + 1 = exp by omega]
    · rw [ih _ (by omega) _ _ hr (mulMod_lt (by omega))]
      refine (Nat.ModEq.rfl.mul hpow).trans ?_
      rw [show 2 * (exp / 2) = exp by omega]

theorem powMod_eq (hm : 1 < m) (hlt : m < 2 ^ 64) (base exp : Nat) : powMod base exp m = base ^ exp % m := by
  rw [powMod, powLoop_eq hlt _ _ _ hm (Nat.mod_lt _ (by omega)), one_mul, ← Nat.pow_mod]

theorem oddPart_eq (d r : Nat) : (oddPart d r).1 * 2 ^ (oddPart d r).2 = d * 2 ^ r ∧
    ((oddPart d r).1 % 2 = 0 → d = 0) := by
  fun_induction oddPart d r with
  | case1 d r h ih =>
    refine ⟨ih.1.trans ?_, fun h0 ↦ by omega⟩
    rw [pow_succ', ← mul_assoc, show d / 2 * 2 = d by omega]
  | case2 d r h => exact ⟨rfl, fun h0 ↦ by omega⟩

section Prime

variable [Fact p.Prime] (hlt : p < 2 ^ 64)

theorem cast_eq_iff (hx : x < p) (hd : d < p) : (x : ZMod p) = d ↔ x = d := by
  rw [ZMod.natCast_eq_natCast_iff, Nat.ModEq, Nat.mod_eq_of_lt hx, Nat.mod_eq_of_lt hd]

theorem cast_pred : ((p - 1 : Nat) : ZMod p) = -1 := by
  rw [Nat.cast_sub (Nat.Prime.pos Fact.out), ZMod.natCast_self, Nat.cast_one, zero_sub]

/-- One has only two square roots. -/
theorem mul_self_ne_one (hx : x < p) (h1 : x ≠ 1) (hpred : x ≠ p - 1) : (x : ZMod p) * x ≠ 1 := fun h ↦ by
  have hp : 1 < p := Nat.Prime.one_lt Fact.out
  rcases mul_self_eq_one_iff.mp h with h | h
  · exact h1 ((cast_eq_iff hx hp).mp (by rwa [Nat.cast_one]))
  · exact hpred ((cast_eq_iff hx (by omega)).mp (by rwa [cast_pred]))

include hlt

theorem squareLoop_eq_true (turns : Nat) : ∀ x < p, x ≠ 1 → x ≠ p - 1 → (x : ZMod p) ^ 2 ^ (turns + 1) = 1 →
    squareLoop p turns x = true := by
  induction turns with
  | zero =>
    intro x hx h1 hpred hpow
    rw [pow_one, sq] at hpow
    exact absurd hpow (mul_self_ne_one hx h1 hpred)
  | succ turns ih =>
    intro x hx h1 hpred hpow
    have hcast : ((mulMod x x p) : ZMod p) = x * x := by
      rw [mulMod_eq (hx.trans hlt) (hx.trans hlt) (by omega) hlt, ZMod.natCast_mod, Nat.cast_mul]
    rw [squareLoop]
    split_ifs with hend
    · rfl
    · refine ih _ (mulMod_lt (by omega)) (fun h ↦ mul_self_ne_one hx h1 hpred ?_) hend ?_
      · rw [← hcast, h, Nat.cast_one]
      · rwa [hcast, ← sq, ← pow_mul, ← pow_succ']

theorem millerTest_eq_true (ha : a < p) (h0 : a ≠ 0) (h : d * 2 ^ (r + 1) = p - 1) :
    millerTest a d p (r + 1) = true := by
  have hp : 1 < p := Nat.Prime.one_lt Fact.out
  have hx : powMod a d p = a ^ d % p := powMod_eq hp hlt a d
  rw [millerTest]
  split_ifs with hone
  · rfl
  · rw [not_or] at hone
    refine squareLoop_eq_true hlt r _ (hx ▸ Nat.mod_lt _ (by omega)) hone.1 hone.2 ?_
    rw [hx, ZMod.natCast_mod, Nat.cast_pow, ← pow_mul, h]
    exact ZMod.pow_card_sub_one_eq_one fun he ↦ h0 ((cast_eq_iff ha (by omega)).mp (he.trans Nat.cast_zero.symm))

theorem isPrime_eq_true : isPrime p = true := by
  have hprime : p.Prime := Fact.out
  have hp := hprime.two_le
  rw [isPrime, if_neg (by omega)]
  split_ifs with h4 hdiv
  · rfl
  · have hdvd (q : Nat) (hq : q.Prime) (h : p % q = 0) : q = p :=
      (Nat.prime_dvd_prime_iff_eq hq hprime).mp (Nat.dvd_of_mod_eq_zero h)
    have := hdiv.imp (hdvd 2 Nat.prime_two) (hdvd 3 Nat.prime_three)
    omega
  · obtain ⟨heq, hodd⟩ := oddPart_eq (p - 1) 0
    rcases hdr : oddPart (p - 1) 0 with ⟨d, r⟩
    rw [hdr, pow_zero, mul_one] at heq
    simp only [hdr] at hodd
    obtain ⟨r, rfl⟩ : ∃ k, r = k + 1 := Nat.exists_eq_add_one.mpr (pos_of_ne_zero fun h0 ↦ by
      rw [h0, pow_zero] at heq
      omega)
    refine List.all_eq_true.mpr fun a ha ↦ ?_
    rw [Bool.or_eq_true, decide_eq_true_eq]
    refine (le_or_gt p a).imp_right fun hlt' ↦ millerTest_eq_true hlt hlt' ?_ heq
    rintro rfl
    exact absurd ha (by decide)

end Prime

/-- Every prime passes, with the powers and products as they should be, so that what fails is composite. -/
theorem isPrime_complete :
    (∀ p < 2 ^ 64, p.Prime → isPrime p = true) ∧
      (∀ a b m, a < 2 ^ 64 → b < 2 ^ 64 → 1 < m → m < 2 ^ 64 →
        mulMod a b m = a * b % m ∧ powMod a b m = a ^ b % m) ∧
      ∀ n < 2 ^ 64, 2 ≤ n → isPrime n = false → ∃ k, 1 < k ∧ k < n ∧ k ∣ n := by
  have hpass (p : Nat) (hlt : p < 2 ^ 64) (hp : p.Prime) : isPrime p = true :=
    have := Fact.mk hp
    isPrime_eq_true hlt
  refine ⟨hpass, fun a b m ha hb hm hlt ↦ ⟨mulMod_eq ha hb (by omega) hlt, powMod_eq hm hlt a b⟩,
    fun n hlt h2 hfail ↦ ?_⟩
  have hnot : ¬ n.Prime := fun hp ↦ Bool.false_ne_true (hfail.symm.trans (hpass n hlt hp))
  obtain ⟨k, hk, h1, hn⟩ := Nat.exists_dvd_of_not_prime2 h2 hnot
  exact ⟨k, h1, hn, hk⟩

theorem isPrime_complete_five : isPrime 5 = true := isPrime_complete.1 5 (by decide) Nat.prime_five

end Rxv6.User.Factor
