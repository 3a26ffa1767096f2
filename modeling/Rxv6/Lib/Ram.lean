import Mathlib.Tactic

namespace Rxv6.Lib.Ram

abbrev Memory := Nat → BitVec 8

/-- The word at `a`, lowest byte first. -/
def load32 (m : Memory) (a : Nat) : Nat :=
  (m a).toNat + (m (a + 1)).toNat * 2 ^ 8 + (m (a + 2)).toNat * 2 ^ 16 + (m (a + 3)).toNat * 2 ^ 24

def store32 (m : Memory) (a v : Nat) : Memory := fun x ↦
  if a ≤ x ∧ x < a + 4 then BitVec.ofNat 8 (v / 2 ^ (8 * (x - a))) else m x

/-- The two memories have the same bytes from `a` on, `n` of them. -/
def Agree (m m' : Memory) (a n : Nat) : Prop := ∀ x, a ≤ x → x < a + n → m' x = m x

variable {m m' : Memory} {a b v n : Nat}

theorem Agree.sub (h : Agree m m' a n) {k : Nat} (hlo : a ≤ b) (hhi : b + k ≤ a + n) : Agree m m' b k :=
  fun x hx hx' ↦ h x (hlo.trans hx) (by omega)

theorem load32_congr (h : Agree m m' a 4) : load32 m' a = load32 m a := by
  simp only [load32, h a le_rfl (by omega), h (a + 1) (by omega) (by omega), h (a + 2) (by omega) (by omega),
    h (a + 3) (by omega) (by omega)]

theorem store32_agree (h : b + n ≤ a ∨ a + 4 ≤ b) : Agree m (store32 m a v) b n :=
  fun x hx hx' ↦ if_neg (by omega)

theorem load32_store32 (hv : v < 2 ^ 32) : load32 (store32 m a v) a = v := by
  have hbyte : ∀ k < 4, (store32 m a v (a + k)).toNat = v / 2 ^ (8 * k) % 2 ^ 8 := by
    intro k hk
    simp only [store32]
    rw [if_pos (by omega), BitVec.toNat_ofNat, Nat.add_sub_cancel_left]
  have h0 := hbyte 0 (by omega)
  have h1 := hbyte 1 (by omega)
  have h2 := hbyte 2 (by omega)
  have h3 := hbyte 3 (by omega)
  simp only [load32, Nat.add_zero] at *
  omega

theorem load32_store32_of_apart (h : b + 4 ≤ a ∨ a + 4 ≤ b) : load32 (store32 m a v) b = load32 m b :=
  load32_congr (store32_agree h)

theorem store32_comm {w : Nat} (h : a + 4 ≤ b ∨ b + 4 ≤ a) :
    store32 (store32 m a v) b w = store32 (store32 m b w) a v := by
  funext x
  by_cases hb : b ≤ x ∧ x < b + 4
  · have ha : ¬ (a ≤ x ∧ x < a + 4) := by omega
    simp only [store32, ha, if_false]
  · simp only [store32, hb, if_false]

/-- `(val + align - 1) & !(align - 1)` on 32 bits. -/
def alignUp (val align : Nat) : Nat :=
  (BitVec.ofNat 32 (val + align - 1) &&& ~~~ BitVec.ofNat 32 (align - 1)).toNat

section AlignUp

variable {val k : Nat}

theorem alignUp_eq (hk : k < 32) (hval : val + 2 ^ k ≤ 2 ^ 32) :
    alignUp val (2 ^ k) = (val + 2 ^ k - 1) / 2 ^ k * 2 ^ k := by
  have hx : val + 2 ^ k - 1 < 2 ^ 32 := by omega
  refine Nat.eq_of_testBit_eq fun i ↦ ?_
  rw [alignUp, ← BitVec.getLsbD, BitVec.getLsbD_and, BitVec.getLsbD_not, BitVec.getLsbD_ofNat, BitVec.getLsbD_ofNat, Nat.testBit_mul_two_pow, Nat.testBit_div_two_pow]
  by_cases hi : i < 32
  · by_cases hki : k ≤ i
    · simp [hi, hki]
    · simp [not_le.mp hki]
  · have hbig : (val + 2 ^ k - 1).testBit i = false :=
      Nat.testBit_lt_two_pow (hx.trans_le (Nat.pow_le_pow_right (by omega) (by omega)))
    have hki : k ≤ i := by omega
    simp [hki, hbig]

variable (hk : k < 32) (hval : val + 2 ^ k ≤ 2 ^ 32)

include hk hval

theorem le_alignUp : val ≤ alignUp val (2 ^ k) := by
  have hdiv := Nat.div_add_mod' (val + 2 ^ k - 1) (2 ^ k)
  rw [alignUp_eq hk hval]
  omega

theorem alignUp_lt : alignUp val (2 ^ k) < val + 2 ^ k := by
  have hpos : 0 < 2 ^ k := Nat.two_pow_pos k
  have hdiv := Nat.div_mul_le_self (val + 2 ^ k - 1) (2 ^ k)
  rw [alignUp_eq hk hval]
  omega

theorem dvd_alignUp : 2 ^ k ∣ alignUp val (2 ^ k) := by
  rw [alignUp_eq hk hval]
  exact Nat.dvd_mul_left _ _

end AlignUp

end Rxv6.Lib.Ram
