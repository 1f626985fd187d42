import Mathlib.Data.Nat.Basic
import Mathlib.Tactic.Ring

/-!
# Rounding up to a power of two

The usual idiom on machine words, `(x + a - 1) & ~(a - 1)`, against the multiple of
`a` it is meant to compute, and `a & (a - 1)` as the test for a power of two.
-/

namespace FilcAsync

/-! ## On numbers -/

/-- The least multiple of `a` that is at least `n`. -/
def roundUp (n a : ℕ) : ℕ := (n + a - 1) / a * a

theorem dvd_roundUp (n a : ℕ) : a ∣ roundUp n a := Nat.dvd_mul_left _ _

theorem roundUp_bounds {n a : ℕ} (ha : 0 < a) : n ≤ roundUp n a ∧ roundUp n a ≤ n + a - 1 := by
  unfold roundUp
  have hdiv := Nat.div_add_mod (n + a - 1) a
  have hmod := Nat.mod_lt (n + a - 1) ha
  rw [Nat.mul_comm] at hdiv
  omega

/-- Rounding up passes a power of two only if the sum does. -/
theorem add_lt_of_roundUp_lt {n k w : ℕ} (h : roundUp n (2 ^ k) < 2 ^ w) (hk : k < w) :
    n + 2 ^ k - 1 < 2 ^ w := by
  by_contra hge
  have hsplit : 2 ^ w = 2 ^ (w - k) * 2 ^ k := by rw [← Nat.pow_add]; congr 1; omega
  have hdiv : 2 ^ (w - k) ≤ (n + 2 ^ k - 1) / 2 ^ k := by
    rw [Nat.le_div_iff_mul_le (Nat.two_pow_pos k), ← hsplit]
    omega
  have := Nat.mul_le_mul_right (2 ^ k) hdiv
  unfold roundUp at h
  omega

/-! ## On words -/

/-- `(x + a - 1) & ~(a - 1)`. -/
def alignUp {w : ℕ} (x a : BitVec w) : BitVec w := (x + a - 1) &&& ~~~(a - 1)

variable {w : ℕ} {x a : BitVec w}

theorem toNat_sub_one (ha : a ≠ 0) : (a - 1).toNat = a.toNat - 1 := by
  have hpos : 0 < a.toNat := Nat.pos_of_ne_zero fun h => ha (BitVec.eq_of_toNat_eq h)
  have hlt := a.isLt
  have hw : 1 < 2 ^ w := by omega
  rw [BitVec.toNat_sub, show (1 : BitVec w).toNat = 1 from Nat.mod_eq_of_lt hw]
  rw [show 2 ^ w - 1 + a.toNat = a.toNat - 1 + 2 ^ w by omega, Nat.add_mod_right]
  exact Nat.mod_eq_of_lt (by omega)

/-- The test for a power of two. -/
theorem and_sub_one_eq_zero_iff (ha : a ≠ 0) : a &&& (a - 1) = 0 ↔ a.toNat.isPowerOfTwo := by
  have hpos : a.toNat ≠ 0 := fun h => ha (BitVec.eq_of_toNat_eq h)
  rw [← Nat.and_sub_one_eq_zero_iff_isPowerOfTwo hpos, ← toNat_sub_one ha,
    ← BitVec.toNat_and]
  exact BitVec.toNat_inj.symm

/-- Clearing the low bits. -/
theorem and_not_low (y : BitVec w) {k : ℕ} (ha : a.toNat = 2 ^ k) :
    (y &&& ~~~(a - 1)).toNat = y.toNat / 2 ^ k * 2 ^ k := by
  have hne : a ≠ 0 := by
    rintro rfl
    exact absurd ha.symm (Nat.two_pow_pos k).ne'
  have hlow : 2 ^ k - 1 < 2 ^ w := by
    have := a.isLt
    omega
  apply Nat.eq_of_testBit_eq
  intro i
  rw [BitVec.toNat_and, Nat.testBit_and, Nat.testBit_mul_two_pow, Nat.testBit_div_two_pow,
    BitVec.toNat_not, toNat_sub_one hne, ha, Nat.sub_sub, Nat.add_comm 1,
    Nat.testBit_two_pow_sub_succ hlow, Nat.testBit_two_pow_sub_one]
  by_cases hi : k ≤ i
  · rw [Nat.sub_add_cancel hi]
    by_cases hiw : i < w
    · simp [hi, hiw]
    · have : y.toNat.testBit i = false :=
        Nat.testBit_lt_two_pow (y.isLt.trans_le (Nat.pow_le_pow_right (by decide) (by omega)))
      simp [this]
  · simp [hi]; omega

/-- Without wrapping, the idiom rounds up. -/
theorem toNat_alignUp (ha : a.toNat.isPowerOfTwo) (h : roundUp x.toNat a.toNat < 2 ^ w) :
    (alignUp x a).toNat = roundUp x.toNat a.toNat := by
  obtain ⟨k, hk⟩ := ha
  have hw : k < w := by
    have := a.isLt
    rw [hk] at this
    exact (Nat.pow_lt_pow_iff_right (by decide)).mp this
  have hone : (1 : BitVec w).toNat = 1 := Nat.mod_eq_of_lt (Nat.one_lt_two_pow (by omega))
  rw [hk] at h
  have hsum := add_lt_of_roundUp_lt h hw
  have hpos := Nat.two_pow_pos k
  have hy : (x + a - 1).toNat = x.toNat + 2 ^ k - 1 := by
    rw [BitVec.toNat_sub, BitVec.toNat_add, hone, hk]
    rcases Nat.lt_or_ge (x.toNat + 2 ^ k) (2 ^ w) with hlt | hge
    · rw [Nat.mod_eq_of_lt hlt,
        show 2 ^ w - 1 + (x.toNat + 2 ^ k) = x.toNat + 2 ^ k - 1 + 2 ^ w by omega,
        Nat.add_mod_right, Nat.mod_eq_of_lt hsum]
    · have heq : x.toNat + 2 ^ k = 2 ^ w := by omega
      rw [heq, Nat.mod_self, Nat.add_zero]
      exact Nat.mod_eq_of_lt (by omega)
  unfold alignUp roundUp
  rw [and_not_low _ hk, hy, hk]

end FilcAsync
