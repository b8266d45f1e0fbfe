import Mathlib.Algebra.Order.Ring.Abs
import Mathlib.Data.Int.ModEq
import Mathlib.Tactic.Linarith
import Mathlib.Tactic.Ring

/-!
# Two's complement

The integer that `n` bits stand for, signed or unsigned. Both readings agree with
the unsigned number modulo `2 ^ n`, so an integer in range is read back from any
number congruent to it.
-/

namespace Icarus.Core.TwosComplement

/-- The integer read from an `n`-bit number. -/
def reading (isSigned : Bool) (n x : Nat) : Int :=
  if isSigned ∧ 2 ^ (n - 1) ≤ x then x - 2 ^ n else x

/-- The integers of `n` bits. -/
def InRange (isSigned : Bool) (n : Nat) (z : Int) : Prop :=
  if isSigned then -2 ^ (n - 1) ≤ z ∧ z < 2 ^ (n - 1) else 0 ≤ z ∧ z < 2 ^ n

instance (isSigned : Bool) (n : Nat) (z : Int) : Decidable (InRange isSigned n z) :=
  inferInstanceAs (Decidable
    (if isSigned = true then -2 ^ (n - 1) ≤ z ∧ z < 2 ^ (n - 1) else 0 ≤ z ∧ z < 2 ^ n))

private theorem two_pow_pred {n : Nat} (hn : 0 < n) : (2 : Int) ^ n = 2 * 2 ^ (n - 1) := by
  rw [← pow_succ', Nat.sub_add_cancel hn]

theorem reading_unsigned (n x : Nat) : reading false n x = x := by simp [reading]

/-- Both readings agree with the number modulo the power of the width. -/
theorem reading_modEq (isSigned : Bool) (n x : Nat) : reading isSigned n x ≡ x [ZMOD 2 ^ n] := by
  unfold reading
  split_ifs
  · exact Int.modEq_iff_dvd.mpr ⟨1, by ring⟩
  · rfl

/-- A number of `n` bits is read as an integer of `n` bits. -/
theorem reading_inRange (isSigned : Bool) {n x : Nat} (hn : 0 < n) (hx : x < 2 ^ n) :
    InRange isSigned n (reading isSigned n x) := by
  have hpow := two_pow_pred hn
  have hx' : (x : Int) < 2 ^ n := by exact_mod_cast hx
  unfold InRange reading
  cases isSigned with
  | false =>
    simp only [Bool.false_eq_true, false_and, if_false]
    exact ⟨Int.natCast_nonneg x, hx'⟩
  | true =>
    simp only [true_and, if_true]
    split_ifs with h
    · have h' : (2 : Int) ^ (n - 1) ≤ x := by exact_mod_cast h
      constructor <;> linarith
    · have h' : (x : Int) < 2 ^ (n - 1) := by exact_mod_cast Nat.not_le.mp h
      have := Int.natCast_nonneg x
      constructor <;> linarith

/-- Integers of `n` bits that agree modulo the power of the width are equal. -/
theorem eq_of_modEq {isSigned : Bool} {n : Nat} {y z : Int} (hn : 0 < n)
    (hy : InRange isSigned n y) (hz : InRange isSigned n z) (h : y ≡ z [ZMOD 2 ^ n]) : y = z := by
  have hpow := two_pow_pred hn
  have habs : |z - y| < 2 ^ n := by
    rw [abs_lt]
    unfold InRange at hy hz
    cases isSigned with
    | false =>
      simp only [Bool.false_eq_true, if_false] at hy hz
      constructor <;> linarith
    | true =>
      simp only [if_true] at hy hz
      constructor <;> linarith
  have hzero := Int.eq_zero_of_abs_lt_dvd h.dvd habs
  linarith

/-- An integer in range is read back from any number congruent to it. -/
theorem reading_eq {isSigned : Bool} {n x : Nat} {z : Int} (hn : 0 < n) (hx : x < 2 ^ n)
    (hz : InRange isSigned n z) (h : (x : Int) ≡ z [ZMOD 2 ^ n]) : reading isSigned n x = z :=
  eq_of_modEq hn (reading_inRange isSigned hn hx) hz ((reading_modEq isSigned n x).trans h)

/-- The integers of more bits include those of fewer. -/
theorem InRange.mono {isSigned : Bool} {m n : Nat} {z : Int} (h : InRange isSigned m z)
    (hmn : m ≤ n) : InRange isSigned n z := by
  have hpow : (2 : Int) ^ m ≤ 2 ^ n := by exact_mod_cast Nat.pow_le_pow_right (by omega) hmn
  have hpow' : (2 : Int) ^ (m - 1) ≤ 2 ^ (n - 1) := by
    exact_mod_cast Nat.pow_le_pow_right (by omega) (Nat.sub_le_sub_right hmn 1)
  unfold InRange at *
  cases isSigned with
  | false =>
    simp only [Bool.false_eq_true, if_false] at *
    exact ⟨h.1, by linarith⟩
  | true =>
    simp only [if_true] at *
    constructor <;> linarith

/-- A number below half the range is read as it is. -/
theorem reading_of_lt {isSigned : Bool} {n x : Nat} (h : x < 2 ^ (n - 1)) :
    reading isSigned n x = x := by
  unfold reading
  rw [if_neg]
  rintro ⟨-, hge⟩
  omega

theorem reading_of_ge {n x : Nat} (h : 2 ^ (n - 1) ≤ x) : reading true n x = x - 2 ^ n := by
  unfold reading
  rw [if_pos ⟨rfl, h⟩]

/-! ## Ranges of results -/

/-- A sum takes one bit more. -/
theorem InRange.add {isSigned : Bool} {n : Nat} {y z : Int} (hn : 0 < n)
    (hy : InRange isSigned n y) (hz : InRange isSigned n z) :
    InRange isSigned (n + 1) (y + z) := by
  have hpow := two_pow_pred hn
  have hsucc := pow_succ (2 : Int) n
  unfold InRange at *
  rw [Nat.add_sub_cancel]
  cases isSigned with
  | false =>
    simp only [Bool.false_eq_true, if_false] at *
    constructor <;> linarith
  | true =>
    simp only [if_true] at *
    constructor <;> linarith

/-- A signed difference takes one bit more. -/
theorem InRange.sub {n : Nat} {y z : Int} (hn : 0 < n) (hy : InRange true n y)
    (hz : InRange true n z) : InRange true (n + 1) (y - z) := by
  have hpow := two_pow_pred hn
  unfold InRange at *
  rw [Nat.add_sub_cancel]
  simp only [if_true] at *
  constructor <;> linarith

theorem InRange.zero {n : Nat} : InRange true n 0 := by
  have hpos : (0 : Int) < 2 ^ (n - 1) := pow_pos (by norm_num) _
  unfold InRange
  rw [if_pos rfl]
  constructor <;> linarith

/-- A product takes the bits of both factors. -/
theorem InRange.mul {isSigned : Bool} {m n : Nat} {y z : Int} (hm : 0 < m) (hn : 0 < n)
    (hy : InRange isSigned m y) (hz : InRange isSigned n z) :
    InRange isSigned (m + n) (y * z) := by
  unfold InRange at *
  cases isSigned with
  | false =>
    simp only [Bool.false_eq_true, if_false] at *
    refine ⟨mul_nonneg hy.1 hz.1, ?_⟩
    rw [pow_add]
    exact mul_lt_mul'' hy.2 hz.2 hy.1 hz.1
  | true =>
    simp only [if_true] at *
    have hprod : |y * z| ≤ 2 ^ (m - 1) * 2 ^ (n - 1) := by
      rw [abs_mul]
      exact mul_le_mul (abs_le.mpr ⟨hy.1, hy.2.le⟩) (abs_le.mpr ⟨hz.1, hz.2.le⟩)
        (abs_nonneg z) (pow_nonneg (by norm_num) _)
    have hpow : (2 : Int) ^ (m + n - 1) = 2 * (2 ^ (m - 1) * 2 ^ (n - 1)) := by
      rw [← pow_add, ← pow_succ']
      congr 1
      omega
    have hpos : (0 : Int) < 2 ^ (m - 1) * 2 ^ (n - 1) :=
      mul_pos (pow_pos (by norm_num) _) (pow_pos (by norm_num) _)
    obtain ⟨hlow, hhigh⟩ := abs_le.mp hprod
    constructor <;> linarith

/-! ## Truncated division -/

/-- The truncated quotient, from magnitudes. -/
theorem tdiv_natAbs (a b : Int) :
    a.tdiv b = if xor (decide (a < 0)) (decide (b < 0)) then -((a.natAbs / b.natAbs : Nat) : Int)
      else ((a.natAbs / b.natAbs : Nat) : Int) := by
  rcases Int.lt_or_le a 0 with ha | ha <;> rcases Int.lt_or_le b 0 with hb | hb
  · rw [← Int.neg_tdiv_neg, show -a = (a.natAbs : Int) by omega, show -b = (b.natAbs : Int) by omega,
      ← Int.ofNat_tdiv, if_neg (by simp [ha, hb])]
  · rw [← neg_neg (a.tdiv b), ← Int.neg_tdiv, show -a = (a.natAbs : Int) by omega,
      show b = (b.natAbs : Int) by omega, ← Int.ofNat_tdiv, if_pos (by simp [ha])]
    rfl
  · rw [← neg_neg (a.tdiv b), ← Int.tdiv_neg, show -b = (b.natAbs : Int) by omega,
      show a = (a.natAbs : Int) by omega, ← Int.ofNat_tdiv, if_pos (by simp [hb])]
    rfl
  · rw [if_neg (by simp [ha.not_gt, hb.not_gt]), show a = (a.natAbs : Int) by omega,
      show b = (b.natAbs : Int) by omega, ← Int.ofNat_tdiv]
    rfl

/-- The truncated remainder, from magnitudes. -/
theorem tmod_natAbs (a b : Int) :
    a.tmod b = if a < 0 then -((a.natAbs % b.natAbs : Nat) : Int)
      else ((a.natAbs % b.natAbs : Nat) : Int) := by
  have habs := Int.natAbs_tmod a b
  split_ifs with ha
  · have hneg := Int.tmod_nonneg b (show 0 ≤ -a by omega)
    rw [Int.neg_tmod] at hneg
    omega
  · have hnonneg := Int.tmod_nonneg b (show 0 ≤ a by omega)
    omega

end Icarus.Core.TwosComplement
