import Mathlib.Data.Nat.Size
import Mathlib.Tactic.Ring

/-!
# Square and multiply

The recursion that takes one from an odd exponent and halves an even one, with the number of
turns that it needs.
-/

namespace Icarus.Core.BinaryPower

/-- Enough turns for an exponent. -/
def steps (n : Nat) : Nat := 2 * n.size + n % 2 + 1

variable {n w : Nat}

theorem steps_pred (hodd : n % 2 = 1) : steps (n - 1) + 1 ≤ steps n := by
  have hsize : (n - 1).size ≤ n.size := Nat.size_le_size (Nat.sub_le n 1)
  unfold steps
  omega

theorem steps_half (hpos : 0 < n) (heven : n % 2 = 0) : steps (n / 2) + 1 ≤ steps n := by
  have hsize : 0 < n.size := Nat.size_pos.mpr hpos
  have hlt : n < 2 ^ n.size := Nat.lt_size_self n
  have hhalf : (n / 2).size ≤ n.size - 1 := by
    rw [Nat.size_le]
    have hpow : 2 ^ n.size = 2 * 2 ^ (n.size - 1) := by
      rw [← pow_succ', Nat.sub_add_cancel hsize]
    omega
  unfold steps
  omega

/-- The turns for an exponent of a width. -/
theorem steps_le (h : n < 2 ^ w) : steps n ≤ 2 * w + 2 := by
  have hsize := Nat.size_le.mpr h
  unfold steps
  omega

/-- What holds of the exponent zero and is kept by both kinds of turns holds of every exponent
that there are enough turns for. -/
theorem induction {P : Nat → Nat → Prop} (zero : ∀ fuel, P (fuel + 1) 0)
    (odd : ∀ fuel n, n % 2 = 1 → P fuel (n - 1) → P (fuel + 1) n)
    (even : ∀ fuel n, 0 < n → n % 2 = 0 → P fuel (n / 2) → P (fuel + 1) n) (fuel n : Nat)
    (h : steps n ≤ fuel) : P fuel n := by
  induction fuel generalizing n with
  | zero =>
    unfold steps at h
    omega
  | succ fuel ih =>
    obtain rfl | hpos := Nat.eq_zero_or_pos n
    · exact zero fuel
    · obtain heven | hodd := Nat.mod_two_eq_zero_or_one n
      · exact even fuel n hpos heven (ih _ (by have := steps_half hpos heven; omega))
      · exact odd fuel n hodd (ih _ (by have := steps_pred hodd; omega))

variable {α : Type} [Monoid α]

theorem pow_odd (x : α) (h : n % 2 = 1) : x ^ n = x * x ^ (n - 1) := by
  rw [← pow_succ', Nat.sub_add_cancel (by omega)]

theorem pow_even (x : α) (h : n % 2 = 0) : x ^ n = x ^ (n / 2) * x ^ (n / 2) := by
  rw [← pow_add]
  congr 1
  omega

end Icarus.Core.BinaryPower
