import Icarus.Vvp.Thread.DivideBits
import Mathlib.Data.Nat.Prime.Basic

/-!
# The quotient of a wide division

When the loop over words finds the quotient: exactly if at every position the
trial digit is not too small and its multiple fits. Otherwise even the product of
quotient and divisor is wrong, modulo the power of the width.
-/

namespace Icarus.Vvp

open Icarus.Core

section Right

variable {words a b : Nat}

/-- The bounds on which the loop rests. -/
private theorem bounds (ha : a < 2 ^ (64 * words)) (hb : b ≠ 0) (htop : topOf b < words) :
    a % (b * (2 ^ 64) ^ (words - topOf b)) = a ∧
      (∀ pos < words - topOf b, b < 2 ^ (64 * (words - pos))) ∧
      ∀ pos, a / (2 ^ 64) ^ pos < 2 ^ (64 * (words - pos)) := by
  obtain ⟨hlow, hhigh⟩ := topOf_spec hb
  refine ⟨Nat.mod_eq_of_lt ?_, fun pos hpos => ?_, fun pos => ?_⟩
  · calc a < 2 ^ (64 * words) := ha
      _ = 2 ^ (64 * topOf b) * (2 ^ 64) ^ (words - topOf b) := by
        rw [← pow_mul, ← pow_add, ← Nat.mul_add, Nat.add_sub_cancel' htop.le]
      _ ≤ b * (2 ^ 64) ^ (words - topOf b) := Nat.mul_le_mul_right _ hlow
  · exact Nat.lt_of_lt_of_le hhigh (Nat.pow_le_pow_right (by omega) (by omega))
  · rw [← pow_mul]
    apply Nat.div_lt_of_lt_mul
    rw [← pow_add]
    exact Nat.lt_of_lt_of_le ha (Nat.pow_le_pow_right (by omega) (by omega))

/-- The quotient is right exactly if the trial digits fit. -/
theorem longDivide_quotient_iff (ha : a < 2 ^ (64 * words)) (hb : b ≠ 0) (htop : topOf b < words) :
    (longDivide words a b).2 = a / b ↔ DigitsFit words a b := by
  obtain ⟨hstart, hcap, hwindow⟩ := bounds ha hb htop
  have hiff := @LongDivision.divide_quotient_iff (2 ^ 64) b (fun pos => 2 ^ (64 * (words - pos)))
    (fun _ => trialDigit b) a (words - topOf b) (Nat.two_pow_pos 64) (Nat.pos_of_ne_zero hb)
    (fun _ => trialDigit_lt b) (fun pos hpos => (hcap pos hpos).le)
    (fun pos _ => Nat.lt_of_le_of_lt (Nat.mod_le _ _) (hwindow pos))
  have hquot : a / b % (2 ^ 64) ^ (words - topOf b) = a / b := by
    apply Nat.mod_eq_of_lt
    apply Nat.div_lt_of_lt_mul
    rw [← hstart]
    exact Nat.mod_lt _ (Nat.mul_pos (Nat.pos_of_ne_zero hb) (Nat.pow_pos (Nat.two_pow_pos 64)))
  rw [hstart, hquot] at hiff
  exact hiff

/-- Then the rest is the remainder. -/
theorem longDivide_rest (ha : a < 2 ^ (64 * words)) (hb : b ≠ 0) (htop : topOf b < words)
    (hfit : DigitsFit words a b) : (longDivide words a b).1 = a % b := by
  obtain ⟨hstart, -, -⟩ := bounds ha hb htop
  have hdiv := @LongDivision.divide_of_fits (2 ^ 64) b (fun pos => 2 ^ (64 * (words - pos)))
    (fun _ => trialDigit b) a (words - topOf b) (Nat.two_pow_pos 64) (Nat.pos_of_ne_zero hb) hfit
  rw [hstart] at hdiv
  exact congrArg Prod.fst hdiv

/-- Divisors of one word are no trouble. -/
theorem digitsFit_of_topOf (hb : b ≠ 0) (htop : topOf b = 0) (ha : a < 2 ^ (64 * words)) :
    DigitsFit words a b := by
  obtain ⟨-, hhigh⟩ := topOf_spec hb
  rw [htop] at hhigh
  intro pos hpos
  obtain ⟨hstart, -, hwindow⟩ := bounds ha hb (by omega)
  obtain ⟨window, hw⟩ : ∃ window, window = LongDivision.windowAt (2 ^ 64) b a pos := ⟨_, rfl⟩
  have hlt : window < b * 2 ^ 64 := hw ▸ Nat.mod_lt _
    (Nat.mul_pos (Nat.pos_of_ne_zero hb) (Nat.two_pow_pos 64))
  have hsmall : window < 2 ^ 128 := by
    have hmul := Nat.mul_lt_mul_of_pos_right hhigh (Nat.two_pow_pos 64)
    omega
  have hquot : window / b < 2 ^ 64 := Nat.div_lt_of_lt_mul hlt
  have htrial : trialDigit b window = window / b := by
    rw [trialDigit, htop, Nat.mul_zero, Nat.pow_zero, Nat.div_one, Nat.div_one,
      Nat.mod_eq_of_lt hsmall, Nat.mod_eq_of_lt hquot]
  rw [← hw, htrial]
  refine ⟨Nat.le_refl _, Nat.lt_of_le_of_lt (Nat.mul_div_le _ _) ?_⟩
  rw [hw]
  exact Nat.lt_of_le_of_lt (Nat.mod_le _ _) (hwindow pos)

/-- The quotient has the words above the top word of the divisor. -/
theorem longDivide_quotient_lt (words a b : Nat) :
    (longDivide words a b).2 < 2 ^ (64 * (words - topOf b)) := by
  have hlt := @LongDivision.divide_lt (2 ^ 64) (fun _ => trialDigit b) b
    (fun pos => 2 ^ (64 * (words - pos))) (fun _ => trialDigit_lt b) (words - topOf b) a
  rwa [← pow_mul] at hlt

/-! ## What is lost -/

/-- What the first multiple loses, from the top words of divisor and window. -/
private theorem lost_spec {power b b₁ w : Nat} (hb₁ : 0 < b₁) (hlow : b₁ * power ≤ b)
    (hhigh : b < (b₁ + 1) * power) (hw : w < 2 ^ 64) :
    b * (w / b₁) / (2 ^ 64 * power) ≤ 1 ∧
      (b * (w / b₁) / (2 ^ 64 * power) = 1 → 2 ^ 63 < w ∧ b ≠ b₁ * power) := by
  have hpower : 0 < power := Nat.pos_of_lt_mul_left (Nat.zero_lt_of_lt hhigh)
  have htrial : b₁ * (w / b₁) * power ≤ w * power := Nat.mul_le_mul_right _ (Nat.mul_div_le w b₁)
  have hdouble : b * (w / b₁) ≤ 2 * (w * power) := by
    calc b * (w / b₁) ≤ (b₁ + b₁) * power * (w / b₁) :=
          Nat.mul_le_mul_right _ (hhigh.le.trans (Nat.mul_le_mul_right _ (by omega)))
      _ = 2 * (b₁ * (w / b₁) * power) := by ring
      _ ≤ 2 * (w * power) := Nat.mul_le_mul_left _ htrial
  have hwords : w * power < 2 ^ 64 * power := Nat.mul_lt_mul_of_pos_right hw hpower
  refine ⟨Nat.lt_succ_iff.mp ((Nat.div_lt_iff_lt_mul (by omega)).mpr (by omega)), fun hone => ?_⟩
  have hge : 2 ^ 64 * power ≤ b * (w / b₁) := by
    have hle := Nat.div_mul_le_self (b * (w / b₁)) (2 ^ 64 * power)
    rwa [hone, Nat.one_mul] at hle
  have hdigit : 0 < w / b₁ := by
    by_contra h0
    rw [Nat.eq_zero_of_not_pos h0, Nat.mul_zero] at hge
    omega
  constructor
  · have hstrict : b * (w / b₁) < 2 * (w * power) := by
      calc b * (w / b₁) < (b₁ + 1) * power * (w / b₁) := Nat.mul_lt_mul_of_pos_right hhigh hdigit
        _ ≤ (b₁ + b₁) * power * (w / b₁) :=
          Nat.mul_le_mul_right _ (Nat.mul_le_mul_right _ (by omega))
        _ = 2 * (b₁ * (w / b₁) * power) := by ring
        _ ≤ 2 * (w * power) := Nat.mul_le_mul_left _ htrial
    have hlt : 2 ^ 63 * power < w * power := by omega
    exact Nat.lt_of_mul_lt_mul_right hlt
  · rintro rfl
    rw [Nat.mul_right_comm] at hge
    omega

/-- Quotient and rest make up the dividend, but for what the first digit loses. -/
private theorem longDivide_sum (ha : a < 2 ^ (64 * words)) (hb : b ≠ 0) (htop : topOf b < words) :
    ∃ lost ≤ 1, (longDivide words a b).1 + (longDivide words a b).2 * b =
        a + lost * 2 ^ (64 * words) ∧
      (lost = 1 → 2 ^ (64 * words - 1) < a ∧ b ≠ b / 2 ^ (64 * topOf b) * 2 ^ (64 * topOf b)) := by
  obtain ⟨hlow, hhigh⟩ := topOf_spec hb
  obtain ⟨count, hcount⟩ : ∃ count, words - topOf b = count + 1 := ⟨words - topOf b - 1, by omega⟩
  obtain ⟨power, hpower⟩ : ∃ power, power = 2 ^ (64 * topOf b) := ⟨_, rfl⟩
  have hsum := @LongDivision.divide_sum_top (2 ^ 64) b (fun pos => 2 ^ (64 * (words - pos)))
    (fun _ => trialDigit b) count (Nat.pos_of_ne_zero hb) (fun pos hpos w => by
      have hlt := Nat.mul_lt_mul'' hhigh (trialDigit_lt b w)
      rw [← Nat.pow_add] at hlt
      exact Nat.lt_of_lt_of_le hlt (Nat.pow_le_pow_right (by omega) (by omega))) a
  have hrun : LongDivision.divide (2 ^ 64) b (fun pos => 2 ^ (64 * (words - pos)))
      (fun _ => trialDigit b) (count + 1) a = longDivide words a b := by
    rw [longDivide, hcount]
  have hcap : 2 ^ (64 * (words - count)) * (2 ^ 64) ^ count = 2 ^ (64 * words) := by
    rw [← Nat.pow_mul, ← Nat.pow_add]
    congr 1
    omega
  have hroom : 2 ^ (64 * (words - count)) = 2 ^ 64 * power := by
    rw [hpower, ← Nat.pow_add]
    congr 1
    omega
  -- the first window has the top word of the dividend on top
  have hword : a / (2 ^ 64) ^ count / power = a / 2 ^ (64 * (words - 1)) := by
    rw [hpower, ← Nat.pow_mul, Nat.div_div_eq_div_mul, ← Nat.pow_add]
    congr 2
    omega
  have hlt : a / 2 ^ (64 * (words - 1)) < 2 ^ 64 := by
    apply Nat.div_lt_of_lt_mul
    rw [← Nat.pow_add]
    exact Nat.lt_of_lt_of_le ha (Nat.pow_le_pow_right (by omega) (by omega))
  have htrial : trialDigit b (a / (2 ^ 64) ^ count) =
      a / 2 ^ (64 * (words - 1)) / (b / power) := by
    rw [trialDigit, ← hpower, hword, Nat.mod_eq_of_lt (hlt.trans (by norm_num)), Nat.mod_eq_of_lt
      (Nat.lt_of_le_of_lt (Nat.div_le_self _ _) hlt)]
  have hdm := Nat.div_add_mod b power
  have hmod := Nat.mod_lt b (hpower ▸ Nat.two_pow_pos _ : 0 < power)
  obtain ⟨hle, hone⟩ := @lost_spec power b (b / power) (a / 2 ^ (64 * (words - 1)))
    (Nat.div_pos (hpower ▸ hlow) (hpower ▸ Nat.two_pow_pos _)) (Nat.div_mul_le_self _ _)
    (by rw [Nat.succ_mul, Nat.mul_comm]; omega) hlt
  rw [hrun, hcap, hroom, htrial] at hsum
  refine ⟨_, hle, hsum, fun h => ?_⟩
  obtain ⟨hbig, hne⟩ := hone h
  rw [← hpower]
  refine ⟨?_, hne⟩
  have hpow : 2 ^ (64 * words - 1) = 2 ^ 63 * 2 ^ (64 * (words - 1)) := by
    rw [← Nat.pow_add]
    congr 1
    omega
  have hmul := Nat.mul_le_mul_right (2 ^ (64 * (words - 1))) hbig
  have hdiv := Nat.div_mul_le_self a (2 ^ (64 * (words - 1)))
  have hpos := Nat.two_pow_pos (64 * (words - 1))
  rw [Nat.succ_mul] at hmul
  omega

/-- A divisor that divides a power of two is its top word alone. -/
private theorem eq_topWord_of_dvd {n : Nat} (hb : b ≠ 0) (hdvd : b ∣ 2 ^ n) :
    b = b / 2 ^ (64 * topOf b) * 2 ^ (64 * topOf b) := by
  obtain ⟨hlow, -⟩ := topOf_spec hb
  obtain ⟨e, -, rfl⟩ := (Nat.dvd_prime_pow Nat.prime_two).mp hdvd
  have hle := (Nat.pow_le_pow_iff_right (by omega)).mp hlow
  exact (Nat.div_mul_cancel (pow_dvd_pow 2 hle)).symm

/-- Even the product of quotient and divisor is right only if the trial digits fit. -/
theorem longDivide_mul_modEq_iff {wid : Nat} (hwid : wid ≤ 64 * words) (ha : a < 2 ^ wid)
    (hb : b ≠ 0) (htop : topOf b < words) :
    (longDivide words a b).2 * b ≡ a / b * b [MOD 2 ^ wid] ↔ DigitsFit words a b := by
  have ha' : a < 2 ^ (64 * words) :=
    Nat.lt_of_lt_of_le ha (Nat.pow_le_pow_right (by omega) hwid)
  rw [← longDivide_quotient_iff ha' hb htop]
  refine ⟨fun hmod => ?_, fun heq => by rw [heq]⟩
  obtain ⟨lost, hlost, hsum, hone⟩ := longDivide_sum ha' hb htop
  have htrue := Nat.div_mul_le_self a b
  apply Nat.eq_of_mul_eq_mul_right (Nat.pos_of_ne_zero hb)
  rcases Nat.le_one_iff_eq_zero_or_eq_one.mp hlost with rfl | rfl
  · rw [Nat.ModEq, Nat.mod_eq_of_lt (by omega), Nat.mod_eq_of_lt (by omega)] at hmod
    exact hmod
  · obtain ⟨hbig, hne⟩ := hone rfl
    have hfull : wid = 64 * words := by
      by_contra hless
      have hpow : 2 ^ wid ≤ 2 ^ (64 * words - 1) := Nat.pow_le_pow_right (by omega) (by omega)
      omega
    rw [← hfull, Nat.one_mul] at hsum
    by_contra hdiff
    have hover : 2 ^ wid ≤ (longDivide words a b).2 * b := by
      by_contra hlt
      rw [Nat.ModEq, Nat.mod_eq_of_lt (by omega), Nat.mod_eq_of_lt (by omega)] at hmod
      exact hdiff hmod
    rw [Nat.ModEq, Nat.mod_eq_sub_mod hover, Nat.mod_eq_of_lt (by omega),
      Nat.mod_eq_of_lt (a := a / b * b) (by omega)] at hmod
    have hpow : (longDivide words a b).2 * b = a / b * b + 2 ^ wid := by omega
    have hdvd : b ∣ a / b * b + 2 ^ wid := hpow ▸ Nat.dvd_mul_left b _
    exact hne (eq_topWord_of_dvd hb ((Nat.dvd_add_right (Nat.dvd_mul_left b _)).mp hdvd))

end Right

end Icarus.Vvp
