import Icarus.Core.Loop
import Icarus.Vvp.Vector2.Basic

/-!
# Division of two-state vectors

`div_mod` shifts the divisor up past the dividend and then subtracts on the way
down. A mask follows the shifted divisor and is added to the quotient; it has
one bit less than the widened dividend, and is lost where the divisor is shifted
as far as the width.
-/

namespace Icarus.Vvp.Vector2

open Icarus.Core.Loop

/-- The variables of the second loop of `div_mod`. -/
structure DivState where
  /-- What is left of the dividend. -/
  dividend : Vector2
  /-- The quotient so far. -/
  quotient : Vector2
  /-- The shifted divisor. -/
  divtmp : Vector2
  /-- The bit of the quotient that goes with `divtmp`. -/
  mask : Vector2

/-- The body of the second loop of `div_mod`. -/
def divStep (s : DivState) : Option DivState := do
  let fits ← s.divtmp.le s.dividend
  let s ←
    if fits then do
      let dividend ← s.dividend.subAssign s.divtmp
      let quotient ← s.quotient.addAssign s.mask
      some { s with dividend := dividend, quotient := quotient }
    else some s
  some { s with divtmp := s.divtmp.shr 1, mask := s.mask.shr 1 }

/-- `div_mod`: quotient and remainder; the exit on a division by zero is `none`. -/
def divMod (dividend divisor : Vector2) : Option (Vector2 × Vector2) :=
  let quotient := ofLong 0 dividend.wid
  if divisor.eq quotient then none
  else if dividend.lt divisor then some (quotient, dividend)
  else do
    let mask := ofLong 1 dividend.wid
    let fuel := dividend.wid + 2
    let dividend := dividend.resize (dividend.wid + 1)
    let divtmp := divisor.resize dividend.wid
    let (divtmp, mask) ← whileLoop (fun s => s.1.lt dividend)
      (fun s => some (s.1.shl 1, s.2.shl 1)) fuel (divtmp, mask)
    let s ← whileLoop (fun s => s.dividend.ge divisor) divStep fuel
      ⟨dividend, quotient, divtmp, mask⟩
    some (s.quotient, s.dividend.resize s.mask.wid)

/-- `operator /`. -/
def div (dividend divisor : Vector2) : Option Vector2 :=
  (divMod dividend divisor).map Prod.fst

/-- `operator %`. -/
def mod (dividend divisor : Vector2) : Option Vector2 :=
  (divMod dividend divisor).map Prod.snd

/-! ## The way up -/

/-- Divisor and mask have been shifted by `k`, and the divisor was short of the dividend before
the last shift. -/
private structure Rising (n D d rank k : Nat) (s : Vector2 × Vector2) : Prop where
  /-- What is left to shift. -/
  rank : rank + k = n
  /-- The shifted divisor is as wide as the widened dividend. -/
  wid_divtmp : s.1.wid = n + 1
  /-- The mask is not widened. -/
  wid_mask : s.2.wid = n
  /-- The divisor is shifted without loss. -/
  divtmp : s.1.toNat = d * 2 ^ k
  /-- The mask is shifted, and lost at the full width. -/
  mask : s.2.toNat = 2 ^ k % 2 ^ n
  /-- Every shift was needed. -/
  needed : ∀ j, k = j + 1 → d * 2 ^ j < D

/-- The start-up loop shifts the divisor by some amount up to the width. -/
private theorem startup_eq {n D d : Nat} {dividend divtmp mask : Vector2} (hD : D < 2 ^ n)
    (hd : 0 < d) (hdividend : dividend.toNat = D)
    (hinit : Rising n D d n 0 (divtmp, mask)) :
    ∃ s rank k, whileLoop (fun s : Vector2 × Vector2 => s.1.lt dividend)
        (fun s => some (s.1.shl 1, s.2.shl 1)) (n + 2) (divtmp, mask) = some s ∧
      Rising n D d rank k s ∧ D ≤ d * 2 ^ k := by
  have hstep : ∀ rank s, (∃ k, Rising n D d rank k s) → s.1.lt dividend = true →
      ∃ t rank', some (s.1.shl 1, s.2.shl 1) = some t ∧ rank' < rank ∧
        ∃ k, Rising n D d rank' k t := by
    rintro rank s ⟨k, hs⟩ hlt
    have hlt' : d * 2 ^ k < D := by
      rw [lt_eq, decide_eq_true_iff, hs.divtmp, hdividend] at hlt
      exact hlt
    have hrank := hs.rank
    have hkn : k < n := by
      have hle : 2 ^ k ≤ d * 2 ^ k := Nat.le_mul_of_pos_left _ hd
      exact (Nat.pow_lt_pow_iff_right (by omega)).mp (Nat.lt_of_le_of_lt hle (hlt'.trans hD))
    refine ⟨_, n - (k + 1), rfl, by omega, k + 1, ?_⟩
    constructor
    · omega
    · rw [wid_shl, hs.wid_divtmp]
    · rw [wid_shl, hs.wid_mask]
    · rw [toNat_shl, hs.wid_divtmp, hs.divtmp, Nat.pow_one, Nat.mul_assoc, ← Nat.pow_succ]
      apply Nat.mod_eq_of_lt
      rw [Nat.pow_succ, Nat.pow_succ, ← Nat.mul_assoc]
      omega
    · rw [toNat_shl, hs.wid_mask, hs.mask, Nat.pow_one, Nat.mod_mul_mod, Nat.pow_succ]
    · intro j hj
      obtain rfl : k = j := by omega
      exact hlt'
  obtain ⟨s, rank, hrun, ⟨k, hs⟩, hcond⟩ :=
    whileLoop_total (fun rank s => ∃ k, Rising n D d rank k s) hstep ⟨0, hinit⟩
      (show n < n + 2 by omega)
  refine ⟨s, rank, k, hrun, hs, ?_⟩
  rw [lt_eq, decide_eq_false_iff_not, hs.divtmp, hdividend] at hcond
  omega

/-! ## The way down -/

/-- Quotient, remainder and shifted divisor in the second loop; `b` is zero when the mask has
been lost. -/
private structure Falling (n D d b rank : Nat) (s : DivState) : Prop where
  /-- The dividend keeps its extra bit. -/
  wid_dividend : s.dividend.wid = n + 1
  /-- The quotient has the width of the operands. -/
  wid_quotient : s.quotient.wid = n
  /-- The shifted divisor is as wide as the dividend. -/
  wid_divtmp : s.divtmp.wid = n + 1
  /-- The mask has the width of the operands. -/
  wid_mask : s.mask.wid = n
  /-- Quotient and remainder make up the dividend, but for a lost mask. -/
  split : ∃ q, s.quotient.toNat = b * q ∧ D = q * d + s.dividend.toNat
  /-- The remainder is below twice the shifted divisor, or the loop is done. -/
  bound : (rank = 0 ∧ s.dividend.toNat < d) ∨
    ∃ k, rank = k + 1 ∧ s.divtmp.toNat = d * 2 ^ k ∧ s.mask.toNat = b * 2 ^ k ∧
      s.dividend.toNat < 2 * (d * 2 ^ k)

/-- One subtraction, where the shifted divisor fits. -/
private theorem divStep_eq {n D d b rank : Nat} {s : DivState} (hD : D < 2 ^ n) (hd : 0 < d)
    (hb : b ≤ 1) (hs : Falling n D d b rank s) (hge : d ≤ s.dividend.toNat) :
    ∃ t rank', divStep s = some t ∧ rank' < rank ∧ Falling n D d b rank' t := by
  obtain ⟨q, hq, hsplit⟩ := hs.split
  obtain ⟨k, hrank, ht, hm, hR⟩ : ∃ k, rank = k + 1 ∧ s.divtmp.toNat = d * 2 ^ k ∧
      s.mask.toNat = b * 2 ^ k ∧ s.dividend.toNat < 2 * (d * 2 ^ k) := by
    rcases hs.bound with ⟨-, hlt⟩ | h
    · omega
    · exact h
  have hle := le_eq (hs.wid_divtmp.trans hs.wid_dividend.symm)
  have hnext : ∀ (dividend quotient : Vector2), dividend.wid = n + 1 → quotient.wid = n →
      (∃ q, quotient.toNat = b * q ∧ D = q * d + dividend.toNat) →
      dividend.toNat < d * 2 ^ k →
      Falling n D d b k ⟨dividend, quotient, s.divtmp.shr 1, s.mask.shr 1⟩ := by
    intro dividend quotient hw hw' hsp hlt
    refine ⟨hw, hw', by simp [hs.wid_divtmp], by simp [hs.wid_mask], hsp, ?_⟩
    cases k with
    | zero => exact Or.inl ⟨rfl, by simpa using hlt⟩
    | succ j =>
      have hpow : ∀ c, c * 2 ^ (j + 1) = c * 2 ^ j * 2 := by
        intro c
        rw [Nat.pow_succ, Nat.mul_assoc]
      refine Or.inr ⟨j, rfl, ?_, ?_, ?_⟩
      · rw [toNat_shr, ht, hpow, Nat.pow_one, Nat.mul_div_cancel _ (by omega)]
      · rw [toNat_shr, hm, hpow, Nat.pow_one, Nat.mul_div_cancel _ (by omega)]
      · rw [hpow] at hlt
        simp only
        omega
  by_cases hfit : d * 2 ^ k ≤ s.dividend.toNat
  · obtain ⟨r, hr, hrw, hrn⟩ := subAssign_eq (hs.wid_dividend.trans hs.wid_divtmp.symm)
    obtain ⟨p, hp, hpw, hpn⟩ := addAssign_eq (hs.wid_quotient.trans hs.wid_mask.symm)
    have hrv : r.toNat = s.dividend.toNat - d * 2 ^ k := by
      have hlt := s.dividend.toNat_lt
      rw [hs.wid_dividend] at hlt
      rw [hrn, hs.wid_dividend, ht]
      rw [show s.dividend.toNat + (2 ^ (n + 1) - d * 2 ^ k) =
        s.dividend.toNat - d * 2 ^ k + 2 ^ (n + 1) by omega, Nat.add_mod_right]
      exact Nat.mod_eq_of_lt (by omega)
    have hqd : D = (q + 2 ^ k) * d + r.toNat := by
      rw [hrv, Nat.add_mul, Nat.mul_comm (2 ^ k) d]
      omega
    have hpv : p.toNat = b * (q + 2 ^ k) := by
      rw [hpn, hs.wid_quotient, hq, hm, ← Nat.mul_add]
      apply Nat.mod_eq_of_lt
      have h₁ : q + 2 ^ k ≤ (q + 2 ^ k) * d := Nat.le_mul_of_pos_right _ hd
      have h₂ : b * (q + 2 ^ k) ≤ 1 * (q + 2 ^ k) := Nat.mul_le_mul_right _ hb
      omega
    refine ⟨⟨r, p, s.divtmp.shr 1, s.mask.shr 1⟩, k, ?_, by omega, ?_⟩
    · simp [divStep, hle, ht, hfit, hr, hp]
    · apply hnext r p (hrw.trans hs.wid_dividend) (hpw.trans hs.wid_quotient) ⟨_, hpv, hqd⟩
      omega
  · refine ⟨⟨s.dividend, s.quotient, s.divtmp.shr 1, s.mask.shr 1⟩, k, ?_, by omega, ?_⟩
    · simp [divStep, hle, ht, hfit]
    · apply hnext _ _ hs.wid_dividend hs.wid_quotient ⟨q, hq, hsplit⟩
      omega

/-! ## Quotient and remainder -/

/-- The mask is shifted out of the quotient. -/
def MaskLost (dividend divisor : Vector2) : Prop :=
  divisor.toNat = 1 ∧ 2 ^ (dividend.wid - 1) < dividend.toNat

instance (dividend divisor : Vector2) : Decidable (MaskLost dividend divisor) :=
  inferInstanceAs (Decidable (_ ∧ _))

/-- The mask survives the way up unless the divisor is shifted by the full width. -/
private theorem mask_eq {dividend divisor : Vector2} {k : Nat} (hd : divisor.toNat ≠ 0)
    (hk : k ≤ dividend.wid) (hle : dividend.toNat ≤ divisor.toNat * 2 ^ k)
    (hprev : ∀ j, k = j + 1 → divisor.toNat * 2 ^ j < dividend.toNat) (hpos : 0 < dividend.wid) :
    2 ^ k % 2 ^ dividend.wid = (if MaskLost dividend divisor then 0 else 1) * 2 ^ k := by
  have hD := dividend.toNat_lt
  rcases Nat.lt_or_eq_of_le hk with hlt | rfl
  · have hkept : ¬ MaskLost dividend divisor := by
      rintro ⟨hone, hgt⟩
      rw [hone, Nat.one_mul] at hle
      have := (Nat.pow_lt_pow_iff_right (show 1 < 2 by omega)).mp (Nat.lt_of_lt_of_le hgt hle)
      omega
    rw [if_neg hkept, Nat.one_mul, Nat.mod_eq_of_lt (Nat.pow_lt_pow_right (by omega) hlt)]
  · obtain ⟨j, hj⟩ : ∃ j, dividend.wid = j + 1 := ⟨dividend.wid - 1, by omega⟩
    have hlt := hprev j hj
    have hlost : MaskLost dividend divisor := by
      rw [hj, Nat.pow_succ, Nat.mul_comm] at hD
      have hd2 : divisor.toNat < 2 := Nat.lt_of_mul_lt_mul_right (hlt.trans hD)
      obtain hone : divisor.toNat = 1 := by omega
      refine ⟨hone, ?_⟩
      rwa [hone, Nat.one_mul, show j = dividend.wid - 1 by omega] at hlt
    rw [if_pos hlost, Nat.mod_self, Nat.zero_mul]

/-- `div_mod` returns the remainder, and the quotient unless the mask is lost. -/
theorem divMod_eq {dividend divisor : Vector2} (hw : dividend.wid = divisor.wid)
    (hd : divisor.toNat ≠ 0) :
    ∃ q r, divMod dividend divisor = some (q, r) ∧ q.wid = dividend.wid ∧
      r.wid = dividend.wid ∧
      q.toNat = (if MaskLost dividend divisor then 0 else dividend.toNat / divisor.toNat) ∧
      r.toNat = dividend.toNat % divisor.toNat := by
  have hD := dividend.toNat_lt
  have hdlt := divisor.toNat_lt
  rw [← hw] at hdlt
  have hpos : 0 < dividend.wid := by
    by_contra h0
    rw [show dividend.wid = 0 by omega, Nat.pow_zero] at hdlt
    omega
  have hzero : (ofLong 0 dividend.wid).toNat = 0 := by
    rw [toNat_ofLong]
    exact Nat.zero_mod _
  have heq : divisor.eq (ofLong 0 dividend.wid) = false := by
    rw [eq_eq, decide_eq_false_iff_not, hzero]
    exact hd
  by_cases hlt : dividend.toNat < divisor.toNat
  · have hkept : ¬ MaskLost dividend divisor := by
      rintro ⟨hone, hgt⟩
      have := Nat.two_pow_pos (dividend.wid - 1)
      omega
    refine ⟨ofLong 0 dividend.wid, dividend, ?_, wid_ofLong _ _, rfl, ?_, ?_⟩
    · simp only [divMod, heq, lt_eq, hlt, decide_true, if_true, Bool.false_eq_true, if_false]
    · rw [if_neg hkept, hzero, Nat.div_eq_of_lt hlt]
    · rw [Nat.mod_eq_of_lt hlt]
  · have hpow : 2 ^ (dividend.wid + 1) = 2 * 2 ^ dividend.wid := by rw [Nat.pow_succ, Nat.mul_comm]
    have hres : (dividend.resize (dividend.wid + 1)).toNat = dividend.toNat := by
      rw [toNat_resize]
      exact Nat.mod_eq_of_lt (by omega)
    have hdiv : (divisor.resize (dividend.wid + 1)).toNat = divisor.toNat := by
      rw [toNat_resize]
      exact Nat.mod_eq_of_lt (by omega)
    have hinit : Rising dividend.wid dividend.toNat divisor.toNat dividend.wid 0
        (divisor.resize (dividend.wid + 1), ofLong 1 dividend.wid) :=
      ⟨rfl, rfl, wid_ofLong _ _, by simpa using hdiv, toNat_ofLong _ _, by omega⟩
    obtain ⟨⟨divtmp, mask⟩, rank, k, hup, hs, hDk⟩ :=
      startup_eq hD (Nat.pos_of_ne_zero hd) hres hinit
    have hrank := hs.rank
    have hmask := hs.mask.trans (mask_eq hd (by omega) hDk hs.needed hpos)
    have hb : (if MaskLost dividend divisor then 0 else 1) ≤ 1 := by split_ifs <;> omega
    have hfall : Falling dividend.wid dividend.toNat divisor.toNat
        (if MaskLost dividend divisor then 0 else 1) (k + 1)
        ⟨dividend.resize (dividend.wid + 1), ofLong 0 dividend.wid, divtmp, mask⟩ := by
      refine ⟨rfl, wid_ofLong _ _, hs.wid_divtmp, hs.wid_mask, ⟨0, ?_, ?_⟩, Or.inr ⟨k, rfl, ?_, ?_, ?_⟩⟩
      · rw [hzero, Nat.mul_zero]
      · rw [hres, Nat.zero_mul, Nat.zero_add]
      · exact hs.divtmp
      · exact hmask
      · rw [hres]
        omega
    have hstep : ∀ rank s, Falling dividend.wid dividend.toNat divisor.toNat
        (if MaskLost dividend divisor then 0 else 1) rank s → s.dividend.ge divisor = true →
        ∃ t rank', divStep s = some t ∧ rank' < rank ∧ Falling dividend.wid dividend.toNat
          divisor.toNat (if MaskLost dividend divisor then 0 else 1) rank' t := by
      intro rank s hs hge
      rw [ge_eq, decide_eq_true_iff] at hge
      exact divStep_eq hD (Nat.pos_of_ne_zero hd) hb hs hge
    obtain ⟨t, rank', hdown, ht, hcond⟩ :=
      whileLoop_total _ hstep hfall (show k + 1 < dividend.wid + 2 by omega)
    rw [ge_eq, decide_eq_false_iff_not, Nat.not_le] at hcond
    obtain ⟨q, hq, hsplit⟩ := ht.split
    have hquot : dividend.toNat / divisor.toNat = q := by
      rw [hsplit, Nat.mul_comm, Nat.mul_add_div (Nat.pos_of_ne_zero hd), Nat.div_eq_of_lt hcond,
        Nat.add_zero]
    have hrem : dividend.toNat % divisor.toNat = t.dividend.toNat := by
      rw [hsplit, Nat.mul_comm, Nat.mul_add_mod, Nat.mod_eq_of_lt hcond]
    refine ⟨t.quotient, t.dividend.resize t.mask.wid, ?_, ht.wid_quotient, ht.wid_mask, ?_, ?_⟩
    · have hge : dividend.lt divisor = false := by
        rw [lt_eq, decide_eq_false_iff_not]
        exact hlt
      simp only [divMod, heq, hge, Bool.false_eq_true, if_false, wid_resize, hup,
        Option.bind_eq_bind, Option.bind_some, hdown]
    · rw [hq, hquot]
      split_ifs <;> omega
    · rw [toNat_resize, ht.wid_mask, hrem]
      apply Nat.mod_eq_of_lt
      omega

end Icarus.Vvp.Vector2
