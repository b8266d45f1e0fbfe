import Icarus.Vvp.Vector2.DivMod

/-!
# Arithmetic functors

The wide paths of the division and modulus functors: both operands as two-state
vectors, the signs taken out before and put back after.
-/

namespace Icarus.Vvp

/-- `vvp_arith_`: the width and the latest operands. -/
structure Arith where
  /-- `wid_`. -/
  wid : Nat
  /-- `op_a_`. -/
  opA : Vector4
  /-- `op_b_`. -/
  opB : Vector4

namespace Arith

/-- `x_val_`. -/
def xVal (s : Arith) : Vector4 := List.replicate s.wid .x

/-- The sign of an operand taken out, if the operands are signed. -/
def takeSign (signedFlag : Bool) (v : Vector2) : Option (Vector2 × Bool) :=
  if signedFlag && v.value (v.wid - 1) then v.neg.map fun v => (v, true) else some (v, false)

/-- `vvp_arith_div::wide4_`: the vector sent. -/
def divWide4 (signedFlag : Bool) (s : Arith) : Option Vector4 :=
  let a2 := Vector2.ofVector4 s.opA true
  if a2.isNaN then some s.xVal
  else
    let b2 := Vector2.ofVector4 s.opB true
    if b2.isNaN || b2.isZero then some s.xVal
    else do
      let (a2, aNegate) ← takeSign signedFlag a2
      let (b2, bNegate) ← takeSign signedFlag b2
      let negate := if bNegate then !aNegate else aNegate
      let res ← a2.div b2
      let res ← if negate then res.neg else some res
      some (res.toVector4 s.wid)

/-- `vvp_arith_mod::wide_`: the vector sent. -/
def modWide (signedFlag : Bool) (s : Arith) : Option Vector4 :=
  let a2 := Vector2.ofVector4 s.opA true
  if a2.isNaN then some s.xVal
  else
    let b2 := Vector2.ofVector4 s.opB true
    if b2.isNaN || b2.isZero then some s.xVal
    else do
      let (a2, negate) ← takeSign signedFlag a2
      let (b2, _) ← takeSign signedFlag b2
      let res ← a2.mod b2
      let res ← if negate then res.neg else some res
      some (res.toVector4 res.wid)

/-! ## Operands -/

/-- An operand without X and Z bits is its number. -/
private theorem operand_eq {v : Vector4} (h : v.hasXz = false) (hpos : 0 < v.length) :
    (Vector2.ofVector4 v true).isNaN = false ∧ (Vector2.ofVector4 v true).wid = v.length ∧
      (Vector2.ofVector4 v true).toNat = v.toNat := by
  obtain ⟨hw, hn⟩ := Vector2.ofVector4_eq h true
  refine ⟨?_, hw, hn⟩
  rw [Vector2.isNaN, hw, decide_eq_false_iff_not]
  omega

/-- Without signs the operand is taken as it is. -/
private theorem takeSign_unsigned (v : Vector2) : takeSign false v = some (v, false) := rfl

/-- The magnitude of a signed operand. -/
private theorem takeSign_signed {v : Vector4} {v2 : Vector2} (hw : v2.wid = v.length)
    (hn : v2.toNat = v.toNat) :
    ∃ m, takeSign true v2 = some (m, decide (v.toInt < 0)) ∧ m.wid = v2.wid ∧
      m.toNat = v.toInt.natAbs := by
  have hlt := v.toNat_lt
  have htop : v2.value (v2.wid - 1) = v.toNat.testBit (v.length - 1) := by
    rw [Vector2.value_eq, hw, hn]
  cases h : v.toNat.testBit (v.length - 1)
  · have hint := Vector4.toInt_of_not_top h
    refine ⟨v2, ?_, rfl, ?_⟩
    · simp [takeSign, htop, h, hint]
    · rw [hint, hn]
      rfl
  · have hint := Vector4.toInt_of_top h
    obtain ⟨m, hm, hmw, hmn⟩ := v2.neg_eq
    refine ⟨m, ?_, hmw, ?_⟩
    · have hneg := (Vector4.toInt_neg_iff v).mpr h
      simp [takeSign, htop, h, hm, hneg]
    · have hpos : v.toNat ≠ 0 := by
        intro h0
        rw [h0, Nat.zero_testBit] at h
        cases h
      rw [hmn, hw, hn, hint, Int.natAbs_neg, Int.natAbs_natCast]
      exact Nat.mod_eq_of_lt (by omega)

section Known

variable {a b : Vector4} (ha : a.hasXz = false) (hb : b.hasXz = false)
  (hlen : a.length = b.length) (hpos : b.toNat ≠ 0)
include ha hb hlen hpos

/-- The operands are known, and the divisor is not zero. -/
private theorem operands_eq :
    ∃ a2 b2, Vector2.ofVector4 a true = a2 ∧ Vector2.ofVector4 b true = b2 ∧
      a2.isNaN = false ∧ (b2.isNaN || b2.isZero) = false ∧ a2.wid = a.length ∧
      b2.wid = a.length ∧ a2.toNat = a.toNat ∧ b2.toNat = b.toNat := by
  have hlt := b.toNat_lt
  have hwid : 0 < b.length := by
    by_contra h0
    rw [show b.length = 0 by omega, Nat.pow_zero] at hlt
    omega
  obtain ⟨han, haw, hav⟩ := operand_eq ha (by omega)
  obtain ⟨hbn, hbw, hbv⟩ := operand_eq hb hwid
  refine ⟨_, _, rfl, rfl, han, ?_, haw, hbw.trans hlen.symm, hav, hbv⟩
  rw [hbn, Vector2.isZero_eq, hbv, Bool.false_or, decide_eq_false_iff_not]
  exact hpos

/-- What unsigned division sends. -/
theorem divWide4_unsigned :
    divWide4 false ⟨a.length, a, b⟩ = some (Vector4.ofNat a.length
      (if b.toNat = 1 ∧ 2 ^ (a.length - 1) < a.toNat then 0 else a.toNat / b.toNat)) := by
  obtain ⟨a2, b2, ha2, hb2, han, hbn, haw, hbw, hav, hbv⟩ := operands_eq ha hb hlen hpos
  obtain ⟨q, r, hqr, hqw, -, hq, -⟩ := Vector2.divMod_eq (haw.trans hbw.symm) (hbv ▸ hpos)
  simp only [Vector2.MaskLost, haw, hav, hbv] at hq
  simp [divWide4, ha2, hb2, han, hbn, takeSign_unsigned, Vector2.div, hqr, hq]

/-- What unsigned modulus sends. -/
theorem modWide_unsigned :
    modWide false ⟨a.length, a, b⟩ = some (Vector4.ofNat a.length (a.toNat % b.toNat)) := by
  obtain ⟨a2, b2, ha2, hb2, han, hbn, haw, hbw, hav, hbv⟩ := operands_eq ha hb hlen hpos
  obtain ⟨q, r, hqr, -, hrw, -, hr⟩ := Vector2.divMod_eq (haw.trans hbw.symm) (hbv ▸ hpos)
  rw [haw] at hrw
  rw [hav, hbv] at hr
  simp [modWide, ha2, hb2, han, hbn, takeSign_unsigned, Vector2.mod, hqr, hr, hrw]

/-- What signed modulus sends. -/
theorem modWide_signed :
    modWide true ⟨a.length, a, b⟩ =
      some (Vector4.ofInt a.length (Int.tmod a.toInt b.toInt)) := by
  obtain ⟨a2, b2, ha2, hb2, han, hbn, haw, hbw, hav, hbv⟩ := operands_eq ha hb hlen hpos
  obtain ⟨m, hm, hmw, hmv⟩ := takeSign_signed haw hav
  obtain ⟨d, hd, hdw, hdv⟩ := takeSign_signed (hbw.trans hlen) hbv
  have hd0 : d.toNat ≠ 0 := by
    rw [hdv, Int.natAbs_ne_zero]
    exact mt Vector4.toInt_eq_zero.mp hpos
  obtain ⟨q, r, hqr, -, hrw, -, hr⟩ :=
    Vector2.divMod_eq (hmw.trans (haw.trans (hdw.trans hbw).symm)) hd0
  rw [hmw, haw] at hrw
  rw [hmv, hdv, ← Int.natAbs_tmod] at hr
  by_cases hneg : a.toInt < 0
  · obtain ⟨p, hp, hpw, hpv⟩ := r.neg_eq
    have hle := r.toNat_lt
    rw [hrw] at hle hpv
    have hsign : Int.tmod a.toInt b.toInt = -(r.toNat : Int) := by
      have hnonneg : 0 ≤ Int.tmod (-a.toInt) b.toInt := Int.tmod_nonneg _ (by omega)
      rw [Int.neg_tmod] at hnonneg
      omega
    rw [hsign, Vector4.ofInt_neg_natCast hle.le]
    simp [modWide, ha2, hb2, han, hbn, hm, hd, Vector2.mod, hqr, hneg, hp, hpv, hpw, hrw,
      Vector4.ofNat_eq_iff]
  · have hsign : Int.tmod a.toInt b.toInt = (r.toNat : Int) := by
      have hnonneg : 0 ≤ Int.tmod a.toInt b.toInt := Int.tmod_nonneg _ (by omega)
      omega
    rw [hsign, Vector4.ofInt_natCast]
    simp [modWide, ha2, hb2, han, hbn, hm, hd, Vector2.mod, hqr, hneg, hrw]

end Known

/-! ## The functors -/

/-- `div_mod` always ends with the right remainder, and with the right quotient except for a
division by one of a dividend above half its range; so do the functors that divide by it. -/
theorem div_mod_correct_iff (dividend divisor : Vector2) (hw : dividend.wid = divisor.wid)
    (hd : divisor.toNat ≠ 0) (a b : Vector4) (hlen : a.length = b.length) (ha : a.hasXz = false)
    (hb : b.hasXz = false) (hpos : b.toNat ≠ 0) :
    (∃ quotient remainder, Vector2.divMod dividend divisor = some (quotient, remainder) ∧
        quotient.wid = dividend.wid ∧ remainder.wid = dividend.wid ∧
        remainder.toNat = dividend.toNat % divisor.toNat ∧ remainder.toNat < divisor.toNat ∧
        (quotient.toNat * divisor.toNat + remainder.toNat = dividend.toNat ↔
          ¬ (divisor.toNat = 1 ∧ 2 ^ (dividend.wid - 1) < dividend.toNat))) ∧
      (divWide4 false ⟨a.length, a, b⟩ = some (Vector4.ofNat a.length (a.toNat / b.toNat)) ↔
        ¬ (b.toNat = 1 ∧ 2 ^ (a.length - 1) < a.toNat)) ∧
      modWide false ⟨a.length, a, b⟩ = some (Vector4.ofNat a.length (a.toNat % b.toNat)) ∧
      modWide true ⟨a.length, a, b⟩ =
        some (Vector4.ofInt a.length (Int.tmod a.toInt b.toInt)) := by
  refine ⟨?_, ?_, modWide_unsigned ha hb hlen hpos, modWide_signed ha hb hlen hpos⟩
  · obtain ⟨q, r, hqr, hqw, hrw, hq, hr⟩ := Vector2.divMod_eq hw hd
    refine ⟨q, r, hqr, hqw, hrw, hr, ?_, ?_⟩
    · rw [hr]
      exact Nat.mod_lt _ (Nat.pos_of_ne_zero hd)
    · have hdm := Nat.div_add_mod dividend.toNat divisor.toNat
      by_cases hlost : Vector2.MaskLost dividend divisor
      · rw [if_pos hlost] at hq
        simp only [Vector2.MaskLost] at hlost
        have hpow := Nat.two_pow_pos (dividend.wid - 1)
        rw [hq, hr, hlost.1, Nat.mod_one]
        constructor <;> omega
      · rw [if_neg hlost] at hq
        rw [hq, hr, Nat.mul_comm]
        exact ⟨fun _ => hlost, fun _ => hdm⟩
  · rw [divWide4_unsigned ha hb hlen hpos, Option.some_inj, Vector4.ofNat_eq_iff]
    by_cases hlost : b.toNat = 1 ∧ 2 ^ (a.length - 1) < a.toNat
    · have hlt := a.toNat_lt
      have hpow := Nat.two_pow_pos (a.length - 1)
      rw [if_pos hlost, hlost.1, Nat.div_one, Nat.mod_eq_of_lt hlt, Nat.zero_mod]
      constructor <;> omega
    · rw [if_neg hlost]
      exact ⟨fun _ => hlost, fun _ => rfl⟩

/-- Seven by two in three bits. -/
theorem div_mod_correct_iff_example :
    divWide4 false ⟨3, [.one, .one, .one], [.zero, .one, .zero]⟩ =
      some (Vector4.ofNat 3 3) :=
  (div_mod_correct_iff (Vector2.ofLong 7 3) (Vector2.ofLong 2 3) rfl (by decide)
    [.one, .one, .one] [.zero, .one, .zero] rfl rfl rfl (by decide)).2.1.mpr (by decide)

/-- Three by one in two bits has no quotient, and neither has the largest number of 65 bits. -/
theorem div_mod_loses_quotient :
    ((Vector2.divMod (Vector2.ofLong 3 2) (Vector2.ofLong 1 2)).map fun s =>
      (s.1.toNat, s.2.toNat)) = some (0, 0) ∧
    divWide4 false ⟨65, List.replicate 65 .one, .one :: List.replicate 64 .zero⟩ =
      some (List.replicate 65 .zero) := by
  refine ⟨by decide, ?_⟩
  have hsend := divWide4_unsigned (a := List.replicate 65 .one)
    (b := .one :: List.replicate 64 .zero) (by decide) (by decide) (by decide) (by decide)
  rw [if_pos (by decide)] at hsend
  exact hsend

end Arith

end Icarus.Vvp
