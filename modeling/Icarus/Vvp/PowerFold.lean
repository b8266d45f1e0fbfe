import Icarus.Vvp.Power

/-!
# Powers of the compiler and at run time

For operands of up to 32 bits, and for exponents that are not negative, the functor and the opcode
give the power that the compiler folds to. A wider base is not read as a native integer, so a
negative exponent gives zero.
-/

namespace Icarus.Vvp

open Icarus.Core
open Icarus.Verinum (Sized)

/-! ## At run time -/

/-- What is computed at run time for a negative exponent, and else. -/
def runPower (a b : Vector4) : Vector4 :=
  if b.toInt < 0 ∧ 32 < a.length then Vector4.ofInt a.length 0 else power a b

section Run

variable {a b : Vector4}

/-- The operands as two-state vectors. -/
private theorem operands (ha : a.hasXz = false) (hb : b.hasXz = false) (hlen : a.length = b.length)
    (hpos : 0 < a.length) :
    ((Vector2.ofVector4 a true).isNaN || (Vector2.ofVector4 b true).isNaN) = false ∧
      (Vector2.ofVector4 a true).wid = a.length ∧ (Vector2.ofVector4 b true).wid = a.length ∧
      (Vector2.ofVector4 a true).toNat = a.toNat ∧ (Vector2.ofVector4 b true).toNat = b.toNat := by
  obtain ⟨haw, han⟩ := Vector2.ofVector4_eq ha true
  obtain ⟨hbw, hbn⟩ := Vector2.ofVector4_eq hb true
  refine ⟨?_, haw, hbw.trans hlen.symm, han, hbn⟩
  rw [Vector2.isNaN, Vector2.isNaN, haw, hbw, ← hlen, Bool.or_self, decide_eq_false_iff_not]
  omega

/-- The top bit of an operand is its sign. -/
private theorem value_top {v : Vector2} (hw : v.wid = b.length) (hn : v.toNat = b.toNat) :
    v.value (v.wid - 1) = decide (b.toInt < 0) := by
  rw [Vector2.value_eq, hn, hw]
  exact Bool.eq_iff_iff.mpr (by rw [decide_eq_true_iff, Vector4.toInt_neg_iff])

theorem toInt_modEq (v : Vector4) : v.toInt ≡ v.toNat [ZMOD 2 ^ v.length] := by
  rw [Vector4.toInt]
  split_ifs
  · exact Int.modEq_iff_dvd.mpr ⟨1, by ring⟩
  · rfl

/-- The power of two-state vectors is that of the integers. -/
theorem ofNat_pow (hnonneg : 0 ≤ b.toInt) :
    Vector4.ofNat a.length (a.toNat ^ b.toNat % 2 ^ a.length) =
      Vector4.ofInt a.length (a.toInt ^ b.toInt.toNat) := by
  have hb : b.toInt = b.toNat := by
    apply Vector4.toInt_of_not_top
    by_contra h
    have := (Vector4.toInt_neg_iff b).mpr (by simpa using h)
    omega
  rw [← Vector4.ofInt_natCast, Vector4.ofInt_eq_iff, hb, Int.toNat_natCast]
  push_cast
  exact (Int.mod_modEq _ _).trans ((toInt_modEq a).symm.pow _)

private theorem toInt_small : (0 : BitVec 32).toInt = 0 ∧ (1 : BitVec 32).toInt = 1 ∧
    (-1 : BitVec 32).toInt = -1 := ⟨rfl, rfl, rfl⟩

/-- The value of a base that fits, compared with a small integer. -/
private theorem toValue_eq {v : Vector2} (hw : v.wid = a.length) (hn : v.toNat = a.toNat)
    (hpos : 0 < a.length) (c : BitVec 32) :
    ((v.toValue true).2 && decide ((v.toValue true).1 = c)) =
      decide (a.length ≤ 32 ∧ a.toInt = c.toInt) := by
  have hfits : (v.toValue true).2 = decide (a.length ≤ 32) := by rw [← hw]; rfl
  rw [hfits, ← Bool.decide_and]
  refine decide_eq_decide.mpr (and_congr_right fun hle => ?_)
  rw [← toValue_spec hw hn hpos hle]
  exact BitVec.toInt_inj.symm

theorem testBit_zero_iff (hlen : 0 < b.length) :
    b.toNat.testBit 0 = decide (b.toInt % 2 = 1) := by
  have hdvd : (2 : Int) ∣ 2 ^ b.length := dvd_pow_self 2 hlen.ne'
  have hmod : b.toInt % 2 = (b.toNat : Int) % 2 := (toInt_modEq b).of_dvd hdvd
  rw [Nat.testBit_zero, hmod]
  exact decide_eq_decide.mpr (by omega)

/-- An exponent that is not negative is not treated apart. -/
private theorem pow_eq_runPower {u v : Vector2} (huw : u.wid = a.length) (hvw : v.wid = a.length)
    (hun : u.toNat = a.toNat) (hvn : v.toNat = b.toNat) (hpos : 0 < a.length)
    (hneg : ¬ b.toInt < 0) :
    ∃ r, u.pow v = some r ∧ r.wid = a.length ∧ r.toVector4 a.length = runPower a b := by
  obtain ⟨r, hr, hrw, hrn⟩ := Vector2.pow_eq (huw ▸ hpos) (hvw ▸ hpos)
  refine ⟨r, hr, hrw.trans huw, ?_⟩
  rw [Vector2.toVector4_eq, hrn, huw, hun, hvn, ofNat_pow (not_lt.mp hneg), runPower,
    if_neg fun h => hneg h.1, power, if_pos (not_lt.mp hneg)]

variable (ha : a.hasXz = false) (hb : b.hasXz = false) (hlen : a.length = b.length)
  (hpos : 0 < a.length)
include ha hb hlen hpos

/-- The functor sends it. -/
theorem arith_pow_eq : Arith.pow true ⟨a.length, a, b⟩ = some (runPower a b) := by
  obtain ⟨hnan, haw, hbw, han, hbn⟩ := operands ha hb hlen hpos
  have hsign := value_top (hbw.trans hlen) hbn
  obtain ⟨hzero, hone, hmone⟩ := toInt_small
  unfold Arith.pow
  dsimp only
  rw [hnan, if_neg Bool.false_ne_true, hsign, Bool.true_and]
  by_cases hneg : b.toInt < 0
  · rw [if_pos (decide_eq_true hneg), toValue_eq haw han hpos, toValue_eq haw han hpos,
      toValue_eq haw han hpos, Vector2.value_eq, hbn, testBit_zero_iff (hlen ▸ hpos)]
    rw [hzero, hone, hmone, runPower, power, if_neg (not_le.mpr hneg)]
    by_cases hwide : 32 < a.length
    · simp [hwide, hneg, Vector4.ofDouble, Nat.not_le.mpr hwide]
    · simp only [hwide, and_false, if_false, Nat.not_lt.mp hwide, true_and, decide_eq_true_eq]
      split_ifs <;> rfl
  · obtain ⟨r, hr, -, hvec⟩ := pow_eq_runPower haw hbw han hbn hpos hneg
    rw [if_neg (by simpa using hneg), hr, Option.map_some, hvec]

/-- The opcode pushes it. -/
theorem powBase_eq : powBase true a b = some (runPower a b) := by
  obtain ⟨hnan, haw, hbw, han, hbn⟩ := operands ha hb hlen hpos
  have hsign := value_top (hbw.trans hlen) hbn
  obtain ⟨hzero, hone, hmone⟩ := toInt_small
  have hset : ∀ bit : Bit4, (List.replicate a.length bit).set 0 bit =
      List.replicate a.length bit := fun bit => List.set_replicate_self
  unfold powBase
  dsimp only
  rw [hnan, if_neg Bool.false_ne_true, hsign, Bool.true_and]
  by_cases hneg : b.toInt < 0
  · rw [if_pos (decide_eq_true hneg), toValue_eq haw han hpos, toValue_eq haw han hpos,
      toValue_eq haw han hpos, Vector2.value_eq, hbn, testBit_zero_iff (hlen ▸ hpos)]
    rw [hzero, hone, hmone, runPower, power, if_neg (not_le.mpr hneg), ofInt_one hpos]
    by_cases hwide : 32 < a.length
    · simp [hwide, hneg, Nat.not_le.mpr hwide, ofInt_zero]
    · simp only [hwide, and_false, if_false, Nat.not_lt.mp hwide, true_and, decide_eq_true_eq]
      split_ifs
      · rw [hset]
      · rfl
      · rw [hset, ofInt_neg_one]
      · rw [ofInt_one hpos]
      · rw [hset, ofInt_zero]
  · obtain ⟨r, hr, hrw, hvec⟩ := pow_eq_runPower haw hbw han hbn hpos hneg
    have hbits : ((List.range a.length).map fun jdx =>
        if jdx ≥ r.wid then Bit4.zero else if r.value jdx then .one else .zero) =
        r.toVector4 a.length := by
      apply List.map_congr_left
      intro jdx hjdx
      rw [if_neg (by rw [hrw]; exact Nat.not_le.mpr (List.mem_range.mp hjdx))]
    rw [if_neg (by simpa using hneg), hr, Option.map_some, hbits, hvec]

end Run

/-! ## In the compiler -/

/-- A bit of the compiler. -/
def Bit4.toV : Bit4 → Verinum.V
  | .zero => .v0
  | .one => .v1
  | .x => .vx
  | .z => .vz

/-- A signed operand with a length. -/
def toVerinum (v : Vector4) : Verinum := Verinum.signedBits (v.map Bit4.toV) true true

section Fold

variable {a b v : Vector4}

theorem number_toV (v : Vector4) : Verinum.number (v.map Bit4.toV) = v.toNat := by
  induction v with
  | nil => rfl
  | cons b v ih =>
    rw [List.map_cons, Verinum.number, Words.sum_cons, ← Verinum.number, ih, Vector4.toNat]
    cases b <;> rfl

theorem known_toV (h : v.hasXz = false) : ∀ c ∈ v.map Bit4.toV, c.Known := by
  intro c hc
  obtain ⟨b, hb, rfl⟩ := List.mem_map.mp hc
  rcases Vector4.hasXz_eq_false.mp h b hb with rfl | rfl
  · exact Or.inl rfl
  · exact Or.inr rfl

theorem toVerinum_sized (h : v.hasXz = false) : Sized v.length (toVerinum v) :=
  Verinum.sized_signedBits (List.length_map _) (known_toV h) rfl rfl

theorem toInt_toVerinum (hpos : 0 < v.length) : (toVerinum v).toInt = v.toInt := by
  have hlen : (toVerinum v).len = v.length := List.length_map _
  have hbits : Verinum.number (toVerinum v).bits = v.toNat := number_toV v
  rw [Verinum.toInt, hlen, hbits, Vector4.toInt, Vector4.testBit_top hpos, TwosComplement.reading]
  simp only [decide_eq_true_eq]
  split_ifs with h h' h'
  · rfl
  · exact absurd h.2 h'
  · exact absurd ⟨rfl, h'⟩ h
  · rfl

/-- A number of the compiler is the vector of its integer. -/
theorem bits_eq {w : Nat} {r : Verinum} {z : Int} (hr : Sized w r) (h : r.toInt ≡ z [ZMOD 2 ^ w]) :
    r.bits = (Vector4.ofInt w z).map Bit4.toV := by
  unfold Vector4.ofInt
  have hxz := Vector4.hasXz_ofNat w (z % 2 ^ w).toNat
  have hlen : r.bits.length = w := hr.len
  apply Verinum.eq_of_number hr.known (known_toV hxz)
  · rw [hlen, List.length_map, Vector4.length_ofNat]
  · have hnumber := Verinum.number_eq_emod r
    rw [hr.len, h] at hnumber
    have hnonneg : 0 ≤ z % 2 ^ w := Int.emod_nonneg z (pow_ne_zero w (by norm_num))
    have hlt : (z % 2 ^ w).toNat < 2 ^ w := by
      rw [Int.toNat_lt hnonneg]
      push_cast
      exact Int.emod_lt_of_pos z (pow_pos (by norm_num) w)
    rw [number_toV, Vector4.toNat_ofNat, Nat.mod_eq_of_lt hlt, ← hnumber,
      Int.toNat_natCast]

/-- The compiler folds to the power. -/
theorem verinum_pow_eq (ha : a.hasXz = false) (hb : b.hasXz = false) (hlen : a.length = b.length)
    (hpos : 0 < a.length) : ∃ r, Verinum.pow (toVerinum a) (toVerinum b) = some r ∧
      r.bits = (power a b).map Bit4.toV := by
  have hl := toVerinum_sized ha
  have hr : Sized a.length (toVerinum b) := hlen ▸ toVerinum_sized hb
  have haInt := toInt_toVerinum hpos
  have hbInt := @toInt_toVerinum b (hlen ▸ hpos)
  rw [power]
  by_cases hneg : b.toInt < 0
  · rw [if_neg (not_le.mpr hneg), Verinum.pow_negative hl hr hpos (hbInt.symm ▸ hneg)]
    refine ⟨_, rfl, ?_⟩
    rw [haInt, hbInt]
    obtain ⟨hone, honeInt⟩ := Verinum.makePOne_spec hl hpos
    obtain ⟨hmone, hmoneInt⟩ := Verinum.makeMOne_spec hl hpos
    have hfill : ∀ bit : Bit4, (Verinum.fillLike bit.toV (toVerinum a)).bits =
        (List.replicate a.length bit).map Bit4.toV := by
      intro bit
      rw [List.map_replicate, ← hl.len]
      rfl
    by_cases h0 : a.toInt = 0
    · rw [if_pos h0, if_pos h0]
      exact hfill .x
    · rw [if_neg h0, if_neg h0]
      by_cases hm : a.toInt = -1
      · have h1 : ¬ a.toInt = 1 := by omega
        rw [if_pos hm, if_neg h1, if_pos hm]
        by_cases hodd : b.toInt % 2 = 1
        · rw [if_pos hodd, if_pos hodd]
          exact bits_eq hmone (hmoneInt ▸ Int.ModEq.refl _)
        · rw [if_neg hodd, if_neg hodd]
          exact bits_eq hone honeInt
      · rw [if_neg hm]
        by_cases h1 : a.toInt = 1
        · rw [if_pos h1, if_pos h1]
          exact bits_eq hone honeInt
        · rw [if_neg h1, if_neg h1, if_neg hm, ofInt_zero]
          exact hfill .zero
  · obtain ⟨r, hpow, hsized, hmod⟩ := Verinum.pow_spec hl hr hpos (hbInt.symm ▸ not_lt.mp hneg)
    rw [if_pos (not_lt.mp hneg)]
    rw [haInt, hbInt] at hmod
    exact ⟨r, hpow, bits_eq hsized hmod⟩

end Fold

/-! ## Agreement -/

/-- The functor, the opcode and the compiler give the power of the standard. -/
def PowerAgrees (a b : Vector4) : Prop :=
  Arith.pow true ⟨a.length, a, b⟩ = some (power a b) ∧ powBase true a b = some (power a b) ∧
    ∃ r, Verinum.pow (toVerinum a) (toVerinum b) = some r ∧ r.bits = (power a b).map Bit4.toV

section Agree

variable {a b : Vector4}

/-- The exponents and the bases where the table of the standard does not give zero. -/
theorem power_eq_zero_iff (hpos : 0 < a.length) (hneg : b.toInt < 0) :
    power a b = Vector4.ofInt a.length 0 ↔ ¬ (a.toInt = 0 ∨ a.toInt = 1 ∨ a.toInt = -1) := by
  rw [power, if_neg (not_le.mpr hneg)]
  by_cases h0 : a.toInt = 0
  · have hx : List.replicate a.length Bit4.x ≠ Vector4.ofInt a.length 0 := by
      rw [ofInt_zero]
      intro h
      exact absurd (List.replicate_right_inj hpos.ne' |>.mp h) (by decide)
    simp [h0, hx]
  · by_cases h1 : a.toInt = 1
    · simp [h1, ofInt_ne_zero hpos (Or.inl rfl)]
    · by_cases hm : a.toInt = -1
      · have hone := ofInt_ne_zero hpos (Or.inl rfl)
        have hmone := ofInt_ne_zero hpos (Or.inr rfl)
        rw [if_neg h0, if_neg h1, if_pos hm]
        split_ifs <;> simp [hm, hone, hmone]
      · simp [h0, h1, hm]

/-- They give it, unless a base of 0, 1 or -1 that is wider than a native integer has a negative
exponent. -/
theorem powerAgrees_iff (ha : a.hasXz = false) (hb : b.hasXz = false) (hlen : a.length = b.length)
    (hpos : 0 < a.length) : PowerAgrees a b ↔
      ¬ (b.toInt < 0 ∧ 32 < a.length ∧ (a.toInt = 0 ∨ a.toInt = 1 ∨ a.toInt = -1)) := by
  have hrun : runPower a b = power a b ↔
      ¬ (b.toInt < 0 ∧ 32 < a.length ∧ (a.toInt = 0 ∨ a.toInt = 1 ∨ a.toInt = -1)) := by
    rw [runPower]
    by_cases hwide : b.toInt < 0 ∧ 32 < a.length
    · rw [if_pos hwide, eq_comm, power_eq_zero_iff hpos hwide.1]
      simp [hwide]
    · rw [if_neg hwide]
      exact iff_of_true rfl fun h => hwide ⟨h.1, h.2.1⟩
  rw [PowerAgrees, arith_pow_eq ha hb hlen hpos, powBase_eq ha hb hlen hpos, Option.some_inj, hrun]
  exact ⟨fun h => h.1, fun h => ⟨h, h, verinum_pow_eq ha hb hlen hpos⟩⟩

/-- Of three bits: `(-1) ** (-2)`. -/
theorem powerAgrees_iff_three : PowerAgrees [.one, .one, .one] [.zero, .one, .one] :=
  (@powerAgrees_iff [.one, .one, .one] [.zero, .one, .one] rfl rfl rfl (by decide)).mpr (by decide)

/-- Of 33 bits: `1 ** (-1)` is zero at run time. -/
theorem not_powerAgrees : ¬ ∀ a b : Vector4, a.hasXz = false → b.hasXz = false →
    a.length = b.length → 0 < a.length → PowerAgrees a b := by
  intro h
  have hone : Vector4.toInt (Bit4.one :: List.replicate 32 .zero) = 1 := by decide
  have hneg : Vector4.toInt (List.replicate 33 Bit4.one) < 0 := by decide
  obtain ⟨hpow, -, -⟩ := h (Bit4.one :: List.replicate 32 .zero) (List.replicate 33 .one)
    (by decide) (by decide) (by decide) (by decide)
  rw [arith_pow_eq (by decide) (by decide) (by decide) (by decide), Option.some_inj, runPower,
    if_pos ⟨hneg, by decide⟩, eq_comm, power_eq_zero_iff (by decide) hneg] at hpow
  exact hpow (Or.inr (Or.inl hone))

end Agree

end Icarus.Vvp
