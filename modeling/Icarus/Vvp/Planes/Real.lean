import Icarus.Vvp.Planes.Arith
import Mathlib.Data.Int.Log
import Mathlib.Data.Rat.Floor

/-!
# Vectors from real numbers

The constructor of a vector from a `double`. Small values are rounded natively. Of a negative one
the vector is inverted first, for the sake of the words above the lowest, whatever the value is
rounded to.
-/

namespace Icarus.Vvp

open Icarus.Core

/-- A `double`: a rational, or else NaN or an infinity. -/
abbrev Double := Option ℚ

/-- `lround`: halves are rounded away from zero. -/
def lround (val : ℚ) : Int := if val < 0 then -⌊-val + 1 / 2⌋ else ⌊val + 1 / 2⌋

/-- `frexp` of a value that is not negative: the fraction and the exponent. -/
def frexp (val : ℚ) : ℚ × Int :=
  if val = 0 then (0, 0) else (val / 2 ^ (Int.log 2 val + 1), Int.log 2 val + 1)

/-- The conversion of a value that is not negative to `unsigned long`. -/
def truncate (val : ℚ) : BitVec 64 := BitVec.ofInt 64 ⌊val⌋

/-- `add_with_carry` of bits that are not X or Z: the sum and the carry. -/
def addBits (a b carry : Bool) : Bool × Bool := (a ^^ (b ^^ carry), (a && b) || (a && carry) || (b && carry))

namespace Planes

/-- The full words of `invert`. -/
def invertWords : Nat → Planes → Planes
  | 0, v => v
  | idx + 1, v =>
    let v := invertWords idx v
    v.setA idx (~~~ v.aword idx ||| v.bword idx)

/-- `invert`. -/
def invert (v : Planes) : Planes :=
  if v.size ≤ 64 then
    let mask := if v.size < 64 then lowMask v.size else BitVec.allOnes 64
    v.setA 0 ((mask &&& ~~~ v.aword 0) ||| v.bword 0)
  else
    let idx := v.size / 64
    let v := invertWords idx v
    if v.size % 64 > 0 then
      let mask := lowMask (v.size % 64)
      v.setA idx ((mask &&& ~~~ v.aword idx) ||| v.bword idx)
    else v

/-- `set_bit` to a bit that is not X or Z. -/
def setBit (v : Planes) (idx : Nat) (bit : Bool) : Planes :=
  let mask := (1 : BitVec 64) <<< (idx % 64)
  let wdx := if v.size > 64 then idx / 64 else 0
  (v.setA wdx (if bit then v.aword wdx ||| mask else v.aword wdx &&& ~~~ mask)).setB wdx
    (v.bword wdx &&& ~~~ mask)

/-- The loop of `operator +=` with a native integer from bit `idx` on, in a vector without X and Z. -/
def addInt : Nat → Nat → Planes → BitVec 64 → Bool → Planes
  | 0, _, v, _, _ => v
  | bits + 1, idx, v, that, carry =>
    if that = 0 ∧ carry = false then v
    else
      let thatBit := that.getLsbD 0
      let that := that.sshiftRight 1
      if thatBit = false ∧ carry = false then addInt bits (idx + 1) v that carry
      else
        let (bit, carry) := addBits (v.value idx = .one) thatBit carry
        addInt bits (idx + 1) (v.setBit idx bit) that carry

/-- `operator +=` with a native integer. -/
def addAssign (v : Planes) (that : BitVec 64) : Planes :=
  if v.toVector4.hasXz then allocateWords v.size (BitVec.allOnes 64) (BitVec.allOnes 64)
  else addInt v.size 0 v that false

/-- The leading words of a value that a vector has no room for. -/
def skipWords : Nat → ℚ → ℚ
  | 0, fraction => fraction
  | words + 1, fraction => skipWords words ((fraction - (truncate fraction).toNat) * 2 ^ 64)

/-- The words of a value from word `words - 1` down, and what is left of it. -/
def fillWords : Nat → ℚ → Planes → Planes × ℚ
  | 0, fraction, v => (v, fraction)
  | idx + 1, fraction, v =>
    let bits := truncate fraction
    fillWords idx ((fraction - bits.toNat) * 2 ^ 64) (v.setA idx bits)

/-- The words of a large value that is not negative. -/
def ofLarge (v : Planes) (fraction : ℚ) (exponent : Nat) : Planes :=
  let nwords := (exponent - 1) / 64
  let myWords := (v.size + 63) / 64 - 1
  let fraction := fraction * 2 ^ ((exponent - 1) % 64 + 1)
  let fraction := skipWords (nwords - myWords) fraction
  if myWords = 0 then
    let bits := truncate fraction
    let v := v.setA 0 bits
    if fraction - bits.toNat ≥ 1 / 2 then v.addAssign 1 else v
  else
    let myWords := if nwords < myWords then nwords else myWords
    let (v, fraction) := fillWords (myWords + 1) fraction v
    if fraction ≥ 1 / 2 * 2 ^ 64 then v.addAssign 1 else v

/-- The constructor from a `double`. A large value for a vector without bits is written through a
word that is no pointer, which is `none`. -/
def ofDouble (size : Nat) (val : Double) : Option Planes :=
  match val with
  | none => some (allocateWords size (BitVec.allOnes 64) (BitVec.allOnes 64))
  | some val =>
    let isNeg := val < 0
    let val := if isNeg then -val else val
    let v := allocateWords size 0 0
    let (fraction, exponent) := frexp val
    if exponent < 62 then
      let v := if isNeg then v.invert else v
      let sval := BitVec.ofInt 64 (lround val)
      let sval := if isNeg then -sval else sval
      some (v.setA 0 sval)
    else if size = 0 then none
    else
      let v := v.ofLarge fraction exponent.toNat
      some (if isNeg then v.invert.addAssign 1 else v)

/-! ## Inversion -/

section Invert

variable {v : Planes}

theorem invertWords_spec {n : Nat} (h : n ≤ planeWords v.size) :
    (invertWords n v).size = v.size ∧ (invertWords n v).bbits = v.bbits ∧
      ∀ j, (invertWords n v).aword j = if j < n then ~~~ v.aword j ||| v.bword j else v.aword j := by
  induction n with
  | zero => exact ⟨rfl, rfl, fun j => (if_neg (Nat.not_lt_zero j)).symm⟩
  | succ n ih =>
    obtain ⟨hsize, hbbits, hwords⟩ := ih (by omega)
    refine ⟨hsize, hbbits, fun j => ?_⟩
    have hb : (invertWords n v).bword n = v.bword n := congrArg (·.getD n 0) hbbits
    rw [invertWords, aword_setA (by rw [hsize]; omega), hwords, hwords, hb]
    by_cases hj : j = n
    · rw [if_pos hj, if_neg (Nat.lt_irrefl n), if_pos (by omega), hj]
    · rw [if_neg hj]
      exact if_congr (by omega) rfl rfl

/-- The bits of a vector without X and Z are inverted. -/
theorem invert_spec (v : Planes) : (invert v).size = v.size ∧ (invert v).bbits = v.bbits ∧
    ∀ idx < v.size, planeBit (invert v).abits idx = (!planeBit v.abits idx || planeBit v.bbits idx) := by
  have hwords := le_planeWords v.size
  have hpos := planeWords_pos v.size
  have hword : ∀ (m : BitVec 64) (j idx : Nat), idx / 64 = j → m.getLsbD (idx % 64) = true →
      ((m &&& ~~~ v.aword j) ||| v.bword j).getLsbD (idx % 64) =
        (!planeBit v.abits idx || planeBit v.bbits idx) := by
    rintro m j idx rfl hm
    rw [BitVec.getLsbD_or, BitVec.getLsbD_and, hm, Bool.true_and, BitVec.getLsbD_not,
      decide_eq_true (Nat.mod_lt _ (by omega)), Bool.true_and]
    rfl
  unfold invert
  by_cases hs : v.size ≤ 64
  · rw [if_pos hs]
    refine ⟨rfl, rfl, fun idx hidx => ?_⟩
    have hmask : (if v.size < 64 then lowMask v.size else BitVec.allOnes 64).getLsbD (idx % 64) =
        true := by
      split_ifs with hlt
      · rw [getLsbD_lowMask hlt, decide_eq_true (by omega)]
      · rw [BitVec.getLsbD_allOnes, decide_eq_true (Nat.mod_lt _ (by omega))]
    have hset : planeBit (v.setA 0 (((if v.size < 64 then lowMask v.size else BitVec.allOnes 64) &&&
        ~~~ v.aword 0) ||| v.bword 0)).abits idx = _ :=
      planeBit_set (v.length_abits ▸ hpos) _ idx
    rw [hset, if_pos (by omega)]
    exact hword _ 0 idx (by omega) hmask
  · rw [if_neg hs]
    obtain ⟨hsize, hbbits, haword⟩ := @invertWords_spec v (v.size / 64) (by omega)
    dsimp only
    generalize invertWords (v.size / 64) v = w at hsize hbbits haword ⊢
    have hfull : ∀ idx, idx / 64 < v.size / 64 →
        planeBit w.abits idx = (!planeBit v.abits idx || planeBit v.bbits idx) := by
      intro idx hlt
      have ha := haword (idx / 64)
      rw [if_pos hlt] at ha
      have hone := hword (BitVec.allOnes 64) (idx / 64) idx rfl (by
        rw [BitVec.getLsbD_allOnes, decide_eq_true (Nat.mod_lt _ (by omega))])
      rw [BitVec.allOnes_and, ← ha] at hone
      exact hone
    rw [hsize]
    by_cases htail : v.size % 64 > 0
    · rw [if_pos htail]
      refine ⟨hsize, hbbits, fun idx hidx => ?_⟩
      have hlen : v.size / 64 < w.abits.length := by
        rw [w.length_abits, hsize]
        omega
      have hset : planeBit (w.setA (v.size / 64) ((lowMask (v.size % 64) &&& ~~~ w.aword (v.size / 64)) |||
          w.bword (v.size / 64))).abits idx = _ := planeBit_set hlen _ idx
      rw [hset]
      split_ifs with heq
      · have hb : w.bword (v.size / 64) = v.bword (v.size / 64) :=
          congrArg (·.getD (v.size / 64) 0) hbbits
        rw [haword, if_neg (Nat.lt_irrefl _), hb]
        refine hword _ _ idx heq ?_
        rw [getLsbD_lowMask (by omega), decide_eq_true (by omega)]
      · exact hfull idx (by omega)
    · rw [if_neg htail]
      exact ⟨hsize, hbbits, fun idx hidx => hfull idx (by omega)⟩

end Invert

/-! ## Small values -/

section Small

variable {size : Nat} {val : ℚ}

/-- Below `2 ^ 61` the value is rounded natively. -/
theorem frexp_lt (hpos : 0 ≤ val) (h : val < 2 ^ 61) : (frexp val).2 < 62 := by
  unfold frexp
  split_ifs with hzero
  · exact Int.lt_of_sub_pos (by norm_num)
  · have hval : 0 < val := lt_of_le_of_ne hpos (Ne.symm hzero)
    have hpow : val < ((2 : Nat) : ℚ) ^ (61 : Int) := by
      rw [show ((2 : Nat) : ℚ) ^ (61 : Int) = 2 ^ 61 by norm_num]
      exact h
    have hlog := (Int.lt_zpow_iff_log_lt Nat.one_lt_two hval).mp hpow
    show Int.log 2 val + 1 < 62
    omega

/-- The magnitude that is rounded to. -/
def magnitude (val : ℚ) : Nat := ⌊|val| + 1 / 2⌋.toNat

theorem magnitude_cast (val : ℚ) : ((magnitude val : Nat) : Int) = ⌊|val| + 1 / 2⌋ := by
  have hpos : (0 : ℚ) ≤ |val| + 1 / 2 := by positivity
  exact Int.toNat_of_nonneg (Int.floor_nonneg.mpr hpos)

theorem magnitude_lt (h : |val| < 2 ^ 61) : magnitude val < 2 ^ 64 := by
  have hlt : ⌊|val| + 1 / 2⌋ < 2 ^ 64 := by
    rw [Int.floor_lt]
    have hpow : ((2 ^ 64 : Int) : ℚ) = 2 ^ 64 := by norm_num
    rw [hpow]
    linarith
  have hcast := magnitude_cast val
  omega

theorem lround_eq (val : ℚ) :
    lround val = if val < 0 then -(magnitude val : Int) else (magnitude val : Int) := by
  unfold lround
  rw [magnitude_cast]
  split_ifs with hneg
  · rw [abs_of_neg hneg]
  · rw [abs_of_nonneg (not_lt.mp hneg)]

/-- Values close to zero are rounded to zero. -/
theorem magnitude_eq_zero_iff : magnitude val = 0 ↔ |val| < 1 / 2 := by
  have hcast := magnitude_cast val
  have hpos : (0 : ℚ) ≤ |val| := abs_nonneg val
  have hfloor : ⌊|val| + 1 / 2⌋ = 0 ↔ |val| < 1 / 2 := by
    rw [Int.floor_eq_zero_iff, Set.mem_Ico]
    constructor
    · rintro ⟨-, hlt⟩
      linarith
    · intro hlt
      exact ⟨by linarith, by linarith⟩
  rw [← hfloor]
  omega

/-- The constructor, for a small value. -/
theorem ofDouble_small (h : |val| < 2 ^ 61) : ofDouble size (some val) =
    some (if val < 0 then
        (allocateWords size 0 0).invert.setA 0 (-BitVec.ofInt 64 (magnitude val))
      else (allocateWords size 0 0).setA 0 (BitVec.ofInt 64 (magnitude val))) := by
  have habs : (if val < 0 then -val else val) = |val| := by
    split_ifs with hneg
    · rw [abs_of_neg hneg]
    · rw [abs_of_nonneg (not_lt.mp hneg)]
  have hround : lround |val| = magnitude val := by
    rw [lround_eq, if_neg (not_lt.mpr (abs_nonneg val)), magnitude, magnitude, abs_abs]
  have hexp : (frexp |val|).2 < 62 := frexp_lt (abs_nonneg val) h
  unfold ofDouble
  simp only [habs, hround, if_pos hexp]
  split_ifs <;> rfl

/-- The vector of zeros has no X and Z. -/
private theorem planeBit_zeros {idx : Nat} (h : idx < size) :
    planeBit (allocateWords size 0 0).bbits idx = false := by
  have hle := le_planeWords size
  refine (planeBit_replicate (by omega) 0).trans BitVec.getLsbD_zero

/-- The words of a value that is not negative. -/
theorem toVector4_setA_zeros (word : BitVec 64) :
    ((allocateWords size 0 0).setA 0 word).toVector4 = Vector4.ofNat size word.toNat := by
  have hpos := planeWords_pos size
  obtain ⟨k, hk⟩ : ∃ k, planeWords size = k + 1 := ⟨planeWords size - 1, by omega⟩
  refine (toVector4_of_clear (v := (allocateWords size 0 0).setA 0 word) fun idx hidx =>
    planeBit_zeros hidx).trans ?_
  have hvalue : Words.value ((allocateWords size 0 0).setA 0 word).abits = word.toNat := by
    rw [setA, allocateWords]
    dsimp only
    rw [hk, List.replicate_succ, List.set_cons_zero, Words.value_cons, Words.value_replicate_zero,
      Nat.mul_zero, Nat.add_zero]
  rw [hvalue]
  rfl

/-- Zeros, inverted: the number below the size. -/
theorem value_invert_zeros :
    Words.value (allocateWords size 0 0).invert.abits % 2 ^ size = 2 ^ size - 1 := by
  obtain ⟨-, -, hbits⟩ := invert_spec (allocateWords size 0 0)
  apply Nat.eq_of_testBit_eq
  intro i
  rw [Nat.testBit_mod_two_pow, Nat.testBit_two_pow_sub_one, testBit_value]
  by_cases hi : i < size
  · have hle := le_planeWords size
    have hzero : planeBit (allocateWords size 0 0).abits i = false :=
      (planeBit_replicate (by omega) 0).trans BitVec.getLsbD_zero
    rw [hbits i hi, hzero, decide_eq_true hi]
    rfl
  · rw [decide_eq_false hi, Bool.false_and]

/-- The words of a negative value: those above the lowest are ones. -/
theorem toVector4_setA_ones (hs : 64 < size) (word : BitVec 64) :
    ((allocateWords size 0 0).invert.setA 0 word).toVector4 =
      Vector4.ofInt size ((word.toNat : Int) - 2 ^ 64) := by
  obtain ⟨hsize, hbbits, hbits⟩ := invert_spec (allocateWords size 0 0)
  have hpos := planeWords_pos size
  have hlen : 0 < (allocateWords size 0 0).invert.abits.length := by
    rw [length_abits, hsize]
    exact hpos
  have hclear : ∀ idx < ((allocateWords size 0 0).invert.setA 0 word).size,
      planeBit ((allocateWords size 0 0).invert.setA 0 word).bbits idx = false := by
    intro idx hidx
    have hidx' : idx < (allocateWords size 0 0).invert.size := hidx
    rw [hsize] at hidx'
    rw [bbits_setA, hbbits]
    exact planeBit_zeros hidx'
  have hfirst : ((allocateWords size 0 0).invert.abits.getD 0 0).toNat = 2 ^ 64 - 1 := by
    have hones : (allocateWords size 0 0).invert.abits.getD 0 0 = BitVec.allOnes 64 := by
      apply BitVec.eq_of_getLsbD_eq
      intro i hi
      have hle := le_planeWords size
      have hbit := hbits i (show i < size by omega)
      have hzero : planeBit (allocateWords size 0 0).abits i = false :=
        (planeBit_replicate (by omega) 0).trans BitVec.getLsbD_zero
      rw [hzero, planeBit, Nat.div_eq_of_lt hi, Nat.mod_eq_of_lt hi] at hbit
      rw [hbit, BitVec.getLsbD_allOnes, decide_eq_true hi]
      rfl
    rw [hones]
    decide
  have hset := Words.value_set (allocateWords size 0 0).invert.abits hlen word
  have hvalue := @value_invert_zeros size
  rw [toVector4_of_clear hclear, size_setA, hsize]
  show Vector4.ofNat size (Words.value ((allocateWords size 0 0).invert.abits.set 0 word)) = _
  rw [hfirst, Nat.mul_zero, Nat.pow_zero, Nat.one_mul, Nat.one_mul] at hset
  generalize Words.value ((allocateWords size 0 0).invert.abits.set 0 word) = x at hset ⊢
  generalize Words.value (allocateWords size 0 0).invert.abits = y at hset hvalue
  have hpow : ((2 ^ size : Nat) : Int) = 2 ^ size := by rw [Nat.cast_pow]; rfl
  have hone := Nat.one_le_two_pow (n := size)
  rw [← Vector4.ofInt_natCast, Vector4.ofInt_eq_iff, ← hpow]
  have hdiv := Nat.mod_add_div y (2 ^ size)
  rw [hvalue] at hdiv
  refine (Int.modEq_iff_dvd.mpr ⟨-(y / 2 ^ size : Nat) - 1, ?_⟩)
  have hx : (x : Int) = y + word.toNat - (2 ^ 64 - 1) := by omega
  have hy : (y : Int) = 2 ^ size - 1 + ((2 ^ size : Nat) : Int) * (y / 2 ^ size : Nat) := by
    rw [← hpow, ← Nat.cast_mul]
    omega
  rw [hx, hy, ← hpow]
  ring

/-- Native words have the bits of their integers. -/
private theorem ofNat_ofInt (hs : size ≤ 64) (i : Int) :
    Vector4.ofNat size (BitVec.ofInt 64 i).toNat = Vector4.ofInt size i := by
  have hdvd : (2 : Int) ^ size ∣ ((2 ^ 64 : Nat) : Int) := by
    rw [Nat.cast_pow]
    exact pow_dvd_pow 2 hs
  rw [← Vector4.ofInt_natCast, Vector4.ofInt_eq_iff, BitVec.toNat_ofInt, Int.toNat_of_nonneg
    (Int.emod_nonneg _ (by norm_num))]
  exact (Int.mod_modEq i _).of_dvd hdvd

/-- What the constructor promises: the bits of the rounded value. -/
def Rounded (size : Nat) (val : ℚ) : Prop :=
  ∃ v, ofDouble size (some val) = some v ∧ v.size = size ∧
    v.toVector4 = Vector4.ofInt size (lround val)

/-- A negative value in the words of a vector. -/
theorem rounded_neg (h : |val| < 2 ^ 61) (hneg : val < 0) :
    Rounded size val ↔ ((allocateWords size 0 0).invert.setA 0
      (BitVec.ofInt 64 (-(magnitude val : Int)))).toVector4 =
        Vector4.ofInt size (-(magnitude val : Int)) := by
  have hsome := @ofDouble_small size val h
  have hround : lround val = -(magnitude val : Int) := by rw [lround_eq, if_pos hneg]
  rw [if_pos hneg, ← BitVec.ofInt_neg] at hsome
  rw [← hround]
  constructor
  · rintro ⟨v, hv, -, hbits⟩
    rw [hsome, Option.some.injEq] at hv
    rw [hround] at hbits ⊢
    rw [hv]
    exact hbits
  · intro hbits
    rw [hround] at hbits
    refine ⟨_, hsome, (invert_spec (allocateWords size 0 0)).1, ?_⟩
    rw [hround]
    exact hbits

theorem magnitude_neg_eq_zero (hneg : val < 0) : magnitude val = 0 ↔ -(1 / 2) < val := by
  rw [magnitude_eq_zero_iff, abs_of_neg hneg]
  constructor <;> intro h <;> linarith

/-- The ones above the lowest word stay where the value rounds to zero. -/
theorem not_rounded_of (hs : 64 < size) (hlow : -(1 / 2) < val) (hneg : val < 0) :
    ¬ Rounded size val := by
  have habs : |val| < 2 ^ 61 := by
    rw [abs_of_neg hneg]
    linarith
  rw [rounded_neg habs hneg, toVector4_setA_ones hs, Vector4.ofInt_eq_iff,
    (magnitude_neg_eq_zero hneg).mpr hlow, Int.modEq_iff_dvd]
  intro hmod
  have hint : ((2 ^ size : Nat) : Int) ∣ ((2 ^ 64 : Nat) : Int) := by simpa using hmod
  have hle := (Nat.pow_dvd_pow_iff_le_right Nat.one_lt_two).mp (Int.natCast_dvd_natCast.mp hint)
  omega

/-- A small value is rounded right, unless it is negative, rounds to zero and the vector has words
above the lowest. -/
theorem rounded_iff (h : |val| < 2 ^ 61) :
    Rounded size val ↔ ¬ (64 < size ∧ -(1 / 2) < val ∧ val < 0) := by
  have hlt := magnitude_lt h
  constructor
  · rintro hrounded ⟨hs, hlow, hneg⟩
    exact not_rounded_of hs hlow hneg hrounded
  intro hnot
  by_cases hneg : val < 0
  · rw [rounded_neg h hneg]
    by_cases hs : 64 < size
    · have hm : magnitude val ≠ 0 := fun hm =>
        hnot ⟨hs, (magnitude_neg_eq_zero hneg).mp hm, hneg⟩
      have heq : (((-(magnitude val : Int)) % ((2 ^ 64 : Nat) : Int)).toNat : Int) - 2 ^ 64 =
          -(magnitude val : Int) := by omega
      rw [toVector4_setA_ones hs, BitVec.toNat_ofInt, heq]
    · obtain ⟨hsize, hbbits, -⟩ := invert_spec (allocateWords size 0 0)
      have hclear : ∀ idx < ((allocateWords size 0 0).invert.setA 0
          (BitVec.ofInt 64 (-(magnitude val : Int)))).size, planeBit ((allocateWords size 0
            0).invert.setA 0 (BitVec.ofInt 64 (-(magnitude val : Int)))).bbits idx = false := by
        intro idx hidx
        have hidx' : idx < (allocateWords size 0 0).invert.size := hidx
        rw [hsize] at hidx'
        rw [bbits_setA, hbbits]
        exact planeBit_zeros hidx'
      have hword := toVector4_short _ (show ((allocateWords size 0 0).invert.setA 0
        (BitVec.ofInt 64 (-(magnitude val : Int)))).size ≤ 64 from hsize ▸ not_lt.mp hs) hclear
      rw [hword, aword_setA (planeWords_pos _), if_pos rfl, size_setA, hsize]
      exact ofNat_ofInt (not_lt.mp hs) _
  · have hsome := @ofDouble_small size val h
    have hround : lround val = (magnitude val : Int) := by rw [lround_eq, if_neg hneg]
    rw [if_neg hneg] at hsome
    refine ⟨_, hsome, rfl, ?_⟩
    rw [toVector4_setA_zeros, hround, Vector4.ofInt_natCast, BitVec.toNat_ofInt]
    congr 1
    omega

/-- 5/2 in 70 bits is 3. -/
theorem rounded_iff_five_halves : Rounded 70 (5 / 2) := by
  refine (rounded_iff (by rw [abs_of_pos (by norm_num)]; norm_num)).mpr ?_
  rintro ⟨-, -, hneg⟩
  norm_num at hneg

/-- -1/4 in 65 bits is not zero. -/
theorem not_rounded : ¬ ∀ (size : Nat) (val : ℚ), |val| < 2 ^ 61 → Rounded size val := by
  intro h
  refine @not_rounded_of 65 (-1 / 4) (by decide) (by norm_num) (by norm_num) (h 65 (-1 / 4) ?_)
  rw [abs_of_neg (by norm_num)]
  norm_num

end Small

end Planes

end Icarus.Vvp
