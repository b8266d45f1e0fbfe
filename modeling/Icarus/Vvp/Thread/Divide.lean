import Icarus.Core.TwosComplement
import Icarus.Vvp.Thread.Quotient

/-!
# The division opcodes

`%div` and `%div/s` take two vectors of one width from the stack and leave their
quotient. A word or less is divided natively; what is wider is divided by
`divide_bits`, the signed operands as magnitudes.
-/

namespace Icarus.Vvp

open Icarus.Core

/-- The vector of X bits of a width. -/
def xVec (wid : Nat) : Vector4 := List.replicate wid .x

/-- `subarray(0, size())`: the words, or the null pointer if there are X or Z bits. -/
def subarray (v : Vector4) : Option (List (BitVec 64)) :=
  if v.hasXz then none else some (Vector2.subarray v)

/-- `setarray(0, wid, val)` into a vector of that width. -/
def setarray (wid : Nat) (val : List (BitVec 64)) : Vector4 :=
  (List.range wid).map fun idx =>
    if (val.getD (idx / 64) 0).getLsbD (idx % 64) then .one else .zero

/-- An opcode that replaces the two vectors on top of the stack by one; the sizes agree by
assertion. -/
def binaryOp (op : Vector4 → Vector4 → Option Vector4) : List Vector4 → Option (List Vector4)
  | valb :: vala :: stack =>
    if vala.length = valb.length then (op vala valb).map (· :: stack) else none
  | _ => none

/-- The vector that `of_DIV` leaves. -/
def divVec4 (vala valb : Vector4) : Option Vector4 :=
  let wid := vala.length
  match subarray vala, subarray valb with
  | some ap, some bp =>
    if wid ≤ 64 then
      if bp.getD 0 0 = 0 then some (xVec wid)
      else some (setarray wid (ap.set 0 (ap.getD 0 0 / bp.getD 0 0)))
    else
      (divideBits ap bp wid).map fun
        | none => xVec wid
        | some s => setarray wid s.result
  | _, _ => some (xVec wid)

/-- `of_DIV`. -/
def ofDiv : List Vector4 → Option (List Vector4) := binaryOp divVec4

/-- `sign_mask`: the bits of the top word above the width. -/
def signMask (wid : Nat) : BitVec 64 :=
  let signBits := wordCount wid * 64 - wid
  if signBits ≠ 0 then BitVec.allOnes 64 <<< (64 - signBits) else 0

/-- The sign extension of an array in `of_DIV_S`. -/
def signExtend (wid : Nat) (val : List (BitVec 64)) : List (BitVec 64) :=
  let words := wordCount wid
  if words * 64 - wid ≠ 0 ∧ val.getD (words - 1) 0 &&& signMask wid >>> 1 ≠ 0 then
    val.set (words - 1) (val.getD (words - 1) 0 ||| signMask wid)
  else val

/-- The vector that `of_DIV_S` leaves. -/
def divSVec4 (vala valb : Vector4) : Option Vector4 :=
  let wid := vala.length
  let words := wordCount wid
  match subarray vala, subarray valb with
  | some ap, some bp =>
    let ap := signExtend wid ap
    let bp := signExtend wid bp
    if wid ≤ 64 then
      if bp.getD 0 0 = 0 then some (xVec wid)
      else if ap.getD 0 0 = BitVec.intMin 64 ∧ bp.getD 0 0 = -1 then
        some ((List.replicate wid .zero).set (wid - 1) .one)
      else
        let res := (ap.getD 0 0).sdiv (bp.getD 0 0)
        some (setarray wid (ap.set 0 (res &&& ~~~ signMask wid)))
    else
      let aNeg := (ap.getD (words - 1) 0).msb
      let ap := if aNeg then negateWords ap else ap
      let bNeg := (bp.getD (words - 1) 0).msb
      let bp := if bNeg then negateWords bp else bp
      let negateFlag := if bNeg then !aNeg else aNeg
      (divideBits ap bp wid).map fun
        | none => xVec wid
        | some s =>
          let result := if negateFlag then negateWords s.result else s.result
          setarray wid (result.set (words - 1) (result.getD (words - 1) 0 &&& ~~~ signMask wid))
  | _, _ => some (xVec wid)

/-- `of_DIV_S`. -/
def ofDivS : List Vector4 → Option (List Vector4) := binaryOp divSVec4

/-! ## Words and vectors -/

theorem setarray_eq (wid : Nat) (val : List (BitVec 64)) :
    setarray wid val = Vector4.ofNat wid (Words.value val) := by
  rw [setarray, Vector4.ofNat]
  apply List.map_congr_left
  intro idx _
  rw [Words.testBit_value (by omega)]

theorem length_subarray (v : Vector4) :
    (Vector2.subarray v).length = wordCount v.length := by
  rw [Vector2.subarray, List.length_map, List.length_range]

private theorem wordCount_pos {wid : Nat} (hpos : 0 < wid) : 0 < wordCount wid := by
  rw [wordCount]
  omega

/-- The mask has the bits that are not of the width. -/
private theorem getLsbD_signMask {wid j : Nat} (hpos : 0 < wid) (hj : j < 64) :
    (signMask wid).getLsbD j = decide (wid ≤ 64 * (wordCount wid - 1) + j) := by
  have hle := le_wordCount wid
  have hlt : 64 * (wordCount wid - 1) < wid := by
    rw [wordCount]
    omega
  rw [signMask]
  split_ifs with hbits
  · rw [BitVec.getLsbD_shiftLeft, BitVec.getLsbD_allOnes]
    by_cases hge : wid ≤ 64 * (wordCount wid - 1) + j
    · simp only [hge, hj, decide_true, Bool.true_and, Bool.not_eq_true', decide_eq_false_iff_not,
        Bool.and_eq_true, decide_eq_true_eq]
      omega
    · simp only [hge, decide_false, Bool.and_eq_false_imp]
      intro h
      simp only [hj, decide_true, Bool.true_and, Bool.not_eq_true', decide_eq_false_iff_not] at h
      omega
  · exact BitVec.getLsbD_zero.trans (decide_eq_false (by omega)).symm

/-- Clearing the bits of the mask keeps the low bits. -/
private theorem setarray_clear {wid : Nat} (hpos : 0 < wid) (val : List (BitVec 64)) :
    setarray wid (val.set (wordCount wid - 1)
      (val.getD (wordCount wid - 1) 0 &&& ~~~ signMask wid)) = setarray wid val := by
  rw [setarray, setarray]
  apply List.map_congr_left
  intro idx hidx
  rw [List.mem_range] at hidx
  by_cases hword : idx / 64 = wordCount wid - 1
  · by_cases hlen : wordCount wid - 1 < val.length
    · have hj : idx % 64 < 64 := Nat.mod_lt _ (by omega)
      rw [hword, List.getD_eq_getElem?_getD, List.getElem?_set_self hlen, Option.getD_some,
        BitVec.getLsbD_and, BitVec.getLsbD_not, getLsbD_signMask hpos hj]
      have hbelow : ¬ wid ≤ 64 * (wordCount wid - 1) + idx % 64 := by omega
      simp only [hj, hbelow, decide_true, decide_false, Bool.not_false, Bool.and_true]
    · rw [List.set_eq_of_length_le (by omega)]
  · rw [List.getD_eq_getElem?_getD, List.getElem?_set_ne (Ne.symm hword),
      ← List.getD_eq_getElem?_getD]

/-! ## Magnitudes -/

/-- The mask as a number. -/
private theorem toNat_signMask {wid : Nat} (hpos : 0 < wid) :
    2 ^ (64 * (wordCount wid - 1)) * (signMask wid).toNat + 2 ^ wid = 2 ^ (64 * wordCount wid) := by
  obtain ⟨k, hk⟩ : ∃ k, wordCount wid = k + 1 :=
    ⟨wordCount wid - 1, (Nat.sub_add_cancel (wordCount_pos hpos)).symm⟩
  have hlow : 64 * k < wid := by
    rw [wordCount] at hk
    omega
  have hle := le_wordCount wid
  have hpow : 2 ^ (64 * (k + 1)) = 2 ^ (64 * k) * 2 ^ 64 := by rw [← Nat.pow_add, ← Nat.mul_succ]
  rw [signMask, hk, Nat.add_sub_cancel]
  rw [hk] at hle
  split_ifs with hbits
  · obtain ⟨r, hr⟩ : ∃ r, wid = 64 * k + r := ⟨wid - 64 * k, by omega⟩
    have hlt : 2 ^ r < 2 ^ 64 := Nat.pow_lt_pow_right (by omega) (by omega)
    rw [show 64 - ((k + 1) * 64 - wid) = r by omega, Words.toNat_high (by omega), hr, Nat.pow_add,
      ← Nat.mul_add, hpow, Nat.sub_add_cancel hlt.le]
  · rw [show wid = 64 * (k + 1) by omega]
    exact Nat.zero_add _

/-- The bits of the top word. -/
private theorem getLsbD_top (v : Vector4) {j : Nat} (hj : j < 64) :
    ((Vector2.subarray v).getD (wordCount v.length - 1) 0).getLsbD j =
      v.toNat.testBit (64 * (wordCount v.length - 1) + j) := by
  rw [← Vector2.value_subarray, Words.testBit_value (by omega), Nat.mul_add_div (by omega),
    Nat.div_eq_of_lt hj, Nat.add_zero, Nat.mul_add_mod, Nat.mod_eq_of_lt hj]

private theorem lt_of_testBit {v : Vector4} {i : Nat} (h : v.toNat.testBit i = true) :
    i < v.length := by
  by_contra hge
  rw [Vector4.testBit_toNat, List.getElem?_eq_none (by omega)] at h
  cases h

section Extend

variable {v : Vector4} (hpos : 0 < v.length)
include hpos

/-- The sign test looks at the top bit of the vector. -/
private theorem sign_test : (Vector2.subarray v).getD (wordCount v.length - 1) 0 &&&
    signMask v.length >>> 1 ≠ 0 ↔ wordCount v.length * 64 - v.length ≠ 0 ∧
      v.toNat.testBit (v.length - 1) = true := by
  have hlow : 64 * (wordCount v.length - 1) < v.length := by
    rw [wordCount]
    omega
  have hle := le_wordCount v.length
  have hbit : ∀ j < 64, ((Vector2.subarray v).getD (wordCount v.length - 1) 0 &&&
      signMask v.length >>> 1).getLsbD j =
      (v.toNat.testBit (64 * (wordCount v.length - 1) + j) &&
        decide (j + 1 < 64 ∧ v.length ≤ 64 * (wordCount v.length - 1) + (j + 1))) := by
    intro j hj
    rw [BitVec.getLsbD_and, getLsbD_top v hj, BitVec.getLsbD_ushiftRight, Nat.add_comm 1 j]
    by_cases hlt : j + 1 < 64
    · simp only [getLsbD_signMask hpos hlt, hlt, true_and]
    · simp only [BitVec.getLsbD_of_ge _ _ (Nat.not_lt.mp hlt), hlt, false_and, decide_false]
  constructor
  · intro hne
    obtain ⟨j, hj, hset⟩ : ∃ j < 64, ((Vector2.subarray v).getD (wordCount v.length - 1) 0 &&&
        signMask v.length >>> 1).getLsbD j = true := by
      by_contra hnone
      apply hne
      apply BitVec.eq_of_getLsbD_eq
      intro j hj
      exact (Bool.eq_false_iff.mpr fun h => hnone ⟨j, hj, h⟩).trans BitVec.getLsbD_zero.symm
    rw [hbit j hj, Bool.and_eq_true, decide_eq_true_eq] at hset
    have hlt := lt_of_testBit hset.1
    refine ⟨by omega, ?_⟩
    rw [show v.length - 1 = 64 * (wordCount v.length - 1) + j by omega]
    exact hset.1
  · rintro ⟨hbits, htop⟩ hzero
    have hset := hbit (v.length - 1 - 64 * (wordCount v.length - 1)) (by omega)
    rw [hzero, Nat.add_sub_cancel' (by omega), htop, Bool.true_and,
      decide_eq_true (by omega)] at hset
    exact absurd (BitVec.getLsbD_zero.symm.trans hset) (by decide)

/-- The array stands for the integer. -/
theorem value_signExtend : (signExtend v.length (Vector2.subarray v)).length = wordCount v.length ∧
    Words.value (signExtend v.length (Vector2.subarray v)) =
      if v.toInt < 0 then 2 ^ (64 * wordCount v.length) - v.toInt.natAbs else v.toInt.natAbs := by
  have hlt := v.toNat_lt
  have hmask := toNat_signMask hpos
  rw [signExtend]
  split_ifs with hext hneg hneg
  · obtain ⟨-, htop⟩ := (sign_test hpos).mp hext.2
    refine ⟨by rw [List.length_set, length_subarray], ?_⟩
    have hset := Words.value_set (Vector2.subarray v)
      (k := wordCount v.length - 1) (by rw [length_subarray]; have := wordCount_pos hpos; omega)
      ((Vector2.subarray v).getD (wordCount v.length - 1) 0 ||| signMask v.length)
    have hand : (Vector2.subarray v).getD (wordCount v.length - 1) 0 &&& signMask v.length = 0#64 := by
      apply BitVec.eq_of_getLsbD_eq
      intro j hj
      rw [BitVec.getLsbD_and, getLsbD_top v hj, getLsbD_signMask hpos hj, BitVec.getLsbD_zero,
        Bool.and_eq_false_imp]
      intro h
      have hbelow := lt_of_testBit h
      exact decide_eq_false (by omega)
    have hor : ((Vector2.subarray v).getD (wordCount v.length - 1) 0 ||| signMask v.length).toNat =
        ((Vector2.subarray v).getD (wordCount v.length - 1) 0).toNat +
          (signMask v.length).toNat := by
      rw [← BitVec.add_eq_or_of_and_eq_zero _ _ hand, BitVec.toNat_add_of_and_eq_zero hand]
    rw [hor, Vector2.value_subarray, Nat.mul_add] at hset
    rw [Vector4.toInt_of_top htop, Int.natAbs_neg, Int.natAbs_natCast]
    omega
  · obtain ⟨-, htop⟩ := (sign_test hpos).mp hext.2
    exact absurd ((Vector4.toInt_neg_iff v).mpr htop) hneg
  · have htop := (Vector4.toInt_neg_iff v).mp hneg
    have hfull : v.length = 64 * wordCount v.length := by
      have hle := le_wordCount v.length
      by_contra hne
      have hbits : wordCount v.length * 64 - v.length ≠ 0 := by omega
      exact hext ⟨hbits, (sign_test hpos).mpr ⟨hbits, htop⟩⟩
    refine ⟨length_subarray v, ?_⟩
    rw [Vector2.value_subarray, Vector4.toInt_of_top htop, ← hfull]
    omega
  · have htop := Bool.eq_false_iff.mpr fun h => hneg ((Vector4.toInt_neg_iff v).mpr h)
    refine ⟨length_subarray v, ?_⟩
    rw [Vector2.value_subarray, Vector4.toInt_of_not_top htop, Int.natAbs_natCast]

/-- Its top bit is the sign. -/
theorem msb_signExtend :
    ((signExtend v.length (Vector2.subarray v)).getD (wordCount v.length - 1) 0).msb =
      decide (v.toInt < 0) := by
  obtain ⟨hlen, hvalue⟩ := value_signExtend hpos
  have hcount := Nat.sub_add_cancel (wordCount_pos hpos)
  have hle := le_wordCount v.length
  have habs := Vector4.natAbs_toInt_le hpos
  have hpow : 2 ^ (v.length - 1) ≤ 2 ^ (64 * wordCount v.length - 1) :=
    Nat.pow_le_pow_right (by omega) (by omega)
  have hdouble : 2 ^ (64 * wordCount v.length) = 2 * 2 ^ (64 * wordCount v.length - 1) := by
    rw [← Nat.pow_succ', Nat.succ_eq_add_one, Nat.sub_add_cancel (by omega)]
  rw [Words.msb_last (by omega) (hlen.trans hcount.symm), hvalue, hcount]
  split_ifs with hneg
  · exact decide_eq_decide.mpr ⟨fun _ => hneg, fun _ => by omega⟩
  · have htop := Vector4.testBit_top hpos
    rw [Bool.eq_false_iff.mpr fun h => hneg ((Vector4.toInt_neg_iff v).mpr h), eq_comm,
      decide_eq_false_iff_not] at htop
    have hint := Vector4.toInt_of_not_top
      (Bool.eq_false_iff.mpr fun h => hneg ((Vector4.toInt_neg_iff v).mpr h))
    exact decide_eq_decide.mpr ⟨fun h => by omega, fun h => absurd h hneg⟩

/-- The array of a magnitude. -/
private theorem magnitude_spec (aNeg : Bool) (haNeg : aNeg = decide (v.toInt < 0)) :
    (if aNeg then negateWords (signExtend v.length (Vector2.subarray v))
        else signExtend v.length (Vector2.subarray v)).length = wordCount v.length ∧
      Words.value (if aNeg then negateWords (signExtend v.length (Vector2.subarray v))
        else signExtend v.length (Vector2.subarray v)) = v.toInt.natAbs := by
  obtain ⟨hlen, hvalue⟩ := value_signExtend hpos
  have habs := Vector4.natAbs_toInt_le hpos
  have hpow : 2 ^ (v.length - 1) < 2 ^ (64 * wordCount v.length) :=
    Nat.pow_lt_pow_right (by omega) (by have := le_wordCount v.length; omega)
  rw [haNeg]
  by_cases hneg : v.toInt < 0
  · rw [if_pos hneg] at hvalue
    rw [if_pos (decide_eq_true hneg), length_negateWords, value_negateWords, hlen, hvalue,
      Nat.sub_sub_self (by omega)]
    exact ⟨rfl, Nat.mod_eq_of_lt (by omega)⟩
  · rw [if_neg hneg] at hvalue
    rw [if_neg (by simpa using hneg)]
    exact ⟨hlen, hvalue⟩

/-- A vector of a word or less, as an array. -/
private theorem word_signExtend (hword : v.length ≤ 64) :
    ∃ x, signExtend v.length (Vector2.subarray v) = [x] ∧ x.toInt = v.toInt := by
  obtain ⟨hlen, hvalue⟩ := value_signExtend hpos
  have hmsb := msb_signExtend hpos
  have habs := Vector4.natAbs_toInt_le hpos
  have hcount : wordCount v.length = 1 := by
    rw [wordCount]
    omega
  have hpow : 2 ^ (v.length - 1) ≤ 2 ^ 63 := Nat.pow_le_pow_right (by omega) (by omega)
  rw [hcount] at hlen hvalue hmsb
  obtain ⟨x, hx⟩ := List.length_eq_one_iff.mp hlen
  rw [hx, Words.value_cons, Words.value_nil, Nat.mul_zero, Nat.add_zero] at hvalue
  rw [hx] at hmsb
  change x.msb = _ at hmsb
  refine ⟨x, hx, ?_⟩
  rw [BitVec.toInt_eq_msb_cond, hmsb, hvalue]
  by_cases hneg : v.toInt < 0
  · rw [if_pos (decide_eq_true hneg), if_pos hneg]
    omega
  · rw [if_neg (by simpa using hneg), if_neg hneg]
    omega

end Extend

/-! ## The vectors that are left -/

/-- A number of several words, modulo the power of the width. -/
private theorem ofNat_mod_words (wid n : Nat) :
    Vector4.ofNat wid (n % 2 ^ (64 * wordCount wid)) = Vector4.ofNat wid n :=
  Vector4.ofNat_eq_iff.mpr (mod_two_pow_wordCount n wid)

/-- A negated array gives the negated vector. -/
private theorem setarray_negate {wid : Nat} {val : List (BitVec 64)}
    (hlen : val.length = wordCount wid) (negate : Bool) :
    setarray wid (if negate then negateWords val else val) =
      Vector4.ofInt wid (if negate then -(Words.value val : Int) else Words.value val) := by
  cases negate with
  | false => exact (setarray_eq wid val).trans (Vector4.ofInt_natCast wid _).symm
  | true =>
    have hlt := Words.value_lt val
    rw [hlen] at hlt
    rw [if_pos rfl, if_pos rfl, setarray_eq, value_negateWords, hlen, ofNat_mod_words,
      ← Vector4.ofInt_natCast, Vector4.ofInt_eq_iff, Int.modEq_iff_dvd]
    refine ⟨-2 ^ (64 * wordCount wid - wid), ?_⟩
    have hpow : (2 : Int) ^ wid * -2 ^ (64 * wordCount wid - wid) = -2 ^ (64 * wordCount wid) := by
      rw [mul_neg, ← pow_add, Nat.add_sub_cancel' (le_wordCount wid)]
    rw [hpow, Nat.cast_sub hlt.le]
    push_cast
    ring

/-- The low bits of a word, from its number or from its integer. -/
theorem ofNat_word {wid : Nat} (hwid : wid ≤ 64) (x : BitVec 64) :
    Vector4.ofNat wid x.toNat = Vector4.ofInt wid x.toInt := by
  rw [← Vector4.ofInt_natCast, Vector4.ofInt_eq_iff]
  have hword : (x.toNat : Int) ≡ x.toInt [ZMOD 2 ^ 64] := by
    rw [BitVec.toInt_eq_msb_cond]
    split_ifs
    · exact Int.modEq_iff_dvd.mpr ⟨-1, by push_cast; ring⟩
    · rfl
  exact hword.of_dvd (pow_dvd_pow 2 hwid)

private theorem setarray_word {wid : Nat} (hwid : wid ≤ 64) (x : BitVec 64) :
    setarray wid [x] = Vector4.ofInt wid x.toInt := by
  rw [setarray_eq, Words.value_cons, Words.value_nil, Nat.mul_zero, Nat.add_zero, ofNat_word hwid]

/-- One bit at the top. -/
private theorem set_top {wid : Nat} (hpos : 0 < wid) :
    (List.replicate wid Bit4.zero).set (wid - 1) .one = Vector4.ofNat wid (2 ^ (wid - 1)) := by
  apply List.ext_getElem?
  intro i
  rw [Vector4.getElem?_ofNat, List.getElem?_set, List.length_replicate, List.getElem?_replicate,
    Nat.testBit_two_pow]
  by_cases hi : wid - 1 = i
  · subst hi
    simp [hpos]
  · simp [hi]

/-- The quotient by one word. -/
private theorem quotient_of_word {words a b : Nat} (hwords : 0 < words)
    (ha : a < 2 ^ (64 * words)) (hb : b ≠ 0) (htop : topOf b = 0) :
    (longDivide words a b).2 = a / b :=
  (longDivide_quotient_iff ha hb (by omega)).mpr (digitsFit_of_topOf hb htop ha)

private theorem topOf_of_lt {b : Nat} (hb : b ≠ 0) (hlt : b < 2 ^ 64) : topOf b = 0 :=
  topOf_eq (by rw [Nat.mul_zero, Nat.pow_zero]; omega) hlt

/-- An array of one word. -/
private theorem eq_singleton {xs : List (BitVec 64)} (hlen : xs.length = 1) :
    ∃ x, xs = [x] ∧ Words.value xs = x.toNat := by
  obtain ⟨x, rfl⟩ := List.length_eq_one_iff.mp hlen
  exact ⟨x, rfl, by rw [Words.value_cons, Words.value_nil, Nat.mul_zero, Nat.add_zero]⟩

private theorem subarray_of_known {v : Vector4} (h : v.hasXz = false) :
    subarray v = some (Vector2.subarray v) := by
  rw [subarray, h]
  rfl

private theorem subarray_of_x {v : Vector4} (h : v.hasXz = true) : subarray v = none := by
  rw [subarray, h]
  rfl

private theorem toNat_lt_words (v : Vector4) : v.toNat < 2 ^ (64 * wordCount v.length) :=
  Nat.lt_of_lt_of_le v.toNat_lt (Nat.pow_le_pow_right (by omega) (le_wordCount _))

section Known

variable {a b : Vector4} (ha : a.hasXz = false) (hb : b.hasXz = false)
  (hlen : a.length = b.length) (hpos : 0 < a.length)
include ha hb hlen hpos

/-- `%div` leaves the quotient that long division finds, or X bits. -/
theorem divVec4_known : divVec4 a b = some (if b.toNat = 0 then xVec a.length
    else Vector4.ofNat a.length (longDivide (wordCount a.length) a.toNat b.toNat).2) := by
  have hdividend := Vector2.value_subarray a
  have hdivisor := Vector2.value_subarray b
  have halen := length_subarray a
  have hblen := length_subarray b
  rw [← hlen] at hblen
  simp only [divVec4, subarray_of_known ha, subarray_of_known hb]
  by_cases hword : a.length ≤ 64
  · have hcount : wordCount a.length = 1 := by
      rw [wordCount]
      omega
    obtain ⟨x, hx, hxval⟩ := eq_singleton (halen.trans hcount)
    obtain ⟨y, hy, hyval⟩ := eq_singleton (hblen.trans hcount)
    rw [hxval] at hdividend
    rw [hyval] at hdivisor
    rw [if_pos hword, hx, hy, ← hdividend, ← hdivisor, hcount]
    by_cases hzero : y = 0
    · rw [if_pos (show [y].getD 0 0 = 0 from hzero), if_pos (by rw [hzero]; rfl)]
    · have hne : y.toNat ≠ 0 := fun h => hzero (BitVec.eq_of_toNat_eq h)
      rw [if_neg (show ¬ [y].getD 0 0 = 0 from hzero), if_neg hne,
        quotient_of_word Nat.one_pos x.isLt hne (topOf_of_lt hne y.isLt)]
      change some (setarray a.length [x / y]) = _
      rw [setarray_eq, Words.value_cons, Words.value_nil, Nat.mul_zero, Nat.add_zero,
        BitVec.toNat_udiv]
  · obtain ⟨hnull, hquot⟩ := divideBits_spec halen hblen hpos
    rw [if_neg hword]
    rw [hdividend, hdivisor] at hquot
    rw [hdivisor] at hnull
    by_cases hzero : b.toNat = 0
    · rw [hnull hzero, if_pos hzero, Option.map_some]
    · obtain ⟨s, hrun, -, -, hvalue⟩ := hquot hzero
      rw [hrun, if_neg hzero, Option.map_some]
      dsimp only
      rw [setarray_eq, ← hvalue]

/-- `%div/s` divides the magnitudes, and gives the quotient the sign. -/
theorem divSVec4_known : divSVec4 a b = some (if b.toNat = 0 then xVec a.length
    else Vector4.ofInt a.length
      (if xor (decide (a.toInt < 0)) (decide (b.toInt < 0)) then
        -((longDivide (wordCount a.length) a.toInt.natAbs b.toInt.natAbs).2 : Int)
      else (longDivide (wordCount a.length) a.toInt.natAbs b.toInt.natAbs).2)) := by
  have hpos' : 0 < b.length := hlen ▸ hpos
  have hmsb := msb_signExtend hpos
  have hmsb' := msb_signExtend hpos'
  rw [← hlen] at hmsb'
  simp only [divSVec4, subarray_of_known ha, subarray_of_known hb, hmsb, hmsb']
  by_cases hword : a.length ≤ 64
  · obtain ⟨x, hx, hxint⟩ := word_signExtend hpos hword
    obtain ⟨y, hy, hyint⟩ := word_signExtend hpos' (hlen ▸ hword)
    have hcount : wordCount a.length = 1 := by
      rw [wordCount]
      omega
    rw [← hlen] at hy
    rw [if_pos hword, hx, hy]
    change (if y = 0 then _ else if x = BitVec.intMin 64 ∧ y = -1 then _ else
      some (setarray a.length [x.sdiv y &&& ~~~ signMask a.length])) = _
    have hclear := setarray_clear hpos [x.sdiv y]
    rw [hcount] at hclear
    change setarray a.length [x.sdiv y &&& ~~~ signMask a.length] = _ at hclear
    by_cases hzero : y = 0
    · rw [if_pos hzero, if_pos (Vector4.toInt_eq_zero.mp (by rw [← hyint, hzero]; rfl))]
    · have hint : b.toInt ≠ 0 := by
        rw [← hyint]
        exact fun h => hzero (BitVec.eq_of_toInt_eq (h.trans BitVec.toInt_zero.symm))
      have habs := Vector4.natAbs_toInt_le hpos
      have habs' := Vector4.natAbs_toInt_le hpos'
      rw [← hlen] at habs'
      have hpow : 2 ^ (a.length - 1) ≤ 2 ^ 63 := Nat.pow_le_pow_right (by omega) (by omega)
      have hquot := @quotient_of_word 1 a.toInt.natAbs b.toInt.natAbs Nat.one_pos (by omega)
        (Int.natAbs_ne_zero.mpr hint)
        (topOf_of_lt (Int.natAbs_ne_zero.mpr hint) (by omega))
      rw [if_neg hzero, if_neg (mt Vector4.toInt_eq_zero.mpr hint), hcount, hquot,
        ← TwosComplement.tdiv_natAbs, hclear, setarray_word hword]
      split_ifs with hmin
      · obtain ⟨rfl, rfl⟩ := hmin
        have hmin : a.toInt = -2 ^ 63 := hxint.symm
        have hone : b.toInt = -1 := hyint.symm
        have hwid : a.length = 64 := by
          rw [hmin] at habs
          have hge := (Nat.pow_le_pow_iff_right (a := 2) (n := 63) (by omega)).mp habs
          omega
        rw [set_top hpos, hmin, hone, hwid, ← Vector4.ofInt_natCast]
        rfl
      · rw [BitVec.toInt_sdiv_of_ne_or_ne _ _ (not_and_or.mp hmin), hxint, hyint]
  · obtain ⟨hmlen, hmval⟩ := magnitude_spec hpos (decide (a.toInt < 0)) rfl
    obtain ⟨hmlen', hmval'⟩ := magnitude_spec hpos' (decide (b.toInt < 0)) rfl
    rw [← hlen] at hmlen' hmval'
    obtain ⟨hnull, hquot⟩ := divideBits_spec hmlen hmlen' hpos
    rw [hmval'] at hnull
    rw [hmval, hmval'] at hquot
    rw [if_neg hword]
    by_cases hzero : b.toNat = 0
    · rw [hnull (Int.natAbs_eq_zero.mpr (Vector4.toInt_eq_zero.mpr hzero)), if_pos hzero,
        Option.map_some]
    · have hint := Int.natAbs_ne_zero.mpr (mt Vector4.toInt_eq_zero.mp hzero)
      obtain ⟨s, hrun, -, hslen, hvalue⟩ := hquot hint
      rw [hrun, if_neg hzero, Option.map_some]
      dsimp only
      rw [setarray_clear hpos, setarray_negate hslen, ← hvalue]
      congr 2
      cases decide (a.toInt < 0) <;> cases decide (b.toInt < 0) <;> rfl

end Known

/-- Operands with X or Z bits leave X bits. -/
theorem divVec4_unknown {a b : Vector4} (h : a.hasXz = true ∨ b.hasXz = true) :
    divVec4 a b = some (xVec a.length) ∧ divSVec4 a b = some (xVec a.length) := by
  rw [divVec4, divSVec4]
  cases ha : a.hasXz with
  | true => simp only [subarray_of_x ha, and_self]
  | false =>
    have hb : b.hasXz = true := h.resolve_left (by rw [ha]; exact Bool.false_ne_true)
    simp only [subarray_of_known ha, subarray_of_x hb, and_self]

/-! ## When the quotient is right -/

theorem topOf_lt {words b : Nat} (hb : b ≠ 0) (hlt : b < 2 ^ (64 * words)) : topOf b < words := by
  have hpow := (Nat.pow_lt_pow_iff_right (by omega)).mp (Nat.lt_of_le_of_lt (topOf_spec hb).1 hlt)
  omega

/-- The quotient found has the bits of the width. -/
theorem longDivide_lt_two_pow {wid a b : Nat} (hwid : 0 < wid) (ha : a < 2 ^ wid) (hb : b ≠ 0) :
    (longDivide (wordCount wid) a b).2 < 2 ^ wid := by
  by_cases htop : topOf b = 0
  · have hwords : a < 2 ^ (64 * wordCount wid) :=
      Nat.lt_of_lt_of_le ha (Nat.pow_le_pow_right (by omega) (le_wordCount wid))
    rw [quotient_of_word (wordCount_pos hwid) hwords hb htop]
    exact Nat.lt_of_le_of_lt (Nat.div_le_self a b) ha
  · refine Nat.lt_of_lt_of_le (longDivide_quotient_lt _ a b) (Nat.pow_le_pow_right (by omega) ?_)
    rw [wordCount]
    omega

/-- Numbers of the width are told apart by their bits, with a sign or without. -/
private theorem ofInt_sign_eq_iff {wid m n : Nat} (hm : m < 2 ^ wid) (hn : n < 2 ^ wid)
    (negate : Bool) : Vector4.ofInt wid (if negate then -(m : Int) else m) =
      Vector4.ofInt wid (if negate then -(n : Int) else n) ↔ m = n := by
  have hmod : (m : Int) ≡ n [ZMOD 2 ^ wid] ↔ m = n := by
    rw [show (2 : Int) ^ wid = ((2 ^ wid : Nat) : Int) by push_cast; rfl, Int.natCast_modEq_iff,
      Nat.ModEq, Nat.mod_eq_of_lt hm, Nat.mod_eq_of_lt hn]
  rw [Vector4.ofInt_eq_iff]
  cases negate with
  | false => exact hmod
  | true => exact Int.neg_modEq_neg.trans hmod

/-- `%div` and `%div/s` leave X bits where there is no quotient, and elsewhere the right quotient
exactly if the trial digits fit; so does `divide_bits`. -/
theorem div_correct_iff (a b : Vector4) (stack : List Vector4) (hlen : a.length = b.length)
    (hpos : 0 < a.length) :
    (a.hasXz = true ∨ b.hasXz = true ∨ b.toNat = 0 →
      ofDiv (b :: a :: stack) = some (xVec a.length :: stack) ∧
        ofDivS (b :: a :: stack) = some (xVec a.length :: stack)) ∧
    (a.hasXz = false → b.hasXz = false → b.toNat ≠ 0 →
      (ofDiv (b :: a :: stack) = some (Vector4.ofNat a.length (a.toNat / b.toNat) :: stack) ↔
        DigitsFit (wordCount a.length) a.toNat b.toNat) ∧
      (ofDivS (b :: a :: stack) =
          some (Vector4.ofInt a.length (a.toInt.tdiv b.toInt) :: stack) ↔
        DigitsFit (wordCount a.length) a.toInt.natAbs b.toInt.natAbs)) ∧
    ∀ ap bp : List (BitVec 64), ap.length = wordCount a.length →
      bp.length = wordCount a.length → Words.value bp ≠ 0 →
      ∃ s, divideBits ap bp a.length = some (some s) ∧
        (Words.value s.result * Words.value bp + Words.value s.ap = Words.value ap ∧
          Words.value s.ap < Words.value bp ↔
            DigitsFit (wordCount a.length) (Words.value ap) (Words.value bp)) := by
  have hcons : ∀ {op : Vector4 → Vector4 → Option Vector4} {v w : Vector4}, op a b = some v →
      (binaryOp op (b :: a :: stack) = some (w :: stack) ↔ v = w) := by
    intro op v w hop
    rw [binaryOp, if_pos hlen, hop, Option.map_some, Option.some_inj, List.cons.injEq,
      and_iff_left rfl]
  refine ⟨fun hx => ?_, fun ha hb hzero => ⟨?_, ?_⟩, fun ap bp hap hbp hne => ?_⟩
  · by_cases hxz : a.hasXz = true ∨ b.hasXz = true
    · obtain ⟨hdiv, hdivS⟩ := divVec4_unknown hxz
      exact ⟨(hcons hdiv).mpr rfl, (hcons hdivS).mpr rfl⟩
    · obtain ⟨ha, hb⟩ := not_or.mp hxz
      have hzero : b.toNat = 0 := (hx.resolve_left ha).resolve_left hb
      have hdiv := divVec4_known (Bool.eq_false_iff.mpr ha) (Bool.eq_false_iff.mpr hb) hlen hpos
      have hdivS := divSVec4_known (Bool.eq_false_iff.mpr ha) (Bool.eq_false_iff.mpr hb) hlen hpos
      rw [if_pos hzero] at hdiv hdivS
      exact ⟨(hcons hdiv).mpr rfl, (hcons hdivS).mpr rfl⟩
  · have hdiv := divVec4_known ha hb hlen hpos
    rw [if_neg hzero] at hdiv
    have hwords := toNat_lt_words b
    rw [← hlen] at hwords
    have hquot : a.toNat / b.toNat < 2 ^ a.length :=
      Nat.lt_of_le_of_lt (Nat.div_le_self _ _) a.toNat_lt
    rw [ofDiv, hcons hdiv, Vector4.ofNat_eq_iff, Nat.mod_eq_of_lt hquot,
      Nat.mod_eq_of_lt (longDivide_lt_two_pow hpos a.toNat_lt hzero)]
    exact longDivide_quotient_iff (toNat_lt_words a) hzero (topOf_lt hzero hwords)
  · have hdiv := divSVec4_known ha hb hlen hpos
    rw [if_neg hzero] at hdiv
    have hint := Int.natAbs_ne_zero.mpr (mt Vector4.toInt_eq_zero.mp hzero)
    have hdividend := Vector4.natAbs_toInt_lt hpos
    have hdivisor := Vector4.natAbs_toInt_lt (hlen ▸ hpos)
    rw [← hlen] at hdivisor
    have hle : 2 ^ a.length ≤ 2 ^ (64 * wordCount a.length) :=
      Nat.pow_le_pow_right (by omega) (le_wordCount _)
    have hquot : a.toInt.natAbs / b.toInt.natAbs < 2 ^ a.length :=
      Nat.lt_of_le_of_lt (Nat.div_le_self _ _) hdividend
    rw [ofDivS, hcons hdiv, TwosComplement.tdiv_natAbs,
      ofInt_sign_eq_iff (longDivide_lt_two_pow hpos hdividend hint) hquot]
    exact longDivide_quotient_iff (by omega) hint (topOf_lt hint (by omega))
  · obtain ⟨s, hrun, -, -, hvalue⟩ := (divideBits_spec hap hbp hpos).2 hne
    refine ⟨s, hrun, ?_⟩
    have hdividend := Words.value_lt ap
    have hdivisor := Words.value_lt bp
    rw [hap] at hdividend
    rw [hbp] at hdivisor
    have hiff := longDivide_quotient_iff hdividend hne (topOf_lt hne hdivisor)
    have hrest := congrArg Prod.fst hvalue
    have hquot := congrArg Prod.snd hvalue
    dsimp only at hrest hquot
    rw [hrest, hquot]
    constructor
    · rintro ⟨hsum, hlt⟩
      apply hiff.mp
      rw [Nat.add_comm, Nat.mul_comm] at hsum
      exact ((Nat.div_mod_unique (Nat.pos_of_ne_zero hne)).mpr ⟨hsum, hlt⟩).1.symm
    · intro hfit
      rw [hiff.mpr hfit, longDivide_rest hdividend hne (topOf_lt hne hdivisor) hfit, Nat.mul_comm]
      exact ⟨Nat.div_add_mod _ _, Nat.mod_lt _ (Nat.pos_of_ne_zero hne)⟩

/-- Seven by two, and minus seven by two, in four bits. -/
theorem div_correct_iff_example :
    ofDiv [[.zero, .one, .zero, .zero], [.one, .one, .one, .zero]] = some [Vector4.ofNat 4 3] ∧
      ofDivS [[.zero, .one, .zero, .zero], [.one, .zero, .zero, .one]] =
        some [Vector4.ofInt 4 (-3)] :=
  ⟨((div_correct_iff [.one, .one, .one, .zero] [.zero, .one, .zero, .zero] [] rfl
      (by decide)).2.1 rfl rfl (by decide)).1.mpr (by decide),
    ((div_correct_iff [.one, .zero, .zero, .one] [.zero, .one, .zero, .zero] [] rfl
      (by decide)).2.1 rfl rfl (by decide)).2.mpr (by decide)⟩

/-- `%div` on numbers. -/
theorem ofDiv_ofNat {wid m n : Nat} (hwid : 0 < wid) (hm : m < 2 ^ wid) (hn : n < 2 ^ wid)
    (hne : n ≠ 0) : ofDiv [Vector4.ofNat wid n, Vector4.ofNat wid m] =
      some [Vector4.ofNat wid (longDivide (wordCount wid) m n).2] := by
  have hdiv := divVec4_known (Vector4.hasXz_ofNat wid m) (Vector4.hasXz_ofNat wid n)
    (by simp) (by simpa using hwid)
  rw [Vector4.toNat_ofNat, Vector4.toNat_ofNat, Nat.mod_eq_of_lt hm, Nat.mod_eq_of_lt hn,
    if_neg hne, Vector4.length_ofNat] at hdiv
  rw [ofDiv, binaryOp, if_pos (by simp), hdiv, Option.map_some]

/-- A multiple that does not fit gives a quotient that is too large, and a trial digit that is
reduced to zero one that is too small. -/
theorem div_loses_digits :
    ofDiv [Vector4.ofNat 128 (2 ^ 65 - 1), Vector4.ofNat 128 (2 ^ 128 - 2 ^ 64)] =
        some [Vector4.ofNat 128 (2 ^ 64 - 1)] ∧
      (2 ^ 128 - 2 ^ 64) / (2 ^ 65 - 1) = 2 ^ 63 - 1 ∧
    ofDiv [Vector4.ofNat 192 (2 ^ 65 - 1), Vector4.ofNat 192 (2 ^ 128)] =
        some [Vector4.ofNat 192 0] ∧
      2 ^ 128 / (2 ^ 65 - 1) = 2 ^ 63 := by
  have hlarge : (longDivide 2 (2 ^ 128 - 2 ^ 64) (2 ^ 65 - 1)).2 = 2 ^ 64 - 1 := by decide +kernel
  have hsmall : (longDivide 3 (2 ^ 128) (2 ^ 65 - 1)).2 = 0 := by decide +kernel
  refine ⟨?_, by norm_num, ?_, by norm_num⟩
  · rw [ofDiv_ofNat (by norm_num) (by norm_num) (by norm_num) (by norm_num)]
    exact congrArg (fun n => some [Vector4.ofNat 128 n]) hlarge
  · rw [ofDiv_ofNat (by norm_num) (by norm_num) (by norm_num) (by norm_num)]
    exact congrArg (fun n => some [Vector4.ofNat 192 n]) hsmall

end Icarus.Vvp
