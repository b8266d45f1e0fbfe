import Icarus.Vvp.Planes.Subarray
import Icarus.Vvp.Thread.PartWrite

/-!
# Vectors as indices

`%ix/vec4` and `%ix/vec4/s` pop a vector into an index register. Flag 4 tells whether it had X or
Z bits, or whether it does not fit.
-/

namespace Icarus.Vvp

open Icarus.Core

/-- The loop of `vec4_to_index` over the words of the array, at the bit `idx`: the value and
flag 4. -/
def indexLoop (signedFlag : Bool) (v : BitVec 64) (idx : Nat) : List (BitVec 64) → BitVec 64 × Bit4
  | [] => (v, .zero)
  | tmp :: rest =>
    if idx < 64 then indexLoop signedFlag (v ||| (tmp <<< idx)) (idx + 64) rest
    else
      let overflow := if signedFlag && v.msb then ~~~ tmp ≠ 0 else tmp ≠ 0
      if overflow then (v, .x) else indexLoop signedFlag v (idx + 64) rest

/-- `vec4_to_index` of a size and its array, the null pointer where it has X or Z bits: the index
and flag 4. -/
def vec4ToIndex (signedFlag : Bool) (valSize : Nat) (bits : Option (List (BitVec 64))) :
    BitVec 64 × Bit4 :=
  match bits with
  | none => (0, .one)
  | some bits =>
    let (v, flag) := indexLoop signedFlag 0 0 bits
    if valSize < 64 then
      if signedFlag && v &&& ((1 : BitVec 64) <<< (valSize - 1)) ≠ 0 then
        (v ||| (BitVec.allOnes 64 <<< valSize), flag)
      else (v &&& ~~~ (BitVec.allOnes 64 <<< valSize), flag)
    else (v, flag)

/-- An index register and flag 4 set from the vector on top of the stack. -/
def ixVec4 (signedFlag : Bool) (thr : Thread) (useIdx : Fin 16) : Option Thread := do
  let (val, thr) ← thr.popVec4
  let (v, flag) := vec4ToIndex signedFlag val.val.length (subarray val.val)
  return { thr with
    words := Function.update thr.words useIdx v
    flags := Function.update thr.flags 4 flag }

/-- `of_IX_VEC4`. -/
def ofIxVec4 : Thread → Fin 16 → Option Thread := ixVec4 false

/-- `of_IX_VEC4_S`. -/
def ofIxVec4S : Thread → Fin 16 → Option Thread := ixVec4 true

/-! ## The value that is meant -/

/-- The integer of a vector. -/
def intValue (signedFlag : Bool) (v : Vector4) : Int := if signedFlag then v.toInt else v.toNat

/-- The integer of an index register. -/
def registerValue (signedFlag : Bool) (x : BitVec 64) : Int :=
  if signedFlag then x.toInt else x.toNat

/-- Integers of 64 bits. -/
def Fits (signedFlag : Bool) (i : Int) : Prop :=
  if signedFlag then -2 ^ 63 ≤ i ∧ i < 2 ^ 63 else 0 ≤ i ∧ i < 2 ^ 64

/-- Flag 4 is 1 and the index 0 for a vector with X or Z bits; flag 4 is 0 and the index the
integer where it fits; flag 4 is X otherwise. -/
def IndexRight (signedFlag : Bool) (v : Vector4) (x : BitVec 64) (flag : Bit4) : Prop :=
  (flag = .one ∧ x = 0 ↔ v.hasXz = true) ∧
  (flag = .zero ∧ registerValue signedFlag x = intValue signedFlag v ↔
    v.hasXz = false ∧ Fits signedFlag (intValue signedFlag v)) ∧
  (flag = .x ↔ v.hasXz = false ∧ ¬ Fits signedFlag (intValue signedFlag v))

/-- A negative integer of 64 bits in a longer vector whose last word is only partly used. -/
def NegativePadded (v : Vector4) : Prop :=
  v.hasXz = false ∧ 64 < v.length ∧ v.length % 64 ≠ 0 ∧ -2 ^ 63 ≤ v.toInt ∧ v.toInt < 0

instance (v : Vector4) : Decidable (NegativePadded v) :=
  inferInstanceAs (Decidable (_ ∧ _ ∧ _ ∧ _ ∧ _))

theorem indexRight_xz {signedFlag : Bool} {v : Vector4} (h : v.hasXz = true) :
    IndexRight signedFlag v 0 .one := by
  unfold IndexRight
  simp [h]

theorem indexRight_known {signedFlag : Bool} {v : Vector4} {x : BitVec 64} {flag : Bit4}
    (h : v.hasXz = false) : IndexRight signedFlag v x flag ↔
      (Fits signedFlag (intValue signedFlag v) →
        flag = .zero ∧ registerValue signedFlag x = intValue signedFlag v) ∧
      (¬ Fits signedFlag (intValue signedFlag v) → flag = .x) := by
  unfold IndexRight
  by_cases hfits : Fits signedFlag (intValue signedFlag v)
  · simp only [h, hfits, Bool.false_eq_true, iff_false, and_true, iff_true, not_true,
      and_false, true_imp_iff, false_imp_iff]
    constructor
    · exact fun hright => hright.2.1
    · rintro ⟨rfl, hvalue⟩
      simp [hvalue]
  · simp only [h, hfits, Bool.false_eq_true, iff_false, and_false, not_false_iff, and_true,
      iff_true, true_imp_iff, false_imp_iff, true_and]
    constructor
    · exact fun hright => hright.2.2
    · rintro rfl
      simp

/-! ## The words -/

/-- The words above the first that a value of one word has. -/
def highWord (signedFlag : Bool) (v : BitVec 64) : BitVec 64 :=
  if signedFlag && v.msb then BitVec.allOnes 64 else 0

theorem indexLoop_high (signedFlag : Bool) (v : BitVec 64) {idx : Nat} (hidx : 64 ≤ idx)
    (ws : List (BitVec 64)) : indexLoop signedFlag v idx ws =
      (v, if ∀ w ∈ ws, w = highWord signedFlag v then .zero else .x) := by
  induction ws generalizing idx with
  | nil => simp [indexLoop]
  | cons tmp rest ih =>
    have hover : (if signedFlag && v.msb then ~~~ tmp ≠ 0 else tmp ≠ 0) ↔
        tmp ≠ highWord signedFlag v := by
      unfold highWord
      split_ifs
      · rw [show (0 : BitVec 64) = ~~~ BitVec.allOnes 64 by decide, ne_eq, BitVec.not_inj]
      · rfl
    rw [indexLoop, if_neg (by omega), ih (by omega)]
    dsimp only
    simp only [hover, List.forall_mem_cons]
    by_cases htmp : tmp = highWord signedFlag v
    · simp [htmp]
    · simp [htmp]

/-- The first word and the others. -/
theorem subarray_eq_cons {v : Vector4} (hpos : 0 < v.length) : ∃ w ws,
    Vector2.subarray v = w :: ws ∧ ws.length + 1 = wordCount v.length ∧
      v.toNat = w.toNat + 2 ^ 64 * Words.value ws := by
  have hlen := length_subarray v
  have hcount : 0 < wordCount v.length := by
    rw [wordCount]
    omega
  cases hwords : Vector2.subarray v with
  | nil =>
    rw [hwords, List.length_nil] at hlen
    omega
  | cons w ws =>
    rw [hwords, List.length_cons] at hlen
    refine ⟨w, ws, rfl, hlen, ?_⟩
    rw [← Vector2.value_subarray, hwords, Words.value_cons]

/-- The loop gives the first word, and tests the others. -/
theorem indexLoop_cons (signedFlag : Bool) (w : BitVec 64) (ws : List (BitVec 64)) :
    indexLoop signedFlag 0 0 (w :: ws) =
      (w, if ∀ x ∈ ws, x = highWord signedFlag w then .zero else .x) := by
  have hfirst : (0 : BitVec 64) ||| (w <<< 0) = w := by
    rw [BitVec.shiftLeft_zero]
    exact BitVec.zero_or
  rw [indexLoop, if_pos (by omega), hfirst]
  exact indexLoop_high signedFlag w (le_refl 64) ws

theorem forall_eq_zero (ws : List (BitVec 64)) : (∀ x ∈ ws, x = 0) ↔ Words.value ws = 0 :=
  Words.value_eq_zero.symm

theorem forall_eq_allOnes (ws : List (BitVec 64)) :
    (∀ x ∈ ws, x = BitVec.allOnes 64) ↔ Words.value ws + 1 = 2 ^ (64 * ws.length) := by
  induction ws with
  | nil => simp
  | cons x ws ih =>
    have hx := x.isLt
    have hlt := Words.value_lt ws
    have hone : x = BitVec.allOnes 64 ↔ x.toNat + 1 = 2 ^ 64 := by
      rw [← BitVec.toNat_inj, BitVec.toNat_allOnes]
      omega
    rw [List.forall_mem_cons, ih, hone, Words.value_cons, List.length_cons,
      Words.two_pow_mul_succ]
    generalize 2 ^ (64 * ws.length) = p at *
    constructor
    · rintro ⟨hx, hws⟩
      omega
    · intro h
      omega

/-! ## The result -/

/-- A word with its sign extended from a size. -/
theorem toInt_signFill {w : BitVec 64} {n : Nat} (hn : n < 64) (hlt : w.toNat < 2 ^ n) :
    (w ||| (BitVec.allOnes 64 <<< n)).toInt = w.toNat - 2 ^ n := by
  have hhigh := Words.toNat_high (w := 64) hn.le
  have hand : w &&& (BitVec.allOnes 64 <<< n) = 0#64 := by
    apply BitVec.eq_of_getLsbD_eq
    intro i _
    rw [BitVec.getLsbD_and, BitVec.getLsbD_shiftLeft, BitVec.getLsbD_zero]
    by_cases hi : i < n
    · rw [decide_eq_true hi, Bool.not_true, Bool.and_false, Bool.false_and, Bool.and_false]
    · have hle : 2 ^ n ≤ 2 ^ i := Nat.pow_le_pow_right (by omega) (by omega)
      rw [← BitVec.testBit_toNat, Nat.testBit_lt_two_pow (by omega), Bool.false_and]
  have hor : (w ||| (BitVec.allOnes 64 <<< n)).toNat = w.toNat + (2 ^ 64 - 2 ^ n) := by
    rw [← hhigh, ← BitVec.toNat_add_of_and_eq_zero hand, BitVec.add_eq_or_of_and_eq_zero _ _ hand]
  have hle : 2 ^ n ≤ 2 ^ 63 := Nat.pow_le_pow_right (by omega) (by omega)
  have hcast : ((2 ^ n : Nat) : Int) = 2 ^ n := by push_cast; rfl
  rw [BitVec.toInt_eq_toNat_cond, hor, ← hcast]
  split_ifs <;> omega

/-- A vector of at most a word: its word with the high bits filled. -/
theorem vec4ToIndex_short (signedFlag : Bool) {v : Vector4} (hknown : v.hasXz = false)
    (hpos : 0 < v.length) (hshort : v.length ≤ 64) :
    ∃ x, vec4ToIndex signedFlag v.length (subarray v) = (x, .zero) ∧
      registerValue signedFlag x = intValue signedFlag v := by
  obtain ⟨w, ws, hwords, hlen, hvalue⟩ := subarray_eq_cons hpos
  have hcount : wordCount v.length = 1 := by
    rw [wordCount]
    omega
  obtain rfl : ws = [] := List.length_eq_zero_iff.mp (by omega)
  rw [Words.value_nil, Nat.mul_zero, Nat.add_zero] at hvalue
  have hlt := v.toNat_lt
  have htop := Vector4.testBit_top hpos
  rw [subarray, if_neg (Bool.eq_false_iff.mp hknown), vec4ToIndex, hwords]
  dsimp only
  rw [indexLoop_cons, if_pos (List.forall_mem_nil _)]
  dsimp only
  by_cases hword : v.length < 64
  · rw [if_pos hword]
    have hpow : 2 ^ v.length ≤ 2 ^ 63 := Nat.pow_le_pow_right (by omega) (by omega)
    have hbit : w &&& ((1 : BitVec 64) <<< (v.length - 1)) ≠ 0 ↔ 2 ^ (v.length - 1) ≤ v.toNat := by
      have htest : w.getLsbD (v.length - 1) = v.toNat.testBit (v.length - 1) := by
        rw [hvalue, BitVec.testBit_toNat]
      rw [Words.and_bit_ne_zero w (by omega), htest, htop, decide_eq_true_iff]
    by_cases hneg : signedFlag = true ∧ 2 ^ (v.length - 1) ≤ v.toNat
    · rw [if_pos (by rw [hneg.1, Bool.true_and]; exact decide_eq_true (hbit.mpr hneg.2))]
      refine ⟨_, rfl, ?_⟩
      have hint := Vector4.toInt_of_top (htop.trans (decide_eq_true hneg.2))
      have hcast : ((2 ^ v.length : Nat) : Int) = 2 ^ v.length := by push_cast; rfl
      rw [registerValue, if_pos hneg.1, intValue, if_pos hneg.1,
        toInt_signFill hword (hvalue ▸ hlt), hint, ← hcast]
      omega
    · have hcond : ¬ (signedFlag && decide (w &&& ((1 : BitVec 64) <<< (v.length - 1)) ≠ 0)) = true := by
        rw [Bool.and_eq_true, decide_eq_true_iff]
        exact fun h => hneg ⟨h.1, hbit.mp h.2⟩
      have hkeep : w &&& ~~~ (BitVec.allOnes 64 <<< v.length) = w := by
        apply BitVec.eq_of_toNat_eq
        rw [not_allOnes_shiftLeft hword, toNat_and_lowMask _ hword, Nat.mod_eq_of_lt (hvalue ▸ hlt)]
      rw [if_neg hcond, hkeep]
      refine ⟨w, rfl, ?_⟩
      unfold registerValue intValue
      cases signedFlag with
      | false => exact congrArg Nat.cast hvalue.symm
      | true =>
        have hnot : v.toNat.testBit (v.length - 1) = false :=
          htop.trans (decide_eq_false fun h => hneg ⟨rfl, h⟩)
        rw [if_pos rfl, if_pos rfl, Vector4.toInt_of_not_top hnot, hvalue,
          BitVec.toInt_eq_toNat_cond, if_pos (by omega)]
  · rw [if_neg hword]
    refine ⟨w, rfl, ?_⟩
    obtain hfull : v.length = 64 := by omega
    unfold registerValue intValue
    cases signedFlag with
    | false => exact congrArg Nat.cast hvalue.symm
    | true =>
      rw [if_pos rfl, if_pos rfl, BitVec.toInt_eq_toNat_cond, ← hvalue]
      rw [hfull] at htop hlt
      by_cases hneg : 2 ^ 63 ≤ v.toNat
      · rw [if_neg (by omega), Vector4.toInt_of_top (by rw [hfull, htop]; exact decide_eq_true hneg),
          hfull]
        omega
      · rw [if_pos (by omega),
          Vector4.toInt_of_not_top (by rw [hfull, htop]; exact decide_eq_false hneg)]

/-- A vector of more than a word: its first word, and whether the others go with it. -/
theorem vec4ToIndex_long (signedFlag : Bool) {v : Vector4} (hknown : v.hasXz = false)
    (hlong : 64 < v.length) : ∃ w ws, ws.length + 1 = wordCount v.length ∧
      v.toNat = w.toNat + 2 ^ 64 * Words.value ws ∧
      vec4ToIndex signedFlag v.length (subarray v) =
        (w, if ∀ x ∈ ws, x = highWord signedFlag w then .zero else .x) := by
  obtain ⟨w, ws, hwords, hlen, hvalue⟩ := subarray_eq_cons (show 0 < v.length by omega)
  refine ⟨w, ws, hlen, hvalue, ?_⟩
  rw [subarray, if_neg (Bool.eq_false_iff.mp hknown), vec4ToIndex, hwords]
  dsimp only
  rw [if_neg (by omega), indexLoop_cons]

theorem vec4ToIndex_unsigned {v : Vector4} (hpos : 0 < v.length) :
    IndexRight false v (vec4ToIndex false v.length (subarray v)).1
      (vec4ToIndex false v.length (subarray v)).2 := by
  cases hxz : v.hasXz with
  | true =>
    rw [subarray, if_pos hxz]
    exact indexRight_xz hxz
  | false =>
    rw [indexRight_known hxz]
    have hlt := v.toNat_lt
    rcases Nat.lt_or_ge 64 v.length with hlong | hshort
    · obtain ⟨w, ws, -, hvalue, hresult⟩ := vec4ToIndex_long false hxz hlong
      have hw := w.isLt
      rw [hresult]
      simp only [highWord, Bool.false_and, Bool.false_eq_true, if_false, forall_eq_zero, Fits,
        registerValue, intValue]
      constructor
      · rintro ⟨-, hfits⟩
        have hzero : Words.value ws = 0 := by omega
        rw [if_pos hzero, hvalue, hzero]
        exact ⟨rfl, rfl⟩
      · intro hfits
        exact if_neg fun hzero => hfits (by omega)
    · obtain ⟨x, hresult, hvalue⟩ := vec4ToIndex_short false hxz hpos hshort
      have hpow : 2 ^ v.length ≤ 2 ^ 64 := Nat.pow_le_pow_right (by omega) hshort
      rw [hresult]
      refine ⟨fun _ => ⟨rfl, hvalue⟩, fun hfits => absurd ?_ hfits⟩
      simp only [Fits, intValue, Bool.false_eq_true, if_false]
      omega

/-- A long vector whose first word is not negative fits when the other words are clear. -/
theorem fits_of_not_msb {v : Vector4} {w : BitVec 64} {ws : List (BitVec 64)}
    (hlong : 64 < v.length) (hvalue : v.toNat = w.toNat + 2 ^ 64 * Words.value ws)
    (hmsb : w.msb = false) :
    (Words.value ws = 0 → v.toInt = w.toNat) ∧
      (-2 ^ 63 ≤ v.toInt ∧ v.toInt < 2 ^ 63 ↔ Words.value ws = 0) := by
  have hw : w.toNat < 2 ^ 63 := by
    have := BitVec.msb_eq_false_iff_two_mul_lt.mp hmsb
    omega
  have hlt := v.toNat_lt
  have htop := Vector4.testBit_top (show 0 < v.length by omega)
  obtain ⟨k, hk⟩ : ∃ k, v.length = 64 + k := ⟨v.length - 64, by omega⟩
  have hpow : 2 ^ v.length = 2 ^ 64 * 2 ^ k := by rw [hk, Nat.pow_add]
  have hhalf : 2 ^ 64 ≤ 2 ^ (v.length - 1) := Nat.pow_le_pow_right (by omega) (by omega)
  by_cases hneg : 2 ^ (v.length - 1) ≤ v.toNat
  · have hint := Vector4.toInt_of_top (htop.trans (decide_eq_true hneg))
    refine ⟨fun hzero => by omega, iff_of_false (fun hfits => ?_) fun hzero => by omega⟩
    -- the number is a whole of words and the first word short of the power
    have hq : Words.value ws < 2 ^ k := by omega
    omega
  · have hint := Vector4.toInt_of_not_top (htop.trans (decide_eq_false hneg))
    refine ⟨fun hzero => by omega, ⟨fun hfits => by omega, fun hzero => by omega⟩⟩

/-- A long vector whose first word is negative fits when it is negative and not below the first
word. -/
theorem fits_of_msb {v : Vector4} {w : BitVec 64} {ws : List (BitVec 64)}
    (hlong : 64 < v.length) (hvalue : v.toNat = w.toNat + 2 ^ 64 * Words.value ws)
    (hmsb : w.msb = true) :
    (-2 ^ 63 ≤ v.toInt ∧ v.toInt < 2 ^ 63 ↔ Words.value ws + 1 = 2 ^ (v.length - 64)) ∧
      (Words.value ws + 1 = 2 ^ (v.length - 64) → v.toInt = w.toInt ∧ v.toInt < 0) := by
  have hw : 2 ^ 63 ≤ w.toNat := by
    have := BitVec.msb_eq_true_iff_two_mul_ge.mp hmsb
    omega
  have hword := w.isLt
  have hlt := v.toNat_lt
  have htop := Vector4.testBit_top (show 0 < v.length by omega)
  have hwint : w.toInt = w.toNat - 2 ^ 64 := by
    rw [BitVec.toInt_eq_toNat_cond, if_neg (by omega)]
    rfl
  obtain ⟨k, hk⟩ : ∃ k, v.length = 64 + k := ⟨v.length - 64, by omega⟩
  have hpow : 2 ^ v.length = 2 ^ 64 * 2 ^ k := by rw [hk, Nat.pow_add]
  have hpred : 2 ^ v.length = 2 * 2 ^ (v.length - 1) := by
    rw [← Nat.pow_succ', Nat.succ_eq_add_one, Nat.sub_add_cancel (by omega)]
  have hpos : 2 ≤ 2 ^ k := by
    rw [show k = (k - 1) + 1 by omega, Nat.pow_succ]
    have := Nat.one_le_two_pow (n := k - 1)
    omega
  rw [show v.length - 64 = k by omega]
  by_cases hneg : 2 ^ (v.length - 1) ≤ v.toNat
  · have hint := Vector4.toInt_of_top (htop.trans (decide_eq_true hneg))
    generalize 2 ^ k = p at *
    refine ⟨⟨fun hfits => by omega, fun hlast => by omega⟩, fun hlast => by omega⟩
  · have hint := Vector4.toInt_of_not_top (htop.trans (decide_eq_false hneg))
    generalize 2 ^ k = p at *
    refine ⟨⟨fun hfits => by omega, fun hlast => by omega⟩, fun hlast => by omega⟩

/-- The words above the first one of a negative integer are all ones only where the last one is
fully used. -/
theorem forall_allOnes_iff {v : Vector4} {w : BitVec 64} {ws : List (BitVec 64)}
    (hlong : 64 < v.length) (hlen : ws.length + 1 = wordCount v.length)
    (hvalue : v.toNat = w.toNat + 2 ^ 64 * Words.value ws) :
    (∀ x ∈ ws, x = BitVec.allOnes 64) ↔
      v.length % 64 = 0 ∧ Words.value ws + 1 = 2 ^ (v.length - 64) := by
  rw [forall_eq_allOnes]
  have hcount : wordCount v.length = (v.length + 63) / 64 := rfl
  by_cases hfull : v.length % 64 = 0
  · rw [show 64 * ws.length = v.length - 64 by omega]
    exact (and_iff_right hfull).symm
  · have hlt := v.toNat_lt
    obtain ⟨k, hk⟩ : ∃ k, v.length = 64 + k := ⟨v.length - 64, by omega⟩
    have hpow : 2 ^ v.length = 2 ^ 64 * 2 ^ k := by rw [hk, Nat.pow_add]
    have hshort : 2 ^ k < 2 ^ (64 * ws.length) := Nat.pow_lt_pow_right (by omega) (by omega)
    exact iff_of_false (by omega) fun h => hfull h.1

/-- The signed index is right except for a negative integer of 64 bits whose last word is only
partly used: the bits of that word above the size are clear. -/
theorem vec4ToIndex_signed {v : Vector4} (hpos : 0 < v.length) :
    IndexRight true v (vec4ToIndex true v.length (subarray v)).1
      (vec4ToIndex true v.length (subarray v)).2 ↔ ¬ NegativePadded v := by
  cases hxz : v.hasXz with
  | true =>
    rw [subarray, if_pos hxz]
    exact iff_of_true (indexRight_xz hxz) fun h => Bool.false_ne_true (h.1.symm.trans hxz)
  | false =>
    rw [indexRight_known hxz]
    have hfits : Fits true (intValue true v) ↔ -2 ^ 63 ≤ v.toInt ∧ v.toInt < 2 ^ 63 := Iff.rfl
    rcases Nat.lt_or_ge 64 v.length with hlong | hshort
    · obtain ⟨w, ws, hlen, hvalue, hresult⟩ := vec4ToIndex_long true hxz hlong
      rw [hresult, hfits]
      dsimp only
      cases hmsb : w.msb with
      | false =>
        obtain ⟨hint, hiff⟩ := fits_of_not_msb hlong hvalue hmsb
        have hreg : w.toInt = w.toNat := by
          have := BitVec.msb_eq_false_iff_two_mul_lt.mp hmsb
          rw [BitVec.toInt_eq_toNat_cond, if_pos (by omega)]
        simp only [highWord, hmsb, Bool.and_false, Bool.false_eq_true, if_false, forall_eq_zero, hiff]
        refine iff_of_true ⟨fun hzero => ⟨if_pos hzero, ?_⟩, fun hzero => if_neg hzero⟩ ?_
        · exact hreg.trans (hint hzero).symm
        · rintro ⟨-, -, -, hle, hneg⟩
          have := hint (hiff.mp ⟨hle, by omega⟩)
          omega
      | true =>
        obtain ⟨hiff, hint⟩ := fits_of_msb hlong hvalue hmsb
        simp only [highWord, hmsb, Bool.and_true, if_true, forall_allOnes_iff hlong hlen hvalue, hiff]
        by_cases hfull : v.length % 64 = 0
        · simp only [hfull, true_and]
          refine iff_of_true ⟨fun hlast => ⟨if_pos hlast, (hint hlast).1.symm⟩,
            fun hlast => if_neg hlast⟩ fun h => h.2.2.1 hfull
        · simp only [hfull, false_and, if_false]
          constructor
          · rintro ⟨hzero, -⟩ ⟨-, -, -, hle, hneg⟩
            exact absurd (hzero (hiff.mp ⟨hle, by omega⟩)).1 (by decide)
          · intro hnot
            refine ⟨fun hlast => absurd ?_ hnot, fun _ => trivial⟩
            exact ⟨hxz, hlong, hfull, (hiff.mpr hlast).1, (hint hlast).2⟩
    · obtain ⟨x, hresult, hvalue⟩ := vec4ToIndex_short true hxz hpos hshort
      have hint : x.toInt = v.toInt := hvalue
      have hle := BitVec.le_toInt x
      have hlt := BitVec.toInt_lt (x := x)
      rw [hresult, hfits]
      refine iff_of_true ⟨fun _ => ⟨rfl, hvalue⟩, fun hnot => absurd ?_ hnot⟩ fun h => ?_
      · omega
      · exact absurd h.2.1 (by omega)

theorem ixVec4_eq (signedFlag : Bool) {thr : Thread} (useIdx : Fin 16)
    {v : {v : Vector4 // v.length < 2 ^ 32}} {rest : List {v : Vector4 // v.length < 2 ^ 32}}
    (htop : thr.stackVec4 = v :: rest) : ixVec4 signedFlag thr useIdx = some { thr with
      stackVec4 := rest
      words := Function.update thr.words useIdx
        (vec4ToIndex signedFlag v.val.length (subarray v.val)).1
      flags := Function.update thr.flags 4
        (vec4ToIndex signedFlag v.val.length (subarray v.val)).2 } := by
  rw [ixVec4, Thread.popVec4, htop]
  rfl

/-- `%ix/vec4` is right for every vector, and `%ix/vec4/s` unless the vector is a negative integer
of 64 bits in more than 64 bits that do not fill a word. -/
theorem ix_vec4_iff (thr : Thread) (useIdx : Fin 16) (v : {v : Vector4 // v.length < 2 ^ 32})
    (rest : List {v : Vector4 // v.length < 2 ^ 32}) (htop : thr.stackVec4 = v :: rest)
    (hpos : 0 < v.val.length) :
    (∃ thr', ofIxVec4 thr useIdx = some thr' ∧
      IndexRight false v.val (thr'.words useIdx) (thr'.flags 4)) ∧
    ((∃ thr', ofIxVec4S thr useIdx = some thr' ∧
      IndexRight true v.val (thr'.words useIdx) (thr'.flags 4)) ↔ ¬ NegativePadded v.val) := by
  have hix : ∀ signedFlag, ∃ thr', ixVec4 signedFlag thr useIdx = some thr' ∧
      thr'.words useIdx = (vec4ToIndex signedFlag v.val.length (subarray v.val)).1 ∧
      thr'.flags 4 = (vec4ToIndex signedFlag v.val.length (subarray v.val)).2 :=
    fun signedFlag => ⟨_, ixVec4_eq signedFlag useIdx htop, Function.update_self useIdx _ thr.words,
      Function.update_self 4 _ thr.flags⟩
  constructor
  · obtain ⟨thr', hthr, hword, hflag⟩ := hix false
    refine ⟨thr', hthr, ?_⟩
    rw [hword, hflag]
    exact vec4ToIndex_unsigned hpos
  · obtain ⟨thr', hthr, hword, hflag⟩ := hix true
    rw [← vec4ToIndex_signed hpos, ← hword, ← hflag]
    constructor
    · rintro ⟨thr'', hthr', hright⟩
      rw [ofIxVec4S, hthr] at hthr'
      rwa [Option.some.inj hthr']
    · exact fun hright => ⟨thr', hthr, hright⟩

/-- A single bit. -/
theorem ix_vec4_iff_bit :
    (∃ thr', ofIxVec4 ⟨fun _ => 0, fun _ => .zero, [⟨[.one], by decide⟩], 0⟩ 3 = some thr' ∧
      IndexRight false [.one] (thr'.words 3) (thr'.flags 4)) ∧
    ((∃ thr', ofIxVec4S ⟨fun _ => 0, fun _ => .zero, [⟨[.one], by decide⟩], 0⟩ 3 = some thr' ∧
      IndexRight true [.one] (thr'.words 3) (thr'.flags 4)) ↔ ¬ NegativePadded [.one]) :=
  ix_vec4_iff ⟨fun _ => 0, fun _ => .zero, [⟨[.one], by decide⟩], 0⟩ 3 ⟨[.one], by decide⟩ [] rfl
    (by decide)

set_option maxRecDepth 2000 in
/-- The 65 bits of -1. -/
theorem ix_vec4_s_minus_one : ¬ ∃ thr',
    ofIxVec4S ⟨fun _ => 0, fun _ => .zero, [⟨List.replicate 65 .one, by decide⟩], 0⟩ 3 = some thr' ∧
      IndexRight true (List.replicate 65 .one) (thr'.words 3) (thr'.flags 4) := by
  rintro ⟨thr', hthr, hright⟩
  rw [ofIxVec4S, ixVec4_eq true 3 rfl, Option.some.injEq] at hthr
  subst hthr
  simp only [Function.update_self] at hright
  exact (vec4ToIndex_signed (by decide)).mp hright (by decide)

end Icarus.Vvp
