import Icarus.Core.ReadBits
import Icarus.Verinum.Power
import Icarus.Vvp.Arith
import Icarus.Vvp.Vector2.Multiply

/-!
# Powers at run time

The signed power functor and the power opcode: both read a table for negative exponents, through
a conversion of the base to a native integer, and else compute the power of two-state vectors.
-/

namespace Icarus.Vvp

open Icarus.Core

/-- `vector2_to_value` of a signed native integer, and whether the vector is no wider. -/
def Vector2.toValue (a : Vector2) (isSigned : Bool) : BitVec 32 × Bool :=
  let val : BitVec 32 := (List.range (min a.wid 32)).foldl
    (fun val idx => if a.value idx then val ||| ((1 : BitVec 32) <<< idx) else val) 0
  let val := if isSigned && a.wid < 32 && a.value (a.wid - 1) then
    val ||| (BitVec.allOnes 32 <<< a.wid) else val
  (val, a.wid ≤ 32)

/-- The constructor from a double, of the doubles that are integers. -/
def Vector4.ofDouble (size : Nat) (val : Int) : Vector4 := Vector4.ofInt size val

/-- `vvp_arith_pow::recv_vec4`: the vector sent. -/
def Arith.pow (signedFlag : Bool) (s : Arith) : Option Vector4 :=
  let a2 := Vector2.ofVector4 s.opA true
  let b2 := Vector2.ofVector4 s.opB true
  if a2.isNaN || b2.isNaN then some s.xVal
  else if signedFlag && b2.value (b2.wid - 1) then
    let (aVal, fits) := a2.toValue true
    if fits && aVal = 0 then some s.xVal
    else
      let rVal := if fits && aVal = 1 then 1
        else if fits && aVal = -1 then if b2.value 0 then -1 else 1
        else 0
      some (Vector4.ofDouble s.wid rVal)
  else (a2.pow b2).map fun res => res.toVector4 s.wid

/-- `of_POW_base`: the vector pushed. -/
def powBase (signedFlag : Bool) (vala valb : Vector4) : Option Vector4 :=
  let wid := vala.length
  let xv2 := Vector2.ofVector4 vala true
  let yv2 := Vector2.ofVector4 valb true
  if xv2.isNaN || yv2.isNaN then some (List.replicate wid .x)
  else if signedFlag && yv2.value (yv2.wid - 1) then
    let (aVal, fits) := xv2.toValue true
    let (pad, lsb) : Bit4 × Bit4 :=
      if fits && aVal = 0 then (.x, .x)
      else if fits && aVal = 1 then (.zero, .one)
      else if fits && aVal = -1 then if yv2.value 0 then (.one, .one) else (.zero, .one)
      else (.zero, .zero)
    some ((List.replicate wid pad).set 0 lsb)
  else (xv2.pow yv2).map fun result => (List.range wid).map fun jdx =>
    if jdx ≥ result.wid then .zero else if result.value jdx then .one else .zero

/-- The power of signed operands, by the table of the standard. -/
def power (a b : Vector4) : Vector4 :=
  if 0 ≤ b.toInt then Vector4.ofInt a.length (a.toInt ^ b.toInt.toNat)
  else if a.toInt = 0 then List.replicate a.length .x
  else if a.toInt = 1 then Vector4.ofInt a.length 1
  else if a.toInt = -1 then Vector4.ofInt a.length (if b.toInt % 2 = 1 then -1 else 1)
  else Vector4.ofInt a.length 0

/-! ## The conversion to a native integer -/

section Value

variable {a : Vector2}

/-- Of a vector that fits the native integer is the integer. -/
theorem toValue_spec {v : Vector4} (hw : a.wid = v.length) (hn : a.toNat = v.toNat)
    (hpos : 0 < v.length) (hle : v.length ≤ 32) : (a.toValue true).1.toInt = v.toInt := by
  have hmin : min a.wid 32 = v.length := by rw [hw, Nat.min_eq_left hle]
  have hmsb : (BitVec.ofNat v.length v.toNat).msb = v.toNat.testBit (v.length - 1) := by
    rw [BitVec.msb_eq_getLsbD_last, BitVec.getLsbD_ofNat, decide_eq_true (Nat.sub_one_lt_of_lt hpos),
      Bool.true_and]
  have hsign : (a.toValue true).1 = (BitVec.ofNat v.length v.toNat).signExtend 32 := by
    apply BitVec.eq_of_getLsbD_eq
    intro i hi
    have hread : (readBits 32 a.value v.length).getLsbD i = (decide (i < v.length) && a.value i) := by
      rw [getLsbD_readBits, decide_eq_true hi, Bool.true_and]
    rw [readBits] at hread
    rw [BitVec.getLsbD_signExtend, decide_eq_true hi, Bool.true_and, BitVec.getLsbD_ofNat, hmsb]
    unfold Vector2.toValue
    rw [hmin, hw, Vector2.value_eq a (v.length - 1), hn, Bool.true_and]
    by_cases hiw : i < v.length
    · rw [if_pos hiw, decide_eq_true hiw, Bool.true_and]
      rw [decide_eq_true hiw, Bool.true_and, Vector2.value_eq, hn] at hread
      dsimp only
      split_ifs
      · rw [BitVec.getLsbD_or, hread, BitVec.getLsbD_shiftLeft, decide_eq_true hiw]
        simp
      · exact hread
    · rw [if_neg hiw]
      rw [decide_eq_false hiw, Bool.false_and] at hread
      have hwide : v.length < 32 := by omega
      rw [decide_eq_true hwide, Bool.true_and]
      dsimp only
      split_ifs with htop
      · rw [BitVec.getLsbD_or, hread, htop, BitVec.getLsbD_shiftLeft, decide_eq_false hiw,
          decide_eq_true hi, BitVec.getLsbD_allOnes]
        simp
        omega
      · rw [hread]
        exact (Bool.eq_false_iff.mpr htop).symm
  rw [hsign, BitVec.toInt_signExtend_of_le hle, BitVec.toInt_eq_msb_cond, hmsb, BitVec.toNat_ofNat,
    Nat.mod_eq_of_lt v.toNat_lt, Vector4.toInt]
  push_cast
  rfl

end Value

/-! ## Vectors of small integers -/

section Vectors

variable {w : Nat}

theorem ofInt_zero : Vector4.ofInt w 0 = List.replicate w .zero := by
  apply List.ext_getElem?
  intro i
  rw [show (0 : Int) = ((0 : Nat) : Int) from rfl, Vector4.ofInt_natCast, Vector4.getElem?_ofNat,
    List.getElem?_replicate, Nat.zero_testBit]
  rfl

theorem ofInt_one (hw : 0 < w) : Vector4.ofInt w 1 = (List.replicate w .zero).set 0 .one := by
  apply List.ext_getElem?
  intro i
  rw [show (1 : Int) = ((1 : Nat) : Int) from rfl, Vector4.ofInt_natCast, Vector4.getElem?_ofNat,
    List.getElem?_set, List.getElem?_replicate, List.length_replicate]
  cases i with
  | zero => simp [hw]
  | succ i =>
    have hbit : Nat.testBit 1 (i + 1) = false := by
      rw [Nat.testBit_succ]
      exact Nat.zero_testBit i
    simp [hbit]

theorem ofInt_neg_one : Vector4.ofInt w (-1) = List.replicate w .one := by
  have hpow := Nat.two_pow_pos w
  apply List.ext_getElem?
  intro i
  rw [show (-1 : Int) = -((1 : Nat) : Int) from rfl, Vector4.ofInt_neg_natCast hpow,
    Vector4.getElem?_ofNat, List.getElem?_replicate, Nat.testBit_two_pow_sub_one]
  split_ifs with h <;> simp_all

/-- The vectors of two integers of which one is zero, one or minus one. -/
theorem ofInt_ne_zero {z : Int} (hw : 0 < w) (hz : z = 1 ∨ z = -1) :
    Vector4.ofInt w z ≠ Vector4.ofInt w 0 := by
  intro h
  have hmod := Vector4.ofInt_eq_iff.mp h
  have hdvd : (2 : Int) ∣ 2 ^ w := dvd_pow_self 2 hw.ne'
  have htwo := hmod.of_dvd hdvd
  rcases hz with rfl | rfl <;> exact absurd htwo (by decide)

end Vectors

end Icarus.Vvp
