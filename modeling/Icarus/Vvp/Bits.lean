import Icarus.Vvp.Strength
import Mathlib.Data.Int.ModEq
import Mathlib.Data.Nat.Bitwise
import Mathlib.Tactic.Ring

/-!
# Vectors of bits as numbers

The number that a vector of zeros and ones stands for, and the bits of a number.
-/

namespace Icarus.Vvp.Vector4

/-- `has_xz`. -/
def hasXz (v : Vector4) : Bool := v.any fun b => b = .x ∨ b = .z

/-- The number of a vector, its X and Z bits read as zeros. -/
def toNat : Vector4 → Nat
  | [] => 0
  | b :: v => (if b = .one then 1 else 0) + 2 * toNat v

/-- The low bits of a number. -/
def ofNat (wid n : Nat) : Vector4 :=
  (List.range wid).map fun i => if n.testBit i then .one else .zero

/-- The number of a vector read as two's complement. -/
def toInt (v : Vector4) : Int :=
  if v.toNat.testBit (v.length - 1) then v.toNat - 2 ^ v.length else v.toNat

/-- The low bits of an integer. -/
def ofInt (wid : Nat) (i : Int) : Vector4 := ofNat wid (i % 2 ^ wid).toNat

theorem hasXz_eq_false {v : Vector4} :
    hasXz v = false ↔ ∀ b ∈ v, b = .zero ∨ b = .one := by
  have hbit : ∀ b : Bit4, ¬ (b = .x ∨ b = .z) ↔ b = .zero ∨ b = .one := by
    intro b
    cases b <;> decide
  simp only [hasXz, List.any_eq_false, decide_eq_true_eq, hbit]

@[simp] theorem length_ofNat (wid n : Nat) : (ofNat wid n).length = wid := by simp [ofNat]

@[simp] theorem hasXz_ofNat (wid n : Nat) : hasXz (ofNat wid n) = false := by
  rw [hasXz_eq_false]
  intro b hb
  obtain ⟨i, -, rfl⟩ := List.mem_map.mp hb
  cases n.testBit i
  · exact Or.inl rfl
  · exact Or.inr rfl

theorem toNat_lt (v : Vector4) : toNat v < 2 ^ v.length := by
  induction v with
  | nil => exact Nat.one_pos
  | cons b v ih =>
    rw [toNat, List.length_cons, Nat.pow_succ]
    split_ifs <;> omega

theorem testBit_toNat (v : Vector4) (i : Nat) :
    (toNat v).testBit i = decide (v[i]? = some .one) := by
  induction v generalizing i with
  | nil => simp [toNat]
  | cons b v ih =>
    have hbit : (if b = .one then 1 else 0) < 2 := by split_ifs <;> omega
    cases i with
    | zero =>
      rw [toNat, Nat.testBit_zero, Nat.add_mul_mod_self_left, Nat.mod_eq_of_lt hbit,
        List.getElem?_cons_zero]
      split_ifs with h <;> simp [h]
    | succ i =>
      rw [toNat, Nat.testBit_add_one, Nat.add_mul_div_left _ _ (by omega), Nat.div_eq_of_lt hbit,
        Nat.zero_add, ih, List.getElem?_cons_succ]

theorem getElem?_ofNat (wid n i : Nat) :
    (ofNat wid n)[i]? = if i < wid then some (if n.testBit i then .one else .zero) else none := by
  by_cases hi : i < wid
  · simp [ofNat, hi]
  · simp [ofNat, hi]

/-- The bits of a number, read back. -/
theorem toNat_ofNat (wid n : Nat) : toNat (ofNat wid n) = n % 2 ^ wid := by
  apply Nat.eq_of_testBit_eq
  intro i
  rw [testBit_toNat, getElem?_ofNat, Nat.testBit_mod_two_pow]
  by_cases hi : i < wid
  · cases n.testBit i <;> simp [hi]
  · simp [hi]

/-- A vector of zeros and ones is its number. -/
theorem ofNat_toNat {v : Vector4} (h : hasXz v = false) : ofNat v.length (toNat v) = v := by
  apply List.ext_getElem?
  intro i
  rw [getElem?_ofNat, testBit_toNat]
  by_cases hi : i < v.length
  · rw [if_pos hi, List.getElem?_eq_getElem hi]
    rcases hasXz_eq_false.mp h _ (List.getElem_mem hi) with hb | hb <;> simp [hb]
  · rw [if_neg hi, List.getElem?_eq_none (by omega)]

/-- Numbers with the same low bits give the same vector. -/
theorem ofNat_eq_iff {wid m n : Nat} : ofNat wid m = ofNat wid n ↔ m % 2 ^ wid = n % 2 ^ wid := by
  constructor
  · intro h
    rw [← toNat_ofNat, h, toNat_ofNat]
  · intro h
    have hlen := length_ofNat wid m
    rw [← ofNat_toNat (hasXz_ofNat wid m), ← ofNat_toNat (hasXz_ofNat wid n), toNat_ofNat,
      toNat_ofNat, h, length_ofNat, length_ofNat]

theorem toNat_take (n : Nat) (v : Vector4) : toNat (v.take n) = toNat v % 2 ^ n := by
  refine Nat.eq_of_testBit_eq fun i => ?_
  rw [testBit_toNat, Nat.testBit_mod_two_pow, testBit_toNat]
  by_cases hi : i < n
  · rw [List.getElem?_take_of_lt hi, decide_eq_true hi, Bool.true_and]
  · rw [List.getElem?_eq_none, decide_eq_false hi, Bool.false_and]
    · rfl
    · exact (List.length_take_le _ _).trans (not_lt.mp hi)

theorem toInt_of_top {v : Vector4} (h : v.toNat.testBit (v.length - 1) = true) :
    toInt v = -((2 ^ v.length - v.toNat : Nat) : Int) := by
  have hlt := toNat_lt v
  have hpow : ((2 ^ v.length : Nat) : Int) = 2 ^ v.length := by push_cast; rfl
  rw [toInt, if_pos h, ← hpow]
  omega

theorem toInt_of_not_top {v : Vector4} (h : v.toNat.testBit (v.length - 1) = false) :
    toInt v = v.toNat := by
  rw [toInt, h, if_neg (by simp)]

/-- A negative vector has its top bit set. -/
theorem toInt_neg_iff (v : Vector4) : toInt v < 0 ↔ v.toNat.testBit (v.length - 1) = true := by
  have hlt := toNat_lt v
  cases h : v.toNat.testBit (v.length - 1)
  · rw [toInt_of_not_top h]
    simp
  · rw [toInt_of_top h]
    simp only [iff_true]
    omega

theorem toInt_eq_zero {v : Vector4} : v.toInt = 0 ↔ v.toNat = 0 := by
  have hlt := toNat_lt v
  cases htop : v.toNat.testBit (v.length - 1)
  · rw [toInt_of_not_top htop]
    exact Int.natCast_eq_zero
  · have hge := Nat.ge_two_pow_of_testBit htop
    have hpow := Nat.two_pow_pos (v.length - 1)
    rw [toInt_of_top htop]
    omega

private theorem two_pow_length {v : Vector4} (hpos : 0 < v.length) :
    2 ^ v.length = 2 * 2 ^ (v.length - 1) := by
  rw [← Nat.pow_succ', Nat.succ_eq_add_one, Nat.sub_add_cancel hpos]

/-- The top bit is set from half the range on. -/
theorem testBit_top {v : Vector4} (hpos : 0 < v.length) :
    v.toNat.testBit (v.length - 1) = decide (2 ^ (v.length - 1) ≤ v.toNat) := by
  have hlt := toNat_lt v
  have hpow := two_pow_length hpos
  by_cases hge : 2 ^ (v.length - 1) ≤ v.toNat
  · have hone : v.toNat / 2 ^ (v.length - 1) = 1 := Nat.div_eq_of_lt_le (by omega) (by omega)
    rw [Nat.testBit_eq_decide_div_mod_eq, hone, decide_eq_true hge]
    rfl
  · rw [decide_eq_false hge]
    exact Nat.testBit_lt_two_pow (Nat.not_le.mp hge)

/-- Half the numbers of a width are negative. -/
theorem natAbs_toInt_le {v : Vector4} (hpos : 0 < v.length) :
    v.toInt.natAbs ≤ 2 ^ (v.length - 1) := by
  have hpow := two_pow_length hpos
  have htop := testBit_top hpos
  cases h : v.toNat.testBit (v.length - 1)
  · rw [h, eq_comm, decide_eq_false_iff_not] at htop
    rw [toInt_of_not_top h]
    omega
  · rw [h, eq_comm, decide_eq_true_eq] at htop
    rw [toInt_of_top h]
    omega

theorem natAbs_toInt_lt {v : Vector4} (hpos : 0 < v.length) : v.toInt.natAbs < 2 ^ v.length :=
  Nat.lt_of_le_of_lt (natAbs_toInt_le hpos) (Nat.pow_lt_pow_right (by omega) (by omega))

/-- Integers with the same low bits give the same vector. -/
theorem ofInt_eq_iff {wid : Nat} {y z : Int} : ofInt wid y = ofInt wid z ↔ y ≡ z [ZMOD 2 ^ wid] := by
  have hpow : (2 : Int) ^ wid = ((2 ^ wid : Nat) : Int) := by push_cast; rfl
  have hpos : (0 : Int) < ((2 ^ wid : Nat) : Int) := by exact_mod_cast Nat.two_pow_pos wid
  rw [ofInt, ofInt, ofNat_eq_iff, Int.ModEq, hpow]
  have hy := Int.emod_nonneg y hpos.ne'
  have hz := Int.emod_nonneg z hpos.ne'
  have hy' := Int.emod_lt_of_pos y hpos
  have hz' := Int.emod_lt_of_pos z hpos
  rw [Nat.mod_eq_of_lt (by omega), Nat.mod_eq_of_lt (by omega)]
  omega

theorem ofInt_natCast (wid n : Nat) : ofInt wid n = ofNat wid n := by
  rw [ofInt, ofNat_eq_iff]
  have hpow : (2 : Int) ^ wid = ((2 ^ wid : Nat) : Int) := by push_cast; rfl
  have hmod : ((n : Int) % 2 ^ wid).toNat = n % 2 ^ wid := by
    rw [hpow]
    omega
  rw [hmod, Nat.mod_mod]

/-- Negation modulo the power of the width. -/
theorem ofInt_neg_natCast {wid n : Nat} (h : n ≤ 2 ^ wid) :
    ofInt wid (-(n : Int)) = ofNat wid (2 ^ wid - n) := by
  rw [ofInt, ofNat_eq_iff]
  have hpow : (2 : Int) ^ wid = ((2 ^ wid : Nat) : Int) := by push_cast; rfl
  have hmod : (-(n : Int) % 2 ^ wid).toNat = (2 ^ wid - n) % 2 ^ wid := by
    have hcast : -(n : Int) = ((2 ^ wid - n : Nat) : Int) + ((2 ^ wid : Nat) : Int) * (-1) := by
      omega
    rw [hpow, hcast, Int.add_mul_emod_self_left]
    omega
  rw [hmod, Nat.mod_mod]

/-- A vector of zeros and ones is its integer. -/
theorem ofInt_toInt {v : Vector4} (h : hasXz v = false) : ofInt v.length (toInt v) = v := by
  have hnat : ofNat v.length (toNat v) = v := ofNat_toNat h
  rw [← ofInt_natCast] at hnat
  refine Eq.trans (ofInt_eq_iff.mpr ?_) hnat
  rw [toInt]
  split_ifs
  · exact Int.modEq_iff_dvd.mpr ⟨1, by ring⟩
  · rfl

/-- The bits of an integer, read back. -/
theorem toInt_ofInt_modEq (wid : Nat) (i : Int) : toInt (ofInt wid i) ≡ i [ZMOD 2 ^ wid] := by
  have h := ofInt_toInt (hasXz_ofNat wid (i % 2 ^ wid).toNat)
  rw [length_ofNat] at h
  exact ofInt_eq_iff.mp h

/-! ## Parts of vectors -/

/-- `subvalue`: the bits from `adr` on, X past the end. -/
def subvalue (v : Vector4) (adr wid : Nat) : Vector4 :=
  let part := (v.drop adr).take wid
  part ++ List.replicate (wid - part.length) .x

/-- `resize`: low bits kept, new bits filled with the pad bit. -/
def resize (v : Vector4) (newsize : Nat) (pad : Bit4) : Vector4 :=
  v.take newsize ++ List.replicate (newsize - v.length) pad

/-- `set_vec`: the bits from `adr` on overwritten, as far as they go. -/
def setVec (v : Vector4) (adr : Nat) (that : Vector4) : Vector4 :=
  v.mapIdx fun i b => if adr ≤ i then that[i - adr]?.getD b else b

/-- `shiftl`: zeros from below, the high bits dropped. -/
def shiftl (v : Vector4) (shift : Nat) : Vector4 :=
  (List.replicate shift Bit4.zero ++ v).take v.length

/-- `shiftr`: the low bits dropped, the pad bit from above. -/
def shiftr (v : Vector4) (shift : Nat) (pad : Bit4) : Vector4 :=
  v.drop shift ++ List.replicate shift pad

theorem subvalue_eq {v : Vector4} {adr wid : Nat} (h : adr + wid ≤ v.length) :
    subvalue v adr wid = (v.drop adr).take wid := by
  have hlen : ((v.drop adr).take wid).length = wid := by
    rw [List.length_take, List.length_drop]
    omega
  rw [subvalue, hlen, Nat.sub_self, List.replicate_zero, List.append_nil]

theorem resize_eq {v : Vector4} {newsize : Nat} (h : newsize ≤ v.length) (pad : Bit4) :
    resize v newsize pad = v.take newsize := by
  rw [resize, Nat.sub_eq_zero_of_le h, List.replicate_zero, List.append_nil]

@[simp] theorem length_subvalue (v : Vector4) (adr wid : Nat) : (subvalue v adr wid).length = wid := by
  rw [subvalue, List.length_append, List.length_replicate, List.length_take, List.length_drop]
  omega

/-- A bit of a part. -/
theorem getElem?_subvalue (v : Vector4) (adr : Nat) {wid idx : Nat} (hidx : idx < wid) :
    (subvalue v adr wid)[idx]? = some (v[adr + idx]?.getD .x) := by
  have hlen : ((v.drop adr).take wid).length = min wid (v.length - adr) := by
    rw [List.length_take, List.length_drop]
  rw [subvalue, List.getElem?_append, hlen]
  split_ifs with h
  · rw [List.getElem?_take, if_pos hidx, List.getElem?_drop, List.getElem?_eq_getElem (by omega),
      Option.getD_some]
  · rw [List.getElem?_replicate, if_pos (by omega), List.getElem?_eq_none (by omega),
      Option.getD_none]

@[simp] theorem length_resize (v : Vector4) (newsize : Nat) (pad : Bit4) :
    (resize v newsize pad).length = newsize := by
  rw [resize, List.length_append, List.length_replicate, List.length_take]
  omega

/-- A bit of a vector that is resized. -/
theorem getElem?_resize (v : Vector4) {newsize idx : Nat} (hidx : idx < newsize) (pad : Bit4) :
    (resize v newsize pad)[idx]? = some (v[idx]?.getD pad) := by
  rw [resize, List.getElem?_append, List.length_take]
  split_ifs with h
  · rw [List.getElem?_take, if_pos hidx, List.getElem?_eq_getElem (by omega), Option.getD_some]
  · rw [List.getElem?_replicate, if_pos (by omega), List.getElem?_eq_none (by omega),
      Option.getD_none]

@[simp] theorem length_setVec (v : Vector4) (adr : Nat) (that : Vector4) :
    (setVec v adr that).length = v.length := List.length_mapIdx

/-- A part overwrites the bits it covers, and no others. -/
theorem getElem?_setVec (v : Vector4) (adr : Nat) (that : Vector4) (i : Nat) :
    (setVec v adr that)[i]? =
      v[i]?.map fun b => if adr ≤ i then that[i - adr]?.getD b else b := by
  rw [setVec, List.getElem?_mapIdx]

@[simp] theorem length_shiftl (v : Vector4) (shift : Nat) : (shiftl v shift).length = v.length := by
  rw [shiftl, List.length_take, List.length_append]
  omega

theorem getElem?_shiftl (v : Vector4) (shift : Nat) {idx : Nat} (hidx : idx < v.length) :
    (shiftl v shift)[idx]? = if idx < shift then some .zero else v[idx - shift]? := by
  rw [shiftl, List.getElem?_take, if_pos hidx, List.getElem?_append, List.length_replicate,
    List.getElem?_replicate]
  split_ifs <;> rfl

theorem length_shiftr (v : Vector4) {shift : Nat} (h : shift ≤ v.length) (pad : Bit4) :
    (shiftr v shift pad).length = v.length := by
  rw [shiftr, List.length_append, List.length_drop, List.length_replicate]
  omega

theorem getElem?_shiftr (v : Vector4) {shift idx : Nat} (hidx : idx < v.length)
    (h : shift ≤ v.length) (pad : Bit4) :
    (shiftr v shift pad)[idx]? = if idx < v.length - shift then v[idx + shift]? else some pad := by
  rw [shiftr, List.getElem?_append, List.length_drop, List.getElem?_drop, List.getElem?_replicate]
  split_ifs with hlow hhigh
  · rw [Nat.add_comm]
  · rfl
  · omega

end Icarus.Vvp.Vector4
