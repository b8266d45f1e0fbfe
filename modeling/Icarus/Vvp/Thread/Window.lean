import Icarus.Vvp.Planes.SetVec
import Icarus.Vvp.Thread.Index

/-!
# Windows of a vector

A part select with a signed base is a window: its bits are those of the vector at their positions,
and X where the window lies outside. The base is a vector that is read into an `int`.
-/

namespace Icarus.Vvp

/-- The bit at a position, X outside the vector. -/
def Vector4.bitAt (v : Vector4) (pos : Int) : Bit4 := if 0 ≤ pos then v[pos.toNat]?.getD .x else .x

/-- The bits from a base on. -/
def Vector4.window (v : Vector4) (base : Int) (wid : Nat) : Vector4 :=
  (List.range wid).map fun idx : Nat => v.bitAt (base + idx)

/-- Nothing but X is in the window. -/
def Vector4.Blank (v : Vector4) (base : Int) (wid : Nat) : Prop :=
  ∀ idx : Nat, idx < wid → v.bitAt (base + idx) = .x

/-- The base in an `int`; nothing where an X or Z bit is read. -/
def readInt (signedFlag : Bool) (base4 : Planes) : Option (BitVec 32) :=
  let (valueOk, base) := base4.vector4ToValue 0 signedFlag true
  if valueOk then some base else none

section Window

variable {v : Vector4} {base : Int} {wid : Nat}

@[simp] theorem length_window (v : Vector4) (base : Int) (wid : Nat) :
    (v.window base wid).length = wid := by
  rw [Vector4.window, List.length_map, List.length_range]

theorem getElem?_window (v : Vector4) (base : Int) {idx : Nat} (hidx : idx < wid) :
    (v.window base wid)[idx]? = some (v.bitAt (base + idx)) := by
  rw [Vector4.window, List.getElem?_map, List.getElem?_range hidx, Option.map_some]

theorem bitAt_neg {pos : Int} (h : pos < 0) : v.bitAt pos = .x := if_neg (by omega)

theorem bitAt_ge {pos : Int} (h : (v.length : Int) ≤ pos) : v.bitAt pos = .x := by
  rw [Vector4.bitAt, if_pos (by omega), List.getElem?_eq_none (by omega), Option.getD_none]

theorem bitAt_natCast (v : Vector4) (idx : Nat) : v.bitAt (idx : Int) = v[idx]?.getD .x := by
  rw [Vector4.bitAt, if_pos (Int.natCast_nonneg idx), Int.toNat_natCast]

theorem window_eq_window_iff {base' : Int} :
    v.window base wid = v.window base' wid ↔
      ∀ idx : Nat, idx < wid → v.bitAt (base + idx) = v.bitAt (base' + idx) := by
  rw [Vector4.window, Vector4.window, List.map_inj_left]
  simp only [List.mem_range]

theorem window_eq_xVec_iff : v.window base wid = xVec wid ↔ v.Blank base wid := by
  rw [xVec, List.eq_replicate_iff, and_iff_right (length_window v base wid), Vector4.window,
    List.forall_mem_map]
  simp only [List.mem_range]
  rfl

/-- Bases that differ by the range of an `int` have windows in common only where both are
blank. -/
theorem window_eq_iff_of_far {base' : Int} (hlen : v.length < 2 ^ 32)
    (hfar : base' ≤ base - 2 ^ 32 ∨ base + 2 ^ 32 ≤ base') :
    v.window base wid = v.window base' wid ↔ v.Blank base wid ∧ v.Blank base' wid := by
  rw [window_eq_window_iff]
  constructor
  · intro h
    have hboth : ∀ idx : Nat, idx < wid → v.bitAt (base + idx) = .x := fun idx hidx => by
      by_cases hin : 0 ≤ base + idx ∧ base + idx < v.length
      · -- The other position is outside.
        rw [h idx hidx]
        rcases hfar with hlow | hhigh
        · exact bitAt_neg (by omega)
        · exact bitAt_ge (by omega)
      · rcases not_and_or.mp hin with hneg | hge
        · exact bitAt_neg (by omega)
        · exact bitAt_ge (by omega)
    exact ⟨hboth, fun idx hidx => (h idx hidx).symm.trans (hboth idx hidx)⟩
  · rintro ⟨hblank, hblank'⟩ idx hidx
    rw [hblank idx hidx, hblank' idx hidx]

end Window

/-! ## The base -/

/-- An X or Z among the bits that go into an `int`. -/
def Vector4.LowXz (v : Vector4) : Prop := Vector4.hasXz (v.take 32) = true

instance decidableLowXz (v : Vector4) : Decidable v.LowXz :=
  inferInstanceAs (Decidable (Vector4.hasXz (v.take 32) = true))

section Base

variable {v : Planes}

theorem lowXz_iff (v : Planes) : v.toVector4.LowXz ↔ ∃ i < 32, i < v.size ∧ v.xzBit i := by
  have hget : ∀ i, (v.toVector4.take 32)[i]? =
      if i < 32 ∧ i < v.size then some (v.value i) else none := fun i => by
    rw [List.getElem?_take, Planes.getElem?_toVector4]
    split_ifs <;> simp_all
  rw [Vector4.LowXz, Vector4.hasXz, List.any_eq_true]
  constructor
  · rintro ⟨b, hmem, hb⟩
    obtain ⟨i, hi⟩ := List.mem_iff_getElem?.mp hmem
    rw [hget] at hi
    split_ifs at hi with hin
    rw [Option.some_inj] at hi
    exact ⟨i, hin.1, hin.2, by rw [Planes.xzBit, hi]; exact of_decide_eq_true hb⟩
  · rintro ⟨i, hi, hsize, hxz⟩
    refine ⟨v.value i, List.mem_iff_getElem?.mpr ⟨i, ?_⟩, decide_eq_true hxz⟩
    rw [hget, if_pos ⟨hi, hsize⟩]

/-- The integer as two's complement of the width. -/
theorem toInt_ofNat_toNat (a : Vector4) : (BitVec.ofNat a.length a.toNat).toInt = a.toInt := by
  have hnat : (BitVec.ofNat a.length a.toNat).toNat = a.toNat := by
    rw [BitVec.toNat_ofNat, Nat.mod_eq_of_lt a.toNat_lt]
  rw [BitVec.toInt_eq_msb_cond, BitVec.msb_eq_getLsbD_last, ← BitVec.testBit_toNat, hnat,
    Vector4.toInt]
  push_cast
  rfl

theorem getLsbD_ofInt_intValue (signedFlag : Bool) (v : Planes) {i : Nat} (hi : i < 32) :
    (BitVec.ofInt 32 (intValue signedFlag v.toVector4)).getLsbD i = v.valueBit signedFlag i := by
  have hbit : ∀ j, v.toVector4.toNat.testBit j = decide (j < v.size ∧ v.value j = .one) :=
    fun j => by
      rw [Vector4.testBit_toNat, Planes.getElem?_toVector4]
      split_ifs with hj <;> simp [hj]
  rw [Planes.valueBit]
  cases signedFlag with
  | false =>
    rw [intValue, if_neg Bool.false_ne_true, BitVec.ofInt_natCast, BitVec.getLsbD_ofNat, hbit]
    by_cases hsize : i < v.size
    · simp [hi, hsize]
    · simp [hsize]
  | true =>
    have hext : BitVec.ofInt 32 v.toVector4.toInt =
        (BitVec.ofNat v.toVector4.length v.toVector4.toNat).signExtend 32 := by
      rw [BitVec.signExtend, toInt_ofNat_toNat]
    rw [intValue, if_pos rfl, hext, BitVec.getLsbD_signExtend, BitVec.msb_eq_getLsbD_last,
      BitVec.getLsbD_ofNat, BitVec.getLsbD_ofNat, hbit, hbit, Planes.length_toVector4]
    by_cases hsize : i < v.size
    · simp [hi, hsize]
    · by_cases hnil : v.size = 0
      · simp [hnil, Planes.value_of_ge]
      · simp [hi, hsize, Nat.sub_lt (Nat.pos_of_ne_zero hnil)]

/-- The base is the integer modulo the range of an `int`, unless it has X or Z bits there. -/
theorem readInt_eq (signedFlag : Bool) (base4 : Planes) :
    readInt signedFlag base4 =
      if base4.toVector4.LowXz then none
      else some (BitVec.ofInt 32 (intValue signedFlag base4.toVector4)) := by
  obtain ⟨hok, hbits, -⟩ := @Planes.vector4ToValue_bits 32 (by omega) base4 0 signedFlag true
  rw [← lowXz_iff] at hok
  unfold readInt
  dsimp only
  by_cases hxz : base4.toVector4.LowXz
  · rw [if_pos hxz, hok.mpr hxz, if_neg Bool.false_ne_true]
  · rw [if_neg hxz, if_pos (Bool.eq_true_of_not_eq_false (mt hok.mp hxz)), Option.some_inj]
    apply BitVec.eq_of_getLsbD_eq
    intro i hi
    rw [getLsbD_ofInt_intValue signedFlag base4 hi]
    refine hbits (.inr fun j hj hsize hbit => ?_) i hi
    exact hxz ((lowXz_iff base4).mpr ⟨j, hj, hsize, hbit⟩)

end Base

/-! ## Integers in an `int` -/

/-- An integer converted to an `int`. -/
def asInt (z : Int) : Int := (BitVec.ofInt 32 z).toInt

/-- The conversion is the identity or far off. -/
theorem asInt_far (z : Int) : asInt z = z ∨ z ≤ asInt z - 2 ^ 32 ∨ asInt z + 2 ^ 32 ≤ z := by
  have hmod : asInt z = z.bmod (2 ^ 32) := BitVec.toInt_ofInt z
  have hdiv := Int.bmod_add_bdiv z (2 ^ 32)
  rw [← hmod] at hdiv
  push_cast at hdiv
  omega

theorem asInt_natCast {n : Nat} (hn : n < 2 ^ 32) :
    asInt n = if n < 2 ^ 31 then (n : Int) else (n : Int) - 2 ^ 32 := by
  have hnat : (BitVec.ofNat 32 n).toNat = n := by rw [BitVec.toNat_ofNat, Nat.mod_eq_of_lt hn]
  rw [asInt, BitVec.ofInt_natCast, BitVec.toInt_eq_toNat_cond, hnat]
  split_ifs <;> omega

end Icarus.Vvp
