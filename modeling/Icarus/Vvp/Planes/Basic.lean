import Icarus.Vvp.Vector2.Basic

/-!
# Vectors in bit planes

`vvp_vector4_t` as it is stored: every bit is split across two planes of machine words. A vector
of at most one word keeps its words in place, a longer one in arrays. The bits of the words at and
above the size are undefined.
-/

namespace Icarus.Vvp

open Icarus.Core

/-- The number of words in a plane. -/
def planeWords (size : Nat) : Nat := if size ≤ 64 then 1 else wordCount size

/-- `vvp_vector4_t`. -/
structure Planes where
  /-- `size_`. -/
  size : Nat
  /-- `abits_val_` or `abits_ptr_`. -/
  abits : List (BitVec 64)
  /-- `bbits_val_` or `bbits_ptr_`. -/
  bbits : List (BitVec 64)
  /-- The first plane has the words of the size. -/
  length_abits : abits.length = planeWords size
  /-- The second plane has the words of the size. -/
  length_bbits : bbits.length = planeWords size

/-- `(1UL << n) - 1UL`, the low bits of a word. -/
def lowMask (n : Nat) : BitVec 64 := ((1 : BitVec 64) <<< n) - 1

/-- The encoding of a bit, its bit of the first plane before that of the second. -/
def bitOf : Bool → Bool → Bit4
  | false, false => .zero
  | true, false => .one
  | true, true => .x
  | false, true => .z

/-- A bit of a plane. -/
def planeBit (plane : List (BitVec 64)) (idx : Nat) : Bool :=
  (plane.getD (idx / 64) 0).getLsbD (idx % 64)

theorem planeWords_of_short {size : Nat} (h : size ≤ 64) : planeWords size = 1 := if_pos h

theorem planeWords_of_long {size : Nat} (h : 64 < size) : planeWords size = wordCount size :=
  if_neg (by omega)

theorem le_planeWords (size : Nat) : size ≤ 64 * planeWords size := by
  unfold planeWords
  split_ifs with h
  · omega
  · exact le_wordCount size

theorem planeWords_pos (size : Nat) : 0 < planeWords size := by
  unfold planeWords wordCount
  split_ifs <;> omega

theorem div_lt_planeWords {size idx : Nat} (h : idx < size) : idx / 64 < planeWords size := by
  have hle := le_planeWords size
  omega

theorem getLsbD_lowMask {n : Nat} (hn : n < 64) (i : Nat) :
    (lowMask n).getLsbD i = decide (i < n) := by
  have hpow : 2 ^ n < 2 ^ 64 := Nat.pow_lt_pow_right (by omega) hn
  have hpos := Nat.two_pow_pos n
  have hshl : ((1 : BitVec 64) <<< n).toNat = 2 ^ n := by
    rw [BitVec.toNat_shiftLeft, show (1 : BitVec 64).toNat = 1 from rfl, Nat.one_shiftLeft]
    exact Nat.mod_eq_of_lt hpow
  have hsub : (lowMask n).toNat = 2 ^ n - 1 := by
    rw [lowMask, BitVec.toNat_sub, hshl, show (1 : BitVec 64).toNat = 1 from rfl]
    omega
  rw [← BitVec.testBit_toNat, hsub, Nat.testBit_two_pow_sub_one]

theorem getLsbD_not_allOnes_shiftLeft (n i : Nat) :
    (~~~ (BitVec.allOnes 64 <<< n)).getLsbD i = (decide (i < n) && decide (i < 64)) := by
  rw [BitVec.getLsbD_not, BitVec.getLsbD_shiftLeft, BitVec.getLsbD_allOnes]
  by_cases hi : i < 64
  · by_cases hn : i < n
    · simp [hi, hn]
    · simp [hi, hn]
      omega
  · simp [hi]

/-- `~(-1UL << n)`, the low bits of a word again. -/
theorem not_allOnes_shiftLeft {n : Nat} (hn : n < 64) :
    ~~~ (BitVec.allOnes 64 <<< n) = lowMask n := by
  ext i hi
  rw [← BitVec.getLsbD_eq_getElem, ← BitVec.getLsbD_eq_getElem, getLsbD_not_allOnes_shiftLeft,
    getLsbD_lowMask hn, decide_eq_true hi, Bool.and_true]

/-- The low bits of a word are its number modulo a power. -/
theorem toNat_and_lowMask (x : BitVec 64) {n : Nat} (hn : n < 64) :
    (x &&& lowMask n).toNat = x.toNat % 2 ^ n := by
  apply Nat.eq_of_testBit_eq
  intro i
  rw [Nat.testBit_mod_two_pow, BitVec.testBit_toNat, BitVec.testBit_toNat, BitVec.getLsbD_and,
    getLsbD_lowMask hn, Bool.and_comm]

theorem testBit_value (plane : List (BitVec 64)) (idx : Nat) :
    (Words.value plane).testBit idx = planeBit plane idx := Words.testBit_value (by omega) _ _

/-- The bits of a word of a plane. -/
theorem planeBit_word (plane : List (BitVec 64)) (wdx : Nat) {idx : Nat} (hidx : idx < 64) :
    planeBit plane (64 * wdx + idx) = (plane.getD wdx 0).getLsbD idx := by
  rw [planeBit, Nat.mul_add_div (by omega), Nat.div_eq_of_lt hidx, Nat.add_zero, Nat.mul_add_mod,
    Nat.mod_eq_of_lt hidx]

/-- The bits of the first word. -/
theorem planeBit_first (plane : List (BitVec 64)) {idx : Nat} (hidx : idx < 64) :
    planeBit plane idx = (plane.getD 0 0).getLsbD idx := by
  rw [planeBit, Nat.div_eq_of_lt hidx, Nat.mod_eq_of_lt hidx]

/-- A bit of a plane in which a word is assigned. -/
theorem planeBit_set {plane : List (BitVec 64)} {wdx : Nat} (h : wdx < plane.length)
    (word : BitVec 64) (idx : Nat) :
    planeBit (plane.set wdx word) idx =
      if idx / 64 = wdx then word.getLsbD (idx % 64) else planeBit plane idx := by
  rw [planeBit, List.getD_eq_getElem?_getD, List.getElem?_set]
  by_cases hw : wdx = idx / 64
  · rw [if_pos hw, if_pos h, if_pos hw.symm, Option.getD_some]
  · rw [if_neg hw, if_neg fun h => hw h.symm, ← List.getD_eq_getElem?_getD]
    rfl

theorem planeBit_replicate {n idx : Nat} (h : idx < 64 * n) (word : BitVec 64) :
    planeBit (List.replicate n word) idx = word.getLsbD (idx % 64) := by
  rw [planeBit, List.getD_eq_getElem?_getD, List.getElem?_replicate, if_pos (by omega),
    Option.getD_some]

theorem bitOf_inj {a b c d : Bool} : bitOf a b = bitOf c d ↔ a = c ∧ b = d := by
  cases a <;> cases b <;> cases c <;> cases d <;> simp [bitOf]

namespace Planes

/-- `abits_word`. -/
def aword (v : Planes) (wdx : Nat) : BitVec 64 := v.abits.getD wdx 0

/-- `bbits_word`. -/
def bword (v : Planes) (wdx : Nat) : BitVec 64 := v.bbits.getD wdx 0

/-- A word of the first plane assigned. -/
def setA (v : Planes) (wdx : Nat) (word : BitVec 64) : Planes :=
  { v with
    abits := v.abits.set wdx word
    length_abits := by rw [List.length_set, v.length_abits] }

/-- A word of the second plane assigned. -/
def setB (v : Planes) (wdx : Nat) (word : BitVec 64) : Planes :=
  { v with
    bbits := v.bbits.set wdx word
    length_bbits := by rw [List.length_set, v.length_bbits] }

/-- `value`. -/
def value (v : Planes) (idx : Nat) : Bit4 :=
  if idx ≥ v.size then .x
  else
    let wdx := if 64 < v.size then idx / 64 else 0
    let off := if 64 < v.size then idx % 64 else idx
    bitOf ((v.aword wdx >>> off).getLsbD 0) ((v.bword wdx >>> off).getLsbD 0)

/-- The bits of the vector. -/
def toVector4 (v : Planes) : Vector4 := (List.range v.size).map v.value

/-- `allocate_words_`. -/
def allocateWords (size : Nat) (inita initb : BitVec 64) : Planes where
  size := size
  abits := List.replicate (planeWords size) inita
  bbits := List.replicate (planeWords size) initb
  length_abits := List.length_replicate
  length_bbits := List.length_replicate

/-- The constructor from the low words of the planes. -/
def ofWords (size : Nat) (aval bval : BitVec 64) : Planes :=
  let mask := if size < 64 then lowMask size else BitVec.allOnes 64
  ((allocateWords size 0 0).setA 0 (aval &&& mask)).setB 0 (bval &&& mask)

/-- A bit is read from the words that hold it. -/
theorem value_of_lt {v : Planes} {idx : Nat} (h : idx < v.size) :
    v.value idx = bitOf (planeBit v.abits idx) (planeBit v.bbits idx) := by
  simp only [value, if_neg (Nat.not_le.mpr h), BitVec.getLsbD_ushiftRight, Nat.add_zero]
  by_cases hw : 64 < v.size
  · rw [if_pos hw, if_pos hw]
    rfl
  · rw [if_neg hw, if_neg hw, planeBit, planeBit, Nat.div_eq_of_lt (by omega),
      Nat.mod_eq_of_lt (by omega)]
    rfl

/-- Past the end every bit is X. -/
theorem value_of_ge {v : Planes} {idx : Nat} (h : v.size ≤ idx) : v.value idx = .x := if_pos h

/-! ## The bits as a list -/

@[simp] theorem length_toVector4 (v : Planes) : v.toVector4.length = v.size := by
  simp [toVector4]

theorem getElem?_toVector4 (v : Planes) (idx : Nat) :
    v.toVector4[idx]? = if idx < v.size then some (v.value idx) else none := by
  rw [toVector4, List.getElem?_map]
  split_ifs with h
  · rw [List.getElem?_range h, Option.map_some]
  · rw [List.getElem?_eq_none (by simpa using h), Option.map_none]

/-- Vectors of one size with the same bits. -/
theorem toVector4_congr {u v : Planes} (hs : u.size = v.size)
    (h : ∀ idx < v.size, u.value idx = v.value idx) : u.toVector4 = v.toVector4 := by
  rw [toVector4, toVector4, hs]
  apply List.map_congr_left
  intro idx hidx
  exact h idx (List.mem_range.mp hidx)

private theorem bitOf_known (a b : Bool) :
    (bitOf a b = .zero ∨ bitOf a b = .one) ↔ b = false := by
  cases a <;> cases b <;> simp [bitOf]

/-- There is no X and no Z when the second plane is clear below the size. -/
theorem hasXz_eq_false_iff (v : Planes) :
    v.toVector4.hasXz = false ↔
      ∀ idx < v.size, planeBit v.bbits idx = false := by
  rw [Vector4.hasXz_eq_false]
  constructor
  · intro h idx hidx
    have hmem : v.value idx ∈ v.toVector4 := List.mem_map_of_mem (List.mem_range.mpr hidx)
    have hbit := h _ hmem
    rwa [value_of_lt hidx, bitOf_known] at hbit
  · intro h b hb
    obtain ⟨idx, hidx, rfl⟩ := List.mem_map.mp hb
    rw [List.mem_range] at hidx
    rw [value_of_lt hidx, bitOf_known]
    exact h idx hidx

/-- A vector without X and Z is the number in its first plane. -/
theorem toVector4_of_clear {v : Planes}
    (h : ∀ idx < v.size, planeBit v.bbits idx = false) :
    v.toVector4 = Vector4.ofNat v.size (Words.value v.abits) := by
  rw [toVector4, Vector4.ofNat]
  apply List.map_congr_left
  intro idx hidx
  rw [List.mem_range] at hidx
  rw [value_of_lt hidx, h idx hidx, testBit_value]
  cases planeBit v.abits idx <;> rfl

theorem toVector4_of_not_hasXz {v : Planes} (h : v.toVector4.hasXz = false) :
    v.toVector4 = Vector4.ofNat v.size (Words.value v.abits) :=
  toVector4_of_clear ((hasXz_eq_false_iff v).mp h)

/-- A vector whose planes are set below the size is all X. -/
theorem toVector4_of_set {v : Planes}
    (h : ∀ idx < v.size, planeBit v.abits idx = true ∧
      planeBit v.bbits idx = true) :
    v.toVector4 = List.replicate v.size .x := by
  apply List.eq_replicate_iff.mpr
  refine ⟨length_toVector4 v, fun b hb => ?_⟩
  obtain ⟨idx, hidx, rfl⟩ := List.mem_map.mp hb
  rw [List.mem_range] at hidx
  rw [value_of_lt hidx, (h idx hidx).1, (h idx hidx).2]
  rfl

/-- The number of a vector without X and Z. -/
theorem toNat_toVector4 {v : Planes} (h : v.toVector4.hasXz = false) :
    v.toVector4.toNat = Words.value v.abits % 2 ^ v.size := by
  rw [toVector4_of_not_hasXz h, Vector4.toNat_ofNat]

end Planes

end Icarus.Vvp
