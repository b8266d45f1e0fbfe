import Icarus.Vvp.Planes.Native
import Icarus.Vvp.Thread.Divide

/-!
# Arrays of words

`subarray` copies the first plane of a part of a vector into an array, and gives the null pointer
where the part has X or Z bits. A longer vector is copied by pieces that fit into a word of either
side.
-/

namespace Icarus.Vvp

open Icarus.Core

namespace Planes

variable {v : Planes}

/-- The bits of a word that are moved; nothing where there is an X or Z among them that does not
become 0. -/
def knownBits (atmp btmp : BitVec 64) (xzTo0 : Bool) : Option (BitVec 64) :=
  if btmp ≠ 0 then
    if xzTo0 then some (atmp &&& ~~~ btmp) else none
  else some atmp

/-- The loop of `subarray` over a vector of several words. The position is that of `val_ptr` and
`val_off`, the bits in front of it. -/
def subarrayLoop (v : Planes) (xzTo0 : Bool) (adr wid pos : Nat) (val : List (BitVec 64)) :
    Option (List (BitVec 64)) :=
  if wid > 0 then
    let off := adr % 64
    let valOff := pos % 64
    let trans := min (min (64 - off) (64 - valOff)) wid
    let atmp := (v.aword (adr / 64) >>> off) &&& transMask trans
    let btmp := (v.bword (adr / 64) >>> off) &&& transMask trans
    match knownBits atmp btmp xzTo0 with
    | none => none
    | some atmp =>
      subarrayLoop v xzTo0 (adr + trans) (wid - trans) (pos + trans)
        (val.set (pos / 64) (val.getD (pos / 64) 0 ||| (atmp <<< valOff)))
  else some val
termination_by wid
decreasing_by omega

/-- `subarray`. -/
def subarray (v : Planes) (adr wid : Nat) (xzTo0 : Bool) : Option (List (BitVec 64)) :=
  let val := List.replicate (wordCount wid) (0 : BitVec 64)
  if v.size ≤ 64 then
    let atmp := v.aword 0 >>> adr
    let btmp := v.bword 0 >>> adr
    let atmp := if wid < 64 then atmp &&& lowMask wid else atmp
    let btmp := if wid < 64 then btmp &&& lowMask wid else btmp
    (knownBits atmp btmp xzTo0).map (val.set 0)
  else subarrayLoop v xzTo0 adr wid 0 val

/-! ## The bits that are copied -/

/-- Bits from a position on, of which the first are kept. -/
theorem getLsbD_piece (plane : List (BitVec 64)) {adr trans : Nat} (htrans : trans ≤ 64 - adr % 64)
    (i : Nat) :
    ((plane.getD (adr / 64) 0 >>> (adr % 64)) &&& transMask trans).getLsbD i =
      (decide (i < trans) && planeBit plane (adr + i)) := by
  rw [BitVec.getLsbD_and, BitVec.getLsbD_ushiftRight, getLsbD_transMask (by omega), Bool.and_comm]
  by_cases hi : i < trans
  · rw [planeBit, show (adr + i) / 64 = adr / 64 by omega,
      show (adr + i) % 64 = adr % 64 + i by omega]
  · rw [decide_eq_false hi, Bool.false_and, Bool.false_and]

/-- A word is clear where its bits are. -/
theorem piece_eq_zero (plane : List (BitVec 64)) {adr trans : Nat} (htrans : trans ≤ 64 - adr % 64) :
    (plane.getD (adr / 64) 0 >>> (adr % 64)) &&& transMask trans = 0 ↔
      ∀ i < trans, planeBit plane (adr + i) = false := by
  constructor
  · intro h i hi
    have hbit := getLsbD_piece plane htrans i
    rw [decide_eq_true hi, Bool.true_and] at hbit
    rw [← hbit, h]
    exact BitVec.getLsbD_zero
  · intro h
    apply BitVec.eq_of_getLsbD_eq
    intro i _
    rw [getLsbD_piece plane htrans]
    refine Eq.trans ?_ (Eq.symm BitVec.getLsbD_zero)
    by_cases hi : i < trans
    · rw [h i hi, Bool.and_false]
    · rw [decide_eq_false hi, Bool.false_and]

/-- Bits put into a plane at a position, within a word. -/
theorem planeBit_put {val : List (BitVec 64)} {pos trans : Nat} {tmp : BitVec 64}
    (hpos : pos / 64 < val.length) (htrans : trans ≤ 64 - pos % 64)
    (htmp : ∀ i ≥ trans, tmp.getLsbD i = false) (j : Nat) :
    planeBit (val.set (pos / 64) (val.getD (pos / 64) 0 ||| (tmp <<< (pos % 64)))) j =
      (planeBit val j || decide (pos ≤ j) && tmp.getLsbD (j - pos)) := by
  have hj : j % 64 < 64 := Nat.mod_lt j (by omega)
  rw [planeBit_set hpos]
  by_cases hword : j / 64 = pos / 64
  · rw [if_pos hword, BitVec.getLsbD_or, BitVec.getLsbD_shiftLeft, decide_eq_true hj,
      Bool.true_and, planeBit, hword, ← decide_not]
    congr 2
    · exact decide_eq_decide.mpr (by omega)
    · congr 1
      omega
  · rw [if_neg hword]
    by_cases hle : pos ≤ j
    · rw [htmp (j - pos) (by omega), Bool.and_false, Bool.or_false]
    · rw [decide_eq_false hle, Bool.false_and, Bool.or_false]

/-- The loop copies the bits of a part without X and Z, and gives nothing for another part. -/
theorem subarrayLoop_spec (v : Planes) : ∀ (wid adr pos : Nat) (val : List (BitVec 64)),
    pos + wid ≤ 64 * val.length →
    (subarrayLoop v false adr wid pos val = none ↔ ∃ i < wid, planeBit v.bbits (adr + i) = true) ∧
    ∀ result, subarrayLoop v false adr wid pos val = some result →
      result.length = val.length ∧ ∀ j, planeBit result j =
        (planeBit val j ||
          decide (pos ≤ j ∧ j < pos + wid) && planeBit v.abits (adr + (j - pos))) := by
  intro wid
  induction wid using Nat.strong_induction_on with
  | h wid ih =>
    intro adr pos val hval
    rw [subarrayLoop]
    by_cases hpos : wid > 0
    · rw [if_pos hpos]
      dsimp only
      generalize htrans : min (min (64 - adr % 64) (64 - pos % 64)) wid = trans
      have hoff : trans ≤ 64 - adr % 64 := by omega
      have hclear := piece_eq_zero v.bbits hoff
      rw [knownBits]
      by_cases hzero : (v.bword (adr / 64) >>> (adr % 64)) &&& transMask trans = 0
      · rw [if_neg (not_not.mpr hzero)]
        dsimp only
        have hnext := hclear.mp hzero
        obtain ⟨hnone, hsome⟩ := ih (wid - trans) (by omega) (adr + trans) (pos + trans)
          (val.set (pos / 64) (val.getD (pos / 64) 0 |||
            (((v.aword (adr / 64) >>> (adr % 64)) &&& transMask trans) <<< (pos % 64))))
          (by rw [List.length_set]; omega)
        refine ⟨hnone.trans ⟨?_, ?_⟩, fun result hresult => ?_⟩
        · rintro ⟨i, hi, hbit⟩
          exact ⟨trans + i, by omega, by rwa [← Nat.add_assoc]⟩
        · rintro ⟨i, hi, hbit⟩
          have hge : trans ≤ i := by
            by_contra hlt
            rw [hnext i (by omega)] at hbit
            exact Bool.false_ne_true hbit
          exact ⟨i - trans, by omega, by rwa [Nat.add_assoc, Nat.add_sub_cancel' hge]⟩
        · obtain ⟨hlen, hbits⟩ := hsome result hresult
          refine ⟨hlen.trans List.length_set, fun j => ?_⟩
          have htmp : ∀ i ≥ trans, ((v.abits.getD (adr / 64) 0 >>> (adr % 64)) &&&
              transMask trans).getLsbD i = false := fun i hi => by
            rw [getLsbD_piece _ hoff, decide_eq_false (by omega), Bool.false_and]
          have hput := planeBit_put (show pos / 64 < val.length by omega)
            (show trans ≤ 64 - pos % 64 by omega) htmp j
          rw [getLsbD_piece _ hoff] at hput
          rw [hbits j, show v.aword (adr / 64) = v.abits.getD (adr / 64) 0 from rfl, hput,
            Bool.or_assoc]
          congr 1
          rcases Nat.lt_or_ge j pos with hbefore | hfrom
          · rw [decide_eq_false (by omega : ¬ pos ≤ j), decide_eq_false (by omega : ¬ (_ ∧ _)),
              decide_eq_false (by omega : ¬ (pos ≤ j ∧ j < pos + wid))]
            rfl
          · rw [decide_eq_true hfrom, Bool.true_and]
            rcases Nat.lt_or_ge j (pos + trans) with hpiece | hpast
            · rw [decide_eq_true (by omega : j - pos < trans),
                decide_eq_false (by omega : ¬ (pos + trans ≤ j ∧ j < pos + trans + (wid - trans))),
                decide_eq_true (by omega : pos ≤ j ∧ j < pos + wid), Bool.false_and, Bool.or_false]
            · rw [decide_eq_false (by omega : ¬ j - pos < trans), Bool.false_and, Bool.false_or]
              congr 1
              · exact decide_eq_decide.mpr (by omega)
              · congr 1
                omega
      · rw [if_pos hzero, if_neg Bool.false_ne_true]
        dsimp only
        refine ⟨iff_of_true rfl ?_, fun result hresult => absurd hresult (Option.some_ne_none _).symm⟩
        by_contra hno
        push Not at hno
        refine hzero (hclear.mpr fun i hi => Bool.eq_false_iff.mpr (hno i (by omega)))
    · rw [if_neg hpos]
      refine ⟨iff_of_false (Option.some_ne_none _) ?_, fun result hresult => ?_⟩
      · rintro ⟨i, hi, -⟩
        omega
      · rw [← Option.some.inj hresult]
        refine ⟨rfl, fun j => ?_⟩
        rw [decide_eq_false (by omega), Bool.false_and, Bool.or_false]

theorem planeBit_cleared (n j : Nat) : planeBit (List.replicate n (0 : BitVec 64)) j = false := by
  rw [planeBit, List.getD_eq_getElem?_getD, List.getElem?_replicate]
  split_ifs
  · exact BitVec.getLsbD_zero
  · exact BitVec.getLsbD_zero

/-- The words of a vector of at most one word. -/
theorem subarray_short (v : Planes) (hshort : v.size ≤ 64) :
    (v.subarray 0 v.size false = none ↔ ∃ i < v.size, planeBit v.bbits i = true) ∧
    ∀ result, v.subarray 0 v.size false = some result →
      result.length = wordCount v.size ∧ ∀ j, planeBit result j =
        (decide (j < v.size) && planeBit v.abits j) := by
  -- the masked words are a piece of all the bits
  have hpiece : ∀ word : BitVec 64, (if v.size < 64 then (word >>> 0) &&& lowMask v.size
      else word >>> 0) = (word >>> (0 % 64)) &&& transMask v.size := by
    intro word
    apply BitVec.eq_of_getLsbD_eq
    intro i hi
    rw [BitVec.getLsbD_and, getLsbD_transMask hshort]
    split_ifs with hlt
    · rw [BitVec.getLsbD_and, getLsbD_lowMask hlt]
    · rw [decide_eq_true (by omega), Bool.and_true]
  have htrans : v.size ≤ 64 - 0 % 64 := hshort
  have hclear := piece_eq_zero v.bbits htrans
  have habits := getLsbD_piece v.abits htrans
  unfold subarray
  dsimp only
  rw [if_pos hshort, hpiece, hpiece]
  unfold knownBits
  by_cases hzero : (v.bword 0 >>> (0 % 64)) &&& transMask v.size = 0
  · rw [if_neg (not_not.mpr hzero), Option.map_some]
    have hnone := hclear.mp hzero
    refine ⟨iff_of_false (Option.some_ne_none _) ?_, fun result hresult => ?_⟩
    · rintro ⟨i, hi, hbit⟩
      have hfalse := hnone i hi
      rw [Nat.zero_add, hbit] at hfalse
      exact Bool.false_ne_true hfalse.symm
    · rw [← Option.some.inj hresult]
      refine ⟨by rw [List.length_set, List.length_replicate], fun j => ?_⟩
      rcases Nat.eq_zero_or_pos v.size with hsize | hsize
      · rw [hsize, decide_eq_false (Nat.not_lt_zero j), Bool.false_and,
          show wordCount 0 = 0 from rfl, List.replicate_zero, List.set_nil]
        exact planeBit_cleared 0 j
      · have hlen : 0 < (List.replicate (wordCount v.size) (0 : BitVec 64)).length := by
          rw [List.length_replicate, wordCount]
          omega
        rw [planeBit_set hlen]
        split_ifs with hword
        · have hmod : j % 64 = j := by omega
          have hbit := habits (j % 64)
          rw [Nat.zero_add] at hbit
          refine hbit.trans ?_
          rw [hmod]
        · rw [planeBit_cleared, decide_eq_false (by omega), Bool.false_and]
  · rw [if_pos hzero, if_neg Bool.false_ne_true, Option.map_none]
    refine ⟨iff_of_true rfl ?_, fun result hresult => absurd hresult (Option.some_ne_none _).symm⟩
    by_contra hno
    push Not at hno
    refine hzero (hclear.mpr fun i hi => ?_)
    rw [Nat.zero_add]
    exact Bool.eq_false_iff.mpr (hno i hi)

/-- The whole of a vector: its words, or nothing where it has X or Z bits. -/
theorem subarray_whole (v : Planes) :
    (v.subarray 0 v.size false = none ↔ ∃ i < v.size, planeBit v.bbits i = true) ∧
    ∀ result, v.subarray 0 v.size false = some result →
      result.length = wordCount v.size ∧ ∀ j, planeBit result j =
        (decide (j < v.size) && planeBit v.abits j) := by
  by_cases hshort : v.size ≤ 64
  · exact v.subarray_short hshort
  · have hwords := le_wordCount v.size
    obtain ⟨hnone, hsome⟩ := v.subarrayLoop_spec v.size 0 0
      (List.replicate (wordCount v.size) 0) (by rw [List.length_replicate]; omega)
    simp only [Nat.zero_add] at hnone
    unfold subarray
    dsimp only
    rw [if_neg hshort]
    refine ⟨hnone, fun result hresult => ?_⟩
    obtain ⟨hlen, hbits⟩ := hsome result hresult
    refine ⟨hlen.trans List.length_replicate, fun j => ?_⟩
    rw [hbits j, planeBit_cleared, Bool.false_or]
    simp only [Nat.zero_add, Nat.zero_le, true_and, Nat.sub_zero]

/-- The array of the planes is the array of the vector. -/
theorem subarray_eq (v : Planes) :
    v.subarray 0 v.size false = Icarus.Vvp.subarray v.toVector4 := by
  obtain ⟨hnone, hsome⟩ := v.subarray_whole
  have hknown := hasXz_eq_false_iff v
  unfold Icarus.Vvp.subarray
  cases hresult : v.subarray 0 v.size false with
  | none =>
    obtain ⟨i, hi, hbit⟩ := hnone.mp hresult
    have hxz : v.toVector4.hasXz = true := by
      by_contra hno
      rw [hknown.mp (Bool.eq_false_iff.mpr hno) i hi] at hbit
      exact Bool.false_ne_true hbit
    rw [if_pos hxz]
  | some result =>
    obtain ⟨hlen, hbits⟩ := hsome result hresult
    have hxz : v.toVector4.hasXz = false := hknown.mpr fun i hi => by
      by_contra hbit
      have hno := hnone.mpr ⟨i, hi, Bool.eq_true_of_not_eq_false hbit⟩
      rw [hresult] at hno
      exact Option.some_ne_none result hno
    rw [if_neg (Bool.eq_false_iff.mp hxz)]
    congr 1
    refine Words.eq_of_value ?_ ?_
    · rw [hlen, length_subarray, length_toVector4]
    · rw [Vector2.value_subarray, toNat_toVector4 hxz]
      apply Nat.eq_of_testBit_eq
      intro j
      rw [testBit_value, hbits, Nat.testBit_mod_two_pow, testBit_value]

end Planes

end Icarus.Vvp
