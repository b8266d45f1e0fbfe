import Icarus.Vvp.Planes.Basic

/-!
# Conversions to native integers

`vector4_to_value` takes a word of each plane at a time. One form has a flag for signed values and
one for arithmetic, which does not accept X and Z; the other form reports an overflow.
-/

namespace Icarus.Vvp

open Icarus.Core

/-- The mask of a part of a word. -/
def transMask (trans : Nat) : BitVec 64 :=
  if trans = 64 then BitVec.allOnes 64 else lowMask trans

theorem getLsbD_transMask {trans : Nat} (h : trans ≤ 64) (i : Nat) :
    (transMask trans).getLsbD i = decide (i < trans) := by
  unfold transMask
  split_ifs with heq
  · rw [BitVec.getLsbD_allOnes, heq]
  · exact getLsbD_lowMask (by omega) i

namespace Planes

variable {w : Nat} {v : Planes}

/-- The loop of `vector4_to_value` over the words below `base`, with the result and the flag to be
returned. Arithmetic leaves the function at the first X or Z. -/
def valueWords (w size : Nat) (isArithmetic : Bool) (v : Planes) : Nat → Option (BitVec w × Bool)
  | 0 => some (0, true)
  | wdx + 1 =>
    match valueWords w size isArithmetic v wdx with
    | none => none
    | some (res, rcFlag) =>
      let base := 64 * wdx
      let trans := if size - base > 64 then 64 else size - base
      let mask := transMask trans
      let abits := v.aword wdx &&& mask
      let bbits := v.bword wdx &&& mask
      if bbits ≠ 0 then
        if isArithmetic then none
        else some (res ||| ((abits &&& ~~~ bbits).setWidth w <<< base), false)
      else some (res ||| (abits.setWidth w <<< base), rcFlag)

/-- `vector4_to_value` with the flags, for a destination of a width: its return value, and the
destination after the call. -/
def vector4ToValue (v : Planes) (val : BitVec w) (isSigned isArithmetic : Bool) :
    Bool × BitVec w :=
  let size := if v.size > w then w else v.size
  match valueWords w size isArithmetic v (wordCount size) with
  | none => (false, val)
  | some (res, rcFlag) =>
    let res :=
      if isSigned && v.value (v.size - 1) = .one then
        if v.size < w then res ||| (BitVec.allOnes 64 <<< v.size).setWidth w else res
      else res
    (rcFlag, res)

/-- The loop of `vector4_to_value` over the words below `base`, with the overflow flag. An X or Z
leaves the function with the flag as it is. -/
def overflowWords (w : Nat) (v : Planes) : Nat → Except Bool (BitVec w × Bool)
  | 0 => .ok (0, false)
  | wdx + 1 =>
    match overflowWords w v wdx with
    | .error overflowFlag => .error overflowFlag
    | .ok (res, overflowFlag) =>
      let base := 64 * wdx
      let trans := if v.size - base > 64 then 64 else v.size - base
      let mask := transMask trans
      let abits := v.aword wdx &&& mask
      let bbits := v.bword wdx &&& mask
      if bbits ≠ 0 then .error overflowFlag
      else if base ≥ w then .ok (res, if abits ≠ 0 then true else overflowFlag)
      else if trans > w - base then
        let cap := w - base
        .ok (res ||| ((abits &&& lowMask cap).setWidth w <<< base),
          if abits >>> cap ≠ 0 then true else overflowFlag)
      else .ok (res ||| (abits.setWidth w <<< base), overflowFlag)

/-- `vector4_to_value` with the overflow flag: its return value, the flag and the destination after
the call. -/
def vector4ToValueOverflow (v : Planes) (val : BitVec w) : Bool × Bool × BitVec w :=
  match overflowWords w v (wordCount v.size) with
  | .error overflowFlag => (false, overflowFlag, val)
  | .ok (res, overflowFlag) => (true, overflowFlag, res)

/-! ## Bits -/

/-- A bit is X or Z. -/
def xzBit (v : Planes) (idx : Nat) : Prop := v.value idx = .x ∨ v.value idx = .z

/-- The value bit by bit: a bit that is 1, and above the vector its top bit if it is signed. -/
def valueBit (v : Planes) (isSigned : Bool) (idx : Nat) : Bool :=
  if idx < v.size then v.value idx = .one else isSigned && v.value (v.size - 1) = .one

theorem xzBit_iff {idx : Nat} (h : idx < v.size) : v.xzBit idx ↔ planeBit v.bbits idx = true := by
  rw [xzBit, value_of_lt h]
  cases planeBit v.abits idx <;> cases planeBit v.bbits idx <;> simp [bitOf]

theorem value_eq_one {idx : Nat} (h : idx < v.size) :
    decide (v.value idx = .one) = (planeBit v.abits idx && !planeBit v.bbits idx) := by
  rw [value_of_lt h]
  cases planeBit v.abits idx <;> cases planeBit v.bbits idx <;> simp [bitOf]

private theorem getLsbD_none (i : Nat) : (0 : BitVec w).getLsbD i = false := BitVec.getLsbD_zero

/-- The part of a word below a size. -/
theorem getLsbD_and_transMask (plane : List (BitVec 64)) (size wdx : Nat) {i : Nat} (hi : i < 64) :
    (plane.getD wdx 0 &&& transMask (if size - 64 * wdx > 64 then 64 else size - 64 * wdx)).getLsbD i =
      (decide (64 * wdx + i < size) && planeBit plane (64 * wdx + i)) := by
  have htrans : (if size - 64 * wdx > 64 then 64 else size - 64 * wdx) ≤ 64 := by
    split_ifs <;> omega
  have hlt : decide (i < if size - 64 * wdx > 64 then 64 else size - 64 * wdx) =
      decide (64 * wdx + i < size) := by
    apply decide_eq_decide.mpr
    split_ifs <;> omega
  rw [BitVec.getLsbD_and, getLsbD_transMask htrans, hlt, Bool.and_comm, planeBit,
    Nat.mul_add_div (by omega), Nat.div_eq_of_lt hi, Nat.add_zero, Nat.mul_add_mod,
    Nat.mod_eq_of_lt hi]

/-- The part of a word of the second plane is clear when its bits are. -/
theorem bword_and_transMask_eq_zero {size wdx : Nat} :
    v.bword wdx &&& transMask (if size - 64 * wdx > 64 then 64 else size - 64 * wdx) = 0 ↔
      ∀ i < 64, 64 * wdx + i < size → planeBit v.bbits (64 * wdx + i) = false := by
  constructor
  · intro h i hi hlt
    have hbit := getLsbD_and_transMask v.bbits size wdx hi
    rw [decide_eq_true hlt, Bool.true_and] at hbit
    rw [← hbit]
    exact (congrArg (·.getLsbD i) h).trans BitVec.getLsbD_zero
  · intro h
    apply BitVec.eq_of_getLsbD_eq
    intro i hi
    refine (getLsbD_and_transMask v.bbits size wdx hi).trans ?_
    rw [getLsbD_none]
    by_cases hlt : 64 * wdx + i < size
    · rw [h i hi hlt, Bool.and_false]
    · rw [decide_eq_false hlt, Bool.false_and]

/-! ## Signed and unsigned values -/

/-- A value of at most one word. -/
theorem valueWords_spec {size : Nat} (hs : size ≤ 64) (hw : w ≤ 64) (isArithmetic : Bool)
    (v : Planes) :
    ∃ res : BitVec w,
      (∀ i < w, res.getLsbD i =
        (decide (i < size) && (planeBit v.abits i && !planeBit v.bbits i))) ∧
      ((∀ idx < size, planeBit v.bbits idx = false) →
        valueWords w size isArithmetic v (wordCount size) = some (res, true)) ∧
      (¬ (∀ idx < size, planeBit v.bbits idx = false) →
        valueWords w size isArithmetic v (wordCount size) =
          if isArithmetic then none else some (res, false)) := by
  rcases Nat.eq_zero_or_pos size with hzero | hpos
  · subst hzero
    refine ⟨0, fun i _ => ?_, fun _ => rfl, fun h => absurd (fun idx hidx =>
      absurd hidx (Nat.not_lt_zero idx)) h⟩
    rw [getLsbD_none, decide_eq_false (Nat.not_lt_zero i), Bool.false_and]
  · have hcount : wordCount size = 1 := by
      unfold wordCount
      omega
    have hclear : (∀ idx < size, planeBit v.bbits idx = false) ↔
        v.bword 0 &&& transMask (if size - 64 * 0 > 64 then 64 else size - 64 * 0) = 0 := by
      rw [bword_and_transMask_eq_zero]
      simp only [Nat.mul_zero, Nat.zero_add]
      exact ⟨fun h i _ hlt => h i hlt, fun h i hlt => h i (by omega) hlt⟩
    have hbits := fun i hi => @getLsbD_and_transMask v.abits size 0 i hi
    have hbits' := fun i hi => @getLsbD_and_transMask v.bbits size 0 i hi
    rw [hclear, hcount, valueWords, valueWords]
    simp only [Nat.mul_zero, Nat.zero_add] at hbits hbits' ⊢
    change ∀ i < 64, (v.aword 0 &&& _).getLsbD i = _ at hbits
    change ∀ i < 64, (v.bword 0 &&& _).getLsbD i = _ at hbits'
    generalize v.aword 0 &&& transMask (if size - 0 > 64 then 64 else size - 0) = abits at hbits ⊢
    generalize v.bword 0 &&& transMask (if size - 0 > 64 then 64 else size - 0) = bbits at hbits' ⊢
    refine ⟨(0 : BitVec w) ||| ((abits &&& ~~~ bbits).setWidth w <<< 0), fun i hi => ?_, fun h => ?_, fun h => ?_⟩
    · rw [BitVec.getLsbD_or, getLsbD_none, Bool.false_or, BitVec.shiftLeft_zero,
        BitVec.getLsbD_setWidth, decide_eq_true hi, Bool.true_and, BitVec.getLsbD_and,
        BitVec.getLsbD_not, hbits i (by omega), hbits' i (by omega),
        decide_eq_true (show i < 64 by omega)]
      cases decide (i < size) <;> simp
    · have hall : ~~~ (0 : BitVec 64) = BitVec.allOnes 64 := rfl
      rw [if_neg (not_not.mpr h), h, hall, BitVec.and_allOnes]
    · rw [if_pos h]

/-- The bits of the mask that extends the sign. -/
private theorem getLsbD_signMask (hw : w ≤ 64) {size i : Nat} (hi : i < w) :
    ((BitVec.allOnes 64 <<< size).setWidth w).getLsbD i = decide (size ≤ i) := by
  rw [BitVec.getLsbD_setWidth, decide_eq_true hi, Bool.true_and, BitVec.getLsbD_shiftLeft,
    BitVec.getLsbD_allOnes, decide_eq_true (show i < 64 by omega), Bool.true_and]
  by_cases hlt : i < size
  · simp [hlt]
  · simp [hlt]
    omega

/-- The flags decide what is returned where an X or Z is read; the bits are those of the vector,
and above them those of its sign. -/
theorem vector4ToValue_bits (hw : w ≤ 64) (v : Planes) (val : BitVec w)
    (isSigned isArithmetic : Bool) :
    ((vector4ToValue v val isSigned isArithmetic).1 = false ↔ ∃ i < w, i < v.size ∧ v.xzBit i) ∧
      ((isArithmetic = false ∨ ∀ i < w, i < v.size → ¬ v.xzBit i) →
        ∀ i < w, (vector4ToValue v val isSigned isArithmetic).2.getLsbD i = v.valueBit isSigned i) ∧
      (isArithmetic = true → (∃ i < w, i < v.size ∧ v.xzBit i) →
        (vector4ToValue v val isSigned isArithmetic).2 = val) := by
  have hmin : (if v.size > w then w else v.size) = min v.size w := by
    split_ifs <;> omega
  have hclear : (∀ idx < min v.size w, planeBit v.bbits idx = false) ↔
      ¬ ∃ i < w, i < v.size ∧ v.xzBit i := by
    constructor
    · rintro h ⟨i, hiw, his, hxz⟩
      rw [xzBit_iff his, h i (by omega)] at hxz
      exact absurd hxz Bool.false_ne_true
    · intro h idx hidx
      by_contra hne
      exact h ⟨idx, by omega, by omega, (xzBit_iff (by omega)).mpr (Bool.eq_true_of_not_eq_false hne)⟩
  obtain ⟨res, hres, hknown, hxz⟩ :=
    @valueWords_spec w (min v.size w) (by omega) hw isArithmetic v
  rw [hclear] at hknown
  rw [hclear, not_not] at hxz
  -- The bits with the sign put above them.
  have hsigned : ∀ i < w, (if (isSigned && decide (v.value (v.size - 1) = .one)) = true then
      if v.size < w then res ||| (BitVec.allOnes 64 <<< v.size).setWidth w else res
      else res).getLsbD i = v.valueBit isSigned i := by
    intro i hi
    have hlow : i < v.size → res.getLsbD i = v.valueBit isSigned i := by
      intro his
      rw [hres i hi, decide_eq_true (lt_min his hi), Bool.true_and, valueBit, if_pos his,
        value_eq_one his]
    have hhigh : ¬ i < v.size → res.getLsbD i = false := by
      intro his
      rw [hres i hi, decide_eq_false fun h => his (lt_min_iff.mp h).1, Bool.false_and]
    by_cases his : i < v.size
    · rw [← hlow his]
      split_ifs
      · rw [BitVec.getLsbD_or, getLsbD_signMask hw hi, decide_eq_false (by omega), Bool.or_false]
      · rfl
      · rfl
    · rw [valueBit, if_neg his]
      split_ifs with hsign hlt
      · rw [BitVec.getLsbD_or, getLsbD_signMask hw hi, decide_eq_true (by omega), Bool.or_true, hsign]
      · omega
      · rw [hhigh his, Bool.eq_false_iff.mpr hsign]
  unfold vector4ToValue
  dsimp only
  rw [hmin]
  by_cases hany : ∃ i < w, i < v.size ∧ v.xzBit i
  · rw [hxz hany]
    cases isArithmetic with
    | false => exact ⟨⟨fun _ => hany, fun _ => rfl⟩, fun _ => hsigned, fun h => absurd h (by decide)⟩
    | true =>
      refine ⟨⟨fun _ => hany, fun _ => rfl⟩, fun h => ?_, fun _ _ => rfl⟩
      obtain ⟨i, hiw, his, hbit⟩ := hany
      exact absurd hbit (h.resolve_left (by decide) i hiw his)
  · rw [hknown hany]
    exact ⟨⟨fun h => absurd (show true = false from h) (by decide), fun h => absurd h hany⟩, fun _ => hsigned,
      fun _ h => absurd h hany⟩

/-! ## Overflow -/

theorem ne_zero_iff (x : BitVec 64) : x ≠ 0 ↔ ∃ i < 64, x.getLsbD i = true := by
  constructor
  · intro h
    by_contra hnone
    apply h
    apply BitVec.eq_of_getLsbD_eq
    intro i hi
    rw [getLsbD_none]
    exact Bool.eq_false_iff.mpr fun hbit => hnone ⟨i, hi, hbit⟩
  · rintro ⟨i, -, hbit⟩ rfl
    rw [getLsbD_none] at hbit
    exact Bool.false_ne_true hbit

/-- What the loop has read below a word: no X or Z, the low bits, and whether there are others. -/
structure Read (w : Nat) (v : Planes) (n : Nat) (res : BitVec w) (overflowFlag : Bool) : Prop where
  clear : ∀ idx < 64 * n, idx < v.size → planeBit v.bbits idx = false
  bits : ∀ i < w, res.getLsbD i = (decide (i < 64 * n ∧ i < v.size) && planeBit v.abits i)
  flag : overflowFlag = true ↔
    ∃ idx, w ≤ idx ∧ idx < 64 * n ∧ idx < v.size ∧ planeBit v.abits idx = true

/-- A word above the destination only counts for the flag. -/
private theorem Read.above {n : Nat} {res : BitVec w} {flag : Bool} (h : Read w v n res flag)
    (hwide : w ≤ 64 * n) {abits : BitVec 64}
    (ha : ∀ i < 64, abits.getLsbD i =
      (decide (64 * n + i < v.size) && planeBit v.abits (64 * n + i)))
    (hclear : ∀ i < 64, 64 * n + i < v.size → planeBit v.bbits (64 * n + i) = false) :
    Read w v (n + 1) res (if abits ≠ 0 then true else flag) := by
  refine ⟨fun idx hidx hs => ?_, fun i hi => ?_, ?_⟩
  · by_cases hlt : idx < 64 * n
    · exact h.clear idx hlt hs
    · have hbit := hclear (idx - 64 * n) (by omega) (by omega)
      rwa [Nat.add_sub_cancel' (by omega)] at hbit
  · rw [h.bits i hi]
    congr 1
    exact decide_eq_decide.mpr (by omega)
  · constructor
    · intro hflag
      split_ifs at hflag with hne
      · obtain ⟨i, hi, hbit⟩ := (ne_zero_iff abits).mp hne
        rw [ha i hi, Bool.and_eq_true, decide_eq_true_eq] at hbit
        exact ⟨64 * n + i, by omega, by omega, hbit.1, hbit.2⟩
      · obtain ⟨idx, hwi, hlt, hs, hbit⟩ := h.flag.mp hflag
        exact ⟨idx, hwi, by omega, hs, hbit⟩
    · rintro ⟨idx, hwi, hlt, hs, hbit⟩
      by_cases hin : idx < 64 * n
      · rw [h.flag.mpr ⟨idx, hwi, hin, hs, hbit⟩, ite_self]
      · rw [if_pos]
        refine (ne_zero_iff abits).mpr ⟨idx - 64 * n, by omega, ?_⟩
        rw [ha _ (by omega), Nat.add_sub_cancel' (by omega), decide_eq_true hs, hbit]
        rfl

/-- The first word holds the bits of the destination. -/
private theorem Read.first {res : BitVec w} {abits : BitVec 64} {flag : Bool} (hw : w ≤ 64)
    (ha : ∀ i < 64, abits.getLsbD i = (decide (i < v.size) && planeBit v.abits i))
    (hclear : ∀ i < 64, i < v.size → planeBit v.bbits i = false)
    (hres : ∀ i < w, res.getLsbD i = abits.getLsbD i)
    (hflag : flag = true ↔ ∃ i < 64, w ≤ i ∧ abits.getLsbD i = true) : Read w v 1 res flag := by
  refine ⟨fun idx hidx hs => hclear idx (by omega) hs, fun i hi => ?_, ?_⟩
  · rw [hres i hi, ha i (by omega)]
    congr 1
    exact decide_eq_decide.mpr (by omega)
  · rw [hflag]
    constructor
    · rintro ⟨i, hi, hwi, hbit⟩
      rw [ha i hi, Bool.and_eq_true, decide_eq_true_eq] at hbit
      exact ⟨i, hwi, by omega, hbit.1, hbit.2⟩
    · rintro ⟨idx, hwi, hlt, hs, hbit⟩
      refine ⟨idx, by omega, hwi, ?_⟩
      rw [ha idx (by omega), decide_eq_true hs, hbit]
      rfl

/-- The loop reads all words, or stops at an X or Z. -/
theorem overflowWords_spec (hpos : 0 < w) (hw : w ≤ 64) (v : Planes) (n : Nat) :
    (∃ res overflowFlag, overflowWords w v n = .ok (res, overflowFlag) ∧
      Read w v n res overflowFlag) ∨
    ∃ overflowFlag, overflowWords w v n = .error overflowFlag ∧
      ∃ idx < v.size, planeBit v.bbits idx = true := by
  induction n with
  | zero =>
    refine Or.inl ⟨0, false, rfl, fun idx hidx => absurd hidx (Nat.not_lt_zero idx), fun i _ => ?_, ?_⟩
    · rw [getLsbD_none, decide_eq_false (by omega), Bool.false_and]
    · constructor
      · intro h
        exact absurd h Bool.false_ne_true
      · rintro ⟨idx, -, hlt, -⟩
        omega
  | succ n ih =>
    rcases ih with ⟨res, flag, heq, hread⟩ | ⟨flag, heq, hxz⟩
    · have ha := fun i hi => @getLsbD_and_transMask v.abits v.size n i hi
      rw [overflowWords, heq]
      change (∃ res' flag', _ ∧ _) ∨ _
      dsimp only
      by_cases hb : v.bword n &&& transMask (if v.size - 64 * n > 64 then 64 else v.size - 64 * n) = 0
      · have hclear := bword_and_transMask_eq_zero.mp hb
        rw [if_neg (not_not.mpr hb)]
        change ∀ i < 64, (v.aword n &&& _).getLsbD i = _ at ha
        by_cases hwide : 64 * n ≥ w
        · rw [if_pos hwide]
          exact Or.inl ⟨_, _, rfl, hread.above hwide ha hclear⟩
        · obtain rfl : n = 0 := by omega
          have hempty : ∀ i < w, res.getLsbD i = false := by
            intro i hi
            rw [hread.bits i hi, decide_eq_false (by omega), Bool.false_and]
          have hplace : ∀ x : BitVec 64, ∀ i < w,
              (res ||| (x.setWidth w <<< (64 * 0))).getLsbD i = x.getLsbD i := by
            intro x i hi
            rw [BitVec.getLsbD_or, hempty i hi, Bool.false_or, Nat.mul_zero, BitVec.shiftLeft_zero,
              BitVec.getLsbD_setWidth, decide_eq_true hi, Bool.true_and]
          have hnone : flag = false := by
            rw [← Bool.not_eq_true, hread.flag]
            rintro ⟨idx, -, hlt, -⟩
            omega
          rw [if_neg hwide]
          simp only [Nat.mul_zero, Nat.zero_add, Nat.sub_zero] at ha hclear hplace ⊢
          by_cases hcap : (if v.size > 64 then 64 else v.size) > w
          · rw [if_pos hcap]
            have hw' : w < 64 := by
              split_ifs at hcap <;> omega
            refine Or.inl ⟨_, _, rfl, Read.first hw ha hclear (fun i hi => ?_) ?_⟩
            · rw [hplace _ i hi, BitVec.getLsbD_and, getLsbD_lowMask hw', decide_eq_true hi,
                Bool.and_true]
            · rw [hnone]
              generalize v.aword 0 &&& transMask (if v.size > 64 then 64 else v.size) = abits
              constructor
              · intro h
                split_ifs at h with hne
                obtain ⟨i, hi, hbit⟩ := (ne_zero_iff _).mp hne
                rw [BitVec.getLsbD_ushiftRight] at hbit
                exact ⟨w + i, BitVec.lt_of_getLsbD hbit, by omega, hbit⟩
              · rintro ⟨i, hi, hwi, hbit⟩
                rw [if_pos]
                refine (ne_zero_iff _).mpr ⟨i - w, by omega, ?_⟩
                rwa [BitVec.getLsbD_ushiftRight, Nat.add_sub_cancel' hwi]
          · rw [if_neg hcap]
            refine Or.inl ⟨_, _, rfl, Read.first hw ha hclear (fun i hi => hplace _ i hi) ?_⟩
            rw [hnone]
            constructor
            · intro h
              exact absurd h Bool.false_ne_true
            · rintro ⟨i, hi, hwi, hbit⟩
              rw [ha i hi, Bool.and_eq_true, decide_eq_true_eq] at hbit
              split_ifs at hcap <;> omega
      · refine Or.inr ⟨flag, if_pos hb, ?_⟩
        by_contra hnone
        apply hb
        rw [bword_and_transMask_eq_zero]
        intro i hi hlt
        exact Bool.eq_false_iff.mpr fun hbit => hnone ⟨_, hlt, hbit⟩
    · refine Or.inr ⟨flag, ?_, hxz⟩
      rw [overflowWords, heq]

/-- The value fits, or the flag is set. -/
theorem vector4ToValueOverflow_bits (hpos : 0 < w) (hw : w ≤ 64) (v : Planes) (val : BitVec w) :
    ((vector4ToValueOverflow v val).1 = false ↔ v.toVector4.hasXz = true) ∧
      (v.toVector4.hasXz = false →
        ((vector4ToValueOverflow v val).2.1 = true ↔ 2 ^ w ≤ v.toVector4.toNat) ∧
          (vector4ToValueOverflow v val).2.2.toNat = v.toVector4.toNat % 2 ^ w) := by
  have hle := le_wordCount v.size
  rcases overflowWords_spec hpos hw v (wordCount v.size) with
    ⟨res, flag, heq, hread⟩ | ⟨flag, heq, idx, hidx, hbit⟩
  · have hclear : v.toVector4.hasXz = false :=
      (hasXz_eq_false_iff v).mpr fun idx hidx => hread.clear idx (by omega) hidx
    have htest : ∀ i, v.toVector4.toNat.testBit i = (decide (i < v.size) && planeBit v.abits i) := by
      intro i
      rw [toNat_toVector4 hclear, Nat.testBit_mod_two_pow, testBit_value]
    rw [vector4ToValueOverflow, heq]
    refine ⟨⟨fun h => absurd (show true = false from h) (by decide), fun h => ?_⟩, fun _ => ⟨?_, ?_⟩⟩
    · rw [hclear] at h
      exact absurd h Bool.false_ne_true
    · rw [hread.flag]
      constructor
      · rintro ⟨i, hwi, -, hs, hbit⟩
        have htop : v.toVector4.toNat.testBit i = true := by
          rw [htest, decide_eq_true hs, hbit]
          rfl
        exact (Nat.pow_le_pow_right (by omega) hwi).trans (Nat.ge_two_pow_of_testBit htop)
      · intro h
        obtain ⟨i, hwi, hbit⟩ := Nat.exists_ge_and_testBit_of_ge_two_pow h
        rw [htest, Bool.and_eq_true, decide_eq_true_eq] at hbit
        exact ⟨i, hwi, by omega, hbit.1, hbit.2⟩
    · apply Nat.eq_of_testBit_eq
      intro i
      rw [Nat.testBit_mod_two_pow, htest, BitVec.testBit_toNat]
      by_cases hi : i < w
      · have hlt : decide (i < 64 * wordCount v.size ∧ i < v.size) = decide (i < v.size) :=
          decide_eq_decide.mpr (by omega)
        rw [hread.bits i hi, decide_eq_true hi, Bool.true_and, hlt]
      · rw [BitVec.getLsbD_of_ge _ _ (by omega), decide_eq_false hi, Bool.false_and]
  · have hxz : v.toVector4.hasXz = true := by
      rw [← Bool.not_eq_false, hasXz_eq_false_iff]
      intro hnone
      rw [hnone idx hidx] at hbit
      exact absurd hbit Bool.false_ne_true
    rw [vector4ToValueOverflow, heq]
    refine ⟨⟨fun _ => hxz, fun _ => rfl⟩, fun h => ?_⟩
    rw [hxz] at h
    exact absurd h (by decide)

/-- Both forms agree with the bits of the vector for every width of the destination up to a word. -/
theorem vector4_to_native (hpos : 0 < w) (hw : w ≤ 64) (v : Planes) (val : BitVec w)
    (isSigned isArithmetic : Bool) :
    ((vector4ToValue v val isSigned isArithmetic).1 = false ↔ ∃ i < w, i < v.size ∧ v.xzBit i) ∧
      ((isArithmetic = false ∨ ∀ i < w, i < v.size → ¬ v.xzBit i) →
        ∀ i < w, (vector4ToValue v val isSigned isArithmetic).2.getLsbD i = v.valueBit isSigned i) ∧
      (isArithmetic = true → (∃ i < w, i < v.size ∧ v.xzBit i) →
        (vector4ToValue v val isSigned isArithmetic).2 = val) ∧
      ((vector4ToValueOverflow v val).1 = false ↔ v.toVector4.hasXz = true) ∧
      (v.toVector4.hasXz = false →
        ((vector4ToValueOverflow v val).2.1 = true ↔ 2 ^ w ≤ v.toVector4.toNat) ∧
          (vector4ToValueOverflow v val).2.2.toNat = v.toVector4.toNat % 2 ^ w) := by
  obtain ⟨hrc, hbits, hkept⟩ := vector4ToValue_bits hw v val isSigned isArithmetic
  obtain ⟨hxz, hfits⟩ := vector4ToValueOverflow_bits hpos hw v val
  exact ⟨hrc, hbits, hkept, hxz, hfits⟩

/-- 300 does not fit in a byte. -/
theorem vector4_to_native_byte :
    vector4ToValueOverflow (⟨9, [300], [0], rfl, rfl⟩ : Planes) (0 : BitVec 8) = (true, true, 44) := by
  obtain ⟨-, -, -, hrc, hfits⟩ := vector4_to_native (by decide) (by decide)
    (⟨9, [300], [0], rfl, rfl⟩ : Planes) (0 : BitVec 8) false false
  have hclear : (⟨9, [300], [0], rfl, rfl⟩ : Planes).toVector4.hasXz = false := by decide
  have hnat : (⟨9, [300], [0], rfl, rfl⟩ : Planes).toVector4.toNat = 300 := by decide
  obtain ⟨hflag, hvalue⟩ := hfits hclear
  rw [hclear] at hrc
  rw [hnat] at hflag hvalue
  refine Prod.ext (Bool.eq_true_of_not_eq_false fun h => absurd (hrc.mp h) (by decide))
    (Prod.ext (hflag.mpr (by decide)) (BitVec.eq_of_toNat_eq hvalue))

/-- With the flag for arithmetic an X bit leaves the destination as it was. -/
theorem not_vector4_to_native : ¬ ∀ (v : Planes) (val : BitVec 8) (isSigned isArithmetic : Bool),
    ∀ i < 8, (vector4ToValue v val isSigned isArithmetic).2.getLsbD i = v.valueBit isSigned i := by
  intro h
  have hbit := h ⟨2, [3], [2], rfl, rfl⟩ 0 false true 0 (by decide)
  exact absurd hbit (by decide)

end Planes

end Icarus.Vvp
