import Icarus.Netmisc.Collapsed

/-!
# Variable bases of slices

A slice of a packed array with a base that is not known before the simulation. The least index is
subtracted, the difference is scaled by the width of the slice and added to the offset of the
slice of the least index, or subtracted from it. Only the last sum gets a bit more.
-/

namespace Icarus.Netmisc

open Icarus.Core (TwosComplement.reading TwosComplement.reading_eq TwosComplement.eq_of_modEq)
open Icarus.Core.TwosComplement (InRange)
open ArrayExpr (Yields)

/-! ## The expression -/

/-- `make_sub_expr` of a constant from an expression. -/
def makeSubConst (expr : NetExpr) (val : Int) : NetExpr :=
  let valV := { Verinum.ofUint64 (BitVec.ofInt 64 val) expr.width with hasSign := expr.hasSign }
  .add .minus expr (.const valV) expr.width expr.hasSign

namespace ArrayExpr

/-- `make_add_expr` with a constant. -/
def makeAddConst (expr : ArrayExpr) (val : Int) : Option ArrayExpr :=
  if val = 0 then some expr
  else do
    let (op, val) ← if val < 0 then (long (-val)).map fun val => (AddOp.minus, val)
      else some (AddOp.plus, val)
    let valV := { Verinum.ofUint64 (BitVec.ofInt 64 val) expr.width with hasSign := expr.hasSign }
    return addConst op expr valV expr.width expr.hasSign

/-- `make_sub_expr` of an expression from a constant. -/
def makeSubFrom (val : Int) (expr : ArrayExpr) : ArrayExpr :=
  let valV := { Verinum.ofUint64 (BitVec.ofInt 64 val) expr.width with hasSign := expr.hasSign }
  subFrom valV expr expr.width expr.hasSign

end ArrayExpr

/-- The first `min_wid` of `normalize_variable_slice_base`. -/
def sliceMinWid (r : Netrange) (width : Nat) (hasSign : Bool) : Option Nat := do
  let sb := min r.lsb r.msb
  let minWid := if sb < 0 ∧ !hasSign then width + 1 else width
  let lsbBits ← numBits r.lsb
  let msbBits ← numBits r.msb
  return max (max minWid lsbBits) msbBits

/-- The padding of the base in `normalize_variable_slice_base`. -/
def padSliceBase (r : Netrange) (minWid : Nat) (base : NetExpr) : NetExpr :=
  let padded := base.padToWidth minWid base.hasSign
  if min r.lsb r.msb < 0 ∧ !base.hasSign then .select padded minWid true else padded

/-- The last `min_wid` of `normalize_variable_slice_base`. -/
def sliceSumWid (width : Nat) (loff : Int) : Option Nat := do
  let bits ← numBits loff
  return max width bits + if loff ≠ 0 then 1 else 0

/-- `normalize_variable_slice_base`, with `lwid`. -/
def normalizeVariableSliceBase (dims : List Netrange) (indices : List Int) (base : NetExpr) :
    Option (ArrayExpr × Nat) := do
  let pcur ← dims[indices.length]?
  let sb := min pcur.lsb pcur.msb
  let (loff, lwid) ← (prefixToSlice dims indices sb).join
  let minWid ← sliceMinWid pcur base.width base.hasSign
  let base := padSliceBase pcur minWid base
  if pcur.msb ≥ pcur.lsb then do
    let base := if pcur.lsb ≠ 0 then makeSubConst base pcur.lsb else base
    let base := (ArrayExpr.index 0 base).makeMultExpr lwid
    let base := base.padToWidth (← sliceSumWid base.width loff)
    return (← base.makeAddConst loff, lwid)
  else do
    let base := if pcur.msb ≠ 0 then makeSubConst base pcur.msb else base
    let base := (ArrayExpr.index 0 base).makeMultExpr lwid
    let base := base.padToWidth (← sliceSumWid base.width loff)
    return (base.makeSubFrom loff, lwid)

/-! ## The offset of a variable slice

The difference of base and least index is read back at the width that was chosen for it, and so
is the sum. What the sum evaluates to is the offset of an index in range that the base agrees with
and whose difference and sum have room, and is outside of every slice where there is none. -/

open Icarus.Core (TwosComplement.reading TwosComplement.reading_eq TwosComplement.eq_of_modEq
  TwosComplement.reading_modEq TwosComplement.reading_inRange)

/-- The offset of a slice by the distance of its index from the least one. -/
def offsetAt (descending : Bool) (loff : Int) (lwid : Nat) (k : Int) : Int :=
  if descending then loff + k * lwid else loff - k * lwid

/-- The least bit of all slices. -/
def lowest (descending : Bool) (n : Nat) (loff : Int) (lwid : Nat) : Int :=
  if descending then loff else loff - (n - 1) * lwid

/-! ## The sum -/

/-- The widths of a slice select: of the difference, of the sum, and the number of the slices, of
so many bits. -/
structure SumWidths (descending : Bool) (m M n lwid : Nat) (loff : Int) : Prop where
  /-- The difference has a width. -/
  pos : 0 < m
  /-- A slice has a width. -/
  lwid_pos : 0 < lwid
  /-- No slice begins below the array. -/
  lowest_nonneg : 0 ≤ lowest descending n loff lwid
  /-- There is an index. -/
  count_pos : 0 < n
  /-- The sum has the bits of the product, and one more where something is added. -/
  product : m + Nat.clog 2 lwid + (if loff = 0 then 0 else 1) ≤ M
  /-- The sum has one bit more than the offset. -/
  offset : loff ≠ 0 → loff < 2 ^ (M - 1)

section Sum

variable {s descending : Bool} {m M n lwid : Nat} {k loff R : Int}

/-- What the sum is bounded by. -/
theorem SumWidths.bounds (h : SumWidths descending m M n lwid loff) (hk : InRange s m k) :
    0 < M ∧ 0 ≤ loff ∧ loff < 2 ^ (M - 1) ∧
      (s = true → -2 ^ (M - 1) ≤ offsetAt descending loff lwid k ∧
        offsetAt descending loff lwid k < 2 ^ M) ∧
      (s = false → 0 ≤ k * lwid ∧ loff + k * lwid < 2 ^ M ∧ (k + 1) * lwid ≤ 2 ^ M) := by
  have hlc : lwid ≤ 2 ^ Nat.clog 2 lwid := Nat.le_pow_clog (by decide) lwid
  have hlwid : (0 : Int) < lwid := by exact_mod_cast h.lwid_pos
  have hproduct := h.product
  have hpos := h.pos
  have hP := ArrayExpr.inRange_mul h.pos hk h.lwid_pos hlc
  have hM : 0 < M := by omega
  have hpow : (2 : Int) ^ M = 2 * 2 ^ (M - 1) := by rw [← pow_succ', Nat.sub_add_cancel hM]
  have hhalf : (0 : Int) < 2 ^ (M - 1) := pow_pos (by norm_num) _
  have hmono : ∀ {a b : Nat}, a ≤ b → (2 : Int) ^ a ≤ 2 ^ b :=
    fun hab => pow_le_pow_right₀ (by norm_num) hab
  have hoff : 0 ≤ loff := by
    have hbase := h.lowest_nonneg
    have hcount : (0 : Int) ≤ (n - 1) * lwid := mul_nonneg (by have := h.count_pos; omega) hlwid.le
    unfold lowest at hbase
    split_ifs at hbase <;> omega
  have hlow : loff < 2 ^ (M - 1) := by
    by_cases h0 : loff = 0
    · rwa [h0]
    · exact h.offset h0
  refine ⟨hM, hoff, hlow, ?_, ?_⟩
  · rintro rfl
    rw [InRange, if_pos rfl] at hP
    have hless := hmono (show m + Nat.clog 2 lwid - 1 ≤ M - 1 by omega)
    unfold offsetAt
    split_ifs <;> constructor <;> omega
  · rintro rfl
    rw [InRange, if_neg Bool.false_ne_true] at hP hk
    have hless := hmono (show m + Nat.clog 2 lwid ≤ M by omega)
    refine ⟨hP.1, ?_, ?_⟩
    · by_cases h0 : loff = 0
      · omega
      · rw [if_neg h0] at hproduct
        have hbelow := hmono (show m + Nat.clog 2 lwid ≤ M - 1 by omega)
        omega
    · have hcast : (lwid : Int) ≤ 2 ^ Nat.clog 2 lwid := by exact_mod_cast hlc
      calc (k + 1) * (lwid : Int) ≤ 2 ^ m * lwid :=
            mul_le_mul_of_nonneg_right (by omega) hlwid.le
        _ ≤ 2 ^ m * 2 ^ Nat.clog 2 lwid :=
            mul_le_mul_of_nonneg_left hcast (pow_nonneg (by norm_num) m)
        _ = 2 ^ (m + Nat.clog 2 lwid) := (pow_add 2 m _).symm
        _ ≤ 2 ^ M := hless

/-- The sum of an index in range is exact where it has room. -/
theorem sum_eq (h : SumWidths descending m M n lwid loff) (hk : InRange s m k) (h0 : 0 ≤ k)
    (hn : k < n) (hfit : s = true → descending = true → offsetAt descending loff lwid k < 2 ^ (M - 1))
    (hR : InRange s M R) (hmod : R ≡ offsetAt descending loff lwid k [ZMOD 2 ^ M]) :
    R = offsetAt descending loff lwid k := by
  obtain ⟨hM, hoff, hlow, hsigned, hunsigned⟩ := h.bounds hk
  have hlwid : (0 : Int) < lwid := by exact_mod_cast h.lwid_pos
  have hprod : 0 ≤ k * lwid := mul_nonneg h0 hlwid.le
  have hpow : (2 : Int) ^ M = 2 * 2 ^ (M - 1) := by rw [← pow_succ', Nat.sub_add_cancel hM]
  refine TwosComplement.eq_of_modEq hM hR ?_ hmod
  have hnonneg : 0 ≤ offsetAt descending loff lwid k := by
    have hbase := h.lowest_nonneg
    unfold lowest at hbase
    unfold offsetAt
    cases descending with
    | true =>
      rw [if_pos rfl]
      exact add_nonneg hoff hprod
    | false =>
      rw [if_neg Bool.false_ne_true] at hbase ⊢
      have hmul : k * lwid ≤ (n - 1) * lwid := mul_le_mul_of_nonneg_right (by omega) hlwid.le
      omega
  have hasc : descending = false → offsetAt descending loff lwid k < 2 ^ (M - 1) := by
    rintro rfl
    rw [offsetAt, if_neg Bool.false_ne_true]
    omega
  cases s with
  | true =>
    rw [InRange, if_pos rfl]
    refine ⟨by omega, ?_⟩
    cases descending with
    | true => exact hfit rfl rfl
    | false => exact hasc rfl
  | false =>
    rw [InRange, if_neg Bool.false_ne_true]
    refine ⟨hnonneg, ?_⟩
    cases descending with
    | true => exact (hunsigned rfl).2.1
    | false => exact (hasc rfl).trans_le (by omega)

/-- Every other sum is outside of the slices. -/
theorem sum_outside (h : SumWidths descending m M n lwid loff) (hk : InRange s m k)
    (hout : (0 ≤ k → k < n →
      s = true ∧ descending = true ∧ 2 ^ (M - 1) ≤ offsetAt descending loff lwid k))
    (hR : InRange s M R) (hmod : R ≡ offsetAt descending loff lwid k [ZMOD 2 ^ M]) :
    R < lowest descending n loff lwid ∨ lowest descending n loff lwid + n * lwid ≤ R := by
  obtain ⟨hM, hoff, hlow, hsigned, hunsigned⟩ := h.bounds hk
  have hlwid : (0 : Int) < lwid := by exact_mod_cast h.lwid_pos
  have hbase := h.lowest_nonneg
  have hpow : (2 : Int) ^ M = 2 * 2 ^ (M - 1) := by rw [← pow_succ', Nat.sub_add_cancel hM]
  -- a sum that is not changed is beside the slices
  have hbeside : ¬ (0 ≤ k ∧ k < n) → offsetAt descending loff lwid k < lowest descending n loff lwid ∨
      lowest descending n loff lwid + n * lwid ≤ offsetAt descending loff lwid k := by
    intro hnot
    have hcase : k ≤ -1 ∨ (n : Int) ≤ k := by omega
    have hsplit : ((n : Int) - 1) * lwid = n * lwid - lwid := by ring
    unfold offsetAt lowest
    rw [hsplit]
    rcases hcase with hneg | hbig
    · have hmul : k * lwid ≤ -1 * lwid := mul_le_mul_of_nonneg_right hneg hlwid.le
      cases descending <;> simp only [if_true, Bool.false_eq_true, if_false] <;> omega
    · have hmul : (n : Int) * lwid ≤ k * lwid := mul_le_mul_of_nonneg_right hbig hlwid.le
      cases descending <;> simp only [if_true, Bool.false_eq_true, if_false] <;> omega
  cases s with
  | true =>
    obtain ⟨hge, hlt⟩ := hsigned rfl
    by_cases hsmall : offsetAt descending loff lwid k < 2 ^ (M - 1)
    · have heq : R = offsetAt descending loff lwid k :=
        TwosComplement.eq_of_modEq hM hR (by rw [InRange, if_pos rfl]; exact ⟨hge, hsmall⟩) hmod
      rw [heq]
      refine hbeside ?_
      rintro ⟨h0, hn⟩
      exact absurd (hout h0 hn).2.2 (not_le.mpr hsmall)
    · have heq : R = offsetAt descending loff lwid k - 2 ^ M := by
        refine TwosComplement.eq_of_modEq hM hR ?_ (hmod.trans ?_)
        · rw [InRange, if_pos rfl]
          constructor <;> omega
        · exact (Int.modEq_iff_dvd.mpr ⟨-1, by ring⟩)
      left
      omega
  | false =>
    obtain ⟨hprod, hlt, hnext⟩ := hunsigned rfl
    have hnot : ¬ (0 ≤ k ∧ k < n) := by
      rintro ⟨h0, hn⟩
      exact absurd (hout h0 hn).1 Bool.false_ne_true
    by_cases hneg : 0 ≤ offsetAt descending loff lwid k
    · have heq : R = offsetAt descending loff lwid k := by
        refine TwosComplement.eq_of_modEq hM hR ?_ hmod
        rw [InRange, if_neg Bool.false_ne_true]
        refine ⟨hneg, ?_⟩
        unfold offsetAt
        split_ifs <;> omega
      rw [heq]
      exact hbeside hnot
    · obtain rfl : descending = false := by
        cases descending with
        | false => rfl
        | true =>
          rw [offsetAt, if_pos rfl] at hneg
          exact absurd (add_nonneg hoff hprod) hneg
      have hsum : (k + 1) * (lwid : Int) = k * lwid + lwid := by ring
      have hsplit : ((n : Int) - 1) * lwid = n * lwid - lwid := by ring
      rw [offsetAt, if_neg Bool.false_ne_true] at hneg hmod
      have heq : R = loff - k * lwid + 2 ^ M := by
        refine TwosComplement.eq_of_modEq hM hR ?_ (hmod.trans ?_)
        · rw [InRange, if_neg Bool.false_ne_true]
          constructor <;> omega
        · exact (Int.modEq_iff_dvd.mpr ⟨1, by ring⟩)
      right
      rw [lowest, if_neg Bool.false_ne_true, hsplit, heq]
      omega

end Sum

/-! ## The difference -/

/-- What a negative least index is written wrong by at more than the bits of a native integer. -/
def writtenOff (lo : Int) (m : Nat) : Int := if lo < 0 ∧ 64 < m then 2 ^ 64 else 0

/-- The difference of an index and the sum leave the sign bit clear, where there is one. -/
def Fits (isSigned descending : Bool) (m M lwid : Nat) (lo loff i : Int) : Prop :=
  isSigned = true → i - lo < 2 ^ (m - 1) ∧
    (descending = true → offsetAt descending loff lwid (i - lo) < 2 ^ (M - 1))

/-- A sum, of a difference that is read at its width, that is read at its width. -/
def Evaluates (isSigned descending : Bool) (m M lwid : Nat) (lo loff b R : Int) : Prop :=
  ∃ k, InRange isSigned m k ∧ k ≡ b - (lo + writtenOff lo m) [ZMOD 2 ^ m] ∧
    InRange isSigned M R ∧ R ≡ offsetAt descending loff lwid k [ZMOD 2 ^ M]

/-- An index in range is selected exactly, or any other base selects nothing. -/
def Selects (descending : Bool) (lwid : Nat) (lo hi loff b R : Int) : Prop :=
  (lo ≤ b ∧ b ≤ hi → R = offsetAt descending loff lwid (b - lo)) ∧
    (¬ (lo ≤ b ∧ b ≤ hi) → ∀ i, lo ≤ i ∧ i ≤ hi →
      R < offsetAt descending loff lwid (i - lo) ∨ offsetAt descending loff lwid (i - lo) + lwid ≤ R)

section Difference

variable {s descending : Bool} {m M n lwid : Nat} {lo hi loff b i j R : Int}

theorem offsetAt_inj (hlwid : 0 < lwid)
    (h : offsetAt descending loff lwid i = offsetAt descending loff lwid j) : i = j := by
  have hne : (lwid : Int) ≠ 0 := by exact_mod_cast hlwid.ne'
  unfold offsetAt at h
  refine mul_right_cancel₀ hne ?_
  split_ifs at h <;> omega

/-- The slices of indices in range are between the least and the greatest bit. -/
theorem offsetAt_block {k : Int} (h0 : 0 ≤ k) (hn : k < n) :
    lowest descending n loff lwid ≤ offsetAt descending loff lwid k ∧
      offsetAt descending loff lwid k + lwid ≤ lowest descending n loff lwid + n * lwid := by
  have hlow : 0 ≤ k * (lwid : Int) := mul_nonneg h0 (Int.natCast_nonneg lwid)
  have hhigh : k * (lwid : Int) ≤ (n - 1) * lwid :=
    mul_le_mul_of_nonneg_right (by omega) (Int.natCast_nonneg lwid)
  have hsplit : ((n : Int) - 1) * lwid = n * lwid - lwid := by ring
  unfold lowest offsetAt
  rw [hsplit] at hhigh ⊢
  split_ifs <;> constructor <;> omega

/-- The sum of an index that the base agrees with. -/
theorem Evaluates.eq (h : Evaluates s descending m M lwid lo loff b R)
    (hwidths : SumWidths descending m M n lwid loff) (hn : (n : Int) = hi - lo + 1)
    (hunsigned : s = false → 0 ≤ lo ∧ hi < 2 ^ m) (hi' : lo ≤ i ∧ i ≤ hi)
    (hmod : i + writtenOff lo m ≡ b [ZMOD 2 ^ m]) (hfits : Fits s descending m M lwid lo loff i) :
    R = offsetAt descending loff lwid (i - lo) := by
  obtain ⟨k, hk, hkmod, hR, hRmod⟩ := h
  have hsame : k = i - lo := by
    refine TwosComplement.eq_of_modEq hwidths.pos hk ?_ ?_
    · have hhalf : (0 : Int) < 2 ^ (m - 1) := pow_pos (by norm_num) _
      cases s with
      | true =>
        rw [InRange, if_pos rfl]
        exact ⟨by omega, (hfits rfl).1⟩
      | false =>
        rw [InRange, if_neg Bool.false_ne_true]
        have := hunsigned rfl
        constructor <;> omega
    · have hshift := hmod.symm.sub_right (lo + writtenOff lo m)
      rw [show i + writtenOff lo m - (lo + writtenOff lo m) = i - lo by ring] at hshift
      exact hkmod.trans hshift
  subst hsame
  exact sum_eq hwidths hk (by omega) (by omega) (fun hs hd => (hfits hs).2 hd) hR hRmod

/-- Where the base agrees with no index that fits, the sum is outside of the slices. -/
theorem Evaluates.outside (h : Evaluates s descending m M lwid lo loff b R)
    (hwidths : SumWidths descending m M n lwid loff) (hn : (n : Int) = hi - lo + 1)
    (hnone : ∀ i, lo ≤ i ∧ i ≤ hi → i + writtenOff lo m ≡ b [ZMOD 2 ^ m] →
      ¬ Fits s descending m M lwid lo loff i) :
    R < lowest descending n loff lwid ∨ lowest descending n loff lwid + n * lwid ≤ R := by
  obtain ⟨k, hk, hkmod, hR, hRmod⟩ := h
  refine sum_outside hwidths hk (fun h0 hlt => ?_) hR hRmod
  have hagree : lo + k + writtenOff lo m ≡ b [ZMOD 2 ^ m] := by
    have hshift := hkmod.add_right (lo + writtenOff lo m)
    rwa [sub_add_cancel, show k + (lo + writtenOff lo m) = lo + k + writtenOff lo m by ring] at hshift
  have hfits := hnone (lo + k) ⟨by omega, by omega⟩ hagree
  rw [Fits, add_sub_cancel_left] at hfits
  by_contra hgood
  refine hfits fun hs => ⟨?_, fun hd => ?_⟩
  · rw [hs, InRange, if_pos rfl] at hk
    exact hk.2
  · exact not_le.mp fun hbig => hgood ⟨hs, hd, hbig⟩

theorem writtenOff_eq_zero (h : i + writtenOff lo m ≡ i [ZMOD 2 ^ m]) : writtenOff lo m = 0 := by
  by_contra hne
  have hcase : lo < 0 ∧ 64 < m := by
    by_contra hnot
    exact hne (if_neg hnot)
  have hoff : writtenOff lo m = 2 ^ 64 := if_pos hcase
  have hdvd : (2 : Int) ^ m ∣ 2 ^ 64 := by
    have := Int.modEq_iff_dvd.mp h.symm
    rwa [add_sub_cancel_left, hoff] at this
  have hle := Int.le_of_dvd (by norm_num) hdvd
  have hlt : (2 : Int) ^ 64 < 2 ^ m := pow_lt_pow_right₀ (by norm_num) hcase.2
  exact absurd hle (not_le.mpr hlt)

/-- The sum selects what it is to select just if a base in range is written and fits, and any other
base agrees with no index that fits. -/
theorem Evaluates.selects_iff (h : Evaluates s descending m M lwid lo loff b R)
    (hwidths : SumWidths descending m M n lwid loff) (hn : (n : Int) = hi - lo + 1)
    (hunsigned : s = false → 0 ≤ lo ∧ hi < 2 ^ m) :
    Selects descending lwid lo hi loff b R ↔
      (lo ≤ b ∧ b ≤ hi → writtenOff lo m = 0 ∧ Fits s descending m M lwid lo loff b) ∧
      (¬ (lo ≤ b ∧ b ≤ hi) → ∀ i, lo ≤ i ∧ i ≤ hi → i + writtenOff lo m ≡ b [ZMOD 2 ^ m] →
        ¬ Fits s descending m M lwid lo loff i) := by
  have hlwid : (0 : Int) < lwid := by exact_mod_cast hwidths.lwid_pos
  constructor
  · rintro ⟨hin, hout⟩
    refine ⟨fun hb => ?_, fun hb i hi' hmod hfits => ?_⟩
    · have hR := hin hb
      by_cases hsome : ∃ i, (lo ≤ i ∧ i ≤ hi) ∧ i + writtenOff lo m ≡ b [ZMOD 2 ^ m] ∧
          Fits s descending m M lwid lo loff i
      · obtain ⟨i, hi', hmod, hfits⟩ := hsome
        have heq := h.eq hwidths hn hunsigned hi' hmod hfits
        obtain rfl : i = b := by
          have := offsetAt_inj hwidths.lwid_pos (heq.symm.trans hR)
          omega
        exact ⟨writtenOff_eq_zero hmod, hfits⟩
      · have houtside := h.outside hwidths hn fun i hi' hmod hfits => hsome ⟨i, hi', hmod, hfits⟩
        have hblock := @offsetAt_block descending n lwid loff (b - lo) (by omega) (by omega)
        omega
    · have heq := h.eq hwidths hn hunsigned hi' hmod hfits
      have hbad := hout hb i hi'
      omega
  · rintro ⟨hin, hout⟩
    refine ⟨fun hb => ?_, fun hb i hi' => ?_⟩
    · obtain ⟨hoff, hfits⟩ := hin hb
      exact h.eq hwidths hn hunsigned hb (by rw [hoff, add_zero]) hfits
    · have houtside := h.outside hwidths hn (hout hb)
      have hblock := @offsetAt_block descending n lwid loff (i - lo) (by omega) (by omega)
      omega

end Difference

end Icarus.Netmisc
