import Icarus.Netmisc.SliceOffset

/-!
# Selects of variable slices

The expression of a variable slice base computes the sum that the offsets of the slices are
compared with, and so selects the slice of an index in range just where difference and sum have
room for it.
-/

namespace Icarus.Netmisc

open Icarus.Core (TwosComplement.reading TwosComplement.reading_eq TwosComplement.reading_modEq
  TwosComplement.reading_inRange)
open Icarus.Core.TwosComplement (InRange)
open ArrayExpr (Yields)

/-! ## The slices of a prefix -/

section Prefix

variable {dims : List Netrange} {r : Netrange} {indices : List Int} {i : Int}

theorem slot_append_singleton (hr : dims[indices.length]? = some r) :
    slot dims (indices ++ [i]) =
      slot dims indices + r.digit i * (counts (dims.drop (indices.length + 1))).prod := by
  induction indices generalizing dims with
  | nil =>
    cases dims with
    | nil => cases hr
    | cons r' dims =>
      obtain rfl : r' = r := Option.some_inj.mp hr
      rw [List.nil_append, slot_cons, slot, slot, digits, digits, List.zipWith_nil_right,
        List.zipWith_nil_right, Core.MixedRadix.address_nil, Core.MixedRadix.address_nil,
        Nat.add_zero, Nat.zero_add]
      rfl
  | cons j indices ih =>
    cases dims with
    | nil => cases hr
    | cons r' dims =>
      rw [List.cons_append, slot_cons, slot_cons, ih hr, Nat.add_assoc]
      rfl

/-- An index in range after a prefix in range. -/
theorem inDims_append_singleton (hr : dims[indices.length]? = some r)
    (hin : InDims (dims.take indices.length) indices) (hi : r.Contains i) :
    InDims (dims.take (indices.length + 1)) (indices ++ [i]) := by
  induction indices generalizing dims with
  | nil =>
    cases dims with
    | nil => cases hr
    | cons r' dims =>
      obtain rfl : r' = r := Option.some_inj.mp hr
      exact .cons hi .nil
  | cons j indices ih =>
    cases dims with
    | nil => cases hr
    | cons r' dims =>
      obtain - | ⟨hj, htl⟩ := hin
      exact .cons hj (ih hr htl)

/-- The offsets of the slices of a prefix, by the distance from the least index. -/
theorem prefixToSlice_offsetAt (hsmall : Small dims) (hr : dims[indices.length]? = some r)
    (hin : InDims (dims.take indices.length) indices) (hi : r.Contains i) :
    prefixToSlice dims indices i = some (some
      (offsetAt (r.lsb ≤ r.msb) (slot dims (indices ++ [min r.lsb r.msb]) : Nat)
        (counts (dims.drop (indices.length + 1))).prod (i - min r.lsb r.msb),
      (counts (dims.drop (indices.length + 1))).prod)) := by
  have hlen : indices.length < dims.length := by
    obtain ⟨h, -⟩ := List.getElem?_eq_some_iff.mp hr
    exact h
  have hleast : r.Contains (min r.lsb r.msb) := by
    unfold Netrange.Contains
    omega
  rw [prefixToSlice_eq hsmall.sizeable (inDims_append_singleton hr hin hi) hlen,
    slot_append_singleton hr, slot_append_singleton hr]
  have hdigit := Netrange.cast_digit hi
  have hdigit' := Netrange.cast_digit hleast
  congr 3
  simp only [Nat.cast_add, Nat.cast_mul]
  rw [hdigit, hdigit']
  unfold offsetAt Netrange.distance
  by_cases hdir : r.lsb ≤ r.msb
  · rw [if_pos hdir, if_pos hdir, if_pos (decide_eq_true hdir), min_eq_left hdir]
    ring
  · rw [if_neg hdir, if_neg hdir, if_neg (by simpa using hdir), min_eq_right (by omega)]
    ring

/-- The least bit of the slices is a bit of the array. -/
theorem lowest_eq (hr : dims[indices.length]? = some r) :
    lowest (r.lsb ≤ r.msb) r.count (slot dims (indices ++ [min r.lsb r.msb]) : Nat)
      (counts (dims.drop (indices.length + 1))).prod = slot dims indices := by
  have hleast : r.Contains (min r.lsb r.msb) := by
    unfold Netrange.Contains
    omega
  have hdigit := Netrange.cast_digit hleast
  rw [slot_append_singleton hr]
  simp only [Nat.cast_add, Nat.cast_mul]
  rw [hdigit]
  unfold lowest Netrange.distance Netrange.count
  by_cases hdir : r.lsb ≤ r.msb
  · rw [if_pos (by simpa using hdir), if_pos hdir, min_eq_left hdir]
    ring
  · have hcount : (((r.msb - r.lsb).natAbs + 1 : Nat) : Int) - 1 = r.lsb - r.msb := by omega
    rw [if_neg (by simpa using hdir), if_neg hdir, min_eq_right (by omega), hcount]
    ring

end Prefix

/-! ## Constants and padding -/

section Padding

variable {x w m : Nat} {s : Bool} {base : NetExpr} {r : Netrange}

/-- A native integer as it is written at a width. -/
theorem number_ofUint64 {z : Int} (hz : IsLong z) (n : Nat) :
    (Verinum.number (Verinum.ofUint64 (BitVec.ofInt 64 z) n).bits : Int) ≡ z + writtenOff z n
      [ZMOD 2 ^ n] := by
  have hval : ((BitVec.ofInt 64 z).toNat : Int) = z % 2 ^ 64 := by
    rw [BitVec.toNat_ofInt, Int.toNat_of_nonneg (Int.emod_nonneg _ (by norm_num))]
    rfl
  rw [Verinum.ofUint64, Verinum.number_nativeBits_ushiftRight]
  push_cast
  rw [hval]
  refine (Int.mod_modEq _ _).trans ?_
  obtain ⟨hlow, hhigh⟩ := hz
  unfold writtenOff
  split_ifs with h
  · rw [← Int.add_emod_right, Int.emod_eq_of_lt (by omega) (by omega)]
  · rw [add_zero]
    by_cases hneg : z < 0
    · exact (Int.mod_modEq z _).of_dvd (pow_dvd_pow 2 (not_lt.mp fun hm => h ⟨hneg, hm⟩))
    · rw [Int.emod_eq_of_lt (not_lt.mp hneg) (by omega)]

theorem castSigned_self (e : NetExpr) : e.castSigned e.hasSign = e := by
  cases e <;> rfl

/-- Padding to no less than its width keeps the integer of a base. -/
theorem computes_padToWidth_le (hbase : base.IsBase w s) (hx : x < 2 ^ w) (hw : 0 < w)
    (hle : w ≤ m) : Computes x m s (base.toInt x) (base.padToWidth m s) ∧
      (base.padToWidth m s).Plain := by
  have hcomputes := computes_base hbase hx
  obtain rfl := hcomputes.hasSign
  obtain rfl | hlt := Nat.eq_or_lt_of_le hle
  · have hsame : base.padToWidth w base.hasSign = base := by
      unfold NetExpr.padToWidth
      rw [if_pos hcomputes.width.ge, castSigned_self]
    rw [hsame]
    exact ⟨hcomputes, hbase.plain⟩
  · obtain rfl := hcomputes.width
    exact ⟨computes_padToWidth hbase hx hw hlt,
      (NetExpr.padToWidth_spec hbase.plain hw hcomputes.eval_lt hlt).2.2.2.2⟩

/-- The padded base has the integer of the base, and a sign if an index may be negative. -/
theorem padSliceBase_spec (hbase : base.IsBase w s) (hx : x < 2 ^ w) (hw : 0 < w)
    (hle : (if min r.lsb r.msb < 0 ∧ !s then w + 1 else w) ≤ m) :
    Computes x m (s || min r.lsb r.msb < 0) (base.toInt x) (padSliceBase r m base) ∧
      (padSliceBase r m base).Plain := by
  have hcomputes := computes_base hbase hx
  have hwm : w ≤ m := by
    split_ifs at hle <;> omega
  obtain ⟨hpad, hplain⟩ := computes_padToWidth_le hbase hx hw hwm
  rw [padSliceBase, hcomputes.hasSign]
  by_cases hsign : min r.lsb r.msb < 0 ∧ !s
  · rw [if_pos hsign] at hle ⊢
    obtain ⟨hneg, hs⟩ := hsign
    obtain rfl : s = false := by simpa using hs
    rw [Bool.false_or, decide_eq_true hneg]
    refine ⟨hpad.hideSign ?_, trivial⟩
    have hrange := hcomputes.inRange hw
    rw [InRange, if_neg Bool.false_ne_true] at hrange
    exact hrange.2.trans_le (pow_le_pow_right₀ (by norm_num) (by omega))
  · rw [if_neg hsign]
    have hsame : (s || decide (min r.lsb r.msb < 0)) = s := by
      cases s with
      | true => rfl
      | false => simpa using hsign
    rw [hsame]
    exact ⟨hpad, hplain⟩

/-- The difference of a base and a native integer, as it is written. -/
theorem makeSubConst_yields {place : Nat} {values : Nat → Nat} {e : NetExpr} {b lo : Int}
    (h : Computes (values place) m s b e) (hplain : e.Plain) (hlo : IsLong lo) :
    ∃ k, Yields values m s k (.index place (if lo ≠ 0 then makeSubConst e lo else e)) ∧
      k ≡ b - (lo + writtenOff lo m) [ZMOD 2 ^ m] := by
  by_cases h0 : lo = 0
  · rw [if_neg (not_not.mpr h0)]
    refine ⟨b, ⟨h.width, h.hasSign, h.eval_lt, h.toInt, hplain⟩, ?_⟩
    rw [h0, writtenOff, if_neg (by omega), add_zero, sub_zero]
  · rw [if_pos h0]
    have hwidth : (makeSubConst e lo).width = m := h.width
    have hlt : (makeSubConst e lo).eval (values place) < 2 ^ m :=
      hwidth ▸ Computes.emod_toNat_lt _ _
    have hyields : Yields values m s ((makeSubConst e lo).toInt (values place))
        (.index place (makeSubConst e lo)) := ⟨hwidth, h.hasSign, hlt, rfl, trivial⟩
    refine ⟨_, hyields, hyields.modEq.symm.trans ?_⟩
    have heval : ((makeSubConst e lo).eval (values place) : Int) ≡
        (e.eval (values place) : Int) -
          Verinum.number (Verinum.ofUint64 (BitVec.ofInt 64 lo) m).bits [ZMOD 2 ^ m] := by
      have hmod := Computes.emod_toNat_modEq ((e.eval (values place) : Int) -
        Verinum.number (Verinum.ofUint64 (BitVec.ofInt 64 lo) m).bits) m
      rw [makeSubConst, NetExpr.eval, h.width]
      exact hmod
    exact heval.trans (h.modEq.sub (number_ofUint64 hlo m))

end Padding

/-! ## The select -/

section Select

variable {values : Nat → Nat} {m M lwid : Nat} {s : Bool} {y loff : Int} {e : ArrayExpr}

/-- A sum with an offset that is not negative. -/
theorem makeAddConst_spec (h : Yields values M s y e) (hoff : 0 ≤ loff) (hlong : loff < 2 ^ 63) :
    ∃ e', e.makeAddConst loff = some e' ∧ e'.width = M ∧ e'.hasSign = s ∧
      e'.eval values < 2 ^ M ∧ (e'.eval values : Int) ≡ loff + y [ZMOD 2 ^ M] := by
  by_cases h0 : loff = 0
  · refine ⟨e, if_pos h0, h.width, h.hasSign, h.eval_lt, ?_⟩
    rw [h0, zero_add]
    exact h.modEq
  · refine ⟨.addConst .plus e { Verinum.ofUint64 (BitVec.ofInt 64 loff) e.width with
      hasSign := e.hasSign } e.width e.hasSign, ?_, h.width, h.hasSign, ?_, ?_⟩
    · rw [ArrayExpr.makeAddConst, if_neg h0, if_neg (not_lt.mpr hoff)]
      rfl
    · rw [ArrayExpr.eval, h.width]
      exact Nat.mod_lt _ (Nat.two_pow_pos M)
    · have hnum := number_ofUint64 (show IsLong loff from ⟨by omega, hlong⟩) M
      rw [writtenOff, if_neg (by omega), add_zero] at hnum
      rw [ArrayExpr.eval, h.width, add_comm loff]
      push_cast
      exact (Int.mod_modEq _ _).trans (h.modEq.add hnum)

/-- A difference from an offset that is not negative. -/
theorem makeSubFrom_spec (h : Yields values M s y e) (hoff : 0 ≤ loff) (hlong : loff < 2 ^ 63) :
    (e.makeSubFrom loff).width = M ∧ (e.makeSubFrom loff).hasSign = s ∧
      (e.makeSubFrom loff).eval values < 2 ^ M ∧
      ((e.makeSubFrom loff).eval values : Int) ≡ loff - y [ZMOD 2 ^ M] := by
  have hnum := number_ofUint64 (show IsLong loff from ⟨by omega, hlong⟩) M
  rw [writtenOff, if_neg (by omega), add_zero] at hnum
  refine ⟨h.width, h.hasSign, ?_, ?_⟩
  · rw [ArrayExpr.makeSubFrom, ArrayExpr.eval, h.width]
    exact Computes.emod_toNat_lt _ M
  · rw [ArrayExpr.makeSubFrom, ArrayExpr.eval, h.width]
    exact (Computes.emod_toNat_modEq _ M).trans (hnum.sub h.modEq)

variable {r : Netrange} {w : Nat}

/-- The width of the difference has room for the base and for the indices. -/
theorem sliceMinWid_spec (hlsb : -2 ^ 63 < r.lsb ∧ r.lsb < 2 ^ 63)
    (hmsb : -2 ^ 63 < r.msb ∧ r.msb < 2 ^ 63) : ∃ m, sliceMinWid r w s = some m ∧
      (if min r.lsb r.msb < 0 ∧ !s then w + 1 else w) ≤ m ∧
      (0 ≤ min r.lsb r.msb → max r.lsb r.msb < 2 ^ m) := by
  obtain ⟨n, hn, hpos, -⟩ := numBits_spec (show IsLong r.lsb from ⟨hlsb.1.le, hlsb.2⟩) hlsb.1
  obtain ⟨n', hn', hpos', -⟩ := numBits_spec (show IsLong r.msb from ⟨hmsb.1.le, hmsb.2⟩) hmsb.1
  refine ⟨_, by rw [sliceMinWid, hn, hn']; rfl, by omega, fun h => ?_⟩
  have hmono : ∀ {a b : Nat}, a ≤ b → (2 : Int) ^ a ≤ 2 ^ b :=
    fun hab => pow_le_pow_right₀ (by norm_num) hab
  exact max_lt ((hpos (by omega)).1.trans_le (hmono (by omega)))
    ((hpos' (by omega)).1.trans_le (hmono (by omega)))

theorem sliceSumWid_spec (hoff : 0 ≤ loff) (hlong : loff < 2 ^ 63) :
    ∃ M, sliceSumWid w loff = some M ∧ w + (if loff = 0 then 0 else 1) ≤ M ∧
      (loff ≠ 0 → loff < 2 ^ (M - 1)) := by
  obtain ⟨n, hn, hpos, -⟩ := numBits_spec (show IsLong loff from ⟨by omega, hlong⟩) (by omega)
  refine ⟨_, by rw [sliceSumWid, hn]; rfl, ?_, fun h => ?_⟩
  · split_ifs <;> omega
  · rw [if_pos h, Nat.add_sub_cancel]
    exact (hpos hoff).1.trans_le (pow_le_pow_right₀ (by norm_num) (Nat.le_max_right _ _))

end Select

section Normalization

variable {dims : List Netrange} {r : Netrange} {indices : List Int} {base : NetExpr}
  {x w m M lwid : Nat} {s : Bool} {loff : Int}

/-- The bounds of a range are native integers that have an opposite. -/
def Bounded (r : Netrange) : Prop :=
  (-2 ^ 63 < r.lsb ∧ r.lsb < 2 ^ 63) ∧ (-2 ^ 63 < r.msb ∧ r.msb < 2 ^ 63)

/-- The select of a slice by a variable base: the offset of `sb_to_slice` for an index in range, and
an offset outside of the slices for any other base. -/
def SelectsSlice (dims : List Netrange) (indices : List Int) (r : Netrange) (base : NetExpr)
    (x : Nat) : Prop :=
  ∃ e lwid, normalizeVariableSliceBase dims indices base = some (e, lwid) ∧
    (r.Contains (base.toInt x) → ∃ loff, prefixToSlice dims indices (base.toInt x) =
      some (some (loff, lwid)) ∧ e.toInt (fun _ => x) = loff) ∧
    (¬ r.Contains (base.toInt x) → ∀ i loff, r.Contains i →
      prefixToSlice dims indices i = some (some (loff, lwid)) →
      e.toInt (fun _ => x) < loff ∨ loff + lwid ≤ e.toInt (fun _ => x))

/-- The expression computes the sum. -/
theorem normalizeVariableSliceBase_spec (hr : dims[indices.length]? = some r)
    (hslice : prefixToSlice dims indices (min r.lsb r.msb) = some (some (loff, lwid)))
    (hbounded : Bounded r) (hbase : base.IsBase w s) (hx : x < 2 ^ w) (hw : 0 < w)
    (hpos : 0 < lwid) (hlwid : lwid < 2 ^ 64) (hoff : 0 ≤ loff) (hlong : loff < 2 ^ 63)
    (hm : sliceMinWid r w s = some m) (hM : sliceSumWid (m + Nat.clog 2 lwid) loff = some M) :
    ∃ e, normalizeVariableSliceBase dims indices base = some (e, lwid) ∧
      Evaluates (s || min r.lsb r.msb < 0) (r.lsb ≤ r.msb) m M lwid (min r.lsb r.msb) loff
        (base.toInt x) (e.toInt fun _ => x) := by
  obtain ⟨m', hm', hroom, -⟩ := @sliceMinWid_spec s r w hbounded.1 hbounded.2
  obtain rfl : m' = m := Option.some_inj.mp (hm'.symm.trans hm)
  obtain ⟨M', hM', hMroom, -⟩ := @sliceSumWid_spec loff (m' + Nat.clog 2 lwid) hoff hlong
  obtain rfl : M' = M := Option.some_inj.mp (hM'.symm.trans hM)
  have hcomputes := computes_base hbase hx
  have hmpos : 0 < m' := by
    split_ifs at hroom <;> omega
  obtain ⟨hpad, hplain⟩ := padSliceBase_spec hbase hx hw hroom
  have hlo : IsLong (min r.lsb r.msb) := by
    have := hbounded.1
    have := hbounded.2
    constructor <;> omega
  obtain ⟨k, hk, hkmod⟩ := @makeSubConst_yields m' _ 0 (fun _ => x) _ _ _ hpad hplain hlo
  have hmult := hk.makeMultExpr hmpos hpos hlwid
  have hsum := hmult.padToWidth (m := M') (Nat.add_pos_left hmpos _) (by omega)
  have hMpos : 0 < M' := by omega
  have hfinish : ∀ {e : ArrayExpr}, e.width = M' → e.hasSign = (s || decide (min r.lsb r.msb < 0)) →
      e.eval (fun _ => x) < 2 ^ M' → (e.eval (fun _ => x) : Int) ≡
        offsetAt (r.lsb ≤ r.msb) loff lwid k [ZMOD 2 ^ M'] →
      Evaluates (s || min r.lsb r.msb < 0) (r.lsb ≤ r.msb) m' M' lwid (min r.lsb r.msb) loff
        (base.toInt x) (e.toInt fun _ => x) := by
    intro e hwidth hsign hlt hmod
    refine ⟨k, hk.inRange hmpos, hkmod, ?_, ?_⟩
    · rw [ArrayExpr.toInt, hwidth, hsign]
      exact TwosComplement.reading_inRange _ hMpos hlt
    · rw [ArrayExpr.toInt, hwidth]
      exact (TwosComplement.reading_modEq _ _ _).trans hmod
  simp only [normalizeVariableSliceBase, hr, hslice, hcomputes.width, hcomputes.hasSign, hm,
    Option.bind_eq_bind, Option.join_some, Option.bind_some, ge_iff_le, Option.pure_def]
  by_cases hdir : r.lsb ≤ r.msb
  · rw [if_pos hdir]
    rw [min_eq_left hdir] at hmult hsum
    rw [hmult.width, hM, Option.bind_some]
    obtain ⟨e, he, hwidth, hsign, hlt, hmod⟩ := makeAddConst_spec hsum hoff hlong
    rw [he]
    refine ⟨e, rfl, hfinish hwidth (by rw [hsign, min_eq_left hdir]) hlt ?_⟩
    rw [offsetAt, if_pos (decide_eq_true hdir)]
    exact hmod
  · rw [if_neg hdir]
    rw [min_eq_right (le_of_not_ge hdir)] at hmult hsum
    rw [hmult.width, hM, Option.bind_some]
    obtain ⟨hwidth, hsign, hlt, hmod⟩ := makeSubFrom_spec hsum hoff hlong
    refine ⟨_, rfl, hfinish hwidth (by rw [hsign, min_eq_right (le_of_not_ge hdir)]) hlt ?_⟩
    have hoffset : offsetAt (r.lsb ≤ r.msb) loff lwid k = loff - k * lwid :=
      if_neg (by simpa using hdir)
    rw [hoffset]
    exact hmod

/-- The select of a slice is right just if a base in range is written and its difference and its
sum have room, and any other base agrees with no index of which that holds. -/
theorem selectsSlice_iff (dims : List Netrange) (indices : List Int) (r : Netrange)
    (base : NetExpr) (x w m M lwid : Nat) (s : Bool) (loff : Int) (hsmall : Small dims)
    (hr : dims[indices.length]? = some r) (hin : InDims (dims.take indices.length) indices)
    (hbounded : Bounded r) (hbase : base.IsBase w s) (hw : 0 < w) (hx : x < 2 ^ w)
    (hslice : prefixToSlice dims indices (min r.lsb r.msb) = some (some (loff, lwid)))
    (hm : sliceMinWid r w s = some m) (hM : sliceSumWid (m + Nat.clog 2 lwid) loff = some M) :
    SelectsSlice dims indices r base x ↔
      (r.Contains (base.toInt x) → writtenOff (min r.lsb r.msb) m = 0 ∧
        Fits (s || min r.lsb r.msb < 0) (r.lsb ≤ r.msb) m M lwid (min r.lsb r.msb) loff
          (base.toInt x)) ∧
      (¬ r.Contains (base.toInt x) → ∀ i, r.Contains i →
        i + writtenOff (min r.lsb r.msb) m ≡ base.toInt x [ZMOD 2 ^ m] →
        ¬ Fits (s || min r.lsb r.msb < 0) (r.lsb ≤ r.msb) m M lwid (min r.lsb r.msb) loff i) := by
  have hleast : r.Contains (min r.lsb r.msb) := by
    unfold Netrange.Contains
    omega
  have hcontains : ∀ i, r.Contains i ↔ min r.lsb r.msb ≤ i ∧ i ≤ max r.lsb r.msb := by
    intro i
    unfold Netrange.Contains
    rw [min_comm, max_comm]
  have hslices := fun i => @prefixToSlice_offsetAt dims r indices i hsmall hr hin
  have hfirst := hslices _ hleast
  rw [hslice, sub_self] at hfirst
  obtain ⟨hloff, hlwid⟩ := Prod.mk.inj (Option.some_inj.mp (Option.some_inj.mp hfirst))
  have hsame : loff = (slot dims (indices ++ [min r.lsb r.msb]) : Nat) := by
    rw [hloff, offsetAt]
    split_ifs <;> ring
  rw [← hsame, ← hlwid] at hslices
  have hlt := @slot_lt_of_take dims (indices ++ [min r.lsb r.msb]) (by
    rw [List.length_append]
    exact inDims_append_singleton hr hin hleast)
  have hprod := hsmall.2
  have hpos : 0 < lwid := hlwid ▸ counts_prod_pos
  have hlow := @lowest_eq dims r indices hr
  rw [← hsame, ← hlwid] at hlow
  have hwide : lwid < 2 ^ 64 := by
    have hle := (hsmall.drop (indices.length + 1)).2
    rw [← hlwid] at hle
    exact hle.trans (by norm_num)
  have hoff : 0 ≤ loff := hsame ▸ Int.natCast_nonneg _
  have hlong : loff < 2 ^ 63 := by omega
  obtain ⟨m', hm', hroom, hunsigned⟩ := @sliceMinWid_spec s r w hbounded.1 hbounded.2
  obtain rfl : m' = m := Option.some_inj.mp (hm'.symm.trans hm)
  obtain ⟨M', hM', hMroom, hMoff⟩ := @sliceSumWid_spec loff (m' + Nat.clog 2 lwid) hoff hlong
  obtain rfl : M' = M := Option.some_inj.mp (hM'.symm.trans hM)
  obtain ⟨e, he, hevaluates⟩ := normalizeVariableSliceBase_spec hr hslice hbounded hbase hx hw hpos
    hwide hoff hlong hm hM
  have hwidths : SumWidths (r.lsb ≤ r.msb) m' M' r.count lwid loff := by
    refine ⟨?_, hpos, hlow ▸ Int.natCast_nonneg _, Netrange.count_pos, hMroom, hMoff⟩
    split_ifs at hroom <;> omega
  have hcount : (r.count : Int) = max r.lsb r.msb - min r.lsb r.msb + 1 := by
    unfold Netrange.count
    omega
  have hselects := hevaluates.selects_iff hwidths hcount (fun hs => by
    obtain ⟨-, hneg⟩ := Bool.or_eq_false_iff.mp hs
    have hnonneg : 0 ≤ min r.lsb r.msb := not_lt.mp (of_decide_eq_false hneg)
    exact ⟨hnonneg, hunsigned hnonneg⟩)
  simp only [hcontains]
  rw [← hselects]
  constructor
  · rintro ⟨e', lwid', he', hinside, houtside⟩
    obtain ⟨rfl, rfl⟩ := Prod.mk.inj (Option.some_inj.mp (he'.symm.trans he))
    refine ⟨fun hb => ?_, fun hb i hi => ?_⟩
    · obtain ⟨off, hoff', heq⟩ := hinside ((hcontains _).mpr hb)
      rw [hslices _ ((hcontains _).mpr hb)] at hoff'
      rw [heq, ← (Prod.mk.inj (Option.some_inj.mp (Option.some_inj.mp hoff'))).1]
    · exact houtside (fun h => hb ((hcontains _).mp h)) i _ ((hcontains _).mpr hi)
        (hslices i ((hcontains _).mpr hi))
  · rintro ⟨hinside, houtside⟩
    refine ⟨e, lwid, he, fun hb => ?_, fun hb i off hi hoff' => ?_⟩
    · exact ⟨_, hslices _ hb, hinside ((hcontains _).mp hb)⟩
    · rw [hslices i hi] at hoff'
      rw [← (Prod.mk.inj (Option.some_inj.mp (Option.some_inj.mp hoff'))).1]
      exact houtside (fun h => hb ((hcontains _).mpr h)) i ((hcontains _).mp hi)

/-- A vector `[7:0][3:0]` with a base of three unsigned bits. -/
theorem selectsSlice_iff_five : SelectsSlice [⟨7, 0⟩, ⟨3, 0⟩] [] ⟨7, 0⟩ (.other 3 false) 5 ↔
    ((⟨7, 0⟩ : Netrange).Contains ((NetExpr.other 3 false).toInt 5) → writtenOff (min 0 7) 3 = 0 ∧
      Fits (false || min (0 : Int) 7 < 0) ((0 : Int) ≤ 7) 3 5 4 (min 0 7) 0
        ((NetExpr.other 3 false).toInt 5)) ∧
    (¬ (⟨7, 0⟩ : Netrange).Contains ((NetExpr.other 3 false).toInt 5) →
      ∀ i, (⟨7, 0⟩ : Netrange).Contains i →
        i + writtenOff (min 0 7) 3 ≡ (NetExpr.other 3 false).toInt 5 [ZMOD 2 ^ 3] →
        ¬ Fits (false || min (0 : Int) 7 < 0) ((0 : Int) ≤ 7) 3 5 4 (min 0 7) 0 i) :=
  selectsSlice_iff [⟨7, 0⟩, ⟨3, 0⟩] [] ⟨7, 0⟩ (.other 3 false) 5 3 3 5 4 false 0
    ⟨by decide, by decide⟩ rfl .nil ⟨by decide, by decide⟩ ⟨rfl, rfl⟩ (by decide) (by decide)
    (by decide) (by decide) (by decide)

/-- In a vector `[3:-4][7:0]` a base of three signed bits selects nothing with the greatest index. -/
theorem not_selectsSlice : ¬ ∀ (dims : List Netrange) (indices : List Int) (r : Netrange)
    (base : NetExpr) (x w : Nat) (s : Bool), Small dims → dims[indices.length]? = some r →
      InDims (dims.take indices.length) indices → Bounded r → base.IsBase w s → 0 < w → x < 2 ^ w →
      SelectsSlice dims indices r base x := by
  intro h
  obtain ⟨e, lwid, he, hinside, -⟩ := h [⟨3, -4⟩, ⟨7, 0⟩] [] ⟨3, -4⟩ (.other 3 true) 3 3 true
    ⟨by decide, by decide⟩ rfl .nil ⟨by decide, by decide⟩ ⟨rfl, rfl⟩ (by decide) (by decide)
  obtain ⟨loff, hloff, heq⟩ := hinside ⟨by decide, by decide⟩
  have hvalue : (normalizeVariableSliceBase [⟨3, -4⟩, ⟨7, 0⟩] [] (.other 3 true)).map
      (fun e => e.1.toInt fun _ => 3) = some (-8) := by decide +kernel
  have hoffset : prefixToSlice [⟨3, -4⟩, ⟨7, 0⟩] [] ((NetExpr.other 3 true).toInt 3) =
      some (some (56, 8)) := by decide
  rw [he, Option.map_some, heq] at hvalue
  rw [hoffset] at hloff
  obtain ⟨rfl, -⟩ := Prod.mk.inj (Option.some_inj.mp (Option.some_inj.mp hloff))
  exact absurd (Option.some_inj.mp hvalue) (by decide)

end Normalization

end Icarus.Netmisc
