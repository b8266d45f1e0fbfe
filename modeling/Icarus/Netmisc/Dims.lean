import Icarus.Netmisc.Normalize
import Icarus.Core.MixedRadix

/-!
# Packed dimensions

The ranges of a packed array, and the walks over them, from the last to the first, that give
the canonical index of a bit and the offset and width of a slice. Native integers are `long` and
`size_t`; signed arithmetic that overflows is `none`, as is a failed assertion.
-/

namespace Icarus.Netmisc

open Icarus.Core.MixedRadix (Digits address)

/-- `netrange_t`. -/
structure Netrange where
  msb : Int
  lsb : Int

/-- A conversion to `long`. -/
def wrap (z : Int) : Int := z.bmod (2 ^ 64)

namespace Netrange

/-- `defined`: `LONG_MAX` twice is the undefined range. -/
def defined (r : Netrange) : Bool := r.msb ≠ 2 ^ 63 - 1 || r.lsb ≠ 2 ^ 63 - 1

/-- `width`. -/
def width (r : Netrange) : Option Nat :=
  if !r.defined then some 0
  else if r.lsb ≤ r.msb then do
    let diff ← long (r.msb - r.lsb)
    let width ← long (diff + 1)
    return width.toNat
  else do
    let diff ← long (r.lsb - r.msb)
    let width ← long (diff + 1)
    return width.toNat

/-- The position of an index, from the end of the range that is least significant. -/
def position (r : Netrange) (i : Int) : Option Int :=
  if !r.defined then none
  else if r.lsb ≤ r.msb then long (i - r.lsb) else long (r.lsb - i)

end Netrange

/-- The walk of `NetNet::sb_to_idx`, over the dimensions from the last: the offset so far and
the width of what was walked over. -/
def sbToIdxWalk : List Netrange → List Int → Option (Int × Int)
  | [r], [sb] => do
    let accWid ← r.width
    let accOff ← r.position sb
    return (accOff, wrap accWid)
  | r :: dims, i :: indices => do
    let (accOff, accWid) ← sbToIdxWalk dims indices
    let tmpOff ← r.position i
    let product ← long (tmpOff * accWid)
    let accOff ← long (accOff + product)
    let width ← r.width
    return (accOff, wrap (accWid * width))
  | _, _ => none

/-- `NetNet::sb_to_idx`. -/
def sbToIdx (dims : List Netrange) (indices : List Int) (sb : Int) : Option Int :=
  (sbToIdxWalk dims (indices ++ [sb])).map Prod.fst

/-- The first loop of `prefix_to_slice`, over the dimensions without an index. -/
def tailWidth : List Netrange → Option Nat
  | [] => some 1
  | r :: dims => do
    let accWid ← tailWidth dims
    let width ← r.width
    return accWid * width % 2 ^ 64

/-- What `prefix_to_slice` has computed. -/
structure SliceWalk where
  lwid : Nat
  accWid : Nat
  accOff : Int

/-- The walk of `prefix_to_slice`, over the dimensions with an index from the last; `some none`
is the result `false`. -/
def prefixWalk : List Netrange → List Int → Option (Option SliceWalk)
  | r :: dims, [sb] => do
    let accWid ← tailWidth dims
    if !r.defined then none
    else if sb < r.msb ∧ sb < r.lsb then return none
    else if sb > r.msb ∧ sb > r.lsb then return none
    else do
      let position ← r.position sb
      return some ⟨accWid, accWid, wrap (position * accWid)⟩
  | r :: next :: dims, i :: indices => do
    match ← prefixWalk (next :: dims) indices with
    | none => return none
    | some walk =>
      let width ← next.width
      let accWid := walk.accWid * width % 2 ^ 64
      let position ← r.position i
      return some { walk with accWid := accWid, accOff := wrap (walk.accOff + position * accWid) }
  | _, _ => none

/-- `prefix_to_slice`: `loff` and `lwid`, or the result `false`. -/
def prefixToSlice (dims : List Netrange) (indices : List Int) (sb : Int) :
    Option (Option (Int × Nat)) :=
  if indices.length < dims.length then
    (prefixWalk dims (indices ++ [sb])).map (Option.map fun walk => (walk.accOff, walk.lwid))
  else none

/-! ## The meaning of a dimension -/

namespace Netrange

/-- The index is in the range, in either direction. -/
def Contains (r : Netrange) (i : Int) : Prop := min r.msb r.lsb ≤ i ∧ i ≤ max r.msb r.lsb

/-- The number of indices. -/
def count (r : Netrange) : Nat := (r.msb - r.lsb).natAbs + 1

/-- The distance of an index from the least significant end. -/
def distance (r : Netrange) (i : Int) : Int := if r.lsb ≤ r.msb then i - r.lsb else r.lsb - i

/-- The position of an index as a digit. -/
def digit (r : Netrange) (i : Int) : Nat := (r.distance i).toNat

variable {r : Netrange} {i j : Int}

theorem distance_nonneg (h : r.Contains i) : 0 ≤ r.distance i := by
  unfold Contains at h
  unfold distance
  split_ifs <;> omega

theorem digit_lt (h : r.Contains i) : r.digit i < r.count := by
  unfold Contains at h
  unfold digit distance count
  split_ifs <;> omega

theorem cast_digit (h : r.Contains i) : (r.digit i : Int) = r.distance i :=
  Int.toNat_of_nonneg (distance_nonneg h)

theorem digit_inj (hi : r.Contains i) (hj : r.Contains j) (h : r.digit i = r.digit j) : i = j := by
  have hcast : (r.digit i : Int) = r.digit j := congrArg Int.ofNat h
  rw [cast_digit hi, cast_digit hj] at hcast
  unfold distance at hcast
  split_ifs at hcast <;> omega

/-- The index of a position. -/
theorem exists_contains {d : Nat} (h : d < r.count) : ∃ i, r.Contains i ∧ r.digit i = d := by
  refine ⟨if r.lsb ≤ r.msb then r.lsb + d else r.lsb - d, ?_, ?_⟩
  · unfold count at h
    unfold Contains
    split_ifs <;> omega
  · unfold digit distance
    split_ifs <;> omega

end Netrange

/-- Indices that are in range, one for each dimension. -/
abbrev InDims (dims : List Netrange) (indices : List Int) : Prop :=
  List.Forall₂ Netrange.Contains dims indices

/-- The positions of indices. -/
def digits (dims : List Netrange) (indices : List Int) : List Nat :=
  List.zipWith Netrange.digit dims indices

/-- The numbers of indices of dimensions. -/
abbrev counts (dims : List Netrange) : List Nat := dims.map Netrange.count

/-- The canonical address of indices. -/
def slot (dims : List Netrange) (indices : List Int) : Nat :=
  address (counts dims) (digits dims indices)

variable {dims : List Netrange} {indices : List Int}

theorem digits_digits (h : InDims dims indices) : Digits (digits dims indices) (counts dims) := by
  induction h with
  | nil => exact .nil
  | cons hd _ ih => exact .cons (Netrange.digit_lt hd) ih

theorem digits_inj {indices' : List Int} (h : InDims dims indices) (h' : InDims dims indices')
    (heq : digits dims indices = digits dims indices') : indices = indices' := by
  induction h generalizing indices' with
  | nil => cases h'; rfl
  | @cons r i dims indices hd _ ih =>
    cases h' with
    | @cons _ j _ js hd' htl' =>
      obtain ⟨hdigit, hrest⟩ := List.cons.inj heq
      rw [Netrange.digit_inj hd hd' hdigit, ih htl' hrest]

/-- Every tuple of digits is that of indices in range. -/
theorem exists_inDims {ds : List Nat} (h : Digits ds (counts dims)) :
    ∃ indices, InDims dims indices ∧ digits dims indices = ds := by
  induction dims generalizing ds with
  | nil =>
    cases h
    exact ⟨[], .nil, rfl⟩
  | cons r dims ih =>
    obtain - | ⟨hd, htl⟩ := h
    obtain ⟨i, hi, rfl⟩ := Netrange.exists_contains hd
    obtain ⟨indices, hindices, rfl⟩ := ih htl
    exact ⟨i :: indices, .cons hi hindices, rfl⟩

theorem slot_lt (h : InDims dims indices) : slot dims indices < (counts dims).prod :=
  Core.MixedRadix.address_lt (digits_digits h)

end Icarus.Netmisc
