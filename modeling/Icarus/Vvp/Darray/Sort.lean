import Icarus.Core.WeakOrder
import Icarus.Vvp.Thread.Compare
import Mathlib.Data.Multiset.Defs

/-!
# The order of sorted elements

Sorting a queue or a dynamic array of vectors compares two elements with `>=`, and takes the
verdict X for no. An element with X or Z bits is then not less than any other and no other is less
than it.
-/

namespace Icarus.Vvp

open Icarus.Core

/-- `vec4_lt_unsigned`. -/
def vec4LtUnsigned (a b : Planes) : Bool :=
  if a.eeq b then false
  else
    let gt := compareGtge b a .one
    if gt = .x then false else gt = .one

/-- The comparator that `sort_elems` passes to `std::sort`. -/
def sortLt (ascending : Bool) (a b : Planes) : Bool :=
  if ascending then vec4LtUnsigned a b else vec4LtUnsigned b a

/-- Vectors of one width. -/
abbrev WidthVec (wid : Nat) := {v : Planes // v.size = wid}

/-- A vector without X and Z bits. -/
def WidthVec.Known {wid : Nat} (v : WidthVec wid) : Prop := v.val.toVector4.hasXz = false

instance {wid : Nat} (v : WidthVec wid) : Decidable v.Known :=
  inferInstanceAs (Decidable (v.val.toVector4.hasXz = false))

/-- The integer of a vector. -/
def WidthVec.toNat {wid : Nat} (v : WidthVec wid) : Nat := v.val.toVector4.toNat

/-- What `std::sort` asks of the comparator on the elements it sorts, and what the comparator is
meant to be on those without X and Z bits. -/
structure SortRight {wid : Nat} (ascending : Bool) (elems : Multiset (WidthVec wid)) : Prop where
  weak : IsStrictWeakOrder {v // v ∈ elems} fun a b => sortLt ascending a.val.val b.val.val = true
  known : ∀ a ∈ elems, ∀ b ∈ elems, a.Known → b.Known →
    (vec4LtUnsigned a.val b.val = true ↔ a.toNat < b.toNat)

section

variable {wid : Nat}

theorem WidthVec.toNat_eq_iff {a b : WidthVec wid} (ha : a.Known) (hb : b.Known) :
    a.toNat = b.toNat ↔ a.val.toVector4 = b.val.toVector4 := by
  apply toNat_inj (length_eq (b.property.trans a.property.symm))
  rintro (hxz | hxz)
  · exact absurd hxz (Bool.eq_false_iff.mp ha)
  · exact absurd hxz (Bool.eq_false_iff.mp hb)

/-- Different vectors without X and Z bits are compared by their integers. -/
theorem compareGtge_of_ne {a b : WidthVec wid} (ha : a.Known) (hb : b.Known)
    (hne : a.val.toVector4 ≠ b.val.toVector4) (outIfEqual : Bit4) :
    compareGtge a.val b.val outIfEqual = bitIf (b.toNat < a.toNat) := by
  have hsize : b.val.size = a.val.size := b.property.trans a.property.symm
  have hpos : 0 < a.val.size := by
    refine Nat.pos_of_ne_zero fun hzero => hne ?_
    rw [List.eq_nil_of_length_eq_zero ((Planes.length_toVector4 _).trans hzero),
      List.eq_nil_of_length_eq_zero ((Planes.length_toVector4 _).trans (hsize.trans hzero))]
  have hunknown : ¬ Unknown a.val.toVector4 b.val.toVector4 :=
    not_or.mpr ⟨Bool.eq_false_iff.mp ha, Bool.eq_false_iff.mp hb⟩
  rw [compareGtge_known hsize hpos hunknown]
  exact if_neg fun hnat => hne ((WidthVec.toNat_eq_iff ha hb).mp hnat)

/-- The comparator is less by the integer, for vectors without X and Z bits. -/
theorem vec4LtUnsigned_iff (a b : WidthVec wid) :
    vec4LtUnsigned a.val b.val = true ↔ KeyLt WidthVec.Known WidthVec.toNat a b := by
  rw [vec4LtUnsigned, Planes.eeq_eq]
  by_cases heq : a.val.toVector4 = b.val.toVector4
  · have hirrefl : ¬ KeyLt WidthVec.Known WidthVec.toNat a b :=
      fun h => h.2.2.ne (congrArg Vector4.toNat heq)
    simp [heq, hirrefl]
  by_cases hunknown : Unknown b.val.toVector4 a.val.toVector4
  · have hnot : ¬ KeyLt WidthVec.Known WidthVec.toNat a b := by
      rintro ⟨ha, hb, -⟩
      rcases hunknown with hxz | hxz
      · exact absurd hxz (Bool.eq_false_iff.mp hb)
      · exact absurd hxz (Bool.eq_false_iff.mp ha)
    simp [heq, hnot, compareGtge_unknown (a.property.trans b.property.symm) hunknown]
  · obtain ⟨hb, ha⟩ := not_or.mp hunknown
    rw [Bool.not_eq_true] at ha hb
    have hkey : KeyLt WidthVec.Known WidthVec.toNat a b ↔ a.toNat < b.toNat :=
      ⟨fun h => h.2.2, fun h => ⟨ha, hb, h⟩⟩
    rw [hkey, compareGtge_of_ne hb ha (Ne.symm heq)]
    by_cases hlt : a.toNat < b.toNat
    · simp [heq, bitIf, hlt]
    · simp [heq, bitIf, hlt]

/-- On the elements of a multiset, the comparator is less by a key. -/
theorem sortLt_eq (ascending : Bool) (elems : Multiset (WidthVec wid)) :
    (fun a b : {v // v ∈ elems} => sortLt ascending a.val.val b.val.val = true) =
      if ascending then KeyLt (fun v => v.val.Known) (fun v => v.val.toNat)
      else fun a b => KeyLt (fun v => v.val.Known) (fun v => v.val.toNat) b a := by
  ext a b
  cases ascending
  · exact vec4LtUnsigned_iff b.val a.val
  · exact vec4LtUnsigned_iff a.val b.val

/-- The comparator is a strict weak order if no element has X or Z bits, or if all elements without
them are the same. -/
theorem sortLt_weak_iff (ascending : Bool) (elems : Multiset (WidthVec wid)) :
    (IsStrictWeakOrder {v // v ∈ elems}
      fun a b => sortLt ascending a.val.val b.val.val = true) ↔ (∀ v ∈ elems, v.Known) ∨
        ∀ a ∈ elems, ∀ b ∈ elems, a.Known → b.Known → a.val.toVector4 = b.val.toVector4 := by
  have hsame : (∀ a ∈ elems, ∀ b ∈ elems, a.Known → b.Known → a.toNat = b.toNat) ↔
      ∀ a ∈ elems, ∀ b ∈ elems, a.Known → b.Known → a.val.toVector4 = b.val.toVector4 := by
    refine forall₄_congr fun a _ b _ => forall₂_congr fun ha hb => ?_
    exact WidthVec.toNat_eq_iff ha hb
  rw [← hsame, sortLt_eq]
  cases ascending
  · rw [if_neg (by simp), KeyLt.swap_eq, KeyLt.isStrictWeakOrder_iff]
    simp
  · rw [if_pos rfl, KeyLt.isStrictWeakOrder_iff]
    simp

/-- Sorting gets a comparator that it can use exactly if no element has X or Z bits, or if all
elements without them are the same. -/
theorem sort_right_iff (ascending : Bool) (elems : Multiset (WidthVec wid)) :
    SortRight ascending elems ↔ (∀ v ∈ elems, v.Known) ∨
      ∀ a ∈ elems, ∀ b ∈ elems, a.Known → b.Known → a.val.toVector4 = b.val.toVector4 := by
  rw [← sortLt_weak_iff ascending]
  refine ⟨SortRight.weak, fun h => ⟨h, fun a _ b _ ha hb => ?_⟩⟩
  rw [vec4LtUnsigned_iff]
  exact ⟨fun hlt => hlt.2.2, fun hlt => ⟨ha, hb, hlt⟩⟩

/-- 0, X and 1 are not sorted: X is as good as 0 and as 1. -/
theorem not_sort_right : ¬ SortRight true (Multiset.ofList
    ([⟨Planes.ofWords 1 0 0, rfl⟩, ⟨Planes.ofWords 1 1 1, rfl⟩, ⟨Planes.ofWords 1 1 0, rfl⟩] :
      List (WidthVec 1))) := by
  intro h
  rcases (sortLt_weak_iff ..).mp h.weak with hall | hsame
  · exact absurd (hall ⟨Planes.ofWords 1 1 1, rfl⟩ (by simp)) (by decide)
  · have h := hsame ⟨Planes.ofWords 1 0 0, rfl⟩ (by simp) ⟨Planes.ofWords 1 1 0, rfl⟩ (by simp)
      (by decide) (by decide)
    exact absurd h (by decide)

end

end Icarus.Vvp
