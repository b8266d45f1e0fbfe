import Mathlib.Data.List.Basic
import Mathlib.Data.Fin.Basic
import Mathlib.Algebra.GroupWithZero.Nat

/-!
# Strength-modelled values

A `vvp_scalar_t` is a byte of two halves, each a value bit and a strength: the
upper and lower end of the range of drives the bit may carry. `resolve` combines
two of them as two drivers of one net.
-/

namespace Icarus.Vvp

/-- `vvp_bit4_t`. -/
inductive Bit4
  | zero | one | x | z
  deriving DecidableEq, Repr

/-- `vvp_vector4_t`, one bit after the other. -/
abbrev Vector4 := List Bit4

instance strengthNeZero : NeZero 8 := ⟨by decide⟩

/-- Half of a `vvp_scalar_t`: a value bit (0x8) and a strength (0x7). -/
structure Half where
  /-- The value bit. -/
  one : Bool
  /-- The strength. -/
  strength : Fin 8
  deriving DecidableEq, Repr

/-- `vvp_scalar_t`: the high half (0xf0) and the low half (0x0f) of `value_`. -/
@[ext] structure Scalar where
  /-- The high half. -/
  hi : Half
  /-- The low half. -/
  lo : Half
  deriving DecidableEq, Repr

namespace Scalar

/-- The default constructor: HiZ. -/
def hiZ : Scalar := ⟨⟨false, 0⟩, ⟨false, 0⟩⟩

/-- The constructor from a bit and its strengths. -/
def ofBit4 (val : Bit4) (str0 str1 : Fin 8) : Scalar :=
  if str0 = 0 ∧ str1 = 0 then hiZ
  else
    match val with
    | .zero => ⟨⟨false, str0⟩, ⟨false, str0⟩⟩
    | .one => ⟨⟨true, str1⟩, ⟨true, str1⟩⟩
    | .x => ⟨⟨true, str1⟩, ⟨false, str0⟩⟩
    | .z => hiZ

/-- `is_hiz`: no strength in either half. -/
def isHiz (a : Scalar) : Bool := a.hi.strength = 0 ∧ a.lo.strength = 0

/-- `value`: the bit without its strengths. -/
def value (a : Scalar) : Bit4 :=
  if a.isHiz then .z
  else
    match a.hi.one, a.lo.one with
    | false, false => .zero
    | true, true => .one
    | _, _ => .x

/-- `UNAMBIG`: both halves are the same. -/
def unambig (a : Scalar) : Bool := a.lo = a.hi

end Scalar

/-- `STREN1`/`STREN0` with the sign of the value bit. -/
def Half.signed (a : Half) : Int := if a.one then a.strength else -a.strength

/-- A half that gives way to a stronger unambiguous drive. -/
def Half.sweep (u a : Half) : Half := if u.strength > a.strength then u else a

/-- `fully_featured_resolv_`. -/
def fullyFeaturedResolv (a b : Scalar) : Scalar :=
  if a.unambig ∧ b.unambig then
    if b.lo.strength > a.lo.strength then b
    else if b.hi.strength = a.hi.strength ∧ b.lo.strength = a.lo.strength then
      ⟨⟨true, a.hi.strength⟩, ⟨false, a.lo.strength⟩⟩
    else a
  else if a.unambig then ⟨a.hi.sweep b.hi, a.lo.sweep b.lo⟩
  else if b.unambig then ⟨b.hi.sweep a.hi, b.lo.sweep a.lo⟩
  else
    let sv1 := max (max (max a.hi.signed a.lo.signed) b.hi.signed) b.lo.signed
    let sv0 := min (min (min a.lo.signed a.hi.signed) b.hi.signed) b.lo.signed
    let hi := if sv1 > 0 then ⟨true, Fin.ofNat 8 sv1.toNat⟩
      else ⟨a.hi.one && b.hi.one, Fin.ofNat 8 (-sv1).toNat⟩
    let lo := if sv0 > 0 then ⟨true, Fin.ofNat 8 sv0.toNat⟩
      else ⟨false, Fin.ofNat 8 (-sv0).toNat⟩
    let res : Scalar := ⟨hi, lo⟩
    if res.isHiz then Scalar.hiZ else res

/-- `resolve` of two scalars. -/
def resolve (a b : Scalar) : Scalar :=
  if a.isHiz then b
  else if b.isHiz then a
  else if a = b then a
  else fullyFeaturedResolv a b

/-! ## The pull -/

@[simp] theorem Half.sweep_self (u : Half) : u.sweep u = u := by simp [Half.sweep]

theorem Half.sweep_of_lt {u a : Half} (h : a.strength < u.strength) : u.sweep a = u := by
  simp [Half.sweep, h]

theorem Half.sweep_of_le {u a : Half} (h : u.strength ≤ a.strength) : u.sweep a = a := by
  simp only [Half.sweep, gt_iff_lt, Fin.not_lt.mpr h, if_false]

/-- Sweeping a half again changes nothing. -/
theorem Half.sweep_sweep (u a : Half) : u.sweep (u.sweep a) = u.sweep a := by
  by_cases h : a.strength < u.strength
  · rw [Half.sweep_of_lt h, Half.sweep_self]
  · rw [Half.sweep_of_le (Fin.not_lt.mp h), Half.sweep_of_le (Fin.not_lt.mp h)]

@[simp] theorem resolve_self (a : Scalar) : resolve a a = a := by
  unfold resolve
  split_ifs with h₁ h₂ <;> first | rfl | exact absurd rfl h₂

/-- An unambiguous drive sweeps both halves of an ambiguous one. -/
theorem resolve_of_ambig {a p : Scalar} (ha : a.isHiz = false) (hp : p.isHiz = false)
    (haa : a.unambig = false) (hpu : p.unambig = true) :
    resolve a p = ⟨p.hi.sweep a.hi, p.lo.sweep a.lo⟩ := by
  have hne : a ≠ p := by
    rintro rfl
    rw [haa] at hpu
    cases hpu
  simp [resolve, fullyFeaturedResolv, ha, hp, hne, haa, hpu]

/-- An ambiguous value is swept from either side. -/
theorem resolve_of_ambig_right {a p : Scalar} (ha : a.isHiz = false) (hp : p.isHiz = false)
    (haa : a.unambig = false) (hpu : p.unambig = true) :
    resolve p a = ⟨p.hi.sweep a.hi, p.lo.sweep a.lo⟩ := by
  have hne : p ≠ a := by
    rintro rfl
    rw [haa] at hpu
    cases hpu
  simp [resolve, fullyFeaturedResolv, ha, hp, hne, haa, hpu]

/-- Two unambiguous drives: the stronger one, or an unknown of their common strength. -/
theorem resolve_of_unambig {a p : Scalar} (ha : a.isHiz = false) (hp : p.isHiz = false)
    (hau : a.unambig = true) (hpu : p.unambig = true) (hne : a ≠ p) :
    resolve a p =
      if p.lo.strength > a.lo.strength then p
      else if p.hi.strength = a.hi.strength ∧ p.lo.strength = a.lo.strength then
        ⟨⟨true, a.hi.strength⟩, ⟨false, a.lo.strength⟩⟩
      else a := by
  simp [resolve, fullyFeaturedResolv, ha, hp, hne, hau, hpu]

/-- Sweeping makes an ambiguous value unambiguous only by replacing it. -/
private theorem eq_of_sweep_unambig {a p : Scalar} (haa : a.unambig = false)
    (hpu : p.unambig = true)
    (h : (⟨p.hi.sweep a.hi, p.lo.sweep a.lo⟩ : Scalar).unambig = true) :
    (⟨p.hi.sweep a.hi, p.lo.sweep a.lo⟩ : Scalar) = p := by
  have hp : p.lo = p.hi := by simpa [Scalar.unambig] using hpu
  have ha : a.lo ≠ a.hi := by simpa [Scalar.unambig] using haa
  have hr : p.lo.sweep a.lo = p.hi.sweep a.hi := by simpa [Scalar.unambig] using h
  rw [hp] at hr
  have hhi : p.hi.sweep a.hi = p.hi := by
    by_cases hh : a.hi.strength < p.hi.strength
    · exact Half.sweep_of_lt hh
    · by_cases hl : a.lo.strength < p.hi.strength
      · rw [← hr, Half.sweep_of_lt hl]
      · rw [Half.sweep_of_le (Fin.not_lt.mp hh), Half.sweep_of_le (Fin.not_lt.mp hl)] at hr
        exact absurd hr ha
  ext1
  · exact hhi
  · simp only [hp, hr, hhi]

/-- A swept value carries a drive. -/
private theorem not_isHiz_sweep {a p : Scalar} (hp : p.isHiz = false) (hpu : p.unambig = true) :
    (⟨p.hi.sweep a.hi, p.lo.sweep a.lo⟩ : Scalar).isHiz = false := by
  have hlo : p.lo = p.hi := by simpa [Scalar.unambig] using hpu
  have hpos : p.hi.strength ≠ 0 := by
    intro hz
    simp [Scalar.isHiz, hlo, hz] at hp
  have hsweep : (p.hi.sweep a.hi).strength ≠ 0 := by
    by_cases h : a.hi.strength < p.hi.strength
    · rwa [Half.sweep_of_lt h]
    · rw [Half.sweep_of_le (Fin.not_lt.mp h)]
      intro hz
      have := Fin.not_lt.mp h
      omega
  simp [Scalar.isHiz, hsweep]

/-- Resolving once more with an unambiguous drive changes nothing. -/
theorem resolve_resolve_unambig (a p : Scalar) (hpu : p.unambig = true) :
    resolve (resolve a p) p = resolve a p := by
  by_cases ha : a.isHiz
  · simp [resolve, ha]
  by_cases hp : p.isHiz
  · simp [resolve, ha, hp]
  by_cases hne : a = p
  · simp [hne]
  simp only [Bool.not_eq_true] at ha hp
  by_cases hau : a.unambig
  · rw [resolve_of_unambig ha hp hau hpu hne]
    split_ifs with hgt heq
    · simp
    · have hlo : p.lo = p.hi := by simpa [Scalar.unambig] using hpu
      have hx : (⟨⟨true, a.hi.strength⟩, ⟨false, a.lo.strength⟩⟩ : Scalar).isHiz = false := ha
      rw [resolve_of_ambig hx hp (by simp [Scalar.unambig]) hpu]
      rw [Half.sweep_of_le (by simp [heq.1]), Half.sweep_of_le (by simp [heq.2])]
    · rw [resolve_of_unambig ha hp hau hpu hne]
      simp only [hgt, heq, if_false]
  · simp only [Bool.not_eq_true] at hau
    rw [resolve_of_ambig ha hp hau hpu]
    by_cases hru : (⟨p.hi.sweep a.hi, p.lo.sweep a.lo⟩ : Scalar).unambig
    · rw [eq_of_sweep_unambig hau hpu hru, resolve_self]
    · simp only [Bool.not_eq_true] at hru
      rw [resolve_of_ambig (not_isHiz_sweep hp hpu) hp hru hpu]
      simp only [Half.sweep_sweep]

/-- `vvp_vector8_t`; a vector of size zero stands for no value. -/
abbrev Vector8 := List Scalar

/-- `resolve` of two vectors; their sizes agree by assertion. -/
def resolveVector (a b : Vector8) : Vector8 := List.zipWith resolve a b

end Icarus.Vvp
