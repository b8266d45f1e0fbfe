import Icarus.Vvp.Resolv.Range
import Icarus.Vvp.Strength

/-!
# Scalars as ranges of drives

The byte-level resolution of two scalars computes the resolution of the ranges
between their ends. A scalar that the code can build is its range, but for the
encoding of HiZ and for the value bit of an upper end of strength zero.
-/

namespace Icarus.Vvp

open Icarus.Vvp.Resolv

/-! ## Halves -/

@[simp] theorem Half.natAbs_signed (a : Half) : a.signed.natAbs = a.strength := by
  unfold Half.signed
  split_ifs <;> simp

theorem Half.signed_eq_zero (a : Half) : a.signed = 0 ↔ a.strength = 0 := by
  rw [← Int.natAbs_eq_zero, Half.natAbs_signed, Fin.val_eq_zero_iff]

/-- A half is its signed strength, unless it has none. -/
theorem Half.eq_of_signed {a b : Half} (h : a.signed = b.signed)
    (h0 : a.signed = 0 → a.one = b.one) : a = b := by
  have hs : a.strength = b.strength := by
    apply Fin.ext
    rw [← Half.natAbs_signed, ← Half.natAbs_signed, h]
  obtain ⟨oa, sa⟩ := a
  obtain ⟨ob, sb⟩ := b
  obtain rfl : sa = sb := hs
  by_cases hz : Half.signed ⟨oa, sa⟩ = 0
  · rw [show oa = ob from h0 hz]
  · unfold Half.signed at h hz
    cases oa <;> cases ob <;> simp at h hz ⊢ <;> omega

theorem Half.not_one_of_signed_neg {a : Half} (h : a.signed < 0) : a.one = false := by
  unfold Half.signed at h
  split_ifs at h with ho
  · omega
  · simpa using ho

/-- Sweeping a half sweeps its signed strength. -/
theorem Half.signed_sweep (u a : Half) : (u.sweep a).signed = Range.sweep u.signed a.signed := by
  unfold Half.sweep Range.sweep
  rw [Half.natAbs_signed, Half.natAbs_signed]
  split_ifs with h h' h'
  · rfl
  · exact absurd (Fin.lt_def.mp h) h'
  · exact absurd (Fin.lt_def.mpr h') h
  · rfl

namespace Scalar

/-- The drives from the lower to the upper end. -/
def range (a : Scalar) : Range := ⟨a.lo.signed, a.hi.signed⟩

/-- The encodings that resolution and the constructors keep to. -/
structure Canonical (a : Scalar) : Prop where
  /-- The ends are in order. -/
  ordered : a.lo.signed ≤ a.hi.signed
  /-- HiZ has one value bit in both halves. -/
  hiz : a.isHiz → a.unambig
  /-- A lower end of strength zero has a cleared value bit. -/
  zero : a.isHiz = false → a.lo.signed = 0 → a.lo.one = false

/-- A scalar that the code can build. -/
inductive Built : Scalar → Prop
  | ofBit4 (val : Bit4) (str0 str1 : Fin 8) : Built (ofBit4 val str0 str1)
  | resolve {a b : Scalar} (ha : Built a) (hb : Built b) : Built (resolve a b)

theorem isHiz_iff (a : Scalar) : a.isHiz ↔ a.range = ⟨0, 0⟩ := by
  simp only [isHiz, range, decide_eq_true_eq, Range.mk.injEq, Half.signed_eq_zero]
  exact and_comm

theorem isHiz_eq_false_iff (a : Scalar) : a.isHiz = false ↔ a.range ≠ ⟨0, 0⟩ := by
  rw [← Bool.not_eq_true, ne_eq, isHiz_iff]

/-- Unambiguous is a range of one drive. -/
theorem Canonical.unambig_iff {a : Scalar} (h : a.Canonical) :
    a.unambig ↔ a.lo.signed = a.hi.signed := by
  constructor
  · intro hu
    rw [show a.lo = a.hi by simpa [unambig] using hu]
  · intro he
    by_cases hz : a.isHiz
    · exact h.hiz hz
    · have hne : a.lo.signed ≠ 0 := by
        intro h0
        apply hz
        rw [isHiz_iff, range, ← he, h0]
      have hab := Half.eq_of_signed he fun h0 => absurd h0 hne
      simpa [unambig] using hab

theorem Canonical.ambig_iff {a : Scalar} (h : a.Canonical) :
    a.unambig = false ↔ a.lo.signed < a.hi.signed := by
  have := h.ordered
  rw [← Bool.not_eq_true, h.unambig_iff]
  omega

/-- The range of an unambiguous scalar is its drive. -/
theorem range_of_unambig {a : Scalar} (h : a.unambig) : a.range = ⟨a.lo.signed, a.lo.signed⟩ := by
  rw [range, show a.lo = a.hi by simpa [unambig] using h]

end Scalar

open Scalar

/-! ## Resolution -/

/-- A half is rebuilt from a signed strength. -/
private theorem signed_rebuild {x : Int} {one : Bool} (hlt : -8 < x) (hgt : x < 8)
    (hone : x < 0 → one = false) :
    (if x > 0 then (⟨true, Fin.ofNat 8 x.toNat⟩ : Half)
      else ⟨one, Fin.ofNat 8 (-x).toNat⟩).signed = x := by
  by_cases hpos : x > 0
  · simp only [hpos, if_true, Half.signed, Fin.val_ofNat]
    omega
  · by_cases hneg : x < 0
    · simp only [hpos, if_false, Half.signed, hone hneg, Fin.val_ofNat, Bool.false_eq_true]
      omega
    · obtain rfl : x = 0 := by omega
      simp [Half.signed]

private theorem signed_bounds (a : Half) : -8 < a.signed ∧ a.signed < 8 := by
  have hlt := a.strength.isLt
  have habs := a.natAbs_signed
  omega

/-- What resolution makes of the halves of two scalars that are not HiZ. -/
structure Resolved (a b r : Scalar) : Prop where
  /-- The ranges are resolved. -/
  range : r.range = Range.resolve a.range b.range
  /-- The result is not HiZ. -/
  driven : r.isHiz = false
  /-- The ends stay in order. -/
  ordered : r.lo.signed ≤ r.hi.signed
  /-- A lower end of strength zero has a cleared value bit. -/
  zero : r.lo.signed = 0 → r.lo.one = false
  /-- The value bit of an upper end without a one strength needs both value bits. -/
  one : r.hi.signed ≤ 0 → r.hi.one = (a.hi.one && b.hi.one)
  /-- An upper end of strength zero has no one strength to come from. -/
  upper : r.hi.signed = 0 → a.hi.signed ≤ 0 ∧ b.hi.signed ≤ 0

theorem Resolved.symm {a b r : Scalar} (h : Resolved a b r) : Resolved b a r where
  range := by rw [h.range, Range.resolve_comm]
  driven := h.driven
  ordered := h.ordered
  zero := h.zero
  one hr := by rw [h.one hr, Bool.and_comm]
  upper hr := (h.upper hr).symm

section Cases

variable {a b : Scalar} (ha : a.Canonical) (hb : b.Canonical)
include ha hb

private theorem fullyFeaturedResolv_ambig (hau : a.unambig = false) (hbu : b.unambig = false) :
    Resolved a b (fullyFeaturedResolv a b) := by
  have hla := ha.ambig_iff.mp hau
  have hlb := hb.ambig_iff.mp hbu
  have hsv1 : max (max (max a.hi.signed a.lo.signed) b.hi.signed) b.lo.signed =
      max a.hi.signed b.hi.signed := by omega
  have hsv0 : min (min (min a.lo.signed a.hi.signed) b.hi.signed) b.lo.signed =
      min a.lo.signed b.lo.signed := by omega
  have hone : max a.hi.signed b.hi.signed < 0 → (a.hi.one && b.hi.one) = false := by
    intro hneg
    rw [Half.not_one_of_signed_neg (show a.hi.signed < 0 by omega), Bool.false_and]
  obtain ⟨h₁, h₂⟩ := signed_bounds a.hi
  obtain ⟨h₃, h₄⟩ := signed_bounds b.hi
  obtain ⟨h₅, h₆⟩ := signed_bounds a.lo
  obtain ⟨h₇, h₈⟩ := signed_bounds b.lo
  have hhi := signed_rebuild (show -8 < max a.hi.signed b.hi.signed by omega) (by omega) hone
  have hlo := signed_rebuild (show -8 < min a.lo.signed b.lo.signed by omega) (by omega)
    (fun _ => rfl)
  have hne : min a.lo.signed b.lo.signed < max a.hi.signed b.hi.signed := by omega
  have hup : max a.hi.signed b.hi.signed = 0 → a.hi.signed ≤ 0 ∧ b.hi.signed ≤ 0 := by omega
  have hrange : Range.resolve a.range b.range =
      ⟨min a.lo.signed b.lo.signed, max a.hi.signed b.hi.signed⟩ :=
    Range.resolve_range_range hla hlb
  unfold fullyFeaturedResolv
  simp only [hau, hbu, Bool.false_eq_true, false_and, if_false, hsv1, hsv0]
  generalize max a.hi.signed b.hi.signed = x at *
  generalize min a.lo.signed b.lo.signed = y at *
  rw [if_neg]
  · constructor
    · rw [Scalar.range, hhi, hlo, hrange]
    · rw [isHiz_eq_false_iff, Scalar.range, hhi, hlo, ne_eq, Range.mk.injEq]
      omega
    · rw [hhi, hlo]
      exact hne.le
    · rw [hlo]
      intro hy
      simp only [show ¬ y > 0 by omega, if_false]
    · rw [hhi]
      intro hx
      simp only [show ¬ x > 0 by omega, if_false]
    · rwa [hhi]
  · rw [isHiz_iff, Scalar.range, hhi, hlo, Range.mk.injEq]
    omega

omit ha in
private theorem sweep_resolved (hza : a.isHiz = false) (hau : a.unambig = true)
    (hbu : b.unambig = false) : Resolved a b ⟨a.hi.sweep b.hi, a.lo.sweep b.lo⟩ := by
  have hlb := hb.ambig_iff.mp hbu
  have hlo : a.lo = a.hi := by simpa [unambig] using hau
  have hv : a.hi.signed ≠ 0 := by
    intro h0
    rw [isHiz_eq_false_iff, Scalar.range, hlo, h0] at hza
    exact hza rfl
  have hle := Range.sweep_le_sweep a.hi.signed hlb.le
  have hne : Range.sweep a.hi.signed b.hi.signed ≠ 0 := by
    unfold Range.sweep
    split_ifs <;> omega
  have hne' : Range.sweep a.hi.signed b.lo.signed ≠ 0 := by
    unfold Range.sweep
    split_ifs <;> omega
  constructor
  · rw [Scalar.range, Half.signed_sweep, Half.signed_sweep, range_of_unambig hau, hlo]
    exact (Range.resolve_drive_range hv hlb).symm
  · rw [isHiz_eq_false_iff, Scalar.range, Half.signed_sweep, Half.signed_sweep, hlo, ne_eq,
      Range.mk.injEq]
    exact fun h => hne h.2
  · rw [Half.signed_sweep, Half.signed_sweep, hlo]
    exact hle
  · rw [Half.signed_sweep, hlo]
    exact fun h => absurd h hne'
  · intro hr
    by_cases hlt : b.hi.strength < a.hi.strength
    · rw [Half.sweep_of_lt hlt] at hr
      have hone : a.hi.one = false := Half.not_one_of_signed_neg (lt_of_le_of_ne hr hv)
      simp only [Half.sweep_of_lt hlt, hone, Bool.false_and]
    · rw [← Half.signed_sweep, Half.sweep_of_le (Fin.not_lt.mp hlt)] at hne
      rw [Half.sweep_of_le (Fin.not_lt.mp hlt)] at hr
      have hone : b.hi.one = false := Half.not_one_of_signed_neg (lt_of_le_of_ne hr hne)
      simp only [Half.sweep_of_le (Fin.not_lt.mp hlt), hone, Bool.and_false]
  · rw [Half.signed_sweep]
    exact fun h => absurd h hne

omit hb in
private theorem resolved_self (hza : a.isHiz = false) : Resolved a a a where
  range := by
    by_cases hau : a.unambig
    · rw [range_of_unambig hau, Range.resolve_drive_self]
    · simp only [Bool.not_eq_true] at hau
      have hla := ha.ambig_iff.mp hau
      rw [Scalar.range, Range.resolve_range_range hla hla, min_self, max_self]
  driven := hza
  ordered := ha.ordered
  zero := ha.zero hza
  one _ := (Bool.and_self _).symm
  upper hr := ⟨hr.le, hr.le⟩

omit hb in
/-- A drive that outweighs another value of the same kind takes its place. -/
private theorem stronger_resolved (hza : a.isHiz = false) (hau : a.unambig = true)
    (hbu : b.unambig = true) (hlt : b.hi.strength < a.hi.strength) : Resolved a b a where
  range := by
    have habs : b.hi.signed.natAbs < a.hi.signed.natAbs := by
      rw [Half.natAbs_signed, Half.natAbs_signed]
      exact hlt
    have hla : a.lo = a.hi := by simpa [unambig] using hau
    have hlb : b.lo = b.hi := by simpa [unambig] using hbu
    rw [range_of_unambig hau, range_of_unambig hbu, hla, hlb, Range.resolve_drive_of_gt habs]
  driven := hza
  ordered := ha.ordered
  zero := ha.zero hza
  one hr := by
    have hne : a.hi.signed ≠ 0 := by
      rw [ne_eq, Half.signed_eq_zero]
      exact Fin.ne_zero_of_lt hlt
    have hone : a.hi.one = false := Half.not_one_of_signed_neg (lt_of_le_of_ne hr hne)
    rw [hone, Bool.false_and]
  upper hr := by
    rw [Half.signed_eq_zero] at hr
    exact absurd hr (Fin.ne_zero_of_lt hlt)

omit ha hb in
/-- Opposite drives of one strength are unknown. -/
private theorem unknown_resolved (hza : a.isHiz = false) (hau : a.unambig = true)
    (hbu : b.unambig = true) (hne : a ≠ b) (heq : b.hi.strength = a.hi.strength) :
    Resolved a b ⟨⟨true, a.hi.strength⟩, ⟨false, a.lo.strength⟩⟩ := by
  have hla : a.lo = a.hi := by simpa [unambig] using hau
  have hlb : b.lo = b.hi := by simpa [unambig] using hbu
  have hpos : a.hi.signed ≠ 0 := by
    intro h0
    rw [isHiz_eq_false_iff, Scalar.range, hla, h0] at hza
    exact hza rfl
  have hs : (0 : Int) < a.hi.strength := by
    rw [← Half.natAbs_signed]
    omega
  have hneg : b.hi.signed = -a.hi.signed := by
    have habs : b.hi.signed.natAbs = a.hi.signed.natAbs := by
      rw [Half.natAbs_signed, Half.natAbs_signed, heq]
    rcases Int.natAbs_eq_natAbs_iff.mp habs with he | he
    · have hhi := Half.eq_of_signed he fun h0 => absurd (he ▸ h0) hpos
      exact absurd (Scalar.ext hhi.symm (by rw [hla, hlb, hhi])) hne
    · exact he
  have hone : Half.signed ⟨true, a.hi.strength⟩ = a.hi.strength := by simp [Half.signed]
  have hzero : Half.signed ⟨false, a.lo.strength⟩ = -(a.hi.strength : Int) := by
    simp [Half.signed, hla]
  constructor
  · rw [Scalar.range, hone, hzero, range_of_unambig hau, range_of_unambig hbu, hla, hlb, hneg,
      Range.resolve_drive_neg hpos, Half.natAbs_signed]
  · rw [isHiz_eq_false_iff, Scalar.range, hone, hzero, ne_eq, Range.mk.injEq]
    omega
  · rw [hone, hzero]
    omega
  · exact fun _ => rfl
  · rw [hone]
    omega
  · rw [hone]
    omega

private theorem drives_resolved (hza : a.isHiz = false) (hzb : b.isHiz = false)
    (hau : a.unambig = true) (hbu : b.unambig = true) (hne : a ≠ b) :
    Resolved a b (resolve a b) := by
  have hla : a.lo = a.hi := by simpa [unambig] using hau
  have hlb : b.lo = b.hi := by simpa [unambig] using hbu
  rw [resolve_of_unambig hza hzb hau hbu hne]
  split_ifs with hgt heq
  · apply Resolved.symm
    apply stronger_resolved hb hzb hbu hau
    rwa [← hla, ← hlb]
  · exact unknown_resolved hza hau hbu hne heq.1
  · apply stronger_resolved ha hza hau hbu
    rw [hla, hlb] at hgt heq
    have hne' : b.hi.strength ≠ a.hi.strength := fun h => heq ⟨h, h⟩
    omega

end Cases

/-- Resolution of two scalars that are not HiZ. -/
theorem Scalar.Canonical.resolved {a b : Scalar} (ha : a.Canonical) (hb : b.Canonical)
    (hza : a.isHiz = false) (hzb : b.isHiz = false) : Resolved a b (resolve a b) := by
  by_cases hab : a = b
  · subst hab
    rw [resolve_self]
    exact resolved_self ha hza
  cases hau : a.unambig <;> cases hbu : b.unambig
  · simp only [resolve, hza, hzb, hab, Bool.false_eq_true, if_false]
    exact fullyFeaturedResolv_ambig ha hb hau hbu
  · rw [resolve_of_ambig hza hzb hau hbu]
    exact (sweep_resolved ha hzb hbu hau).symm
  · rw [resolve_of_ambig_right hzb hza hbu hau]
    exact sweep_resolved hb hza hau hbu
  · exact drives_resolved ha hb hza hzb hau hbu hab

/-- The byte-level resolution is the resolution of the ranges. -/
theorem Scalar.Canonical.range_resolve {a b : Scalar} (ha : a.Canonical) (hb : b.Canonical) :
    (resolve a b).range = Range.resolve a.range b.range := by
  by_cases hza : a.isHiz
  · rw [(isHiz_iff a).mp hza, Range.resolve_hiz, resolve, if_pos hza]
  by_cases hzb : b.isHiz
  · rw [(isHiz_iff b).mp hzb, Range.resolve_hiz_right, resolve, if_neg hza, if_pos hzb]
  simp only [Bool.not_eq_true] at hza hzb
  exact (ha.resolved hb hza hzb).range

/-- Resolution keeps to the encodings. -/
theorem Scalar.Canonical.resolve {a b : Scalar} (ha : a.Canonical) (hb : b.Canonical) :
    (resolve a b).Canonical := by
  by_cases hza : a.isHiz
  · rwa [Vvp.resolve, if_pos hza]
  by_cases hzb : b.isHiz
  · rwa [Vvp.resolve, if_neg hza, if_pos hzb]
  simp only [Bool.not_eq_true] at hza hzb
  have hr := ha.resolved hb hza hzb
  constructor
  · exact hr.ordered
  · rw [hr.driven]
    exact fun h => absurd h Bool.false_ne_true
  · exact fun _ => hr.zero

theorem Scalar.canonical_ofBit4 (val : Bit4) (str0 str1 : Fin 8) :
    (ofBit4 val str0 str1).Canonical := by
  unfold ofBit4
  split_ifs with hz
  · constructor <;> simp [hiZ, isHiz, unambig, Half.signed]
  · cases val with
    | zero | one | z => constructor <;> simp [hiZ, isHiz, unambig, Half.signed]
    | x =>
      constructor
      · simp [Half.signed]
      · intro h
        simp only [isHiz, decide_eq_true_eq] at h
        exact absurd h.symm hz
      · simp

/-- Every value the code can build is canonical. -/
theorem Scalar.Built.canonical {a : Scalar} (h : Built a) : a.Canonical := by
  induction h with
  | ofBit4 val str0 str1 => exact canonical_ofBit4 val str0 str1
  | resolve _ _ iha ihb => exact iha.resolve ihb

/-! ## The laws of resolution -/

/-- Canonical scalars are equal when their ranges and upper value bits are. -/
theorem Scalar.Canonical.ext {a b : Scalar} (ha : a.Canonical) (hb : b.Canonical)
    (hza : a.isHiz = false) (hr : a.range = b.range)
    (hone : a.hi.signed = 0 → a.hi.one = b.hi.one) : a = b := by
  have hzb : b.isHiz = false := by
    rwa [isHiz_eq_false_iff, ← hr, ← isHiz_eq_false_iff]
  have hlo : a.lo.signed = b.lo.signed := congrArg Range.lo hr
  have hhi : a.hi.signed = b.hi.signed := congrArg Range.hi hr
  apply Scalar.ext
  · exact Half.eq_of_signed hhi hone
  · apply Half.eq_of_signed hlo
    intro h0
    rw [ha.zero hza h0, hb.zero hzb (hlo ▸ h0)]

/-- Two drivers may be exchanged. -/
theorem Scalar.Canonical.resolve_comm {a b : Scalar} (ha : a.Canonical) (hb : b.Canonical)
    (hz : a.isHiz → b.isHiz → a = b) : Vvp.resolve a b = Vvp.resolve b a := by
  by_cases hza : a.isHiz
  · by_cases hzb : b.isHiz
    · rw [hz hza hzb]
    · simp [Vvp.resolve, hza, hzb]
  by_cases hzb : b.isHiz
  · simp [Vvp.resolve, hza, hzb]
  simp only [Bool.not_eq_true] at hza hzb
  have h₁ := ha.resolved hb hza hzb
  have h₂ := (hb.resolved ha hzb hza).symm
  have hr : (Vvp.resolve a b).range = (Vvp.resolve b a).range := by rw [h₁.range, h₂.range]
  have hhi : (Vvp.resolve a b).hi.signed = (Vvp.resolve b a).hi.signed := congrArg Range.hi hr
  apply (ha.resolve hb).ext (hb.resolve ha) h₁.driven hr
  intro h0
  rw [h₁.one h0.le, h₂.one (hhi ▸ h0.le)]

/-- The grouping of three drivers matters only as far as it matters for their ranges. -/
theorem Scalar.Canonical.resolve_assoc {a b c : Scalar} (ha : a.Canonical) (hb : b.Canonical)
    (hc : c.Canonical)
    (hr : Range.resolve (Range.resolve a.range b.range) c.range =
      Range.resolve a.range (Range.resolve b.range c.range)) :
    Vvp.resolve (Vvp.resolve a b) c = Vvp.resolve a (Vvp.resolve b c) := by
  by_cases hza : a.isHiz
  · simp [Vvp.resolve, hza]
  by_cases hzb : b.isHiz
  · simp [Vvp.resolve, hza, hzb]
  simp only [Bool.not_eq_true] at hza hzb
  have hab := ha.resolved hb hza hzb
  by_cases hzc : c.isHiz
  · have hl : Vvp.resolve (Vvp.resolve a b) c = Vvp.resolve a b := by
      rw [Vvp.resolve, if_neg (by simp [hab.driven]), if_pos hzc]
    have hbc : Vvp.resolve b c = b := by
      rw [Vvp.resolve, if_neg (by simp [hzb]), if_pos hzc]
    rw [hl, hbc]
  simp only [Bool.not_eq_true] at hzc
  have hbc := hb.resolved hc hzb hzc
  have hl := (ha.resolve hb).resolved hc hab.driven hzc
  have hrt := ha.resolved (hb.resolve hc) hza hbc.driven
  have hrange : (Vvp.resolve (Vvp.resolve a b) c).range =
      (Vvp.resolve a (Vvp.resolve b c)).range := by
    rw [hl.range, hrt.range, hab.range, hbc.range, hr]
  have hhi : (Vvp.resolve (Vvp.resolve a b) c).hi.signed =
      (Vvp.resolve a (Vvp.resolve b c)).hi.signed := congrArg Range.hi hrange
  apply ((ha.resolve hb).resolve hc).ext (ha.resolve (hb.resolve hc)) hl.driven hrange
  intro h0
  have h0' := hhi ▸ h0
  rw [hl.one h0.le, hrt.one h0'.le, hab.one (hl.upper h0).1, hbc.one (hrt.upper h0').2,
    Bool.and_assoc]

end Icarus.Vvp
