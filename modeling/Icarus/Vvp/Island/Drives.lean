import Icarus.Vvp.Resolv.Ends

/-!
# Drives of one strength

HiZ, the unambiguous drives that are at most strong, and the unknowns that opposite drives of one
strength resolve to. Resolution joins them, and what it changes rises, up to a bound.
-/

namespace Icarus.Vvp

open Icarus.Core.QuadTree (Resolves)

namespace Resolv.Range

/-- Both ends have one strength, and it is at most strong. -/
structure Even (a : Range) : Prop where
  /-- The ends are in order. -/
  ordered : a.lo ≤ a.hi
  /-- The ends are equally far from HiZ. -/
  even : a.lo.natAbs = a.hi.natAbs
  /-- There is no supply drive. -/
  strong : a.hi.natAbs ≤ 6

/-- How far resolution has raised a range. -/
def height (a : Range) : Nat := 2 * a.hi.natAbs + if a.lo = a.hi then 0 else 1

variable {a b : Range}

theorem Even.height_le (ha : a.Even) : a.height ≤ 13 := by
  have hstrong := ha.strong
  unfold height
  split_ifs <;> omega

/-- Every range resolved with HiZ, with a drive or with an unknown. -/
theorem Even.resolve_eq (ha : a.Even) (hb : b.Even) :
    resolve a b =
      if a.hi.natAbs < b.hi.natAbs then b
      else if b.hi.natAbs < a.hi.natAbs then a
      else if a = b then a
      else ⟨-a.hi.natAbs, a.hi.natAbs⟩ := by
  obtain ⟨al, ah⟩ := a
  obtain ⟨bl, bh⟩ := b
  obtain ⟨hao, hae, has⟩ := ha
  obtain ⟨hbo, hbe, hbs⟩ := hb
  simp only [Range.mk.injEq, resolve, sweep] at *
  split_ifs <;> simp only [Range.mk.injEq, true_and] <;> omega

theorem Even.resolve (ha : a.Even) (hb : b.Even) : (resolve a b).Even := by
  rw [ha.resolve_eq hb]
  split_ifs
  · exact hb
  · exact ha
  · exact ha
  · have hstrong := ha.strong
    constructor <;> dsimp only <;> omega

theorem Even.resolve_self (ha : a.Even) : Range.resolve a a = a := by
  simp [ha.resolve_eq ha]

/-- What resolution changes is raised. -/
theorem Even.height_lt (ha : a.Even) (hb : b.Even) (hne : Range.resolve a b ≠ a) :
    a.height < (Range.resolve a b).height := by
  rw [ha.resolve_eq hb] at hne ⊢
  obtain ⟨al, ah⟩ := a
  obtain ⟨bl, bh⟩ := b
  obtain ⟨hao, hae, -⟩ := ha
  obtain ⟨hbo, hbe, -⟩ := hb
  dsimp only at *
  split_ifs at hne ⊢
  · simp only [height]
    split_ifs <;> omega
  · exact absurd rfl hne
  · exact absurd rfl hne
  · simp only [height, Range.mk.injEq, ne_eq] at *
    split_ifs <;> omega

/-- Around drives of every strength, ranges of one strength sit within. -/
theorem resolves_even : Resolves Range.resolve {a | a.Even} := by
  have hD : Surroundings {v : Int | v ≠ 0} fun _ => .within :=
    ⟨fun _ hv => hv, fun _ _ _ _ _ _ => rfl⟩
  have hmem : ∀ a : Range, a.Even → a ∈ members {v : Int | v ≠ 0} fun _ => .within := by
    rintro ⟨lo, hi⟩ ⟨hordered, heven, -⟩
    rcases hordered.lt_or_eq with hlt | heq
    · refine Or.inr (Or.inr ⟨hlt, fun v hv => ?_⟩)
      have hv' : v ≠ 0 := hv
      simp only [Sits, Inside, Crosses] at *
      split_ifs <;> omega
    · obtain rfl : lo = hi := heq
      by_cases h0 : lo = 0
      · exact Or.inl (by rw [h0])
      · exact Or.inr (Or.inl ⟨lo, h0, rfl⟩)
  exact ⟨fun a ha b hb => ha.resolve hb, fun a _ b _ => resolve_comm a b,
    fun a ha b hb c hc => hD.resolves.assoc a (hmem a ha) b (hmem b hb) c (hmem c hc)⟩

end Resolv.Range

open Resolv

/-- A range of one strength. -/
@[ext] structure EvenRange where
  /-- The range. -/
  val : Range
  /-- Its ends have one strength. -/
  even : val.Even

namespace EvenRange

instance : Max EvenRange := ⟨fun a b => ⟨Range.resolve a.val b.val, a.even.resolve b.even⟩⟩

/-- Resolution is their join. -/
instance : SemilatticeSup EvenRange :=
  SemilatticeSup.mk'
    (fun a b => EvenRange.ext (Range.resolve_comm a.val b.val))
    (fun a b c => EvenRange.ext
      (Range.resolves_even.assoc a.val a.even b.val b.even c.val c.even))
    (fun a => EvenRange.ext a.even.resolve_self)

/-- HiZ is below every drive. -/
instance : OrderBot EvenRange where
  bot := ⟨⟨0, 0⟩, by constructor <;> simp⟩
  bot_le a := EvenRange.ext (Range.resolve_hiz a.val)

theorem val_sup (a b : EvenRange) : (a ⊔ b).val = Range.resolve a.val b.val := rfl

theorem val_bot : (⊥ : EvenRange).val = ⟨0, 0⟩ := rfl

end EvenRange

namespace Scalar

/-- HiZ, a drive or an unknown of one strength that is at most strong. -/
structure OneStrength (a : Scalar) : Prop where
  /-- The encoding is kept to. -/
  canonical : a.Canonical
  /-- Both halves have one strength. -/
  even : a.range.Even

/-- Equal values, but for the encoding of HiZ: a HiZ keeps the value bits of the drive that it was
made from. -/
def Same (a b : Scalar) : Prop := a.isHiz ∧ b.isHiz ∨ a = b

variable {a b : Scalar}

theorem oneStrength_hiZ : hiZ.OneStrength :=
  ⟨canonical_ofBit4 .z 0 0, by constructor <;> decide⟩

/-- Unambiguous values that are at most strong have one strength. -/
theorem OneStrength.of_unambig (hu : a.unambig) (hs : a.hi.strength ≤ 6) : a.OneStrength := by
  obtain ⟨hi, lo⟩ := a
  obtain rfl : lo = hi := by simpa [unambig] using hu
  have hlt : lo.strength.val ≤ 6 := hs
  refine ⟨⟨le_rfl, fun _ => hu, fun hz h0 => ?_⟩, ⟨le_rfl, rfl, ?_⟩⟩
  · have hzero : lo.strength = 0 := (Half.signed_eq_zero lo).mp h0
    simp [isHiz, hzero] at hz
  · rw [range, Half.natAbs_signed]
    exact hlt

theorem OneStrength.resolve (ha : a.OneStrength) (hb : b.OneStrength) :
    (Vvp.resolve a b).OneStrength := by
  refine ⟨ha.canonical.resolve hb.canonical, ?_⟩
  rw [ha.canonical.range_resolve hb.canonical]
  exact ha.even.resolve hb.even

/-- Values of one strength with the same range are the same. -/
theorem OneStrength.same (ha : a.OneStrength) (hb : b.OneStrength) (hr : a.range = b.range) :
    a.Same b := by
  by_cases hz : a.isHiz
  · exact Or.inl ⟨hz, (isHiz_iff b).mpr (hr ▸ (isHiz_iff a).mp hz)⟩
  · rw [Bool.not_eq_true] at hz
    refine Or.inr (ha.canonical.ext hb.canonical hz hr fun h0 => ?_)
    have heven := ha.even.even
    simp only [range, h0, Int.natAbs_zero, Int.natAbs_eq_zero] at heven
    rw [isHiz_eq_false_iff, range, heven, h0] at hz
    exact absurd rfl hz

/-- How far a value may still be changed; HiZ has two encodings. -/
def room (a : Scalar) : Nat :=
  if a.isHiz then (if a = hiZ then 14 else 15) else 13 - a.range.height

theorem room_le (a : Scalar) : a.room ≤ 15 := by
  unfold room
  split_ifs <;> omega

/-- What resolution changes takes room, if HiZ is resolved in its one encoding. -/
theorem OneStrength.room_lt (ha : a.OneStrength) (hb : b.OneStrength) (hz : b.isHiz → b = hiZ)
    (hne : Vvp.resolve a b ≠ a) : (Vvp.resolve a b).room < a.room := by
  by_cases hza : a.isHiz
  · have hres : Vvp.resolve a b = b := by rw [Vvp.resolve, if_pos hza]
    rw [hres] at hne ⊢
    by_cases hzb : b.isHiz
    · have hb' := hz hzb
      rw [room, if_pos hzb, if_pos hb', room, if_pos hza, if_neg fun h => hne (hb'.trans h.symm)]
      omega
    · rw [room, if_neg hzb, room, if_pos hza]
      split_ifs <;> omega
  · have hdriven : (Vvp.resolve a b).isHiz = false := by
      by_cases hzb : b.isHiz
      · exact absurd (by rw [Vvp.resolve, if_neg hza, if_pos hzb]) hne
      · rw [Bool.not_eq_true] at hza hzb
        exact (ha.canonical.resolved hb.canonical hza hzb).driven
    have hrange := ha.canonical.range_resolve hb.canonical
    have hne' : Range.resolve a.range b.range ≠ a.range := by
      intro heq
      rcases (ha.resolve hb).same ha (hrange.trans heq) with ⟨h, -⟩ | h
      · rw [hdriven] at h
        cases h
      · exact hne h
    have hlt := ha.even.height_lt hb.even hne'
    have hle := (ha.even.resolve hb.even).height_le
    rw [room, if_neg (by rw [hdriven]; exact Bool.false_ne_true), room, if_neg hza, hrange]
    omega

end Scalar

end Icarus.Vvp
