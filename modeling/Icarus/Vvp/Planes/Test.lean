import Icarus.Vvp.Planes.Slice

/-!
# Tests of whole vectors

`has_xz` and `eeq` look at whole words first and then at the bits of the last word that belong to
the vector.
-/

namespace Icarus.Vvp

open Icarus.Core

/-- Words that agree below a size do so in the whole words and under the mask of the rest. -/
theorem getD_and_lowMask_eq_iff {x y : BitVec 64} {n : Nat} (hn : n < 64) :
    x &&& lowMask n = y &&& lowMask n ↔ ∀ i < n, x.getLsbD i = y.getLsbD i := by
  constructor
  · intro h i hi
    have hbit := congrArg (·.getLsbD i) h
    simpa only [BitVec.getLsbD_and, getLsbD_lowMask hn, hi, decide_true, Bool.and_true] using hbit
  · intro h
    apply BitVec.eq_of_getLsbD_eq
    intro i _
    rw [BitVec.getLsbD_and, BitVec.getLsbD_and, getLsbD_lowMask hn]
    by_cases hi : i < n
    · rw [h i hi]
    · rw [decide_eq_false hi, Bool.and_false, Bool.and_false]

/-- Planes that have the same bits below a size. -/
theorem planes_agree_iff (x y : List (BitVec 64)) (size : Nat) :
    (∀ idx < size, planeBit x idx = planeBit y idx) ↔
      (∀ wdx < size / 64, x.getD wdx 0 = y.getD wdx 0) ∧
        x.getD (size / 64) 0 &&& lowMask (size % 64) =
          y.getD (size / 64) 0 &&& lowMask (size % 64) := by
  have hmod : size % 64 < 64 := Nat.mod_lt size (by omega)
  rw [getD_and_lowMask_eq_iff hmod]
  constructor
  · intro h
    refine ⟨fun wdx hwdx => ?_, fun i hi => ?_⟩
    · apply BitVec.eq_of_getLsbD_eq
      intro i hi
      rw [← planeBit_word x wdx hi, ← planeBit_word y wdx hi]
      exact h _ (by omega)
    · rw [← planeBit_word x _ (by omega), ← planeBit_word y _ (by omega)]
      exact h _ (by omega)
  · rintro ⟨hwords, hrest⟩ idx hidx
    rw [planeBit_eq, planeBit_eq]
    rcases Nat.lt_or_ge (idx / 64) (size / 64) with hlt | hge
    · rw [hwords _ hlt]
    · obtain heq : idx / 64 = size / 64 := by omega
      rw [heq]
      exact hrest _ (by omega)

/-- A plane that is clear below a size. -/
theorem plane_clear_iff (x : List (BitVec 64)) (size : Nat) :
    (∀ idx < size, planeBit x idx = false) ↔
      (∀ wdx < size / 64, x.getD wdx 0 = 0) ∧
        x.getD (size / 64) 0 &&& lowMask (size % 64) = 0 := by
  have hnil : ∀ idx, planeBit [] idx = false := fun idx => BitVec.getLsbD_zero
  have hzero : (0 : BitVec 64) &&& lowMask (size % 64) = 0 := BitVec.zero_and
  have h := planes_agree_iff x [] size
  simp only [hnil, List.getD_nil, hzero] at h
  exact h

theorem and_lowMask_zero (x : BitVec 64) : x &&& lowMask 0 = 0 := by
  rw [show lowMask 0 = 0 by decide]
  exact BitVec.and_zero

namespace Planes

variable {v that : Planes}

/-- `has_xz`. -/
def hasXz (v : Planes) : Bool :=
  if v.size = 0 then false
  else if v.size < 64 then v.bword 0 &&& (BitVec.allOnes 64 >>> (64 - v.size)) ≠ 0
  else if v.size = 64 then v.bword 0 ≠ 0
  else
    let words := v.size / 64
    if (List.range words).any fun idx => v.bword idx ≠ 0 then true
    else
      let mask := v.size % 64
      if mask > 0 then v.bword words &&& (BitVec.allOnes 64 >>> (64 - mask)) ≠ 0
      else false

/-- `eeq`. -/
def eeq (v that : Planes) : Bool :=
  if v.size ≠ that.size then false
  else if v.size < 64 then
    let mask := lowMask v.size
    v.aword 0 &&& mask = that.aword 0 &&& mask ∧ v.bword 0 &&& mask = that.bword 0 &&& mask
  else if v.size = 64 then v.aword 0 = that.aword 0 ∧ v.bword 0 = that.bword 0
  else
    let words := v.size / 64
    if (List.range words).any fun idx =>
      v.aword idx ≠ that.aword idx ∨ v.bword idx ≠ that.bword idx then false
    else
      let mask := v.size % 64
      if mask > 0 then
        let mask := lowMask mask
        v.aword words &&& mask = that.aword words &&& mask ∧
          v.bword words &&& mask = that.bword words &&& mask
      else true

theorem allOnes_ushiftRight {n : Nat} (hpos : 0 < n) (hn : n < 64) :
    BitVec.allOnes 64 >>> (64 - n) = lowMask n := by
  apply BitVec.eq_of_getLsbD_eq
  intro i hi
  rw [BitVec.getLsbD_ushiftRight, BitVec.getLsbD_allOnes, getLsbD_lowMask hn]
  exact decide_eq_decide.mpr (by omega)

private theorem eeq_words (hany : ¬ ((List.range (v.size / 64)).any fun idx =>
      decide (v.aword idx ≠ that.aword idx ∨ v.bword idx ≠ that.bword idx)) = true) :
    ∀ wdx < v.size / 64, v.aword wdx = that.aword wdx ∧ v.bword wdx = that.bword wdx := by
  intro wdx hwdx
  by_contra hne
  refine hany (List.any_eq_true.mpr ⟨wdx, List.mem_range.mpr hwdx, decide_eq_true ?_⟩)
  exact not_and_or.mp hne

theorem hasXz_eq_false_iff_bbits (v : Planes) :
    v.hasXz = false ↔ ∀ idx < v.size, planeBit v.bbits idx = false := by
  rw [plane_clear_iff]
  change _ ↔ (∀ wdx < v.size / 64, v.bword wdx = 0) ∧
    v.bword (v.size / 64) &&& lowMask (v.size % 64) = 0
  unfold hasXz
  dsimp only
  split_ifs with hzero hshort hword hany hrest
  · rw [hzero]
    exact iff_of_true rfl ⟨fun wdx hwdx => absurd hwdx (Nat.not_lt_zero wdx), and_lowMask_zero _⟩
  · rw [decide_eq_false_iff_not, not_not, allOnes_ushiftRight (by omega) hshort,
      show v.size / 64 = 0 by omega, show v.size % 64 = v.size by omega]
    exact (and_iff_right fun wdx hwdx => absurd hwdx (Nat.not_lt_zero wdx)).symm
  · rw [decide_eq_false_iff_not, not_not, hword]
    refine ⟨fun h => ⟨fun wdx hwdx => ?_, and_lowMask_zero _⟩, fun h => h.1 0 (by omega)⟩
    rwa [show wdx = 0 by omega]
  · obtain ⟨wdx, hwdx, hne⟩ := List.any_eq_true.mp hany
    refine iff_of_false not_false fun h => ?_
    exact of_decide_eq_true hne (h.1 wdx (List.mem_range.mp hwdx))
  · have hwords : ∀ wdx < v.size / 64, v.bword wdx = 0 := fun wdx hwdx => by
      by_contra hne
      exact hany (List.any_eq_true.mpr ⟨wdx, List.mem_range.mpr hwdx, decide_eq_true hne⟩)
    rw [decide_eq_false_iff_not, not_not, allOnes_ushiftRight hrest (by omega)]
    exact (and_iff_right hwords).symm
  · have hwords : ∀ wdx < v.size / 64, v.bword wdx = 0 := fun wdx hwdx => by
      by_contra hne
      exact hany (List.any_eq_true.mpr ⟨wdx, List.mem_range.mpr hwdx, decide_eq_true hne⟩)
    rw [show v.size % 64 = 0 by omega]
    exact iff_of_true rfl ⟨hwords, and_lowMask_zero _⟩

/-- `has_xz` tells whether the vector has X or Z bits. -/
theorem hasXz_eq (v : Planes) : v.hasXz = v.toVector4.hasXz := by
  have h := (hasXz_eq_false_iff_bbits v).trans (hasXz_eq_false_iff v).symm
  exact Bool.eq_iff_iff.mpr (by rw [← Bool.not_eq_false, ← Bool.not_eq_false, h])

/-- The planes agree below the size. -/
theorem eeq_eq_true_iff (v that : Planes) : v.eeq that = true ↔ v.size = that.size ∧
    (∀ idx < v.size, planeBit v.abits idx = planeBit that.abits idx) ∧
      ∀ idx < v.size, planeBit v.bbits idx = planeBit that.bbits idx := by
  rw [planes_agree_iff, planes_agree_iff]
  change _ ↔ v.size = that.size ∧ ((∀ wdx < v.size / 64, v.aword wdx = that.aword wdx) ∧
      v.aword (v.size / 64) &&& lowMask (v.size % 64) =
        that.aword (v.size / 64) &&& lowMask (v.size % 64)) ∧
    (∀ wdx < v.size / 64, v.bword wdx = that.bword wdx) ∧
      v.bword (v.size / 64) &&& lowMask (v.size % 64) =
        that.bword (v.size / 64) &&& lowMask (v.size % 64)
  unfold eeq
  dsimp only
  split_ifs with hsize hshort hword hany hrest
  · exact iff_of_false not_false fun h => hsize h.1
  · rw [decide_eq_true_iff, show v.size / 64 = 0 by omega, show v.size % 64 = v.size by omega]
    have hnone : ∀ p : Nat → Prop, ∀ wdx < 0, p wdx := fun p wdx hwdx =>
      absurd hwdx (Nat.not_lt_zero wdx)
    constructor
    · exact fun h => ⟨not_not.mp hsize, ⟨hnone _, h.1⟩, hnone _, h.2⟩
    · exact fun h => ⟨h.2.1.2, h.2.2.2⟩
  · rw [decide_eq_true_iff, hword]
    constructor
    · rintro ⟨ha, hb⟩
      refine ⟨by omega, ⟨fun wdx hwdx => ?_, ?_⟩, fun wdx hwdx => ?_, ?_⟩
      · rwa [show wdx = 0 by omega]
      · rw [and_lowMask_zero, and_lowMask_zero]
      · rwa [show wdx = 0 by omega]
      · rw [and_lowMask_zero, and_lowMask_zero]
    · exact fun h => ⟨h.2.1.1 0 (by omega), h.2.2.1 0 (by omega)⟩
  · obtain ⟨wdx, hwdx, hne⟩ := List.any_eq_true.mp hany
    refine iff_of_false not_false fun h => ?_
    have hlt := List.mem_range.mp hwdx
    rcases of_decide_eq_true hne with hne | hne
    · exact hne (h.2.1.1 wdx hlt)
    · exact hne (h.2.2.1 wdx hlt)
  · have hwords := eeq_words hany
    rw [decide_eq_true_iff]
    constructor
    · exact fun h => ⟨not_not.mp hsize, ⟨fun wdx hwdx => (hwords wdx hwdx).1, h.1⟩,
        fun wdx hwdx => (hwords wdx hwdx).2, h.2⟩
    · exact fun h => ⟨h.2.1.2, h.2.2.2⟩
  · have hwords := eeq_words hany
    rw [show v.size % 64 = 0 by omega]
    refine iff_of_true rfl ⟨not_not.mp hsize, ⟨fun wdx hwdx => (hwords wdx hwdx).1, ?_⟩,
      fun wdx hwdx => (hwords wdx hwdx).2, ?_⟩
    · rw [and_lowMask_zero, and_lowMask_zero]
    · rw [and_lowMask_zero, and_lowMask_zero]

/-- `eeq` tells whether the vectors are the same, bit by bit. -/
theorem eeq_eq (v that : Planes) : v.eeq that = decide (v.toVector4 = that.toVector4) := by
  refine Bool.eq_iff_iff.mpr ((eeq_eq_true_iff v that).trans ?_)
  rw [decide_eq_true_iff]
  constructor
  · rintro ⟨hsize, ha, hb⟩
    refine toVector4_congr hsize fun idx hidx => ?_
    rw [value_of_lt (by omega), value_of_lt hidx, ha idx (by omega), hb idx (by omega)]
  · intro h
    have hsize : v.size = that.size := by
      rw [← length_toVector4, h, length_toVector4]
    have hbit : ∀ idx < v.size, planeBit v.abits idx = planeBit that.abits idx ∧
        planeBit v.bbits idx = planeBit that.bbits idx := fun idx hidx => by
      have hget := congrArg (·[idx]?) h
      simp only [getElem?_toVector4, if_pos hidx, if_pos (hsize ▸ hidx)] at hget
      rw [Option.some.injEq, value_of_lt hidx, value_of_lt (hsize ▸ hidx), bitOf_inj] at hget
      exact hget
    exact ⟨hsize, fun idx hidx => (hbit idx hidx).1, fun idx hidx => (hbit idx hidx).2⟩

end Planes

end Icarus.Vvp
