import Icarus.Vvp.Planes.Basic

/-!
# Copies between vectors of different sizes

`copy_bits` does the same to both planes, word by word, with masks where one of the sizes ends in
a word. A source of exactly one word is merged into a longer destination and does not replace its
low word.
-/

namespace Icarus.Vvp

open Icarus.Core

/-- The low words assigned from another plane. -/
def copyWords (that : List (BitVec 64)) : Nat → List (BitVec 64) → List (BitVec 64)
  | 0, plane => plane
  | word + 1, plane => (copyWords that word plane).set word (that.getD word 0)

/-- The masked bits of a word cleared and assigned from another plane. -/
def copyMasked (that : List (BitVec 64)) (word : Nat) (mask : BitVec 64)
    (plane : List (BitVec 64)) : List (BitVec 64) :=
  let plane := plane.set word (plane.getD word 0 &&& ~~~ mask)
  plane.set word (plane.getD word 0 ||| (that.getD word 0 &&& mask))

/-- What `copy_bits` does to either plane of a vector of one size, from a vector of another. -/
def copyPlane (size thatSize : Nat) (plane that : List (BitVec 64)) : List (BitVec 64) :=
  if size = thatSize then
    if size > 64 then copyWords that (wordCount size) plane
    else plane.set 0 (that.getD 0 0)
  else if size ≤ 64 ∧ thatSize ≤ 64 then
    let bitsToCopy := if thatSize < size then thatSize else size
    let mask := (if bitsToCopy < 64 then (1 : BitVec 64) <<< bitsToCopy else 0) - 1
    copyMasked that 0 mask plane
  else if size ≤ 64 then
    let plane := plane.set 0 (that.getD 0 0)
    if size < 64 then plane.set 0 (plane.getD 0 0 &&& lowMask size) else plane
  else if thatSize ≤ 64 then
    if thatSize < 64 then copyMasked that 0 (lowMask thatSize) plane
    else
      -- Nothing is cleared here.
      let mask := BitVec.allOnes 64
      plane.set 0 (plane.getD 0 0 ||| (that.getD 0 0 &&& mask))
  else
    let bitsToCopy := if thatSize < size then thatSize else size
    let plane := copyWords that (bitsToCopy / 64) plane
    if bitsToCopy % 64 > 0 then copyMasked that (bitsToCopy / 64) (lowMask (bitsToCopy % 64)) plane
    else plane

/-! ## Planes -/

@[simp] theorem length_copyWords (that plane : List (BitVec 64)) (n : Nat) :
    (copyWords that n plane).length = plane.length := by
  induction n with
  | zero => rfl
  | succ n ih => rw [copyWords, List.length_set, ih]

@[simp] theorem length_copyMasked (that plane : List (BitVec 64)) (word : Nat) (mask : BitVec 64) :
    (copyMasked that word mask plane).length = plane.length := by
  rw [copyMasked, List.length_set, List.length_set]

@[simp] theorem length_copyPlane (size thatSize : Nat) (plane that : List (BitVec 64)) :
    (copyPlane size thatSize plane that).length = plane.length := by
  unfold copyPlane
  dsimp only
  split_ifs <;> simp

theorem planeBit_copyWords {that plane : List (BitVec 64)} {n : Nat} (h : n ≤ plane.length)
    (idx : Nat) :
    planeBit (copyWords that n plane) idx =
      if idx < 64 * n then planeBit that idx else planeBit plane idx := by
  induction n with
  | zero => rw [if_neg (by omega), copyWords]
  | succ n ih =>
    rw [copyWords, planeBit_set (by rw [length_copyWords]; omega), ih (by omega)]
    by_cases hw : idx / 64 = n
    · rw [if_pos hw, if_pos (by omega), planeBit, hw]
    · rw [if_neg hw]
      by_cases hlt : idx < 64 * n
      · rw [if_pos hlt, if_pos (by omega)]
      · rw [if_neg hlt, if_neg (by omega)]

theorem planeBit_copyMasked {that plane : List (BitVec 64)} {word : Nat} (h : word < plane.length)
    (mask : BitVec 64) (idx : Nat) :
    planeBit (copyMasked that word mask plane) idx =
      if idx / 64 = word ∧ mask.getLsbD (idx % 64) then planeBit that idx
      else planeBit plane idx := by
  have hlt : idx % 64 < 64 := Nat.mod_lt _ (by omega)
  have hword : (plane.set word (plane.getD word 0 &&& ~~~ mask)).getD word 0 =
      plane.getD word 0 &&& ~~~ mask := by
    rw [List.getD_eq_getElem?_getD, List.getElem?_set_self h, Option.getD_some]
  rw [copyMasked, hword, List.set_set, planeBit_set h]
  by_cases hw : idx / 64 = word
  · subst hw
    rw [if_pos rfl, BitVec.getLsbD_or, BitVec.getLsbD_and, BitVec.getLsbD_and, BitVec.getLsbD_not,
      decide_eq_true hlt, Bool.true_and]
    cases hm : mask.getLsbD (idx % 64)
    · rw [if_neg (by simp), Bool.not_false, Bool.and_true, Bool.and_false, Bool.or_false]
      rfl
    · rw [if_pos ⟨rfl, rfl⟩, Bool.not_true, Bool.and_false, Bool.and_true, Bool.false_or]
      rfl
  · rw [if_neg hw, if_neg fun h => hw h.1]

/-- A word masked at a size below 64 covers the bits below the size. -/
private theorem planeBit_copyLow {that plane : List (BitVec 64)} {word n : Nat}
    (h : word < plane.length) (hn : n < 64) (idx : Nat) :
    planeBit (copyMasked that word (lowMask n) plane) idx =
      if 64 * word ≤ idx ∧ idx < 64 * word + n then planeBit that idx else planeBit plane idx := by
  have hmask := getLsbD_lowMask hn (idx % 64)
  rw [planeBit_copyMasked h]
  by_cases hin : 64 * word ≤ idx ∧ idx < 64 * word + n
  · rw [if_pos hin, if_pos ⟨by omega, hmask.trans (decide_eq_true (by omega))⟩]
  · rw [if_neg hin, if_neg]
    rintro ⟨hw, hbit⟩
    rw [hmask, decide_eq_true_eq] at hbit
    omega

/-- A shorter source, or a longer one, for a destination of one word. -/
private theorem planeBit_copyShort {size thatSize idx : Nat} {plane that : List (BitVec 64)}
    (hpos : 0 < plane.length) (hne : size ≠ thatSize) (hs : size ≤ 64) (hidx : idx < size) :
    planeBit (copyPlane size thatSize plane that) idx =
      if idx < thatSize then planeBit that idx else planeBit plane idx := by
  unfold copyPlane
  dsimp only
  rw [if_neg hne]
  by_cases ht : thatSize ≤ 64
  · have hcopy : (if thatSize < size then thatSize else size) < 64 := by
      split_ifs <;> omega
    rw [if_pos ⟨hs, ht⟩, if_pos hcopy]
    refine (planeBit_copyLow hpos hcopy idx).trans ?_
    by_cases hin : idx < thatSize
    · rw [if_pos hin, if_pos]
      split_ifs <;> omega
    · rw [if_neg hin, if_neg]
      split_ifs <;> omega
  · have hword : planeBit (plane.set 0 (that.getD 0 0)) idx = planeBit that idx := by
      rw [planeBit_set hpos, if_pos (by omega), planeBit, Nat.div_eq_of_lt (by omega)]
    rw [if_neg fun h => ht h.2, if_pos hs, if_pos (by omega : idx < thatSize)]
    by_cases htail : size < 64
    · have hget : (plane.set 0 (that.getD 0 0)).getD 0 0 = that.getD 0 0 := by
        rw [List.getD_eq_getElem?_getD, List.getElem?_set_self hpos, Option.getD_some]
      rw [if_pos htail, hget, List.set_set, planeBit_set hpos, if_pos (by omega),
        BitVec.getLsbD_and, getLsbD_lowMask htail, decide_eq_true (by omega), Bool.and_true,
        planeBit, Nat.div_eq_of_lt (by omega)]
    · rw [if_neg htail, hword]

/-- A shorter source for a destination of several words. -/
private theorem planeBit_copyInto {size thatSize idx : Nat} {plane that : List (BitVec 64)}
    (hpos : 0 < plane.length) (hs : 64 < size) (ht : thatSize < 64) :
    planeBit (copyPlane size thatSize plane that) idx =
      if idx < thatSize then planeBit that idx else planeBit plane idx := by
  unfold copyPlane
  rw [if_neg (by omega), if_neg (by omega), if_neg (by omega), if_pos (by omega), if_pos ht,
    planeBit_copyLow hpos ht]
  by_cases hin : idx < thatSize
  · rw [if_pos hin, if_pos (by omega)]
  · rw [if_neg hin, if_neg (by omega)]

/-- Whole words, and a part of the last one. -/
private theorem planeBit_copyLong {size thatSize idx : Nat} {plane that : List (BitVec 64)}
    (hlen : plane.length = planeWords size) (hne : size ≠ thatSize) (hs : 64 < size)
    (ht : 64 < thatSize) (hidx : idx < size) :
    planeBit (copyPlane size thatSize plane that) idx =
      if idx < thatSize then planeBit that idx else planeBit plane idx := by
  have hmin : (if thatSize < size then thatSize else size) = min thatSize size := by
    split_ifs <;> omega
  have hwords := le_planeWords size
  unfold copyPlane
  dsimp only
  rw [if_neg hne, if_neg (by omega), if_neg (by omega), if_neg (by omega), hmin]
  have hcopied := @planeBit_copyWords that plane (min thatSize size / 64) (by omega)
  by_cases htail : min thatSize size % 64 > 0
  · rw [if_pos htail, planeBit_copyLow (by rw [length_copyWords]; omega) (by omega), hcopied]
    by_cases hin : idx < thatSize
    · rw [if_pos hin]
      split_ifs
      · rfl
      · rfl
      · omega
    · rw [if_neg hin, if_neg (by omega), if_neg (by omega)]
  · rw [if_neg htail, hcopied]
    by_cases hin : idx < thatSize
    · rw [if_pos hin, if_pos (by omega)]
    · rw [if_neg hin, if_neg (by omega)]

/-- Bits that the source has are replaced, unless a source of one word meets a longer
destination. -/
theorem planeBit_copyPlane {size thatSize idx : Nat} {plane that : List (BitVec 64)}
    (hlen : plane.length = planeWords size) (hidx : idx < size)
    (h : ¬ (thatSize = 64 ∧ 64 < size)) :
    planeBit (copyPlane size thatSize plane that) idx =
      if idx < thatSize then planeBit that idx else planeBit plane idx := by
  have hpos : 0 < plane.length := hlen ▸ planeWords_pos size
  by_cases hsize : size = thatSize
  · rw [copyPlane, if_pos hsize, if_pos (by omega : idx < thatSize)]
    by_cases hbig : size > 64
    · have hcount : plane.length = wordCount size := by
        rw [hlen, planeWords, if_neg (by omega)]
      have hle := le_wordCount size
      rw [if_pos hbig, planeBit_copyWords hcount.ge, if_pos (by omega)]
    · rw [if_neg hbig, planeBit_set hpos, if_pos (by omega), planeBit,
        Nat.div_eq_of_lt (by omega)]
  · by_cases hs : size ≤ 64
    · exact planeBit_copyShort hpos hsize hs hidx
    · rcases lt_trichotomy thatSize 64 with ht | ht | ht
      · exact planeBit_copyInto hpos (by omega) ht
      · exact absurd ⟨ht, by omega⟩ h
      · exact planeBit_copyLong hlen hsize (by omega) ht hidx

/-- A source of exactly one word is merged into the low word of a longer destination. -/
theorem planeBit_copyPlane_word {size thatSize idx : Nat} {plane that : List (BitVec 64)}
    (hlen : plane.length = planeWords size) (ht : thatSize = 64) (hs : 64 < size) :
    planeBit (copyPlane size thatSize plane that) idx =
      if idx < 64 then planeBit plane idx || planeBit that idx else planeBit plane idx := by
  have hpos : 0 < plane.length := hlen ▸ planeWords_pos size
  unfold copyPlane
  dsimp only
  rw [if_neg (by omega), if_neg (by omega), if_neg (by omega), if_pos ht.le, if_neg ht.not_lt,
    planeBit_set hpos]
  by_cases hin : idx < 64
  · rw [if_pos hin, if_pos (by omega), BitVec.getLsbD_or, BitVec.getLsbD_and,
      BitVec.getLsbD_allOnes, planeBit, planeBit, Nat.div_eq_of_lt hin,
      decide_eq_true (Nat.mod_lt _ (by omega)), Bool.and_true]
  · rw [if_neg (by omega), if_neg hin]

namespace Planes

variable {v that : Planes}

/-- `copy_bits`. -/
def copyBits (v that : Planes) : Planes where
  size := v.size
  abits := copyPlane v.size that.size v.abits that.abits
  bbits := copyPlane v.size that.size v.bbits that.bbits
  length_abits := by rw [length_copyPlane, v.length_abits]
  length_bbits := by rw [length_copyPlane, v.length_bbits]

/-- The low bits come from the source, the others stay. -/
def Copied (v that result : Planes) : Prop :=
  result.size = v.size ∧
    ∀ idx < v.size, result.value idx = if idx < that.size then that.value idx else v.value idx

/-- A word without bits outside another. -/
def Covered (x y : BitVec 64) : Prop := ∀ i < 64, x.getLsbD i = true → y.getLsbD i = true

theorem value_copyBits (h : ¬ (that.size = 64 ∧ 64 < v.size)) {idx : Nat} (hidx : idx < v.size) :
    (copyBits v that).value idx = if idx < that.size then that.value idx else v.value idx := by
  have hres : idx < (copyBits v that).size := hidx
  rw [value_of_lt hres, copyBits, planeBit_copyPlane v.length_abits hidx h,
    planeBit_copyPlane v.length_bbits hidx h]
  split_ifs with hin
  · rw [value_of_lt hin]
  · rw [value_of_lt hidx]

/-- A source of one word, below the end of a longer destination. -/
theorem value_copyBits_word (ht : that.size = 64) (hs : 64 < v.size) {idx : Nat}
    (hidx : idx < v.size) :
    (copyBits v that).value idx =
      if idx < 64 then bitOf ((v.aword 0).getLsbD idx || (that.aword 0).getLsbD idx)
        ((v.bword 0).getLsbD idx || (that.bword 0).getLsbD idx)
      else v.value idx := by
  have hres : idx < (copyBits v that).size := hidx
  rw [value_of_lt hres, copyBits, planeBit_copyPlane_word v.length_abits ht hs,
    planeBit_copyPlane_word v.length_bbits ht hs]
  split_ifs with hin
  · rw [planeBit_first _ hin, planeBit_first _ hin, planeBit_first _ hin, planeBit_first _ hin]
    rfl
  · rw [value_of_lt hidx]

/-- Bits of a source of one word. -/
private theorem value_word (ht : that.size = 64) {idx : Nat} (hidx : idx < 64) :
    that.value idx = bitOf ((that.aword 0).getLsbD idx) ((that.bword 0).getLsbD idx) := by
  rw [value_of_lt (by omega), planeBit_first _ hidx, planeBit_first _ hidx]
  rfl

/-- A source of one word is right where it covers the low word. -/
theorem copied_word_iff (ht : that.size = 64) (hs : 64 < v.size) :
    Copied v that (copyBits v that) ↔
      Covered (v.aword 0) (that.aword 0) ∧ Covered (v.bword 0) (that.bword 0) := by
  constructor
  · rintro ⟨-, hcopied⟩
    have hpair : ∀ idx < 64, ((v.aword 0).getLsbD idx = true → (that.aword 0).getLsbD idx = true) ∧
        ((v.bword 0).getLsbD idx = true → (that.bword 0).getLsbD idx = true) := by
      intro idx hidx
      have heq := hcopied idx (by omega)
      rw [if_pos (by omega), value_copyBits_word ht hs (by omega), if_pos hidx,
        value_word ht hidx, bitOf_inj, Bool.or_eq_right_iff_imp, Bool.or_eq_right_iff_imp] at heq
      exact heq
    exact ⟨fun idx hidx => (hpair idx hidx).1, fun idx hidx => (hpair idx hidx).2⟩
  · rintro ⟨ha, hb⟩
    refine ⟨rfl, fun idx hidx => ?_⟩
    rw [value_copyBits_word ht hs hidx, ht]
    split_ifs with hin
    · rw [value_word ht hin, bitOf_inj, Bool.or_eq_right_iff_imp, Bool.or_eq_right_iff_imp]
      exact ⟨ha idx hin, hb idx hin⟩
    · rfl

/-- The copy is right unless a source of one word meets bits of a longer destination that it does
not have itself. -/
theorem copyBits_iff (v that : Planes) :
    Copied v that (copyBits v that) ↔
      ¬ (that.size = 64 ∧ 64 < v.size) ∨
        Covered (v.aword 0) (that.aword 0) ∧ Covered (v.bword 0) (that.bword 0) := by
  by_cases h : that.size = 64 ∧ 64 < v.size
  · rw [copied_word_iff h.1 h.2]
    exact (or_iff_right (not_not.mpr h)).symm
  · exact iff_of_true ⟨rfl, fun idx hidx => value_copyBits h hidx⟩ (Or.inl h)

/-- A word of zeros does not clear the low word of 65 ones. -/
theorem not_copied : ¬ ∀ v that : Planes, Copied v that (copyBits v that) := by
  intro h
  obtain ⟨-, hbits⟩ := h (allocateWords 65 (BitVec.allOnes 64) 0) (allocateWords 64 0 0)
  exact absurd (hbits 0 (by decide)) (by decide)

end Planes

end Icarus.Vvp
