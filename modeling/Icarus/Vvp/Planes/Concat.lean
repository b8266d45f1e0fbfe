import Icarus.Vvp.Planes.Shift

/-!
# Vectors joined

`concat` appends low bits to a vector in place: in one pass over the words where their number stays,
else by `resize`, `shiftl` and `set_vec`. With it, the operations in place agree with those on lists
of bits, but for a part without bits at the end of a vector of one word.
-/

namespace Icarus.Vvp

open Icarus.Core

/-- What `concat_inplace_` does to either plane. -/
def concatPlane (lsbSize newSize words : Nat) (plane lsb : List (BitVec 64)) :
    List (BitVec 64) :=
  let plane := shiftWordsLeft lsbSize (words - 1) plane
  let plane := plane.set 0 ((plane.getD 0 0 <<< lsbSize) ||| (lsb.getD 0 0 &&& lowMask lsbSize))
  maskTail newSize words plane

/-- What `concat` does to either plane for a result of one word. -/
def concatWord (size lsbSize : Nat) (plane lsb : List (BitVec 64)) : List (BitVec 64) :=
  let mmask := if size = 64 then BitVec.allOnes 64 else lowMask size
  [((plane.getD 0 0 &&& mmask) <<< lsbSize) ||| (lsb.getD 0 0 &&& lowMask lsbSize)]

theorem length_concatPlane (lsbSize newSize words : Nat) (plane lsb : List (BitVec 64)) :
    (concatPlane lsbSize newSize words plane lsb).length = plane.length := by
  rw [concatPlane, length_maskTail, List.length_set, length_shiftWordsLeft]

/-- The low bits of the lower word, and the upper word above them. -/
private theorem getLsbD_join {n i : Nat} (hn : n < 64) (x y : BitVec 64) (hi : i < 64) :
    ((x <<< n) ||| (y &&& lowMask n)).getLsbD i =
      if i < n then y.getLsbD i else x.getLsbD (i - n) := by
  rw [BitVec.getLsbD_or, BitVec.getLsbD_and, BitVec.getLsbD_shiftLeft, getLsbD_lowMask hn,
    decide_eq_true hi, Bool.true_and]
  split_ifs with h
  · rw [decide_eq_true h, Bool.not_true, Bool.false_and, Bool.false_or, Bool.and_true]
  · rw [decide_eq_false h, Bool.not_false, Bool.true_and, Bool.and_false, Bool.or_false]

/-- The lower vector, and the upper one above it. -/
theorem planeBit_concatPlane {size lsbSize words idx : Nat} {plane lsb : List (BitVec 64)}
    (hlen : plane.length = words) (hwords : words = wordCount (size + lsbSize)) (hlong : 64 < size)
    (hlsb : lsbSize < 64) (hidx : idx < size + lsbSize) :
    planeBit (concatPlane lsbSize (size + lsbSize) words plane lsb) idx =
      if idx < lsbSize then planeBit lsb idx else planeBit plane (idx - lsbSize) := by
  subst hwords
  have hcount := two_le_wordCount.mpr (by omega : 64 < size + lsbSize)
  have hle := le_wordCount (size + lsbSize)
  have hmoved := fun idx => @planeBit_shiftWordsLeft plane lsbSize (wordCount (size + lsbSize) - 1)
    hlsb (by omega) idx
  unfold concatPlane
  dsimp only
  rw [planeBit_maskTail (by rw [List.length_set, length_shiftWordsLeft, hlen]) hidx,
    planeBit_set (by rw [length_shiftWordsLeft]; omega)]
  by_cases hfirst : idx / 64 = 0
  · rw [if_pos hfirst, Nat.mod_eq_of_lt (by omega), getLsbD_join hlsb _ _ (by omega)]
    split_ifs with hlow
    · rw [planeBit_first _ (by omega)]
    · rw [← planeBit_first _ (by omega), hmoved, if_neg (by omega)]
  · rw [if_neg hfirst, hmoved, if_pos (by omega), if_neg (by omega)]

theorem planeBit_concatWord {size lsbSize idx : Nat} (plane lsb : List (BitVec 64))
    (hlsb : lsbSize < 64) (hshort : size + lsbSize ≤ 64) (hidx : idx < size + lsbSize) :
    planeBit (concatWord size lsbSize plane lsb) idx =
      if idx < lsbSize then planeBit lsb idx else planeBit plane (idx - lsbSize) := by
  rw [concatWord, planeBit_first _ (by omega), List.getD_cons_zero,
    getLsbD_join hlsb _ _ (by omega)]
  by_cases hlow : idx < lsbSize
  · rw [if_pos hlow, if_pos hlow, planeBit_first _ (by omega)]
  · rw [if_neg hlow, if_neg hlow, BitVec.getLsbD_and, getLsbD_sizeMask (by omega) (by omega),
      Bool.and_true, planeBit_first _ (by omega)]

namespace Planes

variable {v lsb : Planes}

/-- The words of a vector that keeps their number. -/
private theorem length_inplace {size lsbSize : Nat} {plane : List (BitVec 64)}
    (hlen : plane.length = planeWords size) (hlong : size + lsbSize > 64)
    (hwords : wordCount size = wordCount (size + lsbSize)) :
    plane.length = planeWords (size + lsbSize) := by
  have hsize : 64 < size := two_le_wordCount.mp (hwords ▸ two_le_wordCount.mpr hlong)
  rw [hlen, planeWords_of_long hsize, planeWords_of_long hlong, hwords]

/-- `concat`, with another vector than this one. -/
def concat (undef : BitVec 64 → Nat → BitVec 64) (v lsb : Planes) : Option Planes :=
  if hlong : v.size + lsb.size > 64 then
    if v.size = 0 then some lsb
    else if hwords : wordCount v.size = wordCount (v.size + lsb.size) ∧ lsb.size ≠ 0 then
      some
        { size := v.size + lsb.size
          abits := concatPlane lsb.size (v.size + lsb.size) (wordCount v.size) v.abits lsb.abits
          bbits := concatPlane lsb.size (v.size + lsb.size) (wordCount v.size) v.bbits lsb.bbits
          length_abits := by
            rw [length_concatPlane]
            exact length_inplace v.length_abits hlong hwords.1
          length_bbits := by
            rw [length_concatPlane]
            exact length_inplace v.length_bbits hlong hwords.1 }
    else do
      let w := v.resize (v.size + lsb.size) .zero
      let w ← w.shiftl lsb.size
      let r ← w.setVec undef 0 lsb
      some r.1
  else if lsb.size = 64 then
    some
      { size := 64
        abits := [lsb.abits.getD 0 0]
        bbits := [lsb.bbits.getD 0 0]
        length_abits := rfl
        length_bbits := rfl }
  else
    some
      { size := v.size + lsb.size
        abits := concatWord v.size lsb.size v.abits lsb.abits
        bbits := concatWord v.size lsb.size v.bbits lsb.bbits
        length_abits := (planeWords_of_short (Nat.not_lt.mp hlong)).symm
        length_bbits := (planeWords_of_short (Nat.not_lt.mp hlong)).symm }

/-- The bits of the lower vector, and above them those of the other. -/
theorem concat_spec (undef : BitVec 64 → Nat → BitVec 64) (v lsb : Planes) :
    ∃ r, concat undef v lsb = some r ∧ r.size = v.size + lsb.size ∧
      ∀ idx < v.size + lsb.size, r.value idx =
        if idx < lsb.size then lsb.value idx else v.value (idx - lsb.size) := by
  unfold concat
  by_cases hlong : v.size + lsb.size > 64
  · rw [dif_pos hlong]
    by_cases hempty : v.size = 0
    · refine ⟨lsb, if_pos hempty, by omega, fun idx hidx => ?_⟩
      rw [if_pos (by omega)]
    · rw [if_neg hempty]
      by_cases hwords : wordCount v.size = wordCount (v.size + lsb.size) ∧ lsb.size ≠ 0
      · have hsize : 64 < v.size :=
          two_le_wordCount.mp (hwords.1 ▸ two_le_wordCount.mpr hlong)
        have hlsb : lsb.size < 64 := by
          have hsame := hwords.1
          unfold wordCount at hsame
          omega
        refine ⟨_, dif_pos hwords, rfl, fun idx hidx => ?_⟩
        refine (value_of_lt (by exact hidx)).trans ?_
        have ha := v.length_abits.trans (planeWords_of_long hsize)
        have hb := v.length_bbits.trans (planeWords_of_long hsize)
        rw [planeBit_concatPlane ha hwords.1 hsize hlsb hidx,
          planeBit_concatPlane hb hwords.1 hsize hlsb hidx]
        split_ifs with hlow
        · rw [value_of_lt hlow]
        · rw [value_of_lt (by omega)]
      · have hsize : (v.resize (v.size + lsb.size) .zero).size = v.size + lsb.size :=
          size_resize _ _
        obtain ⟨w, hw, hwsize, hwvalue⟩ :=
          @shiftl_spec (v.resize (v.size + lsb.size) .zero) lsb.size (by omega)
        obtain ⟨r, changed, hr, hrsize, hrvalue, -⟩ := @setVec_spec w lsb undef 0 (by omega)
          (by omega)
        rw [dif_neg hwords]
        refine ⟨r, ?_, by omega, fun idx hidx => ?_⟩
        · show ((v.resize (v.size + lsb.size) .zero).shiftl lsb.size).bind _ = _
          rw [hw, Option.bind_some, hr]
          rfl
        · rw [hrvalue idx (by omega), hwvalue idx (by omega), Nat.sub_zero]
          by_cases hlow : idx < lsb.size
          · rw [if_pos (by omega : 0 ≤ idx ∧ idx < 0 + lsb.size), if_pos hlow]
          · rw [if_neg (by omega : ¬ (0 ≤ idx ∧ idx < 0 + lsb.size)), if_neg hlow,
              value_resize _ (by omega),
              if_pos (by omega), if_neg hlow]
  · rw [dif_neg hlong]
    by_cases hfull : lsb.size = 64
    · refine ⟨_, if_pos hfull, ?_, fun idx hidx => ?_⟩
      · show 64 = _
        omega
      · have hlow : idx < lsb.size := by omega
        have hword : idx < 64 := by omega
        refine (value_of_lt (by exact hword)).trans ?_
        rw [if_pos hlow, value_of_lt hlow, planeBit_first _ (by omega), planeBit_first _ (by omega),
          planeBit_first _ (by omega), planeBit_first _ (by omega)]
        rfl
    · refine ⟨_, if_neg hfull, rfl, fun idx hidx => ?_⟩
      refine (value_of_lt (by exact hidx)).trans ?_
      rw [planeBit_concatWord _ _ (by omega) (by omega) hidx,
        planeBit_concatWord _ _ (by omega) (by omega) hidx]
      split_ifs with hlow
      · rw [value_of_lt hlow]
      · rw [value_of_lt (by omega)]

/-- `concat` appends the bits of the other vector below. -/
theorem toVector4_concat (undef : BitVec 64 → Nat → BitVec 64) (v lsb : Planes) :
    ∃ r, concat undef v lsb = some r ∧ r.toVector4 = lsb.toVector4 ++ v.toVector4 := by
  obtain ⟨r, hr, hsize, hvalue⟩ := concat_spec undef v lsb
  refine ⟨r, hr, toVector4_eq ?_ fun idx hidx => ?_⟩
  · rw [List.length_append, length_toVector4, length_toVector4, hsize, Nat.add_comm]
  · rw [hsize] at hidx
    rw [List.getElem?_append, length_toVector4, getElem?_toVector4, getElem?_toVector4,
      hvalue idx hidx]
    by_cases hlow : idx < lsb.size
    · rw [if_pos hlow, if_pos hlow, if_pos hlow]
    · rw [if_neg hlow, if_neg hlow, if_pos (by omega)]

/-! ## Agreement -/

/-- The operations in place agree with those on the list of the bits. -/
structure InPlace (undef : BitVec 64 → Nat → BitVec 64) (v that lsb : Planes)
    (adr wid newsize shift : Nat) (padBit : Bit4) : Prop where
  /-- A part is read, X past the end. -/
  subvalue : (v.subvalue adr wid).toVector4 = v.toVector4.subvalue adr wid
  /-- A part of the vector is overwritten, and the flag says whether this changes the vector. -/
  setVec : adr + that.size ≤ v.size → ∃ r changed, v.setVec undef adr that = some (r, changed) ∧
    r.toVector4 = v.toVector4.setVec adr that.toVector4 ∧
    (changed = true ↔ r.toVector4 ≠ v.toVector4)
  /-- Low bits are kept, and the others are filled. -/
  resize : (v.resize newsize padBit).toVector4 = v.toVector4.resize newsize padBit
  /-- Another vector is appended below. -/
  concat : ∃ r, v.concat undef lsb = some r ∧ r.toVector4 = lsb.toVector4 ++ v.toVector4
  /-- Zeros from below. -/
  shiftl : shift ≤ v.size →
    ∃ r, v.shiftl shift = some r ∧ r.toVector4 = v.toVector4.shiftl shift
  /-- The pad bit from above. -/
  shiftr : shift ≤ v.size →
    ∃ r, v.shiftr shift padBit = some r ∧ r.toVector4 = v.toVector4.shiftr shift padBit

/-- The flag is set where the first plane changes. -/
private theorem exists_changed {v that : Planes} {adr : Nat} {undef : BitVec 64 → Nat → BitVec 64}
    (hpart : adr + that.size ≤ v.size)
    (hplane : (setPlane undef v.size adr that.size v.abits that.abits).2 = true) :
    ∃ r, v.setVec undef adr that = some (r, true) := by
  have hflag : ((setPlane undef v.size adr that.size v.abits that.abits).2 ||
      (setPlane undef v.size adr that.size v.bbits that.bbits).2) = true := by
    rw [hplane, Bool.true_or]
  rw [← hflag]
  exact ⟨_, if_pos hpart⟩

/-- A part without bits at the end of a vector of one word: a shift by the word can be anything, and
then the flag says that the vector changed. -/
private theorem changed_of_undef {v that : Planes} (hsize : v.size = 64) (hthat : that.size = 0)
    {undef : BitVec 64 → Nat → BitVec 64} {word : BitVec 64} (hundef : ∀ x, undef x 64 = word)
    (hne : v.aword 0 &&& ~~~ (word - 1) ≠ word &&& ~~~ (word - 1)) :
    ∃ r, v.setVec undef 64 that = some (r, true) := by
  have hup : ∀ x, shiftUp undef x 64 = word := fun x => (if_neg (lt_irrefl 64)).trans (hundef x)
  have hmask : (if 64 + that.size ≥ 64 then BitVec.allOnes 64 else lowMask (64 + that.size)) =
      BitVec.allOnes 64 := if_pos (by omega)
  refine exists_changed (by omega) ?_
  rw [setPlane, if_pos (by omega)]
  dsimp only
  rw [hup, hup, hmask, BitVec.allOnes_and, assignMasked]
  exact congrArg Prod.snd (if_pos hne)

theorem setVec_nil (l : Vector4) (adr : Nat) : l.setVec adr [] = l := by
  apply List.ext_getElem?
  intro idx
  rw [Vector4.getElem?_setVec]
  cases l[idx]? with
  | none => rfl
  | some bit => simp

/-- No part without bits is written at the end of a vector of one word. -/
private theorem not_inPlace {v that lsb : Planes} {adr wid newsize shift : Nat} {padBit : Bit4}
    (hsize : v.size = 64) (hadr : adr = 64) (hthat : that.size = 0)
    {undef : BitVec 64 → Nat → BitVec 64}
    (hchanged : ∃ r, v.setVec undef 64 that = some (r, true)) :
    ¬ InPlace undef v that lsb adr wid newsize shift padBit := by
  intro h
  obtain ⟨r, hr⟩ := hchanged
  obtain ⟨r', changed, hr', hbits, hflag⟩ := h.setVec (by omega)
  rw [hadr, hr, Option.some_inj, Prod.mk.injEq] at hr'
  obtain ⟨rfl, rfl⟩ := hr'
  have hnil : that.toVector4 = [] :=
    List.eq_nil_of_length_eq_zero ((length_toVector4 that).trans hthat)
  rw [hnil, setVec_nil] at hbits
  exact hflag.mp rfl hbits

/-- They agree, whatever a shift by a word and more gives, unless a part without bits is written at
the end of a vector of one word. -/
theorem inPlace_iff (v that lsb : Planes) (adr wid newsize shift : Nat) (padBit : Bit4) :
    (∀ undef, InPlace undef v that lsb adr wid newsize shift padBit) ↔
      ¬ (v.size = 64 ∧ adr = 64 ∧ that.size = 0) := by
  constructor
  · rintro h ⟨hsize, hadr, hthat⟩
    by_cases hone : v.aword 0 = 1
    · refine not_inPlace hsize hadr hthat (changed_of_undef hsize hthat (fun _ => rfl) ?_)
        (h fun _ _ => 2)
      rw [hone]
      decide
    · refine not_inPlace hsize hadr hthat (changed_of_undef hsize hthat (fun _ => rfl) ?_)
        (h fun _ _ => 1)
      have hmask : ~~~ ((1 : BitVec 64) - 1) = BitVec.allOnes 64 := by decide
      rwa [hmask, BitVec.and_allOnes, BitVec.and_allOnes]
  · intro h undef
    exact
      { subvalue := toVector4_subvalue v adr wid
        setVec := fun hpart => toVector4_setVec undef hpart (by omega)
        resize := toVector4_resize v newsize padBit
        concat := toVector4_concat undef v lsb
        shiftl := toVector4_shiftl
        shiftr := fun hshift => toVector4_shiftr hshift padBit }

/-- A shift that takes the count modulo the width of a word writes an empty vector over all bits. -/
theorem not_inPlace_empty : ¬ ∀ (v that lsb : Planes) (adr wid newsize shift : Nat) (padBit : Bit4),
    InPlace (fun x n => x <<< (n % 64)) v that lsb adr wid newsize shift padBit := by
  intro h
  have hchanged : ∃ r, (allocateBits 64 .zero).setVec (fun x n => x <<< (n % 64)) 64
      (allocateBits 0 .x) = some (r, true) := exists_changed (by decide) (by decide)
  exact not_inPlace rfl rfl rfl hchanged
    (h (allocateBits 64 .zero) (allocateBits 0 .x) (allocateBits 0 .x) 64 0 0 0 .x)

end Planes

end Icarus.Vvp
