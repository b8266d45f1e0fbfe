import Icarus.Vvp.Planes.Slice

/-!
# A part of a vector set

`set_vec` writes a vector into a part of another and says whether a bit changed. Each word is
compared with what is to be written below a mask, and is assigned only where it differs. The four
cases differ in the masks and in the words that they go through.
-/

namespace Icarus.Vvp

open Icarus.Core

/-- A word of C shifted up; by the width of the word and more, the result is undefined. -/
def shiftUp (undef : BitVec 64 → Nat → BitVec 64) (x : BitVec 64) (n : Nat) : BitVec 64 :=
  if n < 64 then x <<< n else undef x n

/-- The masked bits of a word assigned, and the flag set, if they differ. -/
def assignMasked (dptr : Nat) (mask tmp : BitVec 64) (s : List (BitVec 64) × Bool) :
    List (BitVec 64) × Bool :=
  if s.1.getD dptr 0 &&& mask ≠ tmp then
    (s.1.set dptr ((s.1.getD dptr 0 &&& ~~~ mask) ||| tmp), true)
  else s

/-- `set_vec` of a long vector at a word. -/
def setAligned (that : List (BitVec 64)) (remain sptr dptr : Nat) (s : List (BitVec 64) × Bool) :
    List (BitVec 64) × Bool :=
  if remain ≥ 64 then
    let s :=
      if s.1.getD dptr 0 ≠ that.getD sptr 0 then (s.1.set dptr (that.getD sptr 0), true) else s
    setAligned that (remain - 64) (sptr + 1) (dptr + 1) s
  else if remain > 0 then
    let mask := lowMask remain
    assignMasked dptr mask (that.getD sptr 0 &&& mask) s
  else s
termination_by remain

/-- `set_vec` of a long vector within a word. -/
def setUnaligned (that : List (BitVec 64)) (doff remain sptr dptr : Nat)
    (s : List (BitVec 64) × Bool) : List (BitVec 64) × Bool :=
  let lmask := lowMask doff
  let ndoff := 64 - doff
  if remain ≥ 64 then
    let s := assignMasked dptr (~~~ lmask) ((that.getD sptr 0 <<< doff) &&& ~~~ lmask) s
    let s := assignMasked (dptr + 1) lmask ((that.getD sptr 0 >>> ndoff) &&& lmask) s
    setUnaligned that doff (remain - 64) (sptr + 1) (dptr + 1) s
  else if remain > 0 then
    let hmask := if doff + remain ≥ 64 then BitVec.allOnes 64 else lowMask (doff + remain)
    let mask := hmask &&& ~~~ lmask
    let s := assignMasked dptr mask ((that.getD sptr 0 <<< doff) &&& mask) s
    if doff + remain > 64 then
      let tail := doff + remain - 64
      let mask := if tail ≥ 64 then BitVec.allOnes 64 else lowMask tail
      assignMasked (dptr + 1) mask ((that.getD sptr 0 >>> (remain - tail)) &&& mask) s
    else s
  else s
termination_by remain

/-- What `set_vec` does to either plane, and whether it changes it. -/
def setPlane (undef : BitVec 64 → Nat → BitVec 64) (size adr thatSize : Nat)
    (plane that : List (BitVec 64)) : List (BitVec 64) × Bool :=
  if size ≤ 64 then
    let lmask := shiftUp undef 1 adr - 1
    let hmask := if adr + thatSize ≥ 64 then BitVec.allOnes 64 else lowMask (adr + thatSize)
    let mask := hmask &&& ~~~ lmask
    assignMasked 0 mask (shiftUp undef (that.getD 0 0) adr &&& mask) (plane, false)
  else if thatSize ≤ 64 then
    let dptr := adr / 64
    let doff := adr % 64
    let lmask := lowMask doff
    let hmask := if doff + thatSize ≥ 64 then BitVec.allOnes 64 else lowMask (doff + thatSize)
    let mask := hmask &&& ~~~ lmask
    let s := assignMasked dptr mask ((that.getD 0 0 <<< doff) &&& mask) (plane, false)
    if doff + thatSize > 64 then
      let tail := doff + thatSize - 64
      let mask := lowMask tail
      assignMasked (dptr + 1) mask ((that.getD 0 0 >>> (thatSize - tail)) &&& mask) s
    else s
  else if adr % 64 = 0 then setAligned that thatSize 0 (adr / 64) (plane, false)
  else setUnaligned that (adr % 64) thatSize 0 (adr / 64) (plane, false)

/-! ## The words that are assigned -/

/-- The low bits of a source are written from a bit of the plane on, and the flag says whether this
changed the plane. -/
structure Written (that plane : List (BitVec 64)) (adr n : Nat) (s : List (BitVec 64) × Bool) :
    Prop where
  length : s.1.length = plane.length
  bits : ∀ idx < 64 * plane.length, planeBit s.1 idx =
    if adr ≤ idx ∧ idx < adr + n then planeBit that (idx - adr) else planeBit plane idx
  changed : s.2 = true ↔ ∃ i < n, planeBit that i ≠ planeBit plane (adr + i)

section Assign

variable {that plane : List (BitVec 64)} {adr n : Nat} {s : List (BitVec 64) × Bool}

@[simp] theorem length_assignMasked (dptr : Nat) (mask tmp : BitVec 64) :
    (assignMasked dptr mask tmp s).1.length = s.1.length := by
  unfold assignMasked
  split_ifs
  · rw [List.length_set]
  · rfl

theorem ne_iff_getLsbD {x y : BitVec 64} : x ≠ y ↔ ∃ i < 64, x.getLsbD i ≠ y.getLsbD i := by
  rw [Ne, BitVec.eq_of_getLsbD_eq_iff, not_forall]
  exact exists_congr fun i => Classical.not_imp

/-- The words differ in a bit of the mask. -/
theorem masked_ne_iff {word mask tmp : BitVec 64}
    (htmp : ∀ i < 64, mask.getLsbD i = false → tmp.getLsbD i = false) :
    word &&& mask ≠ tmp ↔
      ∃ i < 64, mask.getLsbD i = true ∧ tmp.getLsbD i ≠ word.getLsbD i := by
  rw [ne_iff_getLsbD]
  refine exists_congr fun i => and_congr_right fun hi => ?_
  rw [BitVec.getLsbD_and]
  cases hm : mask.getLsbD i
  · rw [htmp i hi hm]
    simp
  · rw [Bool.and_true]
    simp [eq_comm]

theorem planeBit_assignMasked {dptr idx : Nat} {mask tmp : BitVec 64}
    (htmp : ∀ i < 64, mask.getLsbD i = false → tmp.getLsbD i = false)
    (hidx : idx < 64 * s.1.length) :
    planeBit (assignMasked dptr mask tmp s).1 idx =
      if idx / 64 = dptr ∧ mask.getLsbD (idx % 64) = true then tmp.getLsbD (idx % 64)
      else planeBit s.1 idx := by
  have hi : idx % 64 < 64 := Nat.mod_lt idx (by omega)
  unfold assignMasked
  by_cases hne : s.1.getD dptr 0 &&& mask ≠ tmp
  · rw [if_pos hne]
    by_cases hw : idx / 64 = dptr
    · rw [planeBit_set (by omega), if_pos hw, BitVec.getLsbD_or, BitVec.getLsbD_and,
        BitVec.getLsbD_not, decide_eq_true hi, Bool.true_and]
      cases hm : mask.getLsbD (idx % 64)
      · rw [htmp _ hi hm, if_neg fun h => Bool.false_ne_true h.2, Bool.not_false, Bool.and_true,
          Bool.or_false, planeBit, hw]
      · rw [if_pos ⟨hw, rfl⟩, Bool.not_true, Bool.and_false, Bool.false_or]
    · rw [if_neg fun h => hw h.1, planeBit, List.getD_eq_getElem?_getD,
        List.getElem?_set_ne (Ne.symm hw), ← List.getD_eq_getElem?_getD]
      rfl
  · rw [if_neg hne]
    split_ifs with h
    · rw [← not_not.mp hne, BitVec.getLsbD_and, h.2, Bool.and_true, planeBit, h.1]
    · rfl

theorem changed_assignMasked {dptr : Nat} {mask tmp : BitVec 64}
    (htmp : ∀ i < 64, mask.getLsbD i = false → tmp.getLsbD i = false) :
    (assignMasked dptr mask tmp s).2 = true ↔ s.2 = true ∨
      ∃ i < 64, mask.getLsbD i = true ∧ tmp.getLsbD i ≠ planeBit s.1 (64 * dptr + i) := by
  have hne : s.1.getD dptr 0 &&& mask ≠ tmp ↔
      ∃ i < 64, mask.getLsbD i = true ∧ tmp.getLsbD i ≠ planeBit s.1 (64 * dptr + i) := by
    rw [masked_ne_iff htmp]
    refine exists_congr fun i => and_congr_right fun hi => ?_
    rw [planeBit_word _ _ hi]
  rw [← hne]
  unfold assignMasked
  split_ifs with h
  · exact iff_of_true rfl (Or.inr h)
  · exact (or_iff_left h).symm

theorem written_nil (that plane : List (BitVec 64)) (adr : Nat) :
    Written that plane adr 0 (plane, false) where
  length := rfl
  bits := fun idx _ => by rw [if_neg (by omega)]
  changed := by simp

/-- The next bits of the source are written. -/
theorem Written.assignMasked {dptr lo m : Nat} {mask tmp : BitVec 64}
    (h : Written that plane adr n s) (hstart : 64 * dptr + lo = adr + n) (hend : lo + m ≤ 64)
    (hin : adr + n + m ≤ 64 * plane.length)
    (hmask : ∀ i < 64, mask.getLsbD i = decide (lo ≤ i ∧ i < lo + m))
    (htmp : ∀ i < 64, tmp.getLsbD i = (mask.getLsbD i && planeBit that (n + i - lo))) :
    Written that plane adr (n + m) (Icarus.Vvp.assignMasked dptr mask tmp s) := by
  have hclear : ∀ i < 64, mask.getLsbD i = false → tmp.getLsbD i = false := by
    intro i hi hm
    rw [htmp i hi, hm, Bool.false_and]
  refine ⟨(length_assignMasked dptr mask tmp).trans h.length, fun idx hidx => ?_, ?_⟩
  · have hi : idx % 64 < 64 := Nat.mod_lt idx (by omega)
    rw [planeBit_assignMasked hclear (h.length.symm ▸ hidx), hmask _ hi, htmp _ hi, hmask _ hi,
      h.bits idx hidx]
    by_cases hnew : adr + n ≤ idx ∧ idx < adr + n + m
    · have hfield : lo ≤ idx % 64 ∧ idx % 64 < lo + m := by omega
      rw [if_pos ⟨by omega, decide_eq_true hfield⟩, decide_eq_true hfield, Bool.true_and,
        if_pos (by omega)]
      congr 1
      omega
    · have hout : ¬ (idx / 64 = dptr ∧ decide (lo ≤ idx % 64 ∧ idx % 64 < lo + m) = true) := by
        rw [decide_eq_true_eq]
        omega
      rw [if_neg hout]
      by_cases hold : adr ≤ idx ∧ idx < adr + n
      · rw [if_pos hold, if_pos (by omega)]
      · rw [if_neg hold, if_neg (by omega)]
  · rw [changed_assignMasked hclear, h.changed]
    constructor
    · rintro (⟨i, hi, hne⟩ | ⟨i, hi, hm, hne⟩)
      · exact ⟨i, by omega, hne⟩
      · rw [hmask i hi, decide_eq_true_eq] at hm
        rw [htmp i hi, hmask i hi, decide_eq_true hm, Bool.true_and, h.bits _ (by omega),
          if_neg (by omega)] at hne
        refine ⟨n + i - lo, by omega, ?_⟩
        rwa [show adr + (n + i - lo) = 64 * dptr + i by omega]
    · rintro ⟨k, hk, hne⟩
      by_cases hold : k < n
      · exact Or.inl ⟨k, hold, hne⟩
      · have hi : lo + (k - n) < 64 := by omega
        have hfield : lo ≤ lo + (k - n) ∧ lo + (k - n) < lo + m := by omega
        refine Or.inr ⟨lo + (k - n), hi, ?_, ?_⟩
        · rw [hmask _ hi, decide_eq_true hfield]
        · rw [htmp _ hi, hmask _ hi, decide_eq_true hfield, Bool.true_and, h.bits _ (by omega),
            if_neg (by omega), show n + (lo + (k - n)) - lo = k by omega,
            show 64 * dptr + (lo + (k - n)) = adr + k by omega]
          exact hne

/-- The bits of a part of a word. -/
theorem getLsbD_field {off n i : Nat} (hoff : off < 64) (hi : i < 64) :
    ((if off + n ≥ 64 then BitVec.allOnes 64 else lowMask (off + n)) &&&
      ~~~ lowMask off).getLsbD i = decide (off ≤ i ∧ i < off + n) := by
  have hhigh : (if off + n ≥ 64 then BitVec.allOnes 64 else lowMask (off + n)).getLsbD i =
      decide (i < off + n) := by
    split_ifs with hfull
    · rw [BitVec.getLsbD_allOnes]
      exact decide_eq_decide.mpr (by omega)
    · rw [getLsbD_lowMask (by omega)]
  rw [BitVec.getLsbD_and, BitVec.getLsbD_not, hhigh, getLsbD_lowMask hoff, decide_eq_true hi,
    Bool.true_and, ← decide_not, ← Bool.decide_and]
  exact decide_eq_decide.mpr (by omega)

/-- A word of the source shifted up to the part. -/
private theorem getLsbD_shiftLeft_masked {off sptr i : Nat} {mask : BitVec 64} (hi : i < 64)
    (hmask : mask.getLsbD i = true → off ≤ i) :
    ((that.getD sptr 0 <<< off) &&& mask).getLsbD i =
      (mask.getLsbD i && planeBit that (64 * sptr + i - off)) := by
  rw [BitVec.getLsbD_and, BitVec.getLsbD_shiftLeft, decide_eq_true hi, Bool.true_and, Bool.and_comm]
  cases hm : mask.getLsbD i
  · rfl
  · have hle := hmask hm
    rw [decide_eq_false (by omega), Bool.not_false, Bool.true_and, Nat.add_sub_assoc hle,
      planeBit_word _ _ (by omega)]

/-- A word of the source shifted down to the next word. -/
private theorem getLsbD_ushiftRight_masked {s sptr i : Nat} {mask : BitVec 64}
    (hmask : mask.getLsbD i = true → s + i < 64) :
    ((that.getD sptr 0 >>> s) &&& mask).getLsbD i =
      (mask.getLsbD i && planeBit that (64 * sptr + s + i)) := by
  rw [BitVec.getLsbD_and, BitVec.getLsbD_ushiftRight, Bool.and_comm]
  cases hm : mask.getLsbD i
  · rfl
  · rw [Nat.add_assoc, planeBit_word _ _ (hmask hm)]

/-- At most a word of the source, which may reach into the next word. -/
theorem Written.straddle {off remain sptr dptr : Nat} {mask tailMask : BitVec 64}
    (h : Written that plane adr (64 * sptr) s) (hstart : 64 * dptr + off = adr + 64 * sptr)
    (hoff : off < 64) (hremain : remain ≤ 64) (hin : adr + 64 * sptr + remain ≤ 64 * plane.length)
    (hmask : ∀ i < 64, mask.getLsbD i = decide (off ≤ i ∧ i < off + remain))
    (htail : off + remain > 64 → tailMask = lowMask (off + remain - 64)) :
    Written that plane adr (64 * sptr + remain)
      (if off + remain > 64 then
        Icarus.Vvp.assignMasked (dptr + 1) tailMask
          ((that.getD sptr 0 >>> (remain - (off + remain - 64))) &&& tailMask)
          (Icarus.Vvp.assignMasked dptr mask ((that.getD sptr 0 <<< off) &&& mask) s)
      else Icarus.Vvp.assignMasked dptr mask ((that.getD sptr 0 <<< off) &&& mask) s) := by
  have hbits : ∀ i < 64, ((that.getD sptr 0 <<< off) &&& mask).getLsbD i =
      (mask.getLsbD i && planeBit that (64 * sptr + i - off)) := by
    intro i hi
    refine getLsbD_shiftLeft_masked hi fun hm => ?_
    rw [hmask i hi, decide_eq_true_eq] at hm
    exact hm.1
  split_ifs with hover
  · have hlow := @Written.assignMasked that plane adr _ s dptr off (64 - off) mask _ h hstart
      (by omega) (by omega) (fun i hi => (hmask i hi).trans (decide_eq_decide.mpr (by omega))) hbits
    have hnext := @Written.assignMasked that plane adr _ _ (dptr + 1) 0 (off + remain - 64) tailMask
      ((that.getD sptr 0 >>> (remain - (off + remain - 64))) &&& tailMask) hlow (by omega)
      (by omega) (by omega)
      (fun i hi => by
        rw [htail hover, getLsbD_lowMask (by omega)]
        exact decide_eq_decide.mpr (by omega))
      (fun i hi => by
        rw [getLsbD_ushiftRight_masked fun hm => by
          rw [htail hover, getLsbD_lowMask (by omega), decide_eq_true_eq] at hm
          omega]
        congr 2
        omega)
    rwa [show 64 * sptr + (64 - off) + (off + remain - 64) = 64 * sptr + remain by omega] at hnext
  · exact h.assignMasked hstart (by omega) hin hmask hbits

/-- A word compared as a whole. -/
private theorem assignMasked_allOnes (dptr : Nat) (word : BitVec 64) :
    Icarus.Vvp.assignMasked dptr (BitVec.allOnes 64) word s =
      if s.1.getD dptr 0 ≠ word then (s.1.set dptr word, true) else s := by
  have hnone : ∀ x : BitVec 64, (x &&& ~~~ BitVec.allOnes 64) ||| word = word := by
    intro x
    rw [BitVec.not_allOnes, BitVec.and_zero, BitVec.zero_or]
  rw [Icarus.Vvp.assignMasked, BitVec.and_allOnes, hnone]

/-- The loop over the words of a source that starts at a word. -/
theorem Written.setAligned (remain : Nat) : ∀ (sptr dptr : Nat) (s : List (BitVec 64) × Bool),
    Written that plane adr (64 * sptr) s → 64 * dptr = adr + 64 * sptr →
      adr + 64 * sptr + remain ≤ 64 * plane.length →
        Written that plane adr (64 * sptr + remain)
          (Icarus.Vvp.setAligned that remain sptr dptr s) := by
  induction remain using Nat.strong_induction_on with
  | _ remain ih =>
    intro sptr dptr s h hdptr hin
    rw [Icarus.Vvp.setAligned]
    dsimp only
    by_cases hword : remain ≥ 64
    · have hstep := @Written.assignMasked that plane adr _ s dptr 0 64 (BitVec.allOnes 64)
        (that.getD sptr 0) h (by omega) le_rfl (by omega)
        (fun i hi => by rw [BitVec.getLsbD_allOnes]; exact decide_eq_decide.mpr (by omega))
        (fun i hi => by
          rw [BitVec.getLsbD_allOnes, decide_eq_true hi, Bool.true_and, Nat.sub_zero,
            planeBit_word _ _ hi])
      rw [assignMasked_allOnes] at hstep
      have hrest := ih (remain - 64) (by omega) (sptr + 1) (dptr + 1) _ hstep (by omega) (by omega)
      rw [if_pos hword]
      rwa [show 64 * (sptr + 1) + (remain - 64) = 64 * sptr + remain by omega] at hrest
    · rw [if_neg hword]
      by_cases htail : remain > 0
      · rw [if_pos htail]
        refine @Written.assignMasked that plane adr _ s dptr 0 remain _ _ h (by omega) (by omega)
          hin (fun i hi => ?_) fun i hi => ?_
        · rw [getLsbD_lowMask (by omega)]
          exact decide_eq_decide.mpr (by omega)
        · rw [BitVec.getLsbD_and, Bool.and_comm, Nat.sub_zero, planeBit_word _ _ hi]
      · rw [if_neg htail]
        rwa [show remain = 0 by omega]

/-- The loop over the words of a source that starts within a word. -/
theorem Written.setUnaligned {doff : Nat} (hpos : 0 < doff) (hdoff : doff < 64) (remain : Nat) :
    ∀ (sptr dptr : Nat) (s : List (BitVec 64) × Bool),
      Written that plane adr (64 * sptr) s → 64 * dptr + doff = adr + 64 * sptr →
        adr + 64 * sptr + remain ≤ 64 * plane.length →
          Written that plane adr (64 * sptr + remain)
            (Icarus.Vvp.setUnaligned that doff remain sptr dptr s) := by
  induction remain using Nat.strong_induction_on with
  | _ remain ih =>
    intro sptr dptr s h hdptr hin
    rw [Icarus.Vvp.setUnaligned]
    dsimp only
    by_cases hword : remain ≥ 64
    · have hstep := @Written.straddle that plane adr s doff 64 sptr dptr (~~~ lowMask doff)
        (lowMask doff) h hdptr hdoff le_rfl (by omega)
        (fun i hi => by
          rw [BitVec.getLsbD_not, getLsbD_lowMask hdoff, decide_eq_true hi, Bool.true_and,
            ← decide_not]
          exact decide_eq_decide.mpr (by omega))
        (fun _ => by rw [Nat.add_sub_cancel])
      rw [if_pos (by omega), Nat.add_sub_cancel] at hstep
      have hrest := ih (remain - 64) (by omega) (sptr + 1) (dptr + 1) _ hstep (by omega) (by omega)
      rw [if_pos hword]
      rwa [show 64 * (sptr + 1) + (remain - 64) = 64 * sptr + remain by omega] at hrest
    · rw [if_neg hword]
      by_cases htail : remain > 0
      · rw [if_pos htail]
        exact @Written.straddle that plane adr s doff remain sptr dptr _
          (if doff + remain - 64 ≥ 64 then BitVec.allOnes 64 else lowMask (doff + remain - 64)) h
          hdptr hdoff (by omega) hin (fun i hi => getLsbD_field hdoff hi)
          (fun _ => if_neg (by omega))
      · rw [if_neg htail]
        rwa [show remain = 0 by omega]

/-- `set_vec` writes the part, if no word is shifted by its width. -/
theorem written_setPlane (undef : BitVec 64 → Nat → BitVec 64) {size thatSize : Nat}
    (hlen : plane.length = planeWords size) (hpart : adr + thatSize ≤ size)
    (hadr : ¬ (size = 64 ∧ adr = 64)) :
    Written that plane adr thatSize (setPlane undef size adr thatSize plane that) := by
  have hnil := written_nil that plane adr
  have hwords := le_planeWords size
  have hdoff : adr % 64 < 64 := Nat.mod_lt adr (by omega)
  unfold setPlane
  dsimp only
  by_cases hshort : size ≤ 64
  · have hlt : adr < 64 := by omega
    rw [if_pos hshort, shiftUp, shiftUp, if_pos hlt, if_pos hlt]
    have hfield := @Written.assignMasked that plane adr 0 _ 0 adr thatSize
      ((if adr + thatSize ≥ 64 then BitVec.allOnes 64 else lowMask (adr + thatSize)) &&&
        ~~~ lowMask adr)
      ((that.getD 0 0 <<< adr) &&& ((if adr + thatSize ≥ 64 then BitVec.allOnes 64
        else lowMask (adr + thatSize)) &&& ~~~ lowMask adr)) hnil (by omega) (by omega)
      (by omega) (fun i hi => getLsbD_field hlt hi)
      (fun i hi => by
        refine (getLsbD_shiftLeft_masked hi fun hm => ?_).trans (by rw [Nat.mul_zero])
        rw [getLsbD_field hlt hi, decide_eq_true_eq] at hm
        exact hm.1)
    rwa [Nat.zero_add] at hfield
  · rw [if_neg hshort]
    by_cases hsmall : thatSize ≤ 64
    · have hpart := @Written.straddle that plane adr (plane, false) (adr % 64) thatSize 0 (adr / 64)
        _ (lowMask (adr % 64 + thatSize - 64)) hnil (by omega) hdoff hsmall (by omega)
        (fun i hi => getLsbD_field hdoff hi) (fun _ => rfl)
      rw [if_pos hsmall]
      rwa [Nat.mul_zero, Nat.zero_add] at hpart
    · rw [if_neg hsmall]
      by_cases haligned : adr % 64 = 0
      · have hloop := Written.setAligned thatSize 0 (adr / 64) _ hnil (by omega) (by omega)
        rw [if_pos haligned]
        rwa [Nat.mul_zero, Nat.zero_add] at hloop
      · have hloop := Written.setUnaligned (by omega) hdoff thatSize 0 (adr / 64) _ hnil (by omega)
          (by omega)
        rw [if_neg haligned]
        rwa [Nat.mul_zero, Nat.zero_add] at hloop

end Assign

section Length

variable (that : List (BitVec 64)) (s : List (BitVec 64) × Bool)

theorem length_setAligned (remain : Nat) : ∀ (sptr dptr : Nat) (s : List (BitVec 64) × Bool),
    (setAligned that remain sptr dptr s).1.length = s.1.length := by
  induction remain using Nat.strong_induction_on with
  | _ remain ih =>
    intro sptr dptr s
    rw [setAligned]
    dsimp only
    split_ifs
    · rw [ih (remain - 64) (by omega)]
      exact List.length_set
    · rw [ih (remain - 64) (by omega)]
    · exact length_assignMasked _ _ _
    · rfl

theorem length_setUnaligned (doff remain : Nat) :
    ∀ (sptr dptr : Nat) (s : List (BitVec 64) × Bool),
      (setUnaligned that doff remain sptr dptr s).1.length = s.1.length := by
  induction remain using Nat.strong_induction_on with
  | _ remain ih =>
    intro sptr dptr s
    rw [setUnaligned]
    dsimp only
    by_cases hword : remain ≥ 64
    · rw [if_pos hword, ih (remain - 64) (by omega), length_assignMasked, length_assignMasked]
    · rw [if_neg hword]
      by_cases htail : remain > 0
      · rw [if_pos htail]
        by_cases hover : doff + remain > 64
        · rw [if_pos hover, length_assignMasked, length_assignMasked]
        · rw [if_neg hover, length_assignMasked]
      · rw [if_neg htail]

theorem length_setPlane (undef : BitVec 64 → Nat → BitVec 64) (size adr thatSize : Nat)
    (plane : List (BitVec 64)) :
    (setPlane undef size adr thatSize plane that).1.length = plane.length := by
  unfold setPlane
  dsimp only
  by_cases hshort : size ≤ 64
  · rw [if_pos hshort, length_assignMasked]
  · rw [if_neg hshort]
    by_cases hsmall : thatSize ≤ 64
    · rw [if_pos hsmall]
      by_cases hover : adr % 64 + thatSize > 64
      · rw [if_pos hover, length_assignMasked, length_assignMasked]
      · rw [if_neg hover, length_assignMasked]
    · rw [if_neg hsmall]
      by_cases haligned : adr % 64 = 0
      · rw [if_pos haligned, length_setAligned]
      · rw [if_neg haligned, length_setUnaligned]

end Length

namespace Planes

variable {v that : Planes}

/-- `set_vec`, and whether a bit of the vector changes; the part is in the vector by assertion. -/
def setVec (undef : BitVec 64 → Nat → BitVec 64) (v : Planes) (adr : Nat) (that : Planes) :
    Option (Planes × Bool) :=
  if adr + that.size ≤ v.size then
    some
      ({ size := v.size
         abits := (setPlane undef v.size adr that.size v.abits that.abits).1
         bbits := (setPlane undef v.size adr that.size v.bbits that.bbits).1
         length_abits := by rw [length_setPlane, v.length_abits]
         length_bbits := by rw [length_setPlane, v.length_bbits] },
       (setPlane undef v.size adr that.size v.abits that.abits).2 ||
         (setPlane undef v.size adr that.size v.bbits that.bbits).2)
  else none

/-- The bits of the part are those of the other vector, and the others stay. -/
theorem setVec_spec (undef : BitVec 64 → Nat → BitVec 64) {adr : Nat}
    (hpart : adr + that.size ≤ v.size) (hadr : ¬ (v.size = 64 ∧ adr = 64)) :
    ∃ r changed, v.setVec undef adr that = some (r, changed) ∧ r.size = v.size ∧
      (∀ idx < v.size, r.value idx =
        if adr ≤ idx ∧ idx < adr + that.size then that.value (idx - adr) else v.value idx) ∧
      (changed = true ↔ ∃ i < that.size, that.value i ≠ v.value (adr + i)) := by
  have ha := @written_setPlane that.abits v.abits adr undef _ _ v.length_abits hpart hadr
  have hb := @written_setPlane that.bbits v.bbits adr undef _ _ v.length_bbits hpart hadr
  refine ⟨_, _, if_pos hpart, rfl, fun idx hidx => ?_, ?_⟩
  · have hplane := le_planeWords v.size
    refine (value_of_lt (by exact hidx)).trans ?_
    rw [ha.bits idx (by rw [v.length_abits]; omega), hb.bits idx (by rw [v.length_bbits]; omega)]
    split_ifs with hin
    · rw [value_of_lt (by omega)]
    · rw [value_of_lt hidx]
  · rw [Bool.or_eq_true, ha.changed, hb.changed, ← exists_or]
    refine exists_congr fun i => ?_
    rw [← and_or_left]
    refine and_congr_right fun hi => ?_
    rw [value_of_lt hi, value_of_lt (by omega), Ne, Ne, Ne, bitOf_inj, not_and_or]

/-- `set_vec` overwrites the part, and returns whether the vector changes. -/
theorem toVector4_setVec (undef : BitVec 64 → Nat → BitVec 64) {adr : Nat}
    (hpart : adr + that.size ≤ v.size) (hadr : ¬ (v.size = 64 ∧ adr = 64)) :
    ∃ r changed, v.setVec undef adr that = some (r, changed) ∧
      r.toVector4 = Vector4.setVec v.toVector4 adr that.toVector4 ∧
      (changed = true ↔ r.toVector4 ≠ v.toVector4) := by
  obtain ⟨r, changed, hr, hsize, hvalue, hchanged⟩ := setVec_spec undef hpart hadr
  refine ⟨r, changed, hr, ?_, ?_⟩
  · refine toVector4_eq (by rw [Vector4.length_setVec, length_toVector4, hsize]) fun idx hidx => ?_
    rw [hsize] at hidx
    rw [Vector4.getElem?_setVec, getElem?_toVector4 v idx, if_pos hidx, Option.map_some,
      hvalue idx hidx, getElem?_toVector4]
    by_cases hlow : adr ≤ idx
    · rw [if_pos hlow]
      by_cases hin : idx - adr < that.size
      · rw [if_pos hin, if_pos (by omega), Option.getD_some]
      · rw [if_neg hin, if_neg (by omega), Option.getD_none]
    · rw [if_neg hlow, if_neg (by omega)]
  · rw [hchanged]
    constructor
    · rintro ⟨i, hi, hne⟩ heq
      have hbit := congrArg (·[adr + i]?) heq
      rw [getElem?_toVector4, getElem?_toVector4, hsize, if_pos (by omega), if_pos (by omega),
        Option.some_inj, hvalue _ (by omega), if_pos (by omega), Nat.add_sub_cancel_left] at hbit
      exact hne hbit
    · intro hne
      by_contra hall
      refine hne (toVector4_congr hsize fun idx hidx => ?_)
      rw [hvalue idx hidx]
      split_ifs with hin
      · by_contra hbit
        refine hall ⟨idx - adr, by omega, ?_⟩
        rwa [Nat.add_sub_cancel' hin.1]
      · rfl

end Planes

end Icarus.Vvp
