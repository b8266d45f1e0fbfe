import Icarus.Vvp.Planes.SetVec

/-!
# Vectors shifted

`shiftl` shifts zeros in from below and `shiftr` shifts a pad bit in from above, both in place. The
loops go through the words in the order in which no word is overwritten before it is read.
-/

namespace Icarus.Vvp

open Icarus.Core

/-- The mask of the size keeps the bits below it. -/
theorem getLsbD_sizeMask {size i : Nat} (hs : size ≤ 64) (hi : i < size) :
    (if size = 64 then BitVec.allOnes 64 else lowMask size).getLsbD i = true := by
  split_ifs with hfull
  · rw [BitVec.getLsbD_allOnes, decide_eq_true (by omega)]
  · rw [getLsbD_lowMask (by omega), decide_eq_true hi]

/-! ## Up -/

/-- The words from `words - 1` down to 1, each shifted with the word below it. -/
def shiftWordsLeft (shift : Nat) : Nat → List (BitVec 64) → List (BitVec 64)
  | 0, plane => plane
  | dst + 1, plane =>
    shiftWordsLeft shift dst
      (plane.set (dst + 1)
        ((plane.getD (dst + 1) 0 <<< shift) ||| (plane.getD dst 0 >>> (64 - shift))))

/-- The words that are left, moved up by words and shifted. -/
def moveWordsLeft (wordShift bitShift : Nat) : Nat → List (BitVec 64) → List (BitVec 64)
  | 0, plane => plane
  | src + 1, plane =>
    let val := plane.getD src 0 <<< bitShift
    let val :=
      if bitShift ≠ 0 ∧ src > 0 then val ||| (plane.getD (src - 1) 0 >>> (64 - bitShift)) else val
    moveWordsLeft wordShift bitShift src (plane.set (src + wordShift) val)

/-- The last word masked to the size. -/
def maskTail (size words : Nat) (plane : List (BitVec 64)) : List (BitVec 64) :=
  if size % 64 ≠ 0 then
    plane.set (words - 1) (plane.getD (words - 1) 0 &&& lowMask (size % 64))
  else plane

/-- What `shiftl` does to either plane, for a shift below the size. -/
def shiftlPlane (size shift : Nat) (plane : List (BitVec 64)) : List (BitVec 64) :=
  if size ≤ 64 then
    let sizeMask := if size = 64 then BitVec.allOnes 64 else lowMask size
    plane.set 0 ((plane.getD 0 0 <<< shift) &&& sizeMask)
  else
    let words := wordCount size
    let wordShift := shift / 64
    let bitShift := shift % 64
    if wordShift = 0 then
      let plane := shiftWordsLeft bitShift (words - 1) plane
      let plane := plane.set 0 (plane.getD 0 0 <<< bitShift)
      maskTail size words plane
    else
      let plane := moveWordsLeft wordShift bitShift (words - wordShift) plane
      let plane := padWords 0 0 wordShift plane
      let plane :=
        if bitShift ≠ 0 then
          plane.set wordShift (plane.getD wordShift 0 &&& ~~~ lowMask bitShift)
        else plane
      maskTail size words plane

section Left

variable {plane : List (BitVec 64)} {shift : Nat}

@[simp] theorem length_shiftWordsLeft (n : Nat) :
    (shiftWordsLeft shift n plane).length = plane.length := by
  induction n generalizing plane with
  | zero => rfl
  | succ n ih => rw [shiftWordsLeft, ih, List.length_set]

@[simp] theorem length_moveWordsLeft (wordShift bitShift n : Nat) :
    (moveWordsLeft wordShift bitShift n plane).length = plane.length := by
  induction n generalizing plane with
  | zero => rfl
  | succ n ih =>
    rw [moveWordsLeft, ih, List.length_set]

@[simp] theorem length_maskTail (size words : Nat) :
    (maskTail size words plane).length = plane.length := by
  unfold maskTail
  split_ifs
  · rw [List.length_set]
  · rfl

theorem length_shiftlPlane (size shift : Nat) (plane : List (BitVec 64)) :
    (shiftlPlane size shift plane).length = plane.length := by
  unfold shiftlPlane
  dsimp only
  split_ifs <;> simp

/-- The words that are shifted with the word below them. -/
theorem planeBit_shiftWordsLeft {n : Nat} (hshift : shift < 64) (hn : n < plane.length)
    (idx : Nat) :
    planeBit (shiftWordsLeft shift n plane) idx =
      if 64 ≤ idx ∧ idx < 64 * (n + 1) then planeBit plane (idx - shift)
      else planeBit plane idx := by
  induction n generalizing plane with
  | zero => rw [shiftWordsLeft, if_neg (by omega)]
  | succ n ih =>
    have hi : idx % 64 < 64 := Nat.mod_lt idx (by omega)
    rw [shiftWordsLeft, ih (by rw [List.length_set]; omega), planeBit_set hn, planeBit_set hn]
    by_cases hw : idx / 64 = n + 1
    · rw [if_neg (by omega), if_pos hw, if_pos (by omega), getLsbD_funnel hshift _ _ hi]
      split_ifs with hlow
      · rw [show idx - shift = 64 * n + (64 - shift + idx % 64) by omega,
          planeBit_word _ _ (by omega)]
      · rw [show idx - shift = 64 * (n + 1) + (idx % 64 - shift) by omega,
          planeBit_word _ _ (by omega)]
    · rw [if_neg hw]
      by_cases hin : 64 ≤ idx ∧ idx < 64 * (n + 1)
      · rw [if_pos hin, if_neg (by omega), if_pos (by omega)]
      · rw [if_neg hin, if_neg (by omega)]

/-- A word shifted with the one below it, if there is one. -/
private theorem getLsbD_moved (plane : List (BitVec 64)) {bitShift n i : Nat} (hbit : bitShift < 64)
    (hi : i < 64) :
    (if bitShift ≠ 0 ∧ n > 0 then
        (plane.getD n 0 <<< bitShift) ||| (plane.getD (n - 1) 0 >>> (64 - bitShift))
      else plane.getD n 0 <<< bitShift).getLsbD i =
      if n = 0 ∧ i < bitShift then false else planeBit plane (64 * n + i - bitShift) := by
  by_cases hboth : bitShift ≠ 0 ∧ n > 0
  · rw [if_pos hboth, getLsbD_funnel hbit _ _ hi, if_neg (by omega : ¬ (n = 0 ∧ i < bitShift))]
    split_ifs with hlow
    · rw [show 64 * n + i - bitShift = 64 * (n - 1) + (64 - bitShift + i) by omega,
        planeBit_word _ _ (by omega)]
    · rw [show 64 * n + i - bitShift = 64 * n + (i - bitShift) by omega,
        planeBit_word _ _ (by omega)]
  · rw [if_neg hboth, BitVec.getLsbD_shiftLeft, decide_eq_true hi, Bool.true_and]
    by_cases hlow : i < bitShift
    · rw [if_pos ⟨by omega, hlow⟩, decide_eq_true hlow, Bool.not_true, Bool.false_and]
    · rw [if_neg fun h => hlow h.2, decide_eq_false hlow, Bool.not_false, Bool.true_and,
        show 64 * n + i - bitShift = 64 * n + (i - bitShift) by omega, planeBit_word _ _ (by omega)]

/-- The words that are moved. -/
theorem planeBit_moveWordsLeft {wordShift bitShift n : Nat} (hbit : bitShift < 64)
    (hn : n + wordShift ≤ plane.length) (idx : Nat) :
    planeBit (moveWordsLeft wordShift bitShift n plane) idx =
      if 64 * wordShift ≤ idx ∧ idx < 64 * (n + wordShift) then
        if idx < 64 * wordShift + bitShift then false
        else planeBit plane (idx - (64 * wordShift + bitShift))
      else planeBit plane idx := by
  induction n generalizing plane with
  | zero => rw [moveWordsLeft, if_neg (by omega)]
  | succ n ih =>
    have hi : idx % 64 < 64 := Nat.mod_lt idx (by omega)
    have hlt : n + wordShift < plane.length := by omega
    have hval := @getLsbD_moved plane bitShift n (idx % 64) hbit hi
    rw [moveWordsLeft]
    generalize (if bitShift ≠ 0 ∧ n > 0 then
        (plane.getD n 0 <<< bitShift) ||| (plane.getD (n - 1) 0 >>> (64 - bitShift))
      else plane.getD n 0 <<< bitShift) = val at hval ⊢
    rw [ih (by rw [List.length_set]; omega), planeBit_set hlt, planeBit_set hlt]
    by_cases hw : idx / 64 = n + wordShift
    · rw [if_neg (by omega), if_pos hw, if_pos (by omega), hval]
      by_cases hlow : n = 0 ∧ idx % 64 < bitShift
      · rw [if_pos hlow, if_pos (by omega)]
      · rw [if_neg hlow, if_neg (by omega)]
        congr 1
        omega
    · rw [if_neg hw]
      by_cases hin : 64 * wordShift ≤ idx ∧ idx < 64 * (n + wordShift)
      · have hout : 64 * wordShift ≤ idx ∧ idx < 64 * (n + 1 + wordShift) := by omega
        rw [if_pos hin, if_pos hout, if_neg (by omega : ¬ (idx - (64 * wordShift + bitShift)) / 64 =
          n + wordShift)]
      · rw [if_neg hin, if_neg (by omega)]

/-- Masking the last word keeps the bits below the size. -/
theorem planeBit_maskTail {size idx : Nat} (hlen : wordCount size ≤ plane.length)
    (hidx : idx < size) :
    planeBit (maskTail size (wordCount size) plane) idx = planeBit plane idx := by
  have hcount : wordCount size = (size + 63) / 64 := rfl
  unfold maskTail
  split_ifs with htail
  · rw [planeBit_set (by omega)]
    split_ifs with hw
    · rw [BitVec.getLsbD_and, getLsbD_lowMask (by omega), decide_eq_true (by omega), Bool.and_true,
        planeBit_eq, hw]
    · rfl
  · rfl

/-- Zeros from below, and the other bits moved up. -/
theorem planeBit_shiftlPlane {size idx : Nat} (hlen : plane.length = planeWords size)
    (hpos : 0 < shift) (hshift : shift < size) (hidx : idx < size) :
    planeBit (shiftlPlane size shift plane) idx =
      if idx < shift then false else planeBit plane (idx - shift) := by
  have hwords := le_planeWords size
  unfold shiftlPlane
  dsimp only
  by_cases hshort : size ≤ 64
  · have hmask := getLsbD_sizeMask hshort hidx
    rw [if_pos hshort, planeBit_set (by omega), if_pos (by omega), Nat.mod_eq_of_lt (by omega),
      BitVec.getLsbD_and, hmask, Bool.and_true, BitVec.getLsbD_shiftLeft, decide_eq_true (by omega),
      Bool.true_and]
    split_ifs with hlow
    · rw [decide_eq_true hlow, Bool.not_true, Bool.false_and]
    · rw [decide_eq_false hlow, Bool.not_false, Bool.true_and, planeBit_first _ (by omega)]
  · have hcount := le_wordCount size
    rw [planeWords_of_long (by omega)] at hlen
    rw [if_neg hshort]
    by_cases hzero : shift / 64 = 0
    · have hmod : shift % 64 = shift := by omega
      have htwo := two_le_wordCount.mpr (by omega : 64 < size)
      rw [if_pos hzero, planeBit_maskTail (by simp [hlen]) hidx, hmod,
        planeBit_set (by rw [length_shiftWordsLeft]; omega),
        planeBit_shiftWordsLeft (by omega) (by omega)]
      by_cases hfirst : idx / 64 = 0
      · rw [if_pos hfirst, Nat.mod_eq_of_lt (by omega), BitVec.getLsbD_shiftLeft,
          decide_eq_true (by omega), Bool.true_and]
        by_cases hlow : idx < shift
        · rw [if_pos hlow, decide_eq_true hlow, Bool.not_true, Bool.false_and]
        · rw [if_neg hlow, decide_eq_false hlow, Bool.not_false, Bool.true_and,
            ← planeBit_first _ (by omega), planeBit_shiftWordsLeft (by omega) (by omega),
            if_neg (by omega)]
      · rw [if_neg hfirst, if_pos (by omega), if_neg (by omega)]
    · rw [if_neg hzero, planeBit_maskTail (by split_ifs <;> simp [hlen]) hidx]
      have hmoved : planeBit (padWords 0 0 (shift / 64) (moveWordsLeft (shift / 64) (shift % 64)
          (wordCount size - shift / 64) plane)) idx =
          if idx < shift then false else planeBit plane (idx - shift) := by
        refine (planeBit_padWords (by rw [length_moveWordsLeft]; omega) false idx).trans ?_
        rw [planeBit_moveWordsLeft (Nat.mod_lt shift (by omega)) (by omega), Nat.div_add_mod]
        by_cases hlow : idx / 64 < shift / 64
        · rw [if_pos (by omega), if_pos (by omega)]
        · rw [if_neg (by omega), if_pos (by omega)]
      have hlenMoved : (padWords 0 0 (shift / 64) (moveWordsLeft (shift / 64) (shift % 64)
          (wordCount size - shift / 64) plane)).length = wordCount size := by simp [hlen]
      generalize padWords 0 0 (shift / 64) (moveWordsLeft (shift / 64) (shift % 64)
        (wordCount size - shift / 64) plane) = moved at hmoved hlenMoved ⊢
      by_cases hbit : shift % 64 ≠ 0
      · rw [if_pos hbit, planeBit_set (by omega)]
        by_cases hw : idx / 64 = shift / 64
        · have hword : (moved.getD (shift / 64) 0).getLsbD (idx % 64) = planeBit moved idx := by
            rw [planeBit_eq, hw]
          rw [if_pos hw, BitVec.getLsbD_and, hword, hmoved, BitVec.getLsbD_not,
            getLsbD_lowMask (by omega), decide_eq_true (by omega : idx % 64 < 64)]
          split_ifs with hlow
          · rfl
          · rw [decide_eq_false (by omega), Bool.not_false, Bool.and_true, Bool.and_true]
        · rw [if_neg hw, hmoved]
      · rw [if_neg hbit, hmoved]

end Left

/-! ## Down -/

/-- The words from 0 on, each shifted with the word above it. -/
def shiftWordsRight (shift : Nat) : Nat → List (BitVec 64) → List (BitVec 64)
  | 0, plane => plane
  | dst + 1, plane =>
    let plane := shiftWordsRight shift dst plane
    plane.set dst ((plane.getD dst 0 >>> shift) ||| (plane.getD (dst + 1) 0 <<< (64 - shift)))

/-- The bits that a turn of `mov` moves. -/
def movTrans (soff doff cnt : Nat) : Nat :=
  let trans := if soff + cnt > 64 then 64 - soff else cnt
  if doff + trans > 64 then 64 - doff else trans

theorem movTrans_eq {soff doff : Nat} (hsoff : soff < 64) (hdoff : doff < 64) (cnt : Nat) :
    movTrans soff doff cnt = min cnt (min (64 - soff) (64 - doff)) := by
  unfold movTrans
  dsimp only
  split_ifs <;> omega

theorem movTrans_pos (src dst : Nat) {cnt : Nat} (h : cnt ≠ 0) :
    0 < movTrans (src % 64) (dst % 64) cnt := by
  rw [movTrans_eq (Nat.mod_lt src (by omega)) (Nat.mod_lt dst (by omega))]
  omega

/-- `mov` of a vector of several words. -/
def movWords (dst src cnt : Nat) (plane : List (BitVec 64)) : List (BitVec 64) :=
  if cnt = 0 then plane
  else
    let sptr := src / 64
    let dptr := dst / 64
    let soff := src % 64
    let doff := dst % 64
    let trans := movTrans soff doff cnt
    if trans = 64 then
      movWords (dst + 64) (src + 64) (cnt - 64) (plane.set dptr (plane.getD sptr 0))
    else
      let vmask := lowMask trans
      let tmp := (plane.getD sptr 0 >>> soff) &&& vmask
      let plane := plane.set dptr (plane.getD dptr 0 &&& ~~~ (vmask <<< doff))
      let plane := plane.set dptr (plane.getD dptr 0 ||| tmp <<< doff)
      movWords (dst + trans) (src + trans) (cnt - trans) plane
termination_by cnt
decreasing_by
  · omega
  · exact Nat.sub_lt (Nat.pos_of_ne_zero ‹_›) (movTrans_pos src dst ‹_›)

/-- The loop that sets bits to those of the pad word, from `base` on. -/
def padBits (pad : BitVec 64) (base remain : Nat) (plane : List (BitVec 64)) : List (BitVec 64) :=
  if remain = 0 then plane
  else
    let wdx := base / 64
    let off := base % 64
    let trans := if 64 - off > remain then remain else 64 - off
    let mask := if trans = 64 then BitVec.allOnes 64 else lowMask trans <<< off
    padBits pad (base + trans) (remain - trans)
      (plane.set wdx ((plane.getD wdx 0 &&& ~~~ mask) ||| (pad &&& mask)))
termination_by remain
decreasing_by
  show remain - (if 64 - base % 64 > remain then remain else 64 - base % 64) < remain
  split_ifs <;> omega

/-- What `shiftr` does to either plane, with the word of the pad bit. -/
def shiftrPlane (size shift : Nat) (pad : BitVec 64) (plane : List (BitVec 64)) :
    List (BitVec 64) :=
  let keep := size - shift
  if size ≤ 64 then
    let sizeMask := if size = 64 then BitVec.allOnes 64 else lowMask size
    if keep = 0 then plane.set 0 (pad &&& sizeMask)
    else
      let keepMask := lowMask keep
      plane.set 0
        (((plane.getD 0 0 >>> shift) &&& keepMask) ||| (pad &&& sizeMask &&& ~~~ keepMask))
  else if shift < 64 ∧ size % 64 = 0 then
    let words := size / 64
    let reverseShift := 64 - shift
    let plane := shiftWordsRight shift (words - 1) plane
    let padMask := BitVec.allOnes 64 <<< reverseShift
    plane.set (words - 1) ((plane.getD (words - 1) 0 >>> shift) ||| (pad &&& padMask))
  else
    let plane := if keep > 0 then movWords 0 shift keep plane else plane
    padBits pad keep shift plane

section Right

variable {plane : List (BitVec 64)} {shift : Nat}

@[simp] theorem length_shiftWordsRight (n : Nat) :
    (shiftWordsRight shift n plane).length = plane.length := by
  induction n with
  | zero => rfl
  | succ n ih => rw [shiftWordsRight, List.length_set, ih]

@[simp] theorem length_movWords (dst src cnt : Nat) (plane : List (BitVec 64)) :
    (movWords dst src cnt plane).length = plane.length := by
  induction cnt using Nat.strong_induction_on generalizing dst src plane with
  | _ cnt ih =>
    rw [movWords]
    by_cases hzero : cnt = 0
    · rw [if_pos hzero]
    · rw [if_neg hzero]
      have htrans := movTrans_pos src dst hzero
      dsimp only
      split_ifs
      · rw [ih _ (by omega), List.length_set]
      · rw [ih _ (by omega), List.length_set, List.length_set]

@[simp] theorem length_padBits (pad : BitVec 64) (base remain : Nat) (plane : List (BitVec 64)) :
    (padBits pad base remain plane).length = plane.length := by
  induction remain using Nat.strong_induction_on generalizing base plane with
  | _ remain ih =>
    rw [padBits]
    split_ifs with hzero
    · rfl
    · rw [ih _ (by split_ifs <;> omega), List.length_set]

/-- The words that are shifted with the word above them. -/
theorem planeBit_shiftWordsRight {n : Nat} (hpos : 0 < shift) (hshift : shift < 64)
    (hn : n < plane.length) : ∀ idx, planeBit (shiftWordsRight shift n plane) idx =
      if idx < 64 * n then planeBit plane (idx + shift) else planeBit plane idx := by
  induction n with
  | zero => exact fun idx => by rw [shiftWordsRight, if_neg (by omega)]
  | succ n ih =>
    intro idx
    have hbit := ih (by omega)
    -- The words from `n` on are not written yet.
    have hlater : ∀ k i, i < 64 → n ≤ k →
        ((shiftWordsRight shift n plane).getD k 0).getLsbD i = planeBit plane (64 * k + i) := by
      intro k i hi hk
      rw [← planeBit_word _ _ hi, hbit, if_neg (by omega)]
    rw [shiftWordsRight, planeBit_set (by rw [length_shiftWordsRight]; omega)]
    by_cases hw : idx / 64 = n
    · have hfunnel := @getLsbD_funnel (64 - shift) (by omega)
        ((shiftWordsRight shift n plane).getD (n + 1) 0)
        ((shiftWordsRight shift n plane).getD n 0) (idx % 64) (Nat.mod_lt idx (by omega))
      rw [Nat.sub_sub_self (by omega), BitVec.or_comm] at hfunnel
      rw [if_pos hw, if_pos (by omega), hfunnel]
      split_ifs with hlow
      · rw [hlater _ _ (by omega) le_rfl]
        congr 1
        omega
      · rw [hlater _ _ (by omega) (by omega)]
        congr 1
        omega
    · rw [if_neg hw, hbit]
      by_cases hin : idx < 64 * n
      · rw [if_pos hin, if_pos (by omega)]
      · rw [if_neg hin, if_neg (by omega)]

/-- Bits of a word moved into another word. -/
theorem planeBit_movField {dst src trans : Nat} (htrans : trans < 64) (hsrc : src % 64 + trans ≤ 64)
    (hdst : dst % 64 + trans ≤ 64) (hlen : dst / 64 < plane.length) (idx : Nat) :
    planeBit ((plane.set (dst / 64)
        (plane.getD (dst / 64) 0 &&& ~~~ (lowMask trans <<< (dst % 64)))).set (dst / 64)
      ((plane.set (dst / 64)
        (plane.getD (dst / 64) 0 &&& ~~~ (lowMask trans <<< (dst % 64)))).getD (dst / 64) 0 |||
        ((plane.getD (src / 64) 0 >>> (src % 64)) &&& lowMask trans) <<< (dst % 64))) idx =
      if dst ≤ idx ∧ idx < dst + trans then planeBit plane (src + (idx - dst))
      else planeBit plane idx := by
  have hi : idx % 64 < 64 := Nat.mod_lt idx (by omega)
  have hword : (plane.set (dst / 64)
      (plane.getD (dst / 64) 0 &&& ~~~ (lowMask trans <<< (dst % 64)))).getD (dst / 64) 0 =
      plane.getD (dst / 64) 0 &&& ~~~ (lowMask trans <<< (dst % 64)) := by
    rw [List.getD_eq_getElem?_getD, List.getElem?_set_self hlen, Option.getD_some]
  rw [hword, List.set_set, planeBit_set hlen]
  by_cases hw : idx / 64 = dst / 64
  · rw [if_pos hw, BitVec.getLsbD_or, BitVec.getLsbD_and, BitVec.getLsbD_not,
      getLsbD_lowMask_shiftLeft htrans hi, getLsbD_masked_shiftLeft htrans _ hi,
      BitVec.getLsbD_ushiftRight, decide_eq_true hi, Bool.true_and]
    by_cases hin : dst ≤ idx ∧ idx < dst + trans
    · rw [if_pos hin, decide_eq_true (by omega), decide_eq_true (by omega),
        decide_eq_true (by omega), Bool.not_true, Bool.and_false, Bool.false_or, Bool.true_and,
        Bool.true_and, show src + (idx - dst) = 64 * (src / 64) + (src % 64 + (idx % 64 - dst % 64))
          by omega, planeBit_word _ _ (by omega)]
    · have hout : (decide (dst % 64 ≤ idx % 64) && decide (idx % 64 - dst % 64 < trans)) =
          false := by
        rw [← Bool.decide_and, decide_eq_false_iff_not]
        omega
      rw [if_neg hin, decide_eq_false (by omega), Bool.not_false, Bool.and_true, ← Bool.and_assoc,
        hout, Bool.false_and, Bool.or_false, planeBit_eq, hw]
  · rw [if_neg hw, if_neg (by omega)]

/-- Bits moved down. -/
theorem planeBit_movWords (cnt : Nat) : ∀ (dst src : Nat) (plane : List (BitVec 64)) (idx : Nat),
    dst ≤ src → src + cnt ≤ 64 * plane.length →
      planeBit (movWords dst src cnt plane) idx =
        if dst ≤ idx ∧ idx < dst + cnt then planeBit plane (src + (idx - dst))
        else planeBit plane idx := by
  induction cnt using Nat.strong_induction_on with
  | _ cnt ih =>
    intro dst src plane idx hle hend
    rw [movWords]
    by_cases hzero : cnt = 0
    · rw [if_pos hzero, if_neg (by omega)]
    · have htrans := movTrans_eq (Nat.mod_lt src (by omega)) (Nat.mod_lt dst (by omega)) cnt
      rw [if_neg hzero]
      dsimp only
      generalize movTrans (src % 64) (dst % 64) cnt = trans at htrans ⊢
      -- What is left is read above the bits that are written.
      have hrest : ∀ moved : List (BitVec 64), moved.length = plane.length →
          (∀ idx, planeBit moved idx = if dst ≤ idx ∧ idx < dst + trans
            then planeBit plane (src + (idx - dst)) else planeBit plane idx) →
          planeBit (movWords (dst + trans) (src + trans) (cnt - trans) moved) idx =
            if dst ≤ idx ∧ idx < dst + cnt then planeBit plane (src + (idx - dst))
            else planeBit plane idx := by
        intro moved hlen hmoved
        rw [ih (cnt - trans) (by omega) _ _ moved idx (by omega) (by rw [hlen]; omega)]
        by_cases hlate : dst + trans ≤ idx ∧ idx < dst + trans + (cnt - trans)
        · rw [if_pos hlate, if_pos (by omega), hmoved, if_neg (by omega)]
          congr 1
          omega
        · rw [if_neg hlate, hmoved]
          by_cases hfirst : dst ≤ idx ∧ idx < dst + trans
          · rw [if_pos hfirst, if_pos (by omega)]
          · rw [if_neg hfirst, if_neg (by omega)]
      by_cases hfull : trans = 64
      · rw [if_pos hfull]
        have hword := hrest (plane.set (dst / 64) (plane.getD (src / 64) 0)) List.length_set
          (fun idx => by
            rw [planeBit_set (by omega)]
            by_cases hw : idx / 64 = dst / 64
            · rw [if_pos hw, if_pos (by omega), ← planeBit_word _ _ (Nat.mod_lt idx (by omega))]
              congr 1
              omega
            · rw [if_neg hw, if_neg (by omega)])
        rwa [hfull] at hword
      · rw [if_neg hfull]
        exact hrest _ (by rw [List.length_set, List.length_set]) fun idx =>
          planeBit_movField (by omega) (by omega) (by omega) (by omega) idx

/-- The bits that are set to the pad bit. -/
theorem planeBit_padBits (bit : Bool) (remain : Nat) :
    ∀ (base : Nat) (plane : List (BitVec 64)) (idx : Nat), base + remain ≤ 64 * plane.length →
      planeBit (padBits (padWord bit) base remain plane) idx =
        if base ≤ idx ∧ idx < base + remain then bit else planeBit plane idx := by
  induction remain using Nat.strong_induction_on with
  | _ remain ih =>
    intro base plane idx hend
    rw [padBits]
    by_cases hzero : remain = 0
    · rw [if_pos hzero, if_neg (by omega)]
    · have htrans : (if 64 - base % 64 > remain then remain else 64 - base % 64) =
          min remain (64 - base % 64) := by
        split_ifs <;> omega
      rw [if_neg hzero]
      dsimp only
      rw [htrans]
      have hi : idx % 64 < 64 := Nat.mod_lt idx (by omega)
      have hmask : (if min remain (64 - base % 64) = 64 then BitVec.allOnes 64
          else lowMask (min remain (64 - base % 64)) <<< (base % 64)).getLsbD (idx % 64) =
          decide (base % 64 ≤ idx % 64 ∧ idx % 64 < base % 64 + min remain (64 - base % 64)) := by
        split_ifs with hfull
        · rw [BitVec.getLsbD_allOnes]
          exact decide_eq_decide.mpr (by omega)
        · rw [getLsbD_lowMask_shiftLeft (by omega) hi]
      rw [ih _ (by omega) _ _ idx (by rw [List.length_set]; omega), planeBit_set (by omega),
        BitVec.getLsbD_or, BitVec.getLsbD_and, BitVec.getLsbD_and, BitVec.getLsbD_not, hmask,
        getLsbD_padWord bit hi, decide_eq_true hi, Bool.true_and]
      by_cases hlate : base + min remain (64 - base % 64) ≤ idx ∧ idx < base + remain
      · rw [if_pos (by omega), if_pos (by omega)]
      · rw [if_neg (by omega)]
        by_cases hw : idx / 64 = base / 64
        · rw [if_pos hw]
          by_cases hin : base ≤ idx ∧ idx < base + remain
          · rw [if_pos hin, decide_eq_true (by omega), Bool.not_true, Bool.and_false, Bool.and_true,
              Bool.false_or]
          · rw [if_neg hin, decide_eq_false (by omega), Bool.not_false, Bool.and_true,
              Bool.and_false, Bool.or_false, planeBit_eq, hw]
        · rw [if_neg hw, if_neg (by omega)]

/-- The bits moved down, and the pad bit from above. -/
theorem planeBit_shiftrPlane {size idx : Nat} (bit : Bool) (hlen : plane.length = planeWords size)
    (hpos : 0 < shift) (hshift : shift ≤ size) (hidx : idx < size) :
    planeBit (shiftrPlane size shift (padWord bit) plane) idx =
      if idx < size - shift then planeBit plane (idx + shift) else bit := by
  have hwords := le_planeWords size
  unfold shiftrPlane
  dsimp only
  by_cases hshort : size ≤ 64
  · have hmask := getLsbD_sizeMask hshort hidx
    rw [if_pos hshort]
    by_cases hzero : size - shift = 0
    · rw [if_pos hzero, planeBit_set (by omega), if_pos (by omega), Nat.mod_eq_of_lt (by omega),
        BitVec.getLsbD_and, hmask, Bool.and_true, getLsbD_padWord _ (by omega), if_neg (by omega)]
    · rw [if_neg hzero, planeBit_set (by omega), if_pos (by omega), Nat.mod_eq_of_lt (by omega),
        BitVec.getLsbD_or, BitVec.getLsbD_and, BitVec.getLsbD_and, BitVec.getLsbD_and, hmask,
        BitVec.getLsbD_not, getLsbD_lowMask (by omega), getLsbD_padWord _ (by omega),
        BitVec.getLsbD_ushiftRight, decide_eq_true (by omega : idx < 64), Bool.true_and,
        Bool.and_true]
      by_cases hlow : idx < size - shift
      · rw [if_pos hlow, decide_eq_true hlow, Bool.and_true, Bool.not_true, Bool.and_false,
          Bool.or_false, planeBit_first _ (by omega), Nat.add_comm]
      · rw [if_neg hlow, decide_eq_false hlow, Bool.and_false, Bool.not_false, Bool.and_true,
          Bool.false_or]
  · rw [if_neg hshort]
    by_cases hfast : shift < 64 ∧ size % 64 = 0
    · have hcount : plane.length = size / 64 := by
        rw [hlen, planeWords_of_long (by omega), wordCount]
        omega
      have hi : idx % 64 < 64 := Nat.mod_lt idx (by omega)
      rw [if_pos hfast, planeBit_set (by rw [length_shiftWordsRight]; omega)]
      have hbit := @planeBit_shiftWordsRight plane shift (size / 64 - 1) hpos hfast.1 (by omega)
      by_cases hw : idx / 64 = size / 64 - 1
      · rw [if_pos hw, BitVec.getLsbD_or, BitVec.getLsbD_and, BitVec.getLsbD_ushiftRight,
          BitVec.getLsbD_shiftLeft, BitVec.getLsbD_allOnes, getLsbD_padWord _ hi, decide_eq_true hi,
          Bool.true_and]
        by_cases hlow : shift + idx % 64 < 64
        · rw [if_pos (by omega), decide_eq_true (by omega), Bool.not_true, Bool.false_and,
            Bool.and_false, Bool.or_false, ← planeBit_word _ _ hlow, hbit, if_neg (by omega)]
          congr 1
          omega
        · rw [if_neg (by omega), BitVec.getLsbD_of_ge _ _ (by omega), decide_eq_false (by omega),
            decide_eq_true (by omega), Bool.not_false, Bool.and_true, Bool.and_true, Bool.false_or]
      · rw [if_neg hw, hbit, if_pos (by omega), if_pos (by omega)]
    · have hmoved : (if size - shift > 0 then movWords 0 shift (size - shift) plane
          else plane).length = plane.length := by
        split_ifs
        · exact length_movWords 0 shift (size - shift) plane
        · rfl
      rw [if_neg hfast, planeBit_padBits _ _ _ _ _ (by omega)]
      by_cases hpad : size - shift ≤ idx ∧ idx < size - shift + shift
      · rw [if_pos hpad, if_neg (by omega)]
      · have hkeep : size - shift > 0 := by omega
        rw [if_neg hpad, if_pos hkeep, planeBit_movWords _ _ _ _ _ (by omega) (by omega),
          if_pos (by omega), if_pos (by omega)]
        congr 1
        omega

theorem length_shiftrPlane (size shift : Nat) (pad : BitVec 64) (plane : List (BitVec 64)) :
    (shiftrPlane size shift pad plane).length = plane.length := by
  unfold shiftrPlane
  dsimp only
  split_ifs <;> simp

end Right

/-! ## Vectors -/

namespace Planes

variable {v : Planes}

/-- `fill_bits`. -/
def fillBits (v : Planes) (bit : Bit4) : Planes := allocateBits v.size bit

/-- `shiftl`; the shift is at most the size by assertion. -/
def shiftl (v : Planes) (shift : Nat) : Option Planes :=
  if shift ≤ v.size then
    if shift = 0 then some v
    else if shift = v.size then some (v.fillBits .zero)
    else
      some
        { size := v.size
          abits := shiftlPlane v.size shift v.abits
          bbits := shiftlPlane v.size shift v.bbits
          length_abits := by rw [length_shiftlPlane, v.length_abits]
          length_bbits := by rw [length_shiftlPlane, v.length_bbits] }
  else none

/-- `shiftr`; the shift is at most the size by assertion. -/
def shiftr (v : Planes) (shift : Nat) (padBit : Bit4) : Option Planes :=
  if shift ≤ v.size then
    if shift = 0 then some v
    else
      some
        { size := v.size
          abits := shiftrPlane v.size shift (padWord padBit.abit) v.abits
          bbits := shiftrPlane v.size shift (padWord padBit.bbit) v.bbits
          length_abits := by rw [length_shiftrPlane, v.length_abits]
          length_bbits := by rw [length_shiftrPlane, v.length_bbits] }
  else none

theorem shiftl_spec {shift : Nat} (hshift : shift ≤ v.size) :
    ∃ r, v.shiftl shift = some r ∧ r.size = v.size ∧
      ∀ idx < v.size, r.value idx = if idx < shift then .zero else v.value (idx - shift) := by
  rw [shiftl, if_pos hshift]
  split_ifs with hzero hall
  · refine ⟨v, rfl, rfl, fun idx _ => ?_⟩
    rw [hzero, if_neg (Nat.not_lt_zero idx), Nat.sub_zero]
  · refine ⟨_, rfl, rfl, fun idx hidx => ?_⟩
    rw [fillBits, value_allocateBits _ hidx, if_pos (hall ▸ hidx)]
  · refine ⟨_, rfl, rfl, fun idx hidx => ?_⟩
    refine (value_of_lt (by exact hidx)).trans ?_
    rw [planeBit_shiftlPlane v.length_abits (by omega) (by omega) hidx,
      planeBit_shiftlPlane v.length_bbits (by omega) (by omega) hidx]
    split_ifs with hlow
    · rfl
    · rw [value_of_lt (by omega)]

theorem shiftr_spec {shift : Nat} (hshift : shift ≤ v.size) (padBit : Bit4) :
    ∃ r, v.shiftr shift padBit = some r ∧ r.size = v.size ∧
      ∀ idx < v.size, r.value idx =
        if idx < v.size - shift then v.value (idx + shift) else padBit := by
  rw [shiftr, if_pos hshift]
  split_ifs with hzero
  · refine ⟨v, rfl, rfl, fun idx hidx => ?_⟩
    rw [hzero, Nat.sub_zero, if_pos hidx, Nat.add_zero]
  · refine ⟨_, rfl, rfl, fun idx hidx => ?_⟩
    refine (value_of_lt (by exact hidx)).trans ?_
    rw [planeBit_shiftrPlane _ v.length_abits (by omega) hshift hidx,
      planeBit_shiftrPlane _ v.length_bbits (by omega) hshift hidx]
    split_ifs with hlow
    · rw [value_of_lt (by omega)]
    · exact bitOf_abit_bbit padBit

/-- `shiftl` shifts in zeros. -/
theorem toVector4_shiftl {shift : Nat} (hshift : shift ≤ v.size) :
    ∃ r, v.shiftl shift = some r ∧ r.toVector4 = v.toVector4.shiftl shift := by
  obtain ⟨r, hr, hsize, hvalue⟩ := shiftl_spec hshift
  refine ⟨r, hr, toVector4_eq ?_ fun idx hidx => ?_⟩
  · rw [Vector4.length_shiftl, length_toVector4, hsize]
  · rw [hsize] at hidx
    rw [Vector4.getElem?_shiftl _ _ (by rwa [length_toVector4]), hvalue idx hidx,
      getElem?_toVector4]
    by_cases hlow : idx < shift
    · rw [if_pos hlow, if_pos hlow]
    · rw [if_neg hlow, if_neg hlow, if_pos (by omega)]

/-- `shiftr` shifts in the pad bit. -/
theorem toVector4_shiftr {shift : Nat} (hshift : shift ≤ v.size) (padBit : Bit4) :
    ∃ r, v.shiftr shift padBit = some r ∧ r.toVector4 = v.toVector4.shiftr shift padBit := by
  obtain ⟨r, hr, hsize, hvalue⟩ := shiftr_spec hshift padBit
  have hle : shift ≤ v.toVector4.length := by rwa [length_toVector4]
  refine ⟨r, hr, toVector4_eq ?_ fun idx hidx => ?_⟩
  · rw [Vector4.length_shiftr _ hle, length_toVector4, hsize]
  · rw [hsize] at hidx
    rw [Vector4.getElem?_shiftr _ (by rwa [length_toVector4]) hle, length_toVector4,
      hvalue idx hidx, getElem?_toVector4]
    split_ifs
    · rfl
    · omega
    · rfl

end Planes

end Icarus.Vvp
