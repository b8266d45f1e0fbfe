import Icarus.Vvp.Planes.Basic
import Icarus.Vvp.Thread.Wide

/-!
# Sums and differences of vectors in planes

`add` and `sub` change a vector in place. The operand may be the vector itself, so its words are
read from the state that the loop has reached. An X or Z bit found in any word leaves for the
label that overwrites the whole vector.
-/

namespace Icarus.Vvp

open Icarus.Core

/-- The argument `that` of an operation in place: another vector, or `*this`. -/
inductive Operand
  | other (that : Planes)
  | this

/-- The argument, when the vector has reached a state. -/
def Operand.read : Operand → Planes → Planes
  | .other that, _ => that
  | .this, v => v

namespace Planes

/-- `add`, `sub` and `mul` on vectors of at most one word. -/
def wordOp (op : BitVec 64 → BitVec 64 → BitVec 64) (v : Planes) (that : Operand) : Planes :=
  if v.size < 64 then
    let mask := ~~~ (BitVec.allOnes 64 <<< v.size)
    if (v.bword 0 ||| (that.read v).bword 0) &&& mask ≠ 0 then
      (v.setA 0 (v.aword 0 ||| mask)).setB 0 (v.bword 0 ||| mask)
    else
      let v := v.setA 0 (op (v.aword 0) ((that.read v).aword 0))
      v.setA 0 (v.aword 0 &&& mask)
  else if v.bword 0 ||| (that.read v).bword 0 ≠ 0 then
    (v.setA 0 (BitVec.allOnes 64)).setB 0 (BitVec.allOnes 64)
  else v.setA 0 (op (v.aword 0) ((that.read v).aword 0))

/-- The low words of both planes set to X. -/
def xWords : Nat → Planes → Planes
  | 0, v => v
  | idx + 1, v => ((xWords idx v).setA idx (BitVec.allOnes 64)).setB idx (BitVec.allOnes 64)

/-- The label `x_out`. -/
def xOut (v : Planes) : Planes :=
  let cnt := v.size / 64
  let v := xWords cnt v
  if v.size % 64 > 0 then
    let mask := ~~~ (BitVec.allOnes 64 <<< (v.size % 64))
    (v.setA cnt (BitVec.allOnes 64 &&& mask)).setB cnt (BitVec.allOnes 64 &&& mask)
  else v

/-- The loop of `add` and `sub` over the full words, with what happens to the operand's words on
the way. An X or Z bit goes to `x_out`. -/
def addWords (rhs : BitVec 64 → BitVec 64) (that : Operand) (carry : BitVec 64) (v : Planes) :
    Nat → Except Planes (Planes × BitVec 64)
  | 0 => .ok (v, carry)
  | idx + 1 =>
    match addWords rhs that carry v idx with
    | .error v => .error v
    | .ok (v, carry) =>
      if v.bword idx ||| (that.read v).bword idx ≠ 0 then .error v
      else
        let (word, carry) := addWithCarry (v.aword idx) (rhs ((that.read v).aword idx)) carry
        .ok (v.setA idx word, carry)

/-- The part of a word that is left after the loop. -/
def addTail (rhs : BitVec 64 → BitVec 64) (that : Operand) (v : Planes) (carry : BitVec 64) :
    Except Planes Planes :=
  let cnt := v.size / 64
  if v.size % 64 > 0 then
    let mask := ~~~ (BitVec.allOnes 64 <<< (v.size % 64))
    if (v.bword cnt ||| (that.read v).bword cnt) &&& mask ≠ 0 then .error v
    else
      let v := v.setA cnt (addWithCarry (v.aword cnt) (rhs ((that.read v).aword cnt)) carry).1
      .ok (v.setA cnt (v.aword cnt &&& mask))
  else .ok v

/-- `add` and `sub`, on the words of vectors longer than one word. -/
def addLong (rhs : BitVec 64 → BitVec 64) (carry : BitVec 64) (v : Planes) (that : Operand) :
    Planes :=
  match addWords rhs that carry v (v.size / 64) with
  | .error v => xOut v
  | .ok (v, carry) =>
    match addTail rhs that v carry with
    | .error v => xOut v
    | .ok v => v

/-- `add`; the sizes agree by assertion. -/
def add (v : Planes) (that : Operand) : Option Planes :=
  if v.size = (that.read v).size then
    some (if v.size ≤ 64 then wordOp (· + ·) v that else addLong id 0 v that)
  else none

/-- `sub`; the sizes agree by assertion. -/
def sub (v : Planes) (that : Operand) : Option Planes :=
  if v.size = (that.read v).size then
    some (if v.size ≤ 64 then wordOp (· - ·) v that else addLong (~~~ ·) 1 v that)
  else none

/-! ## Words of the planes -/

section Words

variable (v : Planes) (wdx : Nat) (word : BitVec 64)

@[simp] theorem size_setA : (v.setA wdx word).size = v.size := rfl

@[simp] theorem size_setB : (v.setB wdx word).size = v.size := rfl

@[simp] theorem bbits_setA : (v.setA wdx word).bbits = v.bbits := rfl

end Words

theorem getD_set {xs : List (BitVec 64)} {wdx : Nat} (h : wdx < xs.length)
    (word : BitVec 64) (idx : Nat) :
    (xs.set wdx word).getD idx 0 = if idx = wdx then word else xs.getD idx 0 := by
  rw [List.getD_eq_getElem?_getD, List.getElem?_set, List.getD_eq_getElem?_getD]
  by_cases heq : idx = wdx
  · rw [if_pos heq.symm, if_pos h, if_pos heq, Option.getD_some]
  · rw [if_neg fun h => heq h.symm, if_neg heq]

theorem aword_setA {v : Planes} {wdx : Nat} (h : wdx < planeWords v.size) (word : BitVec 64)
    (idx : Nat) : (v.setA wdx word).aword idx = if idx = wdx then word else v.aword idx :=
  getD_set (v.length_abits ▸ h) word idx

theorem bword_setB {v : Planes} {wdx : Nat} (h : wdx < planeWords v.size) (word : BitVec 64)
    (idx : Nat) : (v.setB wdx word).bword idx = if idx = wdx then word else v.bword idx :=
  getD_set (v.length_bbits ▸ h) word idx

/-- The words below one that is assigned. -/
theorem take_set {xs : List (BitVec 64)} {idx wdx : Nat} (h : idx ≤ wdx) (word : BitVec 64) :
    (xs.set wdx word).take idx = xs.take idx := List.take_set_of_le h

/-- The last word assigned. -/
theorem value_set_last {xs : List (BitVec 64)} {k : Nat} (hlen : xs.length = k + 1)
    (word : BitVec 64) :
    Words.value (xs.set k word) = Words.value (xs.take k) + 2 ^ (64 * k) * word.toNat := by
  have hle : (xs.set k word).length ≤ k + 1 := by rw [List.length_set, hlen]
  calc Words.value (xs.set k word) = Words.value ((xs.set k word).take (k + 1)) := by
        rw [List.take_of_length_le hle]
    _ = Words.value (xs.take k) + 2 ^ (64 * k) * word.toNat := by
        rw [Words.value_take_succ, take_set le_rfl, getD_set (by omega), if_pos rfl]

/-- A vector of at most one word is the number in that word. -/
theorem value_of_short {size : Nat} {plane : List (BitVec 64)}
    (hlen : plane.length = planeWords size) (hs : size ≤ 64) :
    Words.value plane = (plane.getD 0 0).toNat := by
  rw [planeWords, if_pos hs] at hlen
  obtain ⟨word, rfl⟩ := List.length_eq_one_iff.mp hlen
  simp

theorem and_eq_zero_iff (x mask : BitVec 64) :
    x &&& mask = 0 ↔ ∀ i < 64, mask.getLsbD i = true → x.getLsbD i = false := by
  constructor
  · intro h i hi hm
    have hbit := congrArg (·.getLsbD i) h
    simpa [hm] using hbit
  · intro h
    apply BitVec.eq_of_getLsbD_eq
    intro i hi
    rw [BitVec.getLsbD_and]
    cases hm : mask.getLsbD i
    · simp
    · rw [h i hi hm]
      simp

theorem eq_zero_iff (x : BitVec 64) : x = 0 ↔ ∀ i < 64, x.getLsbD i = false := by
  constructor
  · rintro rfl i _
    exact BitVec.getLsbD_zero
  · intro h
    apply BitVec.eq_of_getLsbD_eq
    intro i hi
    rw [h i hi]
    exact BitVec.getLsbD_zero.symm

theorem or_eq_zero_iff (x y : BitVec 64) : x ||| y = 0 ↔ x = 0 ∧ y = 0 := by
  simp only [eq_zero_iff, BitVec.getLsbD_or, Bool.or_eq_false_iff, ← forall₂_and]

/-! ## Vectors of at most one word -/

section Short

variable {v : Planes} {that : Operand}

/-- A vector of at most one word without X and Z. -/
theorem hasXz_short (hs : v.size ≤ 64) :
    v.toVector4.hasXz = false ↔ ∀ i < v.size, (v.bword 0).getLsbD i = false := by
  rw [hasXz_eq_false_iff]
  refine forall₂_congr fun i hi => ?_
  rw [planeBit_first _ (by omega)]
  rfl

/-- The number in the first word. -/
theorem toVector4_short (w : Planes) (hs : w.size ≤ 64)
    (hclear : ∀ idx < w.size, planeBit w.bbits idx = false) :
    w.toVector4 = Vector4.ofNat w.size (w.aword 0).toNat := by
  rw [toVector4_of_clear hclear, value_of_short w.length_abits hs]
  rfl

/-- The test of both operands, below the size. -/
theorem masked_or_eq_zero (hs : v.size < 64) (hsize : (that.read v).size = v.size) :
    (v.bword 0 ||| (that.read v).bword 0) &&& ~~~ (BitVec.allOnes 64 <<< v.size) = 0 ↔
      v.toVector4.hasXz = false ∧ (that.read v).toVector4.hasXz = false := by
  rw [not_allOnes_shiftLeft hs, and_eq_zero_iff, hasXz_short hs.le, hasXz_short (by omega), hsize,
    ← forall₂_and]
  constructor
  · intro h i hi
    have hbit := h i (by omega) (by rw [getLsbD_lowMask hs, decide_eq_true hi])
    rwa [BitVec.getLsbD_or, Bool.or_eq_false_iff] at hbit
  · intro h i _ hm
    rw [getLsbD_lowMask hs, decide_eq_true_eq] at hm
    rw [BitVec.getLsbD_or, Bool.or_eq_false_iff]
    exact h i hm

/-- The test of both operands of exactly one word. -/
theorem or_eq_zero_of_word (hs : v.size = 64) (hsize : (that.read v).size = v.size) :
    v.bword 0 ||| (that.read v).bword 0 = 0 ↔
      v.toVector4.hasXz = false ∧ (that.read v).toVector4.hasXz = false := by
  rw [or_eq_zero_iff, hasXz_short hs.le, hasXz_short (by omega), hsize, hs, eq_zero_iff,
    eq_zero_iff]

theorem size_wordOp (op : BitVec 64 → BitVec 64 → BitVec 64) :
    (wordOp op v that).size = v.size := by
  unfold wordOp
  dsimp only
  split_ifs <;> rfl

/-- An X or Z bit in either operand makes the result X. -/
theorem wordOp_of_xz (op : BitVec 64 → BitVec 64 → BitVec 64) (hs : v.size ≤ 64)
    (hsize : (that.read v).size = v.size)
    (h : ¬ (v.toVector4.hasXz = false ∧ (that.read v).toVector4.hasXz = false)) :
    (wordOp op v that).toVector4 = List.replicate v.size .x := by
  have hpos := planeWords_pos v.size
  rcases hs.lt_or_eq with hlt | heq
  · have hcond := mt (masked_or_eq_zero hlt hsize).mp h
    have hop : wordOp op v that = (v.setA 0 (v.aword 0 ||| ~~~ (BitVec.allOnes 64 <<< v.size))).setB
        0 (v.bword 0 ||| ~~~ (BitVec.allOnes 64 <<< v.size)) := by
      rw [wordOp, if_pos hlt]
      exact if_pos hcond
    rw [hop]
    refine toVector4_of_set (fun idx hidx => ?_)
    have hidx' : idx < v.size := hidx
    have hmask : (~~~ (BitVec.allOnes 64 <<< v.size)).getLsbD idx = true := by
      rw [not_allOnes_shiftLeft hlt, getLsbD_lowMask hlt, decide_eq_true hidx']
    constructor
    · refine (planeBit_first _ (by omega)).trans ?_
      show ((v.setA 0 _).aword 0).getLsbD idx = true
      rw [aword_setA hpos, if_pos rfl, BitVec.getLsbD_or, hmask, Bool.or_true]
    · refine (planeBit_first _ (by omega)).trans ?_
      show (((v.setA 0 _).setB 0 _).bword 0).getLsbD idx = true
      rw [bword_setB (v := v.setA 0 _) hpos, if_pos rfl, BitVec.getLsbD_or, hmask, Bool.or_true]
  · have hcond := mt (or_eq_zero_of_word heq hsize).mp h
    have hop : wordOp op v that = (v.setA 0 (BitVec.allOnes 64)).setB 0 (BitVec.allOnes 64) := by
      rw [wordOp, if_neg heq.not_lt]
      exact if_pos hcond
    rw [hop]
    refine toVector4_of_set (fun idx hidx => ?_)
    have hidx' : idx < 64 := heq ▸ hidx
    have hone : (BitVec.allOnes 64).getLsbD idx = true := by
      rw [BitVec.getLsbD_allOnes, decide_eq_true hidx']
    constructor
    · refine (planeBit_first _ hidx').trans ?_
      show ((v.setA 0 _).aword 0).getLsbD idx = true
      rw [aword_setA hpos, if_pos rfl, hone]
    · refine (planeBit_first _ hidx').trans ?_
      show (((v.setA 0 _).setB 0 _).bword 0).getLsbD idx = true
      rw [bword_setB (v := v.setA 0 _) hpos, if_pos rfl, hone]

/-- Else the words are combined, modulo the power of the size. -/
theorem wordOp_of_known (op : BitVec 64 → BitVec 64 → BitVec 64) (hs : v.size ≤ 64)
    (hsize : (that.read v).size = v.size) (hv : v.toVector4.hasXz = false)
    (ht : (that.read v).toVector4.hasXz = false) :
    (wordOp op v that).toVector4 =
      Vector4.ofNat v.size (op (v.aword 0) ((that.read v).aword 0)).toNat := by
  have hpos := planeWords_pos v.size
  have hclear := (hasXz_eq_false_iff v).mp hv
  rcases hs.lt_or_eq with hlt | heq
  · have hcond := (masked_or_eq_zero hlt hsize).mpr ⟨hv, ht⟩
    have hop : wordOp op v that = (v.setA 0 (op (v.aword 0) ((that.read v).aword 0))).setA 0
        ((v.setA 0 (op (v.aword 0) ((that.read v).aword 0))).aword 0 &&&
          ~~~ (BitVec.allOnes 64 <<< v.size)) := by
      rw [wordOp, if_pos hlt]
      exact if_neg (not_not.mpr hcond)
    rw [hop]
    refine (toVector4_short ((v.setA 0 _).setA 0 _) hs hclear).trans ?_
    show Vector4.ofNat v.size (((v.setA 0 _).setA 0 _).aword 0).toNat = _
    rw [aword_setA (v := v.setA 0 _) hpos, if_pos rfl, aword_setA hpos, if_pos rfl,
      not_allOnes_shiftLeft hlt, toNat_and_lowMask _ hlt, Vector4.ofNat_eq_iff, Nat.mod_mod]
  · have hcond := (or_eq_zero_of_word heq hsize).mpr ⟨hv, ht⟩
    have hop : wordOp op v that = v.setA 0 (op (v.aword 0) ((that.read v).aword 0)) := by
      rw [wordOp, if_neg heq.not_lt]
      exact if_neg (not_not.mpr hcond)
    rw [hop]
    refine (toVector4_short (v.setA 0 _) hs hclear).trans ?_
    show Vector4.ofNat v.size ((v.setA 0 _).aword 0).toNat = _
    rw [aword_setA hpos, if_pos rfl]

/-- The number of a vector of at most one word. -/
theorem toNat_short (hs : v.size ≤ 64) (hv : v.toVector4.hasXz = false) :
    v.toVector4.toNat = (v.aword 0).toNat % 2 ^ v.size := by
  rw [toNat_toVector4 hv, value_of_short v.length_abits hs]
  rfl

end Short

/-! ## All X -/

theorem xWords_spec {v : Planes} {n : Nat} (h : n ≤ planeWords v.size) :
    (xWords n v).size = v.size ∧
      ∀ j < n, (xWords n v).aword j = BitVec.allOnes 64 ∧ (xWords n v).bword j = BitVec.allOnes 64 := by
  induction n with
  | zero => exact ⟨rfl, fun j hj => absurd hj (Nat.not_lt_zero j)⟩
  | succ n ih =>
    obtain ⟨hsize, hwords⟩ := ih (by omega)
    have hlt : n < planeWords (xWords n v).size := by
      rw [hsize]
      omega
    refine ⟨hsize, fun j hj => ?_⟩
    have ha : (xWords (n + 1) v).aword j =
        if j = n then BitVec.allOnes 64 else (xWords n v).aword j := aword_setA hlt _ j
    have hb : (xWords (n + 1) v).bword j =
        if j = n then BitVec.allOnes 64 else (xWords n v).bword j :=
      bword_setB (v := (xWords n v).setA n _) hlt _ j
    rw [ha, hb]
    split_ifs with hjn
    · exact ⟨rfl, rfl⟩
    · exact hwords j (by omega)

/-- A vector left through `x_out` is X. -/
theorem toVector4_xOut {v : Planes} {size : Nat} (hsize : v.size = size) :
    (xOut v).size = size ∧ (xOut v).toVector4 = List.replicate size .x := by
  subst hsize
  have hwords := le_planeWords v.size
  obtain ⟨hsize, hset⟩ := @xWords_spec v (v.size / 64) (by omega)
  have hone : ∀ i, i < 64 → (BitVec.allOnes 64).getLsbD i = true := by
    intro i hi
    rw [BitVec.getLsbD_allOnes, decide_eq_true hi]
  unfold xOut
  dsimp only
  generalize xWords (v.size / 64) v = w at hsize hset ⊢
  rw [← hsize] at hwords hset ⊢
  by_cases htail : w.size % 64 > 0
  · rw [if_pos htail]
    refine ⟨rfl, toVector4_of_set (fun idx hidx => ?_)⟩
    have hidx' : idx < w.size := hidx
    have hcnt : w.size / 64 < planeWords w.size := by omega
    have hmask : idx / 64 = w.size / 64 →
        (BitVec.allOnes 64 &&& ~~~ (BitVec.allOnes 64 <<< (w.size % 64))).getLsbD (idx % 64) =
          true := by
      intro heq
      rw [BitVec.getLsbD_and, hone _ (by omega), Bool.true_and, not_allOnes_shiftLeft (by omega),
        getLsbD_lowMask (by omega), decide_eq_true (by omega)]
    constructor
    · show ((w.setA (w.size / 64) _).aword (idx / 64)).getLsbD _ = true
      rw [aword_setA hcnt]
      split_ifs with heq
      · exact hmask heq
      · rw [(hset _ (by omega)).1, hone _ (by omega)]
    · show (((w.setA _ _).setB (w.size / 64) _).bword (idx / 64)).getLsbD _ = true
      rw [bword_setB (v := w.setA _ _) hcnt]
      split_ifs with heq
      · exact hmask heq
      · have hb := (hset (idx / 64) (by omega)).2
        exact (congrArg (·.getLsbD (idx % 64)) hb).trans (hone _ (by omega))
  · rw [if_neg htail]
    refine ⟨rfl, toVector4_of_set (fun idx hidx => ?_)⟩
    obtain ⟨ha, hb⟩ := hset (idx / 64) (by omega)
    constructor
    · exact (congrArg (·.getLsbD (idx % 64)) ha).trans (hone _ (by omega))
    · exact (congrArg (·.getLsbD (idx % 64)) hb).trans (hone _ (by omega))

/-! ## Vectors of several words -/

section Long

variable {rhs : BitVec 64 → BitVec 64} {that : Operand} {carry : BitVec 64} {v : Planes}

/-- What the loop has done below a word. -/
structure Added (rhs : BitVec 64 → BitVec 64) (that : Operand) (carry : BitVec 64) (v : Planes)
    (idx : Nat) (w : Planes) (out : BitVec 64) : Prop where
  size : w.size = v.size
  bbits : w.bbits = v.bbits
  later : ∀ j, idx ≤ j → w.aword j = v.aword j
  carry_le : out.toNat ≤ 1
  known : ∀ j < idx, v.bword j ||| (that.read v).bword j = 0
  total : Words.value (w.abits.take idx) + 2 ^ (64 * idx) * out.toNat =
    Words.value (v.abits.take idx) + Words.value (((that.read v).abits.map rhs).take idx) +
      carry.toNat

theorem bword_read {w : Planes} (h : w.bbits = v.bbits) (j : Nat) :
    (that.read w).bword j = (that.read v).bword j := by
  cases that with
  | other that => rfl
  | this => exact congrArg (·.getD j 0) h

theorem aword_read {w : Planes} {j : Nat} (h : w.aword j = v.aword j) :
    (that.read w).aword j = (that.read v).aword j := by
  cases that with
  | other that => rfl
  | this => exact h

/-- A word of the operand on the way into the sum. -/
private theorem getD_map {t : Planes} {idx : Nat} (h : idx < planeWords t.size) :
    (t.abits.map rhs).getD idx 0 = rhs (t.aword idx) := by
  have hlt : idx < t.abits.length := t.length_abits ▸ h
  rw [aword, List.getD_eq_getElem?_getD, List.getD_eq_getElem?_getD, List.getElem?_map,
    List.getElem?_eq_getElem hlt]
  rfl

/-- One word is added. -/
theorem Added.step {idx : Nat} {w : Planes} {out : BitVec 64} (h : Added rhs that carry v idx w out)
    (hlt : idx < planeWords v.size) (hsize : (that.read v).size = v.size) :
    Words.value ((w.setA idx (addWithCarry (w.aword idx) (rhs ((that.read w).aword idx)) out).1
          ).abits.take (idx + 1)) +
        2 ^ (64 * (idx + 1)) *
          (addWithCarry (w.aword idx) (rhs ((that.read w).aword idx)) out).2.toNat =
      Words.value (v.abits.take (idx + 1)) +
        Words.value (((that.read v).abits.map rhs).take (idx + 1)) + carry.toNat := by
  have hlen : idx < w.abits.length := by
    rw [w.length_abits, h.size]
    exact hlt
  have hword : (w.abits.set idx (addWithCarry (w.aword idx) (rhs ((that.read w).aword idx)) out).1
      ).getD idx 0 = (addWithCarry (w.aword idx) (rhs ((that.read w).aword idx)) out).1 := by
    rw [getD_set hlen, if_pos rfl]
  obtain ⟨-, hsum⟩ := addWithCarry_spec (w.aword idx) (rhs ((that.read w).aword idx)) h.carry_le
  rw [setA]
  dsimp only
  rw [Words.value_take_succ, Words.value_take_succ, Words.value_take_succ, take_set le_rfl, hword,
    getD_map (hsize ▸ hlt), Words.two_pow_mul_succ]
  rw [h.later idx le_rfl, aword_read (h.later idx le_rfl)] at hsum ⊢
  have htotal := h.total
  calc _ = Words.value (w.abits.take idx) + 2 ^ (64 * idx) *
        ((addWithCarry (v.aword idx) (rhs ((that.read v).aword idx)) out).1.toNat + 2 ^ 64 *
          (addWithCarry (v.aword idx) (rhs ((that.read v).aword idx)) out).2.toNat) := by ring
    _ = (Words.value (w.abits.take idx) + 2 ^ (64 * idx) * out.toNat) + 2 ^ (64 * idx) *
        ((v.aword idx).toNat + (rhs ((that.read v).aword idx)).toNat) := by
      rw [hsum]
      ring
    _ = _ := by
      rw [htotal, aword]
      ring

/-- The loop adds the words below, or meets an X or Z bit. -/
theorem addWords_spec (hsize : (that.read v).size = v.size) (hcarry : carry.toNat ≤ 1) {idx : Nat}
    (hidx : idx ≤ planeWords v.size) :
    (∃ w out, addWords rhs that carry v idx = .ok (w, out) ∧ Added rhs that carry v idx w out) ∨
      ∃ w, addWords rhs that carry v idx = .error w ∧ w.size = v.size ∧
        ∃ j < idx, v.bword j ||| (that.read v).bword j ≠ 0 := by
  induction idx with
  | zero =>
    exact Or.inl ⟨v, carry, rfl, rfl, rfl, fun _ _ => rfl, hcarry,
      fun j hj => absurd hj (Nat.not_lt_zero j), by simp⟩
  | succ idx ih =>
    rcases ih (by omega) with ⟨w, out, heq, hadded⟩ | ⟨w, heq, hw, j, hj, hne⟩
    · have hb : w.bword idx ||| (that.read w).bword idx =
          v.bword idx ||| (that.read v).bword idx := by
        rw [bword_read hadded.bbits, bword, hadded.bbits]
        rfl
      by_cases hxz : v.bword idx ||| (that.read v).bword idx = 0
      · refine Or.inl ⟨w.setA idx (addWithCarry (w.aword idx) (rhs ((that.read w).aword idx)) out).1,
          (addWithCarry (w.aword idx) (rhs ((that.read w).aword idx)) out).2, ?_, hadded.size,
          hadded.bbits, fun j hj => ?_, ?_, fun j hj => ?_, hadded.step (by omega) hsize⟩
        · rw [addWords, heq]
          dsimp only
          rw [if_neg (not_not.mpr (hb.trans hxz))]
        · rw [aword_setA (by rw [hadded.size]; omega), if_neg (by omega), hadded.later j (by omega)]
        · exact (addWithCarry_spec _ _ hadded.carry_le).1
        · rcases Nat.lt_succ_iff_lt_or_eq.mp hj with hlt | rfl
          · exact hadded.known j hlt
          · exact hxz
      · refine Or.inr ⟨w, ?_, hadded.size, idx, Nat.lt_succ_self idx, hxz⟩
        rw [addWords, heq]
        dsimp only
        rw [if_pos (hb ▸ hxz)]
    · refine Or.inr ⟨w, ?_, hw, j, by omega, hne⟩
      rw [addWords, heq]

/-- The test of full words and of the part of a word, below the size. -/
theorem known_iff (hsize : (that.read v).size = v.size) :
    (v.toVector4.hasXz = false ∧ (that.read v).toVector4.hasXz = false) ↔
      (∀ j < v.size / 64, v.bword j ||| (that.read v).bword j = 0) ∧
        (v.size % 64 > 0 → (v.bword (v.size / 64) ||| (that.read v).bword (v.size / 64)) &&&
          ~~~ (BitVec.allOnes 64 <<< (v.size % 64)) = 0) := by
  rw [hasXz_eq_false_iff, hasXz_eq_false_iff, hsize, ← forall₂_and]
  constructor
  · intro h
    have hbit : ∀ j i, i < 64 → 64 * j + i < v.size →
        (v.bword j ||| (that.read v).bword j).getLsbD i = false := by
      intro j i hi hlt
      have hpair := h (64 * j + i) hlt
      rw [planeBit_word _ _ hi, planeBit_word _ _ hi] at hpair
      rw [BitVec.getLsbD_or, Bool.or_eq_false_iff]
      exact hpair
    constructor
    · intro j hj
      rw [eq_zero_iff]
      exact fun i hi => hbit j i hi (by omega)
    · intro htail
      rw [not_allOnes_shiftLeft (by omega), and_eq_zero_iff]
      intro i hi hm
      rw [getLsbD_lowMask (by omega), decide_eq_true_eq] at hm
      exact hbit _ i hi (by omega)
  · rintro ⟨hwords, htail⟩ idx hidx
    have hor : (v.bword (idx / 64) ||| (that.read v).bword (idx / 64)).getLsbD (idx % 64) =
        false := by
      by_cases hfull : idx / 64 < v.size / 64
      · rw [hwords _ hfull]
        exact BitVec.getLsbD_zero
      · have hlast : idx / 64 = v.size / 64 := by omega
        have hmasked := htail (by omega)
        rw [not_allOnes_shiftLeft (by omega), and_eq_zero_iff] at hmasked
        rw [hlast]
        refine hmasked _ (by omega) ?_
        rw [getLsbD_lowMask (by omega), decide_eq_true (by omega)]
    rwa [BitVec.getLsbD_or, Bool.or_eq_false_iff] at hor

theorem bword_or_read {w : Planes} (h : w.bbits = v.bbits) (j : Nat) :
    w.bword j ||| (that.read w).bword j = v.bword j ||| (that.read v).bword j := by
  rw [bword_read h, bword, h]
  rfl

/-- An X or Z bit in either operand makes the result X. -/
theorem addLong_of_xz (hsize : (that.read v).size = v.size) (hcarry : carry.toNat ≤ 1)
    (h : ¬ (v.toVector4.hasXz = false ∧ (that.read v).toVector4.hasXz = false)) :
    (addLong rhs carry v that).size = v.size ∧
      (addLong rhs carry v that).toVector4 = List.replicate v.size .x := by
  have hwords := le_planeWords v.size
  have hcnt : v.size / 64 ≤ planeWords v.size := by omega
  rcases @addWords_spec rhs that carry v hsize hcarry _ hcnt with
    ⟨w, out, heq, hadded⟩ | ⟨w, heq, hw, -⟩
  · have htail : ∃ u, addTail rhs that w out = .error u ∧ u.size = v.size := by
      rw [known_iff hsize, not_and, Classical.not_imp] at h
      obtain ⟨hpos, hne⟩ := h hadded.known
      refine ⟨w, ?_, hadded.size⟩
      rw [addTail, hadded.size, if_pos hpos, bword_or_read hadded.bbits]
      exact if_pos hne
    obtain ⟨u, hu, husize⟩ := htail
    rw [addLong, heq]
    dsimp only
    rw [hu]
    exact toVector4_xOut husize
  · rw [addLong, heq]
    exact toVector4_xOut hw

/-- The words of a plane longer than one word. -/
theorem length_long {size : Nat} {plane : List (BitVec 64)} (hlen : plane.length = planeWords size)
    (hs : 64 < size) : plane.length = if size % 64 > 0 then size / 64 + 1 else size / 64 := by
  rw [hlen, planeWords, if_neg (by omega), wordCount]
  split_ifs <;> omega

/-- Masking the last word and dropping its carry keep the sum below the size. -/
private theorem value_masked_last {xs : List (BitVec 64)} {k n : Nat} (hlen : xs.length = k + 1)
    (hn : n < 64) (word : BitVec 64) (carry : Nat) :
    Words.value (xs.set k (word &&& ~~~ (BitVec.allOnes 64 <<< n))) ≡
      Words.value (xs.set k word) + 2 ^ (64 * (k + 1)) * carry [MOD 2 ^ (64 * k + n)] := by
  have hword : 2 ^ (64 * k) * (word.toNat % 2 ^ n) ≡ 2 ^ (64 * k) * word.toNat
      [MOD 2 ^ (64 * k + n)] := by
    rw [Nat.pow_add]
    exact Nat.ModEq.mul_left' _ (Nat.mod_modEq _ _)
  have hdvd : 2 ^ (64 * k + n) ∣ 2 ^ (64 * (k + 1)) * carry :=
    Dvd.dvd.mul_right (Nat.pow_dvd_pow 2 (by omega)) _
  rw [value_set_last hlen, value_set_last hlen, not_allOnes_shiftLeft hn, toNat_and_lowMask _ hn]
  exact (hword.add_left _).trans (Nat.add_modEq_left_iff.mpr hdvd).symm

/-- Else the words are added, modulo the power of the size. -/
theorem addLong_of_known (hs : 64 < v.size) (hsize : (that.read v).size = v.size)
    (hcarry : carry.toNat ≤ 1) (hv : v.toVector4.hasXz = false)
    (ht : (that.read v).toVector4.hasXz = false) :
    (addLong rhs carry v that).size = v.size ∧
      (addLong rhs carry v that).toVector4 = Vector4.ofNat v.size
        (Words.value v.abits + Words.value ((that.read v).abits.map rhs) + carry.toNat) := by
  have hwords := le_planeWords v.size
  obtain ⟨hfull, hpart⟩ := (known_iff hsize).mp ⟨hv, ht⟩
  have hclear := (hasXz_eq_false_iff v).mp hv
  have hcnt : v.size / 64 ≤ planeWords v.size := by omega
  obtain ⟨w, out, heq, hadded⟩ :=
    (@addWords_spec rhs that carry v hsize hcarry _ hcnt).resolve_right (by
      rintro ⟨w, -, -, j, hj, hne⟩
      exact hne (hfull j hj))
  have hlen := length_long v.length_abits hs
  have hlent : ((that.read v).abits.map rhs).length =
      if v.size % 64 > 0 then v.size / 64 + 1 else v.size / 64 := by
    rw [List.length_map]
    exact length_long (hsize ▸ (that.read v).length_abits) hs
  have hclear' : ∀ idx < w.size, planeBit w.bbits idx = false := by
    rw [hadded.size, hadded.bbits]
    exact hclear
  by_cases htail : v.size % 64 > 0
  · rw [if_pos htail] at hlen hlent
    have hlt : v.size / 64 < planeWords v.size := by
      rw [← v.length_abits, hlen]
      omega
    have hstep := hadded.step hlt hsize
    generalize hsum : addWithCarry (w.aword (v.size / 64))
      (rhs ((that.read w).aword (v.size / 64))) out = sum at hstep
    have hresult : addLong rhs carry v that = (w.setA (v.size / 64) sum.1).setA (v.size / 64)
        (sum.1 &&& ~~~ (BitVec.allOnes 64 <<< (v.size % 64))) := by
      have hword : (w.setA (v.size / 64) sum.1).aword (v.size / 64) = sum.1 := by
        rw [aword_setA (hadded.size ▸ hlt), if_pos rfl]
      rw [addLong, heq]
      dsimp only
      rw [addTail, hadded.size, if_pos htail, bword_or_read hadded.bbits]
      dsimp only
      rw [if_neg (not_not.mpr (hpart htail)), hsum, hword]
    have hlenw : w.abits.length = v.size / 64 + 1 := by
      rw [w.length_abits, hadded.size, ← v.length_abits, hlen]
    rw [hresult]
    refine ⟨hadded.size, ?_⟩
    refine (toVector4_of_clear (v := (w.setA (v.size / 64) _).setA (v.size / 64) _) hclear').trans ?_
    rw [size_setA, size_setA, hadded.size, Vector4.ofNat_eq_iff, setA, setA]
    dsimp only
    rw [setA] at hstep
    dsimp only at hstep
    rw [List.take_of_length_le (by rw [List.length_set, hlenw]), List.take_of_length_le hlen.le,
      List.take_of_length_le hlent.le] at hstep
    have hmasked := value_masked_last hlenw (Nat.mod_lt v.size (by omega)) sum.1 sum.2.toNat
    rw [hstep, Nat.div_add_mod] at hmasked
    rw [List.set_set]
    exact hmasked
  · rw [if_neg htail] at hlen hlent
    have hresult : addLong rhs carry v that = w := by
      rw [addLong, heq]
      dsimp only
      rw [addTail, hadded.size, if_neg htail]
    have htotal := hadded.total
    rw [List.take_of_length_le (by rw [w.length_abits, hadded.size, ← v.length_abits, hlen]),
      List.take_of_length_le hlen.le, List.take_of_length_le hlent.le] at htotal
    rw [hresult]
    refine ⟨hadded.size, ?_⟩
    rw [toVector4_of_clear hclear', hadded.size, Vector4.ofNat_eq_iff, ← htotal,
      show 64 * (v.size / 64) = v.size by omega, Nat.add_mul_mod_self_left]

end Long

/-! ## Sums and differences -/

section Numbers

variable {v : Planes} {that : Operand}

/-- Either operand has an X or Z bit. -/
def AnyXz (v : Planes) (that : Operand) : Prop :=
  ¬ (v.toVector4.hasXz = false ∧ (that.read v).toVector4.hasXz = false)

/-- Sums of numbers that are cut to the size. -/
private theorem ofNat_add_mod (size m n : Nat) :
    Vector4.ofNat size (m + n) = Vector4.ofNat size (m % 2 ^ size + n % 2 ^ size) := by
  rw [Vector4.ofNat_eq_iff, Nat.add_mod]

theorem add_known (hsize : (that.read v).size = v.size) (h : ¬ AnyXz v that) :
    ∃ r, add v that = some r ∧ r.size = v.size ∧
      r.toVector4 = Vector4.ofNat v.size (v.toVector4.toNat + (that.read v).toVector4.toNat) := by
  obtain ⟨hv, ht⟩ := not_not.mp h
  refine ⟨_, if_pos hsize.symm, ?_⟩
  by_cases hs : v.size ≤ 64
  · rw [if_pos hs]
    refine ⟨size_wordOp _, ?_⟩
    have hdvd : 2 ^ v.size ∣ 2 ^ 64 := Nat.pow_dvd_pow 2 hs
    rw [wordOp_of_known _ hs hsize hv ht, toNat_short hs hv, toNat_short (hsize ▸ hs) ht, hsize,
      ← ofNat_add_mod, Vector4.ofNat_eq_iff, BitVec.toNat_add, Nat.mod_mod_of_dvd _ hdvd]
  · rw [if_neg hs]
    obtain ⟨hrsize, hr⟩ := @addLong_of_known id that 0 v (by omega) hsize (by decide) hv ht
    refine ⟨hrsize, ?_⟩
    rw [hr, List.map_id, toNat_toVector4 hv, toNat_toVector4 ht, hsize, ← ofNat_add_mod]
    rfl

/-- The words complemented, with a carry, subtract. -/
private theorem ofInt_sub {size m n c : Nat} {k : Nat} (hk : size ≤ 64 * k)
    (hc : c + n + 1 = 2 ^ (64 * k)) :
    Vector4.ofNat size (m + c + 1) = Vector4.ofInt size ((m : Int) - n) := by
  have hpow : ((2 ^ (64 * k) : Nat) : Int) = c + n + 1 := by
    rw [← hc]
    simp only [Nat.cast_add, Nat.cast_one]
  have hdvd : (2 : Int) ^ size ∣ ((2 ^ (64 * k) : Nat) : Int) := by
    rw [Nat.cast_pow]
    exact pow_dvd_pow 2 hk
  rw [← Vector4.ofInt_natCast, Vector4.ofInt_eq_iff]
  refine (Int.modEq_iff_dvd.mpr ?_).symm
  have hdiff : ((m + c + 1 : Nat) : Int) - ((m : Int) - n) = ((2 ^ (64 * k) : Nat) : Int) := by
    rw [hpow]
    simp only [Nat.cast_add, Nat.cast_one]
    ring
  rw [hdiff]
  exact hdvd

private theorem ofInt_sub_mod (size m n : Nat) :
    Vector4.ofInt size ((m : Int) - n) =
      Vector4.ofInt size (((m % 2 ^ size : Nat) : Int) - ((n % 2 ^ size : Nat) : Int)) := by
  have hpow : ((2 ^ size : Nat) : Int) = 2 ^ size := by rw [Nat.cast_pow]; rfl
  rw [Vector4.ofInt_eq_iff]
  refine Int.ModEq.sub ?_ ?_
  · rw [Int.natCast_mod, hpow]
    exact (Int.mod_modEq _ _).symm
  · rw [Int.natCast_mod, hpow]
    exact (Int.mod_modEq _ _).symm

theorem sub_known (hsize : (that.read v).size = v.size) (h : ¬ AnyXz v that) :
    ∃ r, sub v that = some r ∧ r.size = v.size ∧
      r.toVector4 = Vector4.ofInt v.size
        ((v.toVector4.toNat : Int) - (that.read v).toVector4.toNat) := by
  obtain ⟨hv, ht⟩ := not_not.mp h
  refine ⟨_, if_pos hsize.symm, ?_⟩
  by_cases hs : v.size ≤ 64
  · rw [if_pos hs]
    refine ⟨size_wordOp _, ?_⟩
    have hlt := ((that.read v).aword 0).isLt
    have hcompl := @ofInt_sub v.size (v.aword 0).toNat ((that.read v).aword 0).toNat
      (2 ^ 64 - 1 - ((that.read v).aword 0).toNat) 1 (by omega) (by omega)
    have hdvd : 2 ^ v.size ∣ 2 ^ 64 := Nat.pow_dvd_pow 2 hs
    rw [wordOp_of_known _ hs hsize hv ht, toNat_short hs hv, toNat_short (hsize ▸ hs) ht, hsize,
      ← ofInt_sub_mod, ← hcompl, Vector4.ofNat_eq_iff, BitVec.toNat_sub, Nat.mod_mod_of_dvd _ hdvd]
    congr 1
    omega
  · rw [if_neg hs]
    obtain ⟨hrsize, hr⟩ := @addLong_of_known (~~~ ·) that 1 v (by omega) hsize (by decide) hv ht
    refine ⟨hrsize, ?_⟩
    have hcompl := Words.value_map_not (that.read v).abits
    have hle := le_planeWords v.size
    have hlen : (that.read v).abits.length = planeWords v.size := by
      rw [(that.read v).length_abits, hsize]
    rw [hr, toNat_toVector4 hv, toNat_toVector4 ht, hsize, ← ofInt_sub_mod]
    exact ofInt_sub (hlen ▸ hle) hcompl

/-- An X or Z bit in either operand makes sum and difference X. -/
theorem add_sub_xz (hsize : (that.read v).size = v.size) (h : AnyXz v that) :
    (∃ r, add v that = some r ∧ r.size = v.size ∧ r.toVector4 = List.replicate v.size .x) ∧
      ∃ r, sub v that = some r ∧ r.size = v.size ∧ r.toVector4 = List.replicate v.size .x := by
  refine ⟨⟨_, if_pos hsize.symm, ?_⟩, ⟨_, if_pos hsize.symm, ?_⟩⟩
  · split_ifs with hs
    · exact ⟨size_wordOp _, wordOp_of_xz _ hs hsize h⟩
    · exact addLong_of_xz hsize (by decide) h
  · split_ifs with hs
    · exact ⟨size_wordOp _, wordOp_of_xz _ hs hsize h⟩
    · exact addLong_of_xz hsize (by decide) h

end Numbers

end Planes

end Icarus.Vvp
