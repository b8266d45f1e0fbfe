import Icarus.Vvp.Planes.Arith

/-!
# Products of vectors in planes

`mul` tests for X and Z bits first. That leaves the second plane clear, and the product is
collected there, word by word, while the first plane still holds the left operand, which may be
the right one as well.
-/

namespace Icarus.Vvp

open Icarus.Core

/-- `multiply_add_with_carry`, by way of a product of double width. -/
def multiplyAddWithCarry (a b addend carry : BitVec 64) : BitVec 64 × BitVec 64 :=
  let product :=
    a.setWidth 128 * b.setWidth 128 + addend.setWidth 128 + carry.setWidth 128
  (product.setWidth 64, (product >>> 64).setWidth 64)

namespace Planes

/-- The mask of the last word. -/
def lastMask (size : Nat) : BitVec 64 :=
  if size % 64 > 0 then ~~~ (BitVec.allOnes 64 <<< (size % 64)) else ~~~ 0

/-- The test for X and Z bits. -/
def mulXz (mask : BitVec 64) (cnt : Nat) (v that : Planes) : Bool :=
  (List.range cnt).any fun idx =>
    let lval := v.bword idx
    let rval := that.bword idx
    let lval := if idx = cnt - 1 then lval &&& mask else lval
    let rval := if idx = cnt - 1 then rval &&& mask else rval
    lval ≠ 0 || rval ≠ 0

/-- The number of words without the leading zero words. -/
def significant (mask : BitVec 64) (cnt : Nat) (v : Planes) : Nat → Nat
  | 0 => 0
  | lcnt + 1 =>
    let value := v.aword lcnt
    let value := if lcnt + 1 = cnt then value &&& mask else value
    if value ≠ 0 then lcnt + 1 else significant mask cnt v lcnt

/-- The low words of the second plane cleared. -/
def clearB : Nat → Planes → Planes
  | 0, v => v
  | idx + 1, v => (clearB idx v).setB idx 0

/-- A word of the left operand times the low words of the right one, added in its place. -/
def mulWords (mask lval : BitVec 64) (cnt mulA : Nat) (that : Operand) (v : Planes) :
    Nat → Planes × BitVec 64
  | 0 => (v, 0)
  | mulB + 1 =>
    let (v, carry) := mulWords mask lval cnt mulA that v mulB
    let rval := (that.read v).aword mulB
    let rval := if mulB = cnt - 1 then rval &&& mask else rval
    let base := mulA + mulB
    let (word, carry) := multiplyAddWithCarry lval rval (v.bword base) carry
    (v.setB base word, carry)

/-- The carry on its way up, as long as it is not zero and there are words left. -/
def mulCarry : Nat → Nat → Planes → BitVec 64 → Planes
  | 0, _, v, _ => v
  | words + 1, base, v, carry =>
    if carry = 0 then v
    else
      let (word, next) := addWithCarry (v.bword base) carry 0
      mulCarry words (base + 1) (v.setB base word) next

/-- The low words of the left operand times the right one. -/
def mulRows (mask : BitVec 64) (cnt rcnt : Nat) (that : Operand) (v : Planes) : Nat → Planes
  | 0 => v
  | mulA + 1 =>
    let v := mulRows mask cnt rcnt that v mulA
    let lval := v.aword mulA
    let lval := if mulA = cnt - 1 then lval &&& mask else lval
    let mulB := min rcnt (cnt - mulA)
    let (v, carry) := mulWords mask lval cnt mulA that v mulB
    let base := mulA + mulB
    mulCarry (cnt - base) base v carry

/-- The result moved to the first plane and the second one cleared. -/
def moveResult : Nat → Planes → Planes
  | 0, v => v
  | idx + 1, v =>
    let v := moveResult idx v
    (v.setA idx (v.bword idx)).setB idx 0

/-- `mul` on vectors longer than one word. -/
def mulLong (v : Planes) (that : Operand) : Planes :=
  let cnt := wordCount v.size
  let mask := lastMask v.size
  if mulXz mask cnt v (that.read v) then
    let v := xWords (cnt - 1) v
    (v.setA (cnt - 1) (BitVec.allOnes 64 &&& mask)).setB (cnt - 1) (BitVec.allOnes 64 &&& mask)
  else
    let lcnt := significant mask cnt v cnt
    let rcnt := significant mask cnt (that.read v) cnt
    let v := clearB cnt v
    let v := mulRows mask cnt rcnt that v lcnt
    let v := v.setB (cnt - 1) (v.bword (cnt - 1) &&& mask)
    moveResult cnt v

/-- `mul`; the sizes agree by assertion. -/
def mul (v : Planes) (that : Operand) : Option Planes :=
  if v.size = (that.read v).size then
    some (if v.size ≤ 64 then wordOp (· * ·) v that else mulLong v that)
  else none

/-! ## Words -/

/-- A product with two words added, in two words. -/
theorem toNat_multiplyAddWithCarry (a b addend carry : BitVec 64) :
    (multiplyAddWithCarry a b addend carry).1.toNat +
        2 ^ 64 * (multiplyAddWithCarry a b addend carry).2.toNat =
      a.toNat * b.toNat + addend.toNat + carry.toNat := by
  have ha := a.isLt
  have hb := b.isLt
  have hd := addend.isLt
  have hc := carry.isLt
  have hle : a.toNat * b.toNat ≤ (2 ^ 64 - 1) * (2 ^ 64 - 1) :=
    Nat.mul_le_mul (Nat.le_sub_one_of_lt ha) (Nat.le_sub_one_of_lt hb)
  have hwide : ∀ x : BitVec 64, (x.setWidth 128).toNat = x.toNat := by
    intro x
    rw [BitVec.toNat_setWidth]
    exact Nat.mod_eq_of_lt (by have := x.isLt; omega)
  have hproduct : (a.setWidth 128 * b.setWidth 128 + addend.setWidth 128 +
      carry.setWidth 128).toNat = a.toNat * b.toNat + addend.toNat + carry.toNat := by
    rw [BitVec.toNat_add, BitVec.toNat_add, BitVec.toNat_mul, hwide, hwide, hwide, hwide]
    omega
  unfold multiplyAddWithCarry
  dsimp only
  rw [BitVec.toNat_setWidth, BitVec.toNat_setWidth, BitVec.toNat_ushiftRight, hproduct,
    Nat.shiftRight_eq_div_pow]
  omega

private theorem and_not_zero (x : BitVec 64) : x &&& ~~~ 0 = x := by
  rw [show ~~~ (0 : BitVec 64) = BitVec.allOnes 64 from rfl, BitVec.and_allOnes]

/-- The last word is masked to the size. -/
theorem getD_clearUnusedBits {size : Nat} {plane : List (BitVec 64)}
    (hlen : plane.length = wordCount size) {idx : Nat} (hidx : idx < wordCount size) :
    (clearUnusedBits size plane).getD idx 0 =
      if idx = wordCount size - 1 then plane.getD idx 0 &&& lastMask size
      else plane.getD idx 0 := by
  unfold clearUnusedBits lastMask
  dsimp only
  by_cases htail : size % 64 = 0
  · have hzero : ¬ size % 64 > 0 := by omega
    rw [if_pos htail, if_neg hzero]
    split_ifs
    · exact (and_not_zero _).symm
    · rfl
  · have hmask : BitVec.allOnes 64 >>> (64 - size % 64) =
        ~~~ (BitVec.allOnes 64 <<< (size % 64)) := by
      rw [not_allOnes_shiftLeft (by omega)]
      apply BitVec.eq_of_getLsbD_eq
      intro i hi
      rw [BitVec.getLsbD_ushiftRight, BitVec.getLsbD_allOnes, getLsbD_lowMask (by omega)]
      exact decide_eq_decide.mpr (by omega)
    rw [if_neg htail, if_pos (Nat.pos_of_ne_zero htail), hmask, getD_set (by omega)]
    split_ifs with heq
    · rw [heq]
    · rfl

/-- The words of a plane are its list. -/
theorem ext_getD {xs ys : List (BitVec 64)} (hlen : xs.length = ys.length)
    (h : ∀ j < xs.length, xs.getD j 0 = ys.getD j 0) : xs = ys := by
  apply List.ext_getElem hlen
  intro j hx hy
  have hj := h j hx
  rwa [List.getD_eq_getElem?_getD, List.getD_eq_getElem?_getD, List.getElem?_eq_getElem hx,
    List.getElem?_eq_getElem hy] at hj

/-- A word and its carry, after a number is added to the word. -/
theorem value_set_carry {xs : List (BitVec 64)} {k n : Nat} (hk : k < xs.length)
    {word carry : BitVec 64}
    (h : word.toNat + 2 ^ 64 * carry.toNat = (xs.getD k 0).toNat + n) :
    Words.value (xs.set k word) + 2 ^ (64 * (k + 1)) * carry.toNat =
      Words.value xs + 2 ^ (64 * k) * n := by
  have hset := Words.value_set xs hk word
  -- The word that was there is part of the step.
  apply Nat.add_right_cancel (m := 2 ^ (64 * k) * (xs.getD k 0).toNat)
  calc _ = (Words.value (xs.set k word) + 2 ^ (64 * k) * (xs.getD k 0).toNat) +
        2 ^ (64 * k) * (2 ^ 64 * carry.toNat) := by
        rw [Words.two_pow_mul_succ]
        ring
    _ = Words.value xs + 2 ^ (64 * k) * (word.toNat + 2 ^ 64 * carry.toNat) := by
        rw [hset]
        ring
    _ = _ := by
        rw [h]
        ring

/-! ## The loops -/

section Loops

variable {mask lval : BitVec 64} {cnt : Nat} {that : Operand} {v : Planes} {B : List (BitVec 64)}

/-- Only the second plane is written. -/
structure Keeps (v w : Planes) : Prop where
  size : w.size = v.size
  abits : w.abits = v.abits

theorem Keeps.aword_read {w : Planes} (h : Keeps v w) (j : Nat) :
    (that.read w).aword j = (that.read v).aword j :=
  Planes.aword_read (congrArg (·.getD j 0) h.abits)

theorem clearB_spec {n : Nat} (h : n ≤ planeWords v.size) :
    Keeps v (clearB n v) ∧ Words.value ((clearB n v).bbits.take n) = 0 := by
  induction n with
  | zero => exact ⟨⟨rfl, rfl⟩, rfl⟩
  | succ n ih =>
    obtain ⟨hkeeps, hzero⟩ := ih (by omega)
    have hlt : n < (clearB n v).bbits.length := by
      rw [(clearB n v).length_bbits, hkeeps.size]
      omega
    refine ⟨⟨hkeeps.size, hkeeps.abits⟩, ?_⟩
    rw [clearB, setB]
    dsimp only
    rw [Words.value_take_succ, take_set le_rfl, hzero, getD_set hlt, if_pos rfl]
    rfl

/-- A word times the low words of the right operand. -/
theorem mulWords_spec {mulA : Nat} (hcnt : cnt = planeWords v.size)
    (hB : ∀ j < cnt, B.getD j 0 =
      if j = cnt - 1 then (that.read v).aword j &&& mask else (that.read v).aword j)
    {mulB : Nat} (h : mulA + mulB ≤ cnt) :
    Keeps v (mulWords mask lval cnt mulA that v mulB).1 ∧
      Words.value (mulWords mask lval cnt mulA that v mulB).1.bbits + 2 ^ (64 * (mulA + mulB)) *
          (mulWords mask lval cnt mulA that v mulB).2.toNat =
        Words.value v.bbits + 2 ^ (64 * mulA) *
          (lval.toNat * Words.value (B.take mulB)) := by
  induction mulB with
  | zero => exact ⟨⟨rfl, rfl⟩, by simp [mulWords]⟩
  | succ mulB ih =>
    obtain ⟨hkeeps, hvalue⟩ := ih (by omega)
    rw [mulWords]
    generalize mulWords mask lval cnt mulA that v mulB = s at hkeeps hvalue
    obtain ⟨w, carry⟩ := s
    dsimp only at hkeeps hvalue ⊢
    have hlt : mulA + mulB < w.bbits.length := by
      rw [w.length_bbits, hkeeps.size, ← hcnt]
      omega
    have hrval : (if mulB = cnt - 1 then (that.read w).aword mulB &&& mask
        else (that.read w).aword mulB) = B.getD mulB 0 := by
      rw [hB mulB (by omega), hkeeps.aword_read]
    rw [hrval]
    refine ⟨⟨hkeeps.size, hkeeps.abits⟩, ?_⟩
    have hword := toNat_multiplyAddWithCarry lval (B.getD mulB 0) (w.bword (mulA + mulB)) carry
    generalize multiplyAddWithCarry lval (B.getD mulB 0) (w.bword (mulA + mulB)) carry = t at hword
    have hpow : 2 ^ (64 * (mulA + mulB)) = 2 ^ (64 * mulA) * 2 ^ (64 * mulB) := by
      rw [← Nat.pow_add, Nat.mul_add]
    have hstep : t.1.toNat + 2 ^ 64 * t.2.toNat = (w.bbits.getD (mulA + mulB) 0).toNat +
        (lval.toNat * (B.getD mulB 0).toNat + carry.toNat) := by
      rw [hword, bword]
      ring
    calc Words.value (w.bbits.set (mulA + mulB) t.1) + 2 ^ (64 * (mulA + (mulB + 1))) * t.2.toNat
        = Words.value w.bbits + 2 ^ (64 * (mulA + mulB)) *
            (lval.toNat * (B.getD mulB 0).toNat + carry.toNat) := value_set_carry hlt hstep
      _ = (Words.value w.bbits + 2 ^ (64 * (mulA + mulB)) * carry.toNat) +
          2 ^ (64 * (mulA + mulB)) * (lval.toNat * (B.getD mulB 0).toNat) := by ring
      _ = _ := by
          rw [hvalue, Words.value_take_succ, hpow]
          ring

/-- A carry is not lost below the end. -/
theorem mulCarry_spec (words : Nat) : ∀ (base : Nat) (w : Planes) (carry : BitVec 64),
    base + words = planeWords w.size →
      Keeps w (mulCarry words base w carry) ∧
        Words.value (mulCarry words base w carry).bbits ≡
          Words.value w.bbits + 2 ^ (64 * base) * carry.toNat [MOD 2 ^ (64 * planeWords w.size)] := by
  induction words with
  | zero =>
    intro base w carry hbase
    rw [mulCarry, ← hbase, Nat.add_zero]
    exact ⟨⟨rfl, rfl⟩, (Nat.add_modEq_left_iff.mpr (Nat.dvd_mul_right _ _)).symm⟩
  | succ words ih =>
    intro base w carry hbase
    rw [mulCarry]
    by_cases hzero : carry = 0
    · rw [if_pos hzero, hzero]
      exact ⟨⟨rfl, rfl⟩, rfl⟩
    · rw [if_neg hzero]
      dsimp only
      obtain ⟨-, hsum⟩ := @addWithCarry_spec (w.bword base) carry 0 (by decide)
      generalize addWithCarry (w.bword base) carry 0 = t at hsum ⊢
      have hlt : base < w.bbits.length := by
        rw [w.length_bbits]
        omega
      obtain ⟨hkeeps, hmod⟩ := ih (base + 1) (w.setB base t.1) t.2 (by
        rw [size_setB]
        omega)
      refine ⟨⟨hkeeps.size, hkeeps.abits⟩, ?_⟩
      have htotal : Words.value (w.setB base t.1).bbits + 2 ^ (64 * (base + 1)) * t.2.toNat =
          Words.value w.bbits + 2 ^ (64 * base) * carry.toNat :=
        value_set_carry hlt (hsum.trans (Nat.add_zero _))
      rw [← htotal]
      exact hmod

/-- Products beyond the end do not count. -/
private theorem row_modEq {mulA rcnt : Nat} (hA : mulA ≤ cnt)
    (hrcnt : Words.value (B.take rcnt) = Words.value B) (l : Nat) :
    2 ^ (64 * mulA) * (l * Words.value (B.take (min rcnt (cnt - mulA)))) ≡
      2 ^ (64 * mulA) * (l * Words.value B) [MOD 2 ^ (64 * cnt)] := by
  rcases Nat.le_total rcnt (cnt - mulA) with hle | hle
  · rw [Nat.min_eq_left hle, hrcnt]
  · have hpow : 2 ^ (64 * cnt) = 2 ^ (64 * mulA) * 2 ^ (64 * (cnt - mulA)) := by
      rw [← Nat.pow_add, ← Nat.mul_add, Nat.add_sub_cancel' hA]
    rw [Nat.min_eq_right hle, Words.value_take, hpow]
    exact Nat.ModEq.mul_left' _ ((Nat.mod_modEq _ _).mul_left _)

/-- The low words of the left operand times the right one. -/
theorem mulRows_words {A : List (BitVec 64)} {rcnt : Nat} (hcnt : cnt = planeWords v.size)
    (hA : ∀ j < cnt, A.getD j 0 = if j = cnt - 1 then v.aword j &&& mask else v.aword j)
    (hB : ∀ j < cnt, B.getD j 0 =
      if j = cnt - 1 then (that.read v).aword j &&& mask else (that.read v).aword j)
    (hrcnt : Words.value (B.take rcnt) = Words.value B) {mulA : Nat} (h : mulA ≤ cnt) :
    Keeps v (mulRows mask cnt rcnt that v mulA) ∧
      Words.value (mulRows mask cnt rcnt that v mulA).bbits ≡
        Words.value v.bbits + Words.value (A.take mulA) * Words.value B [MOD 2 ^ (64 * cnt)] := by
  induction mulA with
  | zero =>
    rw [mulRows, List.take_zero, Words.value_nil, Nat.zero_mul, Nat.add_zero]
    exact ⟨⟨rfl, rfl⟩, rfl⟩
  | succ mulA ih =>
    obtain ⟨hkeeps, hmod⟩ := ih (by omega)
    rw [mulRows]
    generalize mulRows mask cnt rcnt that v mulA = w at hkeeps hmod ⊢
    have hlval : (if mulA = cnt - 1 then w.aword mulA &&& mask else w.aword mulA) =
        A.getD mulA 0 := by
      rw [hA mulA (by omega), aword, hkeeps.abits]
      rfl
    dsimp only
    rw [hlval]
    have hcnt' : cnt = planeWords w.size := by rw [hkeeps.size, hcnt]
    obtain ⟨hwords, hvalue⟩ := @mulWords_spec mask (A.getD mulA 0) cnt that w B mulA hcnt'
      (fun j hj => by rw [hB j hj, hkeeps.aword_read]) (min rcnt (cnt - mulA)) (by omega)
    generalize mulWords mask (A.getD mulA 0) cnt mulA that w (min rcnt (cnt - mulA)) = s
      at hwords hvalue ⊢
    obtain ⟨hcarry, hcarried⟩ := mulCarry_spec (cnt - (mulA + min rcnt (cnt - mulA)))
      (mulA + min rcnt (cnt - mulA)) s.1 s.2 (by
        rw [hwords.size, ← hcnt']
        omega)
    refine ⟨⟨hcarry.size.trans (hwords.size.trans hkeeps.size),
      hcarry.abits.trans (hwords.abits.trans hkeeps.abits)⟩, ?_⟩
    rw [hvalue, hwords.size, ← hcnt'] at hcarried
    have hnext : Words.value v.bbits + Words.value (A.take (mulA + 1)) * Words.value B =
        (Words.value v.bbits + Words.value (A.take mulA) * Words.value B) +
          2 ^ (64 * mulA) * ((A.getD mulA 0).toNat * Words.value B) := by
      rw [Words.value_take_succ]
      ring
    rw [hnext]
    exact hcarried.trans (hmod.add (row_modEq (by omega) hrcnt _))

/-- Leading words of zeros do not count. -/
theorem significant_spec {A : List (BitVec 64)} (hcnt : 0 < cnt)
    (hA : ∀ j < cnt, A.getD j 0 = if j = cnt - 1 then v.aword j &&& mask else v.aword j)
    {lcnt : Nat} (h : lcnt ≤ cnt) :
    significant mask cnt v lcnt ≤ lcnt ∧
      Words.value (A.take (significant mask cnt v lcnt)) = Words.value (A.take lcnt) := by
  induction lcnt with
  | zero => exact ⟨le_rfl, rfl⟩
  | succ lcnt ih =>
    obtain ⟨hle, hvalue⟩ := ih (by omega)
    have hlast : (if lcnt + 1 = cnt then v.aword lcnt &&& mask else v.aword lcnt) =
        A.getD lcnt 0 := by
      rw [hA lcnt (by omega)]
      exact if_congr (by omega) rfl rfl
    rw [significant, hlast]
    by_cases hzero : A.getD lcnt 0 = 0
    · rw [if_neg (not_not.mpr hzero)]
      refine ⟨by omega, ?_⟩
      rw [hvalue, Words.value_take_succ, hzero]
      rfl
    · rw [if_pos hzero]
      exact ⟨le_rfl, rfl⟩

theorem moveResult_words {n : Nat} (h : n ≤ planeWords v.size) :
    (moveResult n v).size = v.size ∧
      (∀ j < n, (moveResult n v).aword j = v.bword j ∧ (moveResult n v).bword j = 0) ∧
        ∀ j, n ≤ j → (moveResult n v).bword j = v.bword j := by
  induction n with
  | zero => exact ⟨rfl, fun j hj => absurd hj (Nat.not_lt_zero j), fun _ _ => rfl⟩
  | succ n ih =>
    obtain ⟨hsize, hlow, hhigh⟩ := ih (by omega)
    have hlt : n < planeWords (moveResult n v).size := by
      rw [hsize]
      omega
    have ha : ∀ j, (moveResult (n + 1) v).aword j =
        if j = n then (moveResult n v).bword n else (moveResult n v).aword j :=
      fun j => aword_setA hlt _ j
    have hb : ∀ j, (moveResult (n + 1) v).bword j =
        if j = n then 0 else (moveResult n v).bword j :=
      fun j => bword_setB (v := (moveResult n v).setA n _) hlt _ j
    refine ⟨hsize, fun j hj => ?_, fun j hj => ?_⟩
    · rw [ha, hb]
      split_ifs with hjn
      · exact ⟨by rw [hjn]; exact hhigh n le_rfl, rfl⟩
      · exact hlow j (by omega)
    · rw [hb, if_neg (by omega), hhigh j (by omega)]

/-- The second plane, moved to the first. -/
theorem moveResult_spec : (moveResult (planeWords v.size) v).size = v.size ∧
    (moveResult (planeWords v.size) v).abits = v.bbits ∧
      (moveResult (planeWords v.size) v).bbits = List.replicate (planeWords v.size) 0 := by
  obtain ⟨hsize, hlow, -⟩ := @moveResult_words v (planeWords v.size) le_rfl
  have hlena := (moveResult (planeWords v.size) v).length_abits
  have hlenb := (moveResult (planeWords v.size) v).length_bbits
  rw [hsize] at hlena hlenb
  refine ⟨hsize, ext_getD (hlena.trans v.length_bbits.symm) fun j hj => ?_,
    List.eq_replicate_iff.mpr ⟨hlenb, fun word hword => ?_⟩⟩
  · exact (hlow j (hlena ▸ hj)).1
  · obtain ⟨j, hj, rfl⟩ := List.mem_iff_getElem.mp hword
    have hzero := (hlow j (hlenb ▸ hj)).2
    rwa [bword, List.getD_eq_getElem?_getD, List.getElem?_eq_getElem hj] at hzero

end Loops

/-! ## The product -/

section Product

variable {v : Planes} {that : Operand}

/-- Words that pass the test are clear below the size. -/
theorem mulXz_eq_false (hs : 64 < v.size) (hsize : (that.read v).size = v.size) :
    mulXz (lastMask v.size) (wordCount v.size) v (that.read v) = false ↔ ¬ AnyXz v that := by
  have hcount := le_wordCount v.size
  have hlast : wordCount v.size - 1 = if v.size % 64 > 0 then v.size / 64 else v.size / 64 - 1 := by
    unfold wordCount
    split_ifs <;> omega
  have hand : ∀ x y m : BitVec 64, (x ||| y) &&& m = 0 ↔ x &&& m = 0 ∧ y &&& m = 0 := by
    intro x y m
    simp only [and_eq_zero_iff, BitVec.getLsbD_or, Bool.or_eq_false_iff, ← forall₂_and,
      ← imp_and]
  rw [AnyXz, not_not, known_iff hsize, mulXz, List.any_eq_false]
  simp only [List.mem_range, Bool.or_eq_true, decide_eq_true_eq, not_or, not_not]
  by_cases htail : v.size % 64 > 0
  · rw [if_pos htail] at hlast
    rw [lastMask, if_pos htail, hlast]
    constructor
    · intro h
      refine ⟨fun j hj => ?_, fun _ => ?_⟩
      · have hpair := h j (by omega)
        rw [if_neg hj.ne, if_neg hj.ne] at hpair
        exact (or_eq_zero_iff _ _).mpr hpair
      · have hpair := h (v.size / 64) (by omega)
        rw [if_pos rfl, if_pos rfl] at hpair
        exact (hand _ _ _).mpr hpair
    · rintro ⟨hwords, hpart⟩ j hj
      by_cases hjl : j = v.size / 64
      · rw [if_pos hjl, if_pos hjl, hjl]
        exact (hand _ _ _).mp (hpart htail)
      · rw [if_neg hjl, if_neg hjl]
        exact (or_eq_zero_iff _ _).mp (hwords j (by omega))
  · have hcnt : wordCount v.size = v.size / 64 := by
      unfold wordCount
      omega
    rw [lastMask, if_neg htail, hcnt]
    simp only [and_not_zero, ite_self, htail, false_implies, and_true, or_eq_zero_iff]

/-- An X or Z bit in either operand makes the result X. -/
theorem mulLong_of_xz (hs : 64 < v.size) (hsize : (that.read v).size = v.size)
    (h : AnyXz v that) :
    (mulLong v that).size = v.size ∧
      (mulLong v that).toVector4 = List.replicate v.size .x := by
  have hxz : mulXz (lastMask v.size) (wordCount v.size) v (that.read v) = true := by
    rw [← Bool.not_eq_false, mulXz_eq_false hs hsize]
    exact not_not.mpr h
  have hout : mulLong v that = xOut v := by
    rw [mulLong, if_pos hxz]
    by_cases htail : v.size % 64 > 0
    · have hcnt : wordCount v.size - 1 = v.size / 64 := by
        unfold wordCount
        omega
      have hsize' := (@xWords_spec v (v.size / 64) (by have := le_planeWords v.size; omega)).1
      unfold xOut
      dsimp only
      rw [hcnt, lastMask, if_pos htail, hsize', if_pos htail]
    · obtain ⟨k, hk⟩ : ∃ k, wordCount v.size = k + 1 := ⟨v.size / 64 - 1, by
        unfold wordCount
        omega⟩
      have hcnt : v.size / 64 = k + 1 := by
        unfold wordCount at hk
        omega
      have hsize' := (@xWords_spec v (k + 1) (by have := le_planeWords v.size; omega)).1
      unfold xOut
      dsimp only
      rw [hk, Nat.add_sub_cancel, lastMask, if_neg htail, hcnt, hsize', if_neg htail]
      rfl
  rw [hout]
  exact toVector4_xOut rfl

/-- Else the words of the product are left in the first plane, and the second one is clear. -/
theorem mulLong_of_known (hs : 64 < v.size) (hsize : (that.read v).size = v.size)
    (h : ¬ AnyXz v that) :
    (mulLong v that).size = v.size ∧
      (mulLong v that).bbits = List.replicate (planeWords v.size) 0 ∧
        Words.value (mulLong v that).abits ≡
          Words.value v.abits * Words.value (that.read v).abits [MOD 2 ^ v.size] := by
  have hxz := (mulXz_eq_false hs hsize).mpr h
  have hcnt : wordCount v.size = planeWords v.size := (planeWords_of_long hs).symm
  have hpos : 0 < wordCount v.size := hcnt ▸ planeWords_pos v.size
  have hlena : v.abits.length = wordCount v.size := by rw [v.length_abits, hcnt]
  have hlent : (that.read v).abits.length = wordCount v.size := by
    rw [(that.read v).length_abits, hsize, hcnt]
  rw [mulLong, if_neg (Bool.eq_false_iff.mp hxz)]
  dsimp only
  have hA : ∀ j < wordCount v.size, (clearUnusedBits v.size v.abits).getD j 0 =
      if j = wordCount v.size - 1 then v.aword j &&& lastMask v.size else v.aword j :=
    fun j hj => getD_clearUnusedBits hlena hj
  have hB : ∀ j < wordCount v.size, (clearUnusedBits v.size (that.read v).abits).getD j 0 =
      if j = wordCount v.size - 1 then (that.read v).aword j &&& lastMask v.size
      else (that.read v).aword j :=
    fun j hj => getD_clearUnusedBits hlent hj
  have hlenA : (clearUnusedBits v.size v.abits).length = wordCount v.size := by
    rw [length_clearUnusedBits, hlena]
  have hlenB : (clearUnusedBits v.size (that.read v).abits).length = wordCount v.size := by
    rw [length_clearUnusedBits, hlent]
  obtain ⟨hlcnt, hleft⟩ := significant_spec hpos hA le_rfl
  obtain ⟨hrcnt, hright⟩ := significant_spec hpos hB le_rfl
  rw [List.take_of_length_le hlenA.le] at hleft
  rw [List.take_of_length_le hlenB.le] at hright
  obtain ⟨hkeeps, hzero⟩ := @clearB_spec v (wordCount v.size) hcnt.le
  generalize significant (lastMask v.size) (wordCount v.size) v (wordCount v.size) = lcnt
    at hlcnt hleft ⊢
  generalize significant (lastMask v.size) (wordCount v.size) (that.read v) (wordCount v.size) = rcnt
    at hrcnt hright ⊢
  generalize clearB (wordCount v.size) v = u at hkeeps hzero ⊢
  rw [List.take_of_length_le (by rw [u.length_bbits, hkeeps.size, hcnt])] at hzero
  obtain ⟨hrows, hmod⟩ := @mulRows_words (lastMask v.size) (wordCount v.size) that u
    (clearUnusedBits v.size (that.read v).abits) (clearUnusedBits v.size v.abits) rcnt
    (by rw [hkeeps.size, hcnt])
    (fun j hj => by rw [hA j hj, aword, aword, hkeeps.abits])
    (fun j hj => by rw [hB j hj, hkeeps.aword_read]) hright lcnt hlcnt
  generalize mulRows (lastMask v.size) (wordCount v.size) rcnt that u lcnt = w at hrows hmod ⊢
  have hwsize : w.size = v.size := hrows.size.trans hkeeps.size
  have hlenw : w.bbits.length = wordCount v.size := by rw [w.length_bbits, hwsize, hcnt]
  -- Masking the last word is clearing the unused bits.
  have hlast : (w.setB (wordCount v.size - 1)
      (w.bword (wordCount v.size - 1) &&& lastMask v.size)).bbits = clearUnusedBits v.size w.bbits := by
    refine ext_getD (by rw [setB, List.length_set, length_clearUnusedBits]) fun j hj => ?_
    have hj' : j < wordCount v.size := by
      rwa [setB, List.length_set, hlenw] at hj
    rw [getD_clearUnusedBits hlenw hj', setB]
    dsimp only
    rw [getD_set (by omega)]
    split_ifs with heq
    · rw [heq]
      rfl
    · rfl
  have hrsize : (w.setB (wordCount v.size - 1)
      (w.bword (wordCount v.size - 1) &&& lastMask v.size)).size = v.size := hwsize
  generalize w.setB (wordCount v.size - 1) (w.bword (wordCount v.size - 1) &&& lastMask v.size) = r
    at hlast hrsize ⊢
  have hrcnt' : wordCount v.size = planeWords r.size := by rw [hrsize, hcnt]
  obtain ⟨hsize', habits, hbbits⟩ := @moveResult_spec r
  rw [hrcnt']
  refine ⟨hsize'.trans hrsize, by rw [hbbits, hrsize], ?_⟩
  have hdvd : 2 ^ v.size ∣ 2 ^ (64 * wordCount v.size) := Nat.pow_dvd_pow 2 (le_wordCount _)
  rw [habits, hlast, value_clearUnusedBits hlenw]
  rw [hzero, Nat.zero_add, hleft, value_clearUnusedBits hlena, value_clearUnusedBits hlent] at hmod
  calc Words.value w.bbits % 2 ^ v.size ≡ Words.value w.bbits [MOD 2 ^ v.size] := Nat.mod_modEq _ _
    _ ≡ Words.value v.abits % 2 ^ v.size * (Words.value (that.read v).abits % 2 ^ v.size)
        [MOD 2 ^ v.size] := hmod.of_dvd hdvd
    _ ≡ Words.value v.abits * Words.value (that.read v).abits [MOD 2 ^ v.size] :=
      (Nat.mod_modEq _ _).mul (Nat.mod_modEq _ _)

theorem mul_known (hsize : (that.read v).size = v.size) (h : ¬ AnyXz v that) :
    ∃ r, mul v that = some r ∧ r.size = v.size ∧
      r.toVector4 = Vector4.ofNat v.size (v.toVector4.toNat * (that.read v).toVector4.toNat) ∧
        (64 < v.size → r.bbits = List.replicate (planeWords v.size) 0) := by
  obtain ⟨hv, ht⟩ := not_not.mp h
  have hmul : ∀ m n : Nat, Vector4.ofNat v.size (m % 2 ^ v.size * (n % 2 ^ v.size)) =
      Vector4.ofNat v.size (m * n) := by
    intro m n
    rw [Vector4.ofNat_eq_iff, ← Nat.mul_mod]
  refine ⟨_, if_pos hsize.symm, ?_⟩
  by_cases hs : v.size ≤ 64
  · rw [if_pos hs]
    refine ⟨size_wordOp _, ?_, fun hlong => absurd hs (by omega)⟩
    have hdvd : 2 ^ v.size ∣ 2 ^ 64 := Nat.pow_dvd_pow 2 hs
    rw [wordOp_of_known _ hs hsize hv ht, toNat_short hs hv, toNat_short (hsize ▸ hs) ht, hsize,
      hmul, Vector4.ofNat_eq_iff, BitVec.toNat_mul, Nat.mod_mod_of_dvd _ hdvd]
  · rw [if_neg hs]
    obtain ⟨hrsize, hbbits, hmod⟩ := mulLong_of_known (by omega) hsize h
    refine ⟨hrsize, ?_, fun _ => hbbits⟩
    have hclear : ∀ idx < (mulLong v that).size, planeBit (mulLong v that).bbits idx = false := by
      intro idx hidx
      rw [hrsize] at hidx
      have hle := le_planeWords v.size
      rw [hbbits, planeBit_replicate (by omega)]
      exact BitVec.getLsbD_zero
    rw [toVector4_of_clear hclear, hrsize, toNat_toVector4 hv, toNat_toVector4 ht, hsize, hmul,
      Vector4.ofNat_eq_iff]
    exact hmod

theorem mul_xz (hsize : (that.read v).size = v.size) (h : AnyXz v that) :
    ∃ r, mul v that = some r ∧ r.size = v.size ∧ r.toVector4 = List.replicate v.size .x := by
  refine ⟨_, if_pos hsize.symm, ?_⟩
  split_ifs with hs
  · exact ⟨size_wordOp _, wordOp_of_xz _ hs hsize h⟩
  · exact mulLong_of_xz (by omega) hsize h

/-- Sum, difference and product are those of the numbers modulo the power of the size, or all X
where an operand has an X or Z bit. -/
theorem arith_spec (v : Planes) (that : Operand) (hsize : (that.read v).size = v.size) :
    ∃ sum difference product,
      add v that = some sum ∧ sub v that = some difference ∧ mul v that = some product ∧
      sum.size = v.size ∧ difference.size = v.size ∧ product.size = v.size ∧
      (AnyXz v that →
        sum.toVector4 = List.replicate v.size .x ∧ difference.toVector4 = List.replicate v.size .x ∧
          product.toVector4 = List.replicate v.size .x) ∧
      (¬ AnyXz v that →
        sum.toVector4 = Vector4.ofNat v.size (v.toVector4.toNat + (that.read v).toVector4.toNat) ∧
        difference.toVector4 = Vector4.ofInt v.size
          ((v.toVector4.toNat : Int) - (that.read v).toVector4.toNat) ∧
        product.toVector4 =
          Vector4.ofNat v.size (v.toVector4.toNat * (that.read v).toVector4.toNat) ∧
        (64 < v.size → product.bbits = List.replicate (planeWords v.size) 0)) := by
  by_cases h : AnyXz v that
  · obtain ⟨⟨s, hs, hssize, hsum⟩, ⟨d, hd, hdsize, hdiff⟩⟩ := add_sub_xz hsize h
    obtain ⟨p, hp, hpsize, hprod⟩ := mul_xz hsize h
    exact ⟨s, d, p, hs, hd, hp, hssize, hdsize, hpsize, fun _ => ⟨hsum, hdiff, hprod⟩,
      fun hn => absurd h hn⟩
  · obtain ⟨s, hs, hssize, hsum⟩ := add_known hsize h
    obtain ⟨d, hd, hdsize, hdiff⟩ := sub_known hsize h
    obtain ⟨p, hp, hpsize, hprod, hclear⟩ := mul_known hsize h
    exact ⟨s, d, p, hs, hd, hp, hssize, hdsize, hpsize, fun hx => absurd hx h,
      fun _ => ⟨hsum, hdiff, hprod, hclear⟩⟩

/-- 65 ones, squared in place. -/
theorem arith_spec_square :
    ∃ product, mul (allocateWords 65 (BitVec.allOnes 64) 0) .this = some product ∧
      product.toVector4 = Vector4.ofNat 65 1 := by
  obtain ⟨_, _, p, -, -, hp, -, -, -, -, hknown⟩ :=
    arith_spec (allocateWords 65 (BitVec.allOnes 64) 0) .this rfl
  have hclear : ¬ AnyXz (allocateWords 65 (BitVec.allOnes 64) 0) .this := by
    have hxz : (allocateWords 65 (BitVec.allOnes 64) 0).toVector4.hasXz = false := by decide
    exact not_not.mpr ⟨hxz, hxz⟩
  refine ⟨p, hp, (hknown hclear).2.2.1.trans ?_⟩
  have hnat : (allocateWords 65 (BitVec.allOnes 64) 0).toVector4.toNat = 2 ^ 65 - 1 := by decide
  rw [Operand.read, hnat]
  exact Vector4.ofNat_eq_iff.mpr (by norm_num [allocateWords])

end Product

end Planes

end Icarus.Vvp
