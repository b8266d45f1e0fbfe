import Icarus.Core.Loop
import Icarus.Core.Words
import Mathlib.Tactic.Linarith

/-!
# Arithmetic on arrays of words

The primitives of wide division: sums and products of words with carry, the
product of an array with a word, negation, and the division of two words by one.
-/

namespace Icarus.Vvp

open Icarus.Core

/-! ## One word -/

/-- `add_with_carry`: the sum and the carry. -/
def addWithCarry (a b carry : BitVec 64) : BitVec 64 × BitVec 64 :=
  let sum := a + b
  let result := sum + carry
  (result, (if sum < a then 1 else 0) ||| (if result < sum then 1 else 0))

/-- `multiply_with_carry`: the two words of a product. -/
def multiplyWithCarry (a b : BitVec 64) : BitVec 64 × BitVec 64 :=
  let product := a.setWidth 128 * b.setWidth 128
  (product.setWidth 64, (product >>> 64).setWidth 64)

/-- A carry of at most one is kept. -/
theorem addWithCarry_spec (a b : BitVec 64) {carry : BitVec 64} (hc : carry.toNat ≤ 1) :
    (addWithCarry a b carry).2.toNat ≤ 1 ∧
      (addWithCarry a b carry).1.toNat + 2 ^ 64 * (addWithCarry a b carry).2.toNat =
        a.toNat + b.toNat + carry.toNat := by
  have ha := a.isLt
  have hb := b.isLt
  have hsum : (a + b).toNat + 2 ^ 64 * (if a + b < a then 1 else 0) = a.toNat + b.toNat := by
    split_ifs with h <;> rw [BitVec.lt_def, BitVec.toNat_add] at h <;> rw [BitVec.toNat_add] <;> omega
  have hresult : (a + b + carry).toNat + 2 ^ 64 * (if a + b + carry < a + b then 1 else 0) =
      (a + b).toNat + carry.toNat := by
    have hlt := (a + b).isLt
    split_ifs with h <;> rw [BitVec.lt_def, BitVec.toNat_add _ carry] at h <;>
      rw [BitVec.toNat_add _ carry] <;> omega
  have hone : (addWithCarry a b carry).1 = a + b + carry := rfl
  rw [hone]
  simp only [addWithCarry]
  split_ifs at hsum hresult ⊢ <;>
    simp only [BitVec.toNat_or, BitVec.toNat_ofNat, Nat.reducePow, Nat.reduceMod, Nat.or_zero,
      Nat.zero_or, Nat.or_self, BitVec.ofNat_eq_ofNat] <;> omega

/-- Both words of a product. -/
theorem multiplyWithCarry_spec (a b : BitVec 64) :
    (multiplyWithCarry a b).1.toNat + 2 ^ 64 * (multiplyWithCarry a b).2.toNat =
      a.toNat * b.toNat := by
  have hlt : a.toNat * b.toNat < 2 ^ 128 := by
    have h := Nat.mul_lt_mul'' a.isLt b.isLt
    rwa [← Nat.pow_add] at h
  have hproduct : (a.setWidth 128 * b.setWidth 128).toNat = a.toNat * b.toNat := by
    rw [BitVec.toNat_mul, BitVec.toNat_setWidth, BitVec.toNat_setWidth,
      Nat.mod_eq_of_lt (a.isLt.trans (by norm_num)), Nat.mod_eq_of_lt (b.isLt.trans (by norm_num)),
      Nat.mod_eq_of_lt hlt]
  simp only [multiplyWithCarry, BitVec.toNat_setWidth, BitVec.toNat_ushiftRight, hproduct,
    Nat.shiftRight_eq_div_pow]
  have hhigh : a.toNat * b.toNat / 2 ^ 64 < 2 ^ 64 := by
    rw [Nat.div_lt_iff_lt_mul (by norm_num), ← Nat.pow_add]
    exact hlt
  rw [Nat.mod_eq_of_lt hhigh, Nat.mod_add_div]

/-! ## Arrays -/

/-- A carry passed along a sum of two arrays. -/
theorem value_addWithCarry {xs ys : List (BitVec 64)} (hlen : xs.length = ys.length)
    {carry : BitVec 64} (hc : carry.toNat ≤ 1) :
    (Words.pass (fun x c => addWithCarry x.1 x.2 c) (xs.zip ys) carry).2.toNat ≤ 1 ∧
      Words.value (Words.pass (fun x c => addWithCarry x.1 x.2 c) (xs.zip ys) carry).1 +
          2 ^ (64 * xs.length) *
            (Words.pass (fun x c => addWithCarry x.1 x.2 c) (xs.zip ys) carry).2.toNat =
        Words.value xs + Words.value ys + carry.toNat := by
  have h := Words.sum_pass (w := 64) (D := BitVec.toNat) (C := BitVec.toNat)
    (F := fun x : BitVec 64 × BitVec 64 => x.1.toNat + x.2.toNat)
    (P := fun c : BitVec 64 => c.toNat ≤ 1)
    (fun x (_ : x ∈ xs.zip ys) c hc => addWithCarry_spec x.1 x.2 hc) hc
  rw [Words.sum_add, Words.sum_zip_fst _ xs ys hlen, Words.sum_zip_snd _ xs ys hlen,
    List.length_zip, hlen, Nat.min_self] at h
  rw [hlen]
  exact h

/-- `multiply_array_imm`. -/
def multiplyArrayImm (val : List (BitVec 64)) (imm : BitVec 64) : List (BitVec 64) :=
  (List.range val.length).foldl (fun res mulIdx =>
    let product := multiplyWithCarry (val.getD mulIdx 0) imm
    res.take mulIdx ++
      (Words.pass (fun x c => addWithCarry x.1 x.2 c) ((res.drop mulIdx).zip
        (product.1 :: product.2 :: List.replicate val.length 0)) 0).1)
    (List.replicate val.length 0)

/-- `negate_words`. -/
def negateWords (val : List (BitVec 64)) : List (BitVec 64) :=
  (Words.pass (fun x c => addWithCarry 0 (~~~ x) c) val 1).1

@[simp] theorem length_negateWords (val : List (BitVec 64)) :
    (negateWords val).length = val.length := Words.length_pass _ _ _

theorem value_negateWords (val : List (BitVec 64)) :
    Words.value (negateWords val) =
      (2 ^ (64 * val.length) - Words.value val) % 2 ^ (64 * val.length) := by
  have h := Words.value_pass_mod (w := 64) (f := fun x c => addWithCarry 0 (~~~ x) c)
    (F := fun x => (~~~ x).toNat) (C := BitVec.toNat) (P := fun c : BitVec 64 => c.toNat ≤ 1)
    (fun x c hc => by
      have hstep := addWithCarry_spec 0 (~~~ x) hc
      have hzero : (0 : BitVec 64).toNat = 0 := rfl
      rw [hzero, Nat.zero_add] at hstep
      exact hstep) val (s := 1) (by decide)
  have hnot := Words.value_map_not val
  rw [Words.value, Words.sum_map] at hnot
  rw [negateWords, h, show (1 : BitVec 64).toNat = 1 from rfl]
  have hF : Words.sum 64 (fun x : BitVec 64 => (~~~ x).toNat) val + 1 =
      2 ^ (64 * val.length) - Words.value val := by
    have hsame : Words.sum 64 (BitVec.toNat ∘ fun x : BitVec 64 => ~~~ x) val =
        Words.sum 64 (fun x : BitVec 64 => (~~~ x).toNat) val := rfl
    rw [hsame] at hnot
    omega
  rw [hF]

/-- A sum in the high words of an array. -/
private theorem value_add_high (res add : List (BitVec 64)) {k : Nat} (hk : k ≤ res.length)
    (hadd : res.length ≤ add.length) :
    (res.take k ++ (Words.pass (fun x c => addWithCarry x.1 x.2 c)
        ((res.drop k).zip add) 0).1).length = res.length ∧
      Words.value (res.take k ++ (Words.pass (fun x c => addWithCarry x.1 x.2 c)
        ((res.drop k).zip add) 0).1) =
          (Words.value res + 2 ^ (64 * k) * Words.value add) % 2 ^ (64 * res.length) := by
  have hdrop : (res.drop k).length = res.length - k := List.length_drop
  have htake : (add.take (res.length - k)).length = res.length - k := by
    rw [List.length_take]
    omega
  have hzip : (res.drop k).zip add = (res.drop k).zip (add.take (res.length - k)) := by
    have hmin := @List.zip_eq_zip_take_min _ _ (res.drop k) add
    rwa [hdrop, Nat.min_eq_left (by omega), List.take_of_length_le hdrop.le] at hmin
  obtain ⟨pass, hpass⟩ : ∃ pass, pass = Words.pass (fun x c => addWithCarry x.1 x.2 c)
      ((res.drop k).zip add) 0 := ⟨_, rfl⟩
  rw [← hpass]
  have hlen : pass.1.length = res.length - k := by
    rw [hpass, hzip, Words.length_pass, List.length_zip, hdrop, htake, Nat.min_self]
  have hsum := (value_addWithCarry (hdrop.trans htake.symm) (show (0 : BitVec 64).toNat ≤ 1 by decide)).2
  rw [← hzip, ← hpass, hdrop, Words.value_take] at hsum
  have hlt := Words.value_lt pass.1
  rw [hlen] at hlt
  have hvalue : Words.value pass.1 = (Words.value (res.drop k) + Words.value add) %
      2 ^ (64 * (res.length - k)) := by
    rw [← Nat.add_mod_mod, ← Nat.add_zero (_ + _ % _)]
    refine (Nat.mod_eq_of_lt hlt).symm.trans ?_
    rw [← Nat.add_mul_mod_self_left (Words.value pass.1), hsum]
    rfl
  have hsplit : Words.value (res.take k) + 2 ^ (64 * k) * Words.value (res.drop k) =
      Words.value res := by
    have happ := Words.value_append (res.take k) (res.drop k)
    rw [List.take_append_drop, List.length_take_of_le hk] at happ
    exact happ.symm
  have hlow := Words.value_lt (res.take k)
  rw [List.length_take_of_le hk] at hlow
  have hpow : 2 ^ (64 * res.length) = 2 ^ (64 * k) * 2 ^ (64 * (res.length - k)) := by
    rw [← Nat.pow_add, ← Nat.mul_add, Nat.add_sub_cancel' hk]
  constructor
  · rw [List.length_append, List.length_take_of_le hk, hlen]
    omega
  · rw [Words.value_append, List.length_take_of_le hk, hvalue, ← hsplit, hpow, Nat.add_assoc,
      ← Nat.mul_add, Nat.mod_mul, Nat.add_mul_mod_self_left, Nat.mod_eq_of_lt hlow,
      Nat.add_mul_div_left _ _ (Nat.two_pow_pos _), Nat.div_eq_of_lt hlow, Nat.zero_add]

/-- The product, without the words above the array. -/
theorem multiplyArrayImm_spec (val : List (BitVec 64)) (imm : BitVec 64) :
    (multiplyArrayImm val imm).length = val.length ∧
      Words.value (multiplyArrayImm val imm) =
        Words.value val * imm.toNat % 2 ^ (64 * val.length) := by
  obtain ⟨res, hres⟩ : ∃ res : Nat → List (BitVec 64), ∀ k, res k =
      (List.range k).foldl (fun res mulIdx =>
        res.take mulIdx ++ (Words.pass (fun x c => addWithCarry x.1 x.2 c) ((res.drop mulIdx).zip
          ((multiplyWithCarry (val.getD mulIdx 0) imm).1 ::
            (multiplyWithCarry (val.getD mulIdx 0) imm).2 :: List.replicate val.length 0)) 0).1)
        (List.replicate val.length 0) := ⟨_, fun _ => rfl⟩
  have hall : ∀ k ≤ val.length, (res k).length = val.length ∧ Words.value (res k) =
      Words.value (val.take k) * imm.toNat % 2 ^ (64 * val.length) := by
    intro k hk
    induction k with
    | zero =>
      rw [hres, List.range_zero, List.foldl_nil, Words.value_replicate_zero]
      simp
    | succ k ih =>
      obtain ⟨hlen, hvalue⟩ := ih (by omega)
      have hnext : res (k + 1) = (res k).take k ++ (Words.pass
          (fun x c => addWithCarry x.1 x.2 c) (((res k).drop k).zip
            ((multiplyWithCarry (val.getD k 0) imm).1 ::
              (multiplyWithCarry (val.getD k 0) imm).2 :: List.replicate val.length 0)) 0).1 := by
        rw [hres (k + 1), List.range_succ, List.foldl_append, ← hres k]
        rfl
      obtain ⟨hlen', hvalue'⟩ := value_add_high (res k) ((multiplyWithCarry (val.getD k 0) imm).1 ::
          (multiplyWithCarry (val.getD k 0) imm).2 :: List.replicate val.length 0)
        (k := k) (by omega) (by simp only [List.length_cons, List.length_replicate]; omega)
      rw [← hnext] at hlen' hvalue'
      refine ⟨hlen'.trans hlen, ?_⟩
      rw [hvalue', hlen, hvalue, Words.value_cons, Words.value_cons, Words.value_replicate_zero,
        Nat.mul_zero, Nat.add_zero, multiplyWithCarry_spec, Words.value_take_succ,
        Nat.mod_add_mod, Nat.add_mul, Nat.mul_assoc]
  have hlast := hall val.length (Nat.le_refl _)
  rw [List.take_length] at hlast
  have hdef : multiplyArrayImm val imm = res val.length := (hres _).symm
  rw [hdef]
  exact hlast

/-! ## Two words by one -/

/-- The variables of the loop of `divide2words`. -/
structure DivideWords where
  /-- `result`. -/
  result : BitVec 64
  /-- `a`. -/
  a : BitVec 64
  /-- `high`. -/
  high : BitVec 64

/-- The body of the loop of `divide2words`. -/
def divide2wordsStep (b : BitVec 64) (s : DivideWords) : DivideWords :=
  let tmpResult := BitVec.allOnes 64 / b
  let remain := BitVec.allOnes 64 % b
  let remain := remain + 1
  let (remain, tmpResult) :=
    if remain ≥ b then (remain - b, tmpResult + 1) else (remain, tmpResult)
  let result := s.result + tmpResult * s.high
  let product := multiplyWithCarry s.high remain
  let a := s.a + product.1
  { result := result, a := a, high := if a < product.1 then product.2 + 1 else product.2 }

/-- `divide2words`; the loop is over after at most 66 rounds. -/
def divide2words (a b high : BitVec 64) : Option (BitVec 64) :=
  (Loop.whileLoop (fun s => 0 < s.high) (fun s => some (divide2wordsStep b s)) 67 ⟨0, a, high⟩).map
    fun s => s.result + s.a / b

/-- The number of the two words. -/
def DivideWords.number (s : DivideWords) : Nat := s.high.toNat * 2 ^ 64 + s.a.toNat

/-- Quotient and remainder of the power of a word. -/
private theorem divide_power {b : BitVec 64} (hb : b ≠ 0) :
    (if BitVec.allOnes 64 % b + 1 ≥ b then
        (BitVec.allOnes 64 % b + 1 - b, BitVec.allOnes 64 / b + 1)
      else (BitVec.allOnes 64 % b + 1, BitVec.allOnes 64 / b)) =
      (BitVec.ofNat 64 (2 ^ 64 % b.toNat), BitVec.ofNat 64 (2 ^ 64 / b.toNat)) := by
  have hpos : 0 < b.toNat := Nat.pos_of_ne_zero fun h => hb (BitVec.eq_of_toNat_eq h)
  have hlt := b.isLt
  have hdm := Nat.mod_add_div (2 ^ 64 - 1) b.toNat
  have hmod := Nat.mod_lt (2 ^ 64 - 1) hpos
  have hremain : (BitVec.allOnes 64 % b + 1).toNat = (2 ^ 64 - 1) % b.toNat + 1 := by
    have hone : (1 : BitVec 64).toNat = 1 := rfl
    rw [BitVec.toNat_add, BitVec.toNat_umod, BitVec.toNat_allOnes, hone]
    exact Nat.mod_eq_of_lt (by omega)
  have hquot : (BitVec.allOnes 64 / b).toNat = (2 ^ 64 - 1) / b.toNat := by
    rw [BitVec.toNat_udiv, BitVec.toNat_allOnes]
  have hsplit : 2 ^ 64 = (2 ^ 64 - 1) % b.toNat + 1 + b.toNat * ((2 ^ 64 - 1) / b.toNat) := by omega
  split_ifs with hge
  · rw [ge_iff_le, BitVec.le_def, hremain] at hge
    have hfull : (2 ^ 64 - 1) % b.toNat + 1 = b.toNat := by omega
    have hpow : 2 ^ 64 = b.toNat * ((2 ^ 64 - 1) / b.toNat + 1) := by
      rw [Nat.mul_add, Nat.mul_one]
      omega
    refine Prod.ext (BitVec.eq_of_toNat_eq ?_) (BitVec.eq_of_toNat_eq ?_)
    · rw [BitVec.toNat_sub_of_le (BitVec.le_def.mpr (by omega)), hremain, BitVec.toNat_ofNat,
        hfull, Nat.sub_self, hpow, Nat.mul_mod_right, Nat.zero_mod]
    · have hdiv : 2 ^ 64 / b.toNat = (2 ^ 64 - 1) / b.toNat + 1 :=
        Nat.div_eq_of_eq_mul_right hpos hpow
      rw [hdiv, BitVec.toNat_add, hquot, BitVec.toNat_ofNat]
      rfl
  · rw [ge_iff_le, BitVec.le_def, hremain, Nat.not_le] at hge
    obtain ⟨hdiv, hrem⟩ := (Nat.div_mod_unique hpos).mpr ⟨hsplit.symm, hge⟩
    refine Prod.ext (BitVec.eq_of_toNat_eq ?_) (BitVec.eq_of_toNat_eq ?_)
    · rw [hremain, BitVec.toNat_ofNat, hrem]
      exact (Nat.mod_eq_of_lt (by omega)).symm
    · rw [hquot, BitVec.toNat_ofNat, hdiv]
      exact (Nat.mod_eq_of_lt (by
        have := Nat.div_le_self (2 ^ 64 - 1) b.toNat
        omega)).symm

/-- One round replaces the power of a word by its remainder. -/
private theorem divide2wordsStep_spec {b : BitVec 64} (hb : b ≠ 0) (s : DivideWords) :
    (divide2wordsStep b s).number = s.high.toNat * (2 ^ 64 % b.toNat) + s.a.toNat ∧
      (divide2wordsStep b s).result.toNat =
        (s.result.toNat + 2 ^ 64 / b.toNat * s.high.toNat) % 2 ^ 64 := by
  have hpos : 0 < b.toNat := Nat.pos_of_ne_zero fun h => hb (BitVec.eq_of_toNat_eq h)
  have hstep : divide2wordsStep b s =
      { result := s.result + BitVec.ofNat 64 (2 ^ 64 / b.toNat) * s.high
        a := s.a + (multiplyWithCarry s.high (BitVec.ofNat 64 (2 ^ 64 % b.toNat))).1
        high := if s.a + (multiplyWithCarry s.high (BitVec.ofNat 64 (2 ^ 64 % b.toNat))).1 <
            (multiplyWithCarry s.high (BitVec.ofNat 64 (2 ^ 64 % b.toNat))).1 then
          (multiplyWithCarry s.high (BitVec.ofNat 64 (2 ^ 64 % b.toNat))).2 + 1
          else (multiplyWithCarry s.high (BitVec.ofNat 64 (2 ^ 64 % b.toNat))).2 } := by
    simp only [divide2wordsStep, divide_power hb]
  have hrem : 2 ^ 64 % b.toNat < 2 ^ 64 := (Nat.mod_lt _ hpos).trans b.isLt
  have hproduct := multiplyWithCarry_spec s.high (BitVec.ofNat 64 (2 ^ 64 % b.toNat))
  rw [BitVec.toNat_ofNat, Nat.mod_eq_of_lt hrem] at hproduct
  rw [hstep]
  obtain ⟨product, hp⟩ : ∃ product, product =
    multiplyWithCarry s.high (BitVec.ofNat 64 (2 ^ 64 % b.toNat)) := ⟨_, rfl⟩
  rw [← hp] at hproduct ⊢
  constructor
  · have hhigh : product.2.toNat + 1 < 2 ^ 64 := by
      have h₁ := s.high.isLt
      have h₂ : s.high.toNat * (2 ^ 64 % b.toNat) ≤ (2 ^ 64 - 1) * (2 ^ 64 - 1) :=
        Nat.mul_le_mul (by omega) (by omega)
      omega
    have ha := s.a.isLt
    have hlow := product.1.isLt
    have hone : (product.2 + 1).toNat = product.2.toNat + 1 := by
      rw [BitVec.toNat_add]
      exact Nat.mod_eq_of_lt hhigh
    simp only [DivideWords.number]
    split_ifs with hlt <;> rw [BitVec.lt_def, BitVec.toNat_add] at hlt <;>
      rw [BitVec.toNat_add s.a]
    · rw [hone]
      omega
    · omega
  · simp only [BitVec.toNat_add, BitVec.toNat_mul, BitVec.toNat_ofNat, Nat.mod_mul_mod,
      Nat.add_mod_mod]

/-- What a round adds to the quotient it takes from the two words. -/
private theorem quotient_step {b : BitVec 64} (hb : b ≠ 0) (s : DivideWords) (total : Nat) :
    (total + 2 ^ 64 / b.toNat * s.high.toNat) * b.toNat + (divide2wordsStep b s).number =
      total * b.toNat + s.number := by
  obtain ⟨hnumber, -⟩ := divide2wordsStep_spec hb s
  have hdm := Nat.mod_add_div (2 ^ 64) b.toNat
  have hs : s.number = s.high.toNat * 2 ^ 64 + s.a.toNat := rfl
  have hexpand : s.high.toNat * 2 ^ 64 = s.high.toNat * (2 ^ 64 % b.toNat) +
      2 ^ 64 / b.toNat * s.high.toNat * b.toNat := by
    calc s.high.toNat * 2 ^ 64 =
        s.high.toNat * (2 ^ 64 % b.toNat + b.toNat * (2 ^ 64 / b.toNat)) := by rw [hdm]
      _ = _ := by ring
  rw [hnumber, hs, Nat.add_mul]
  omega

/-- How many rounds are left. -/
private def RoundsLeft (rank : Nat) (s : DivideWords) : Prop :=
  2 ≤ rank ∧ s.high.toNat ≤ 2 ^ (rank - 2) ∨ rank = 1 ∧ 2 * s.number < 3 * 2 ^ 64 ∨
    rank = 0 ∧ s.high = 0

private theorem RoundsLeft.step {b : BitVec 64} (hb : b ≠ 0) {rank : Nat} {s : DivideWords}
    (h : RoundsLeft rank s) (hhigh : 0 < s.high) :
    ∃ rank' < rank, RoundsLeft rank' (divide2wordsStep b s) := by
  have hpos : 0 < b.toNat := Nat.pos_of_ne_zero fun h => hb (BitVec.eq_of_toNat_eq h)
  obtain ⟨hnumber, -⟩ := divide2wordsStep_spec hb s
  have hhalf : 2 * (2 ^ 64 % b.toNat) < 2 ^ 64 := by
    have hmod := Nat.mod_lt (2 ^ 64) hpos
    by_cases hbig : 2 * b.toNat ≤ 2 ^ 64
    · omega
    · have hlt := b.isLt
      rw [Nat.mod_eq_sub_mod hlt.le, Nat.mod_eq_of_lt (by omega)]
      omega
  have hdef : (divide2wordsStep b s).number =
      (divide2wordsStep b s).high.toNat * 2 ^ 64 + (divide2wordsStep b s).a.toNat := rfl
  have ha := s.a.isLt
  have ha' := (divide2wordsStep b s).a.isLt
  have hge : 1 ≤ s.high.toNat := by
    rw [BitVec.lt_def] at hhigh
    exact hhigh
  have hmul : 2 * (s.high.toNat * (2 ^ 64 % b.toNat)) < s.high.toNat * 2 ^ 64 := by
    have h := Nat.mul_lt_mul_of_pos_left hhalf hge
    rwa [Nat.mul_left_comm] at h
  rcases h with ⟨hrank, hle⟩ | ⟨rfl, hlt⟩ | ⟨-, hzero⟩
  · obtain ⟨k, rfl⟩ : ∃ k, rank = k + 2 := ⟨rank - 2, by omega⟩
    rw [Nat.add_sub_cancel] at hle
    cases k with
    | zero =>
      refine ⟨1, by omega, .inr (.inl ⟨rfl, ?_⟩)⟩
      rw [pow_zero] at hle
      have hone : s.high.toNat = 1 := by omega
      rw [hone] at hmul hnumber
      omega
    | succ k =>
      refine ⟨k + 2, by omega, .inl ⟨by omega, ?_⟩⟩
      rw [Nat.add_sub_cancel]
      rw [pow_succ] at hle
      omega
  · refine ⟨0, by omega, .inr (.inr ⟨rfl, BitVec.eq_of_toNat_eq ?_⟩)⟩
    have hs : s.number = s.high.toNat * 2 ^ 64 + s.a.toNat := rfl
    have hone : s.high.toNat = 1 := by omega
    rw [hone] at hmul hnumber
    show (divide2wordsStep b s).high.toNat = 0
    omega
  · rw [hzero] at hge
    exact absurd hge (by decide)

/-- The quotient of two words by one, without the words above the first. -/
theorem divide2words_eq {b : BitVec 64} (hb : b ≠ 0) (a high : BitVec 64) :
    divide2words a b high =
      some (BitVec.ofNat 64 ((high.toNat * 2 ^ 64 + a.toNat) / b.toNat)) := by
  have hpos : 0 < b.toNat := Nat.pos_of_ne_zero fun h => hb (BitVec.eq_of_toNat_eq h)
  have hstart : RoundsLeft 66 ⟨0, a, high⟩ ∧ ∃ total, (0 : BitVec 64).toNat = total % 2 ^ 64 ∧
      total * b.toNat + (⟨0, a, high⟩ : DivideWords).number = high.toNat * 2 ^ 64 + a.toNat :=
    ⟨.inl ⟨by omega, high.isLt.le⟩, 0, rfl, by rw [Nat.zero_mul, Nat.zero_add]; rfl⟩
  have hround : ∀ rank (s : DivideWords), (RoundsLeft rank s ∧ ∃ total,
      s.result.toNat = total % 2 ^ 64 ∧
        total * b.toNat + s.number = high.toNat * 2 ^ 64 + a.toNat) →
      decide (0 < s.high) = true → ∃ t rank', some (divide2wordsStep b s) = some t ∧
        rank' < rank ∧ RoundsLeft rank' t ∧ ∃ total, t.result.toNat = total % 2 ^ 64 ∧
          total * b.toNat + t.number = high.toNat * 2 ^ 64 + a.toNat := by
    rintro rank s ⟨hleft, total, hresult, htotal⟩ hcond
    obtain ⟨rank', hlt, hleft'⟩ := hleft.step hb (of_decide_eq_true hcond)
    obtain ⟨-, hresult'⟩ := divide2wordsStep_spec hb s
    refine ⟨_, rank', rfl, hlt, hleft', total + 2 ^ 64 / b.toNat * s.high.toNat, ?_, ?_⟩
    · rw [hresult', hresult, Nat.mod_add_mod]
    · rw [quotient_step hb, htotal]
  obtain ⟨s, rank, hrun, ⟨-, total, hresult, htotal⟩, hdone⟩ :=
    Loop.whileLoop_total (fun rank s => RoundsLeft rank s ∧ ∃ total,
      s.result.toNat = total % 2 ^ 64 ∧
        total * b.toNat + s.number = high.toNat * 2 ^ 64 + a.toNat) hround hstart
      (show 66 < 67 by omega)
  have hzero : s.high.toNat = 0 := by
    have hnot := of_decide_eq_false hdone
    rw [BitVec.lt_def] at hnot
    have : (0 : BitVec 64).toNat = 0 := rfl
    omega
  have hs : s.number = s.high.toNat * 2 ^ 64 + s.a.toNat := rfl
  rw [hs, hzero, Nat.zero_mul, Nat.zero_add] at htotal
  rw [divide2words, hrun, Option.map_some, Option.some_inj]
  apply BitVec.eq_of_toNat_eq
  rw [BitVec.toNat_add, BitVec.toNat_udiv, hresult, Nat.mod_add_mod, BitVec.toNat_ofNat, ← htotal,
    Nat.add_comm (total * _), Nat.add_mul_div_right _ _ hpos, Nat.add_comm]

/-- If the high word is below the divisor the word returned is the whole quotient, and in no round
does the result lose anything. -/
theorem divide2words_floor {a b high : BitVec 64} (hlt : high < b) :
    (∃ result, divide2words a b high = some result ∧
      result.toNat = (high.toNat * 2 ^ 64 + a.toNat) / b.toNat) ∧
    ∀ n, ((divide2wordsStep b)^[n] ⟨0, a, high⟩).result.toNat * b.toNat +
      ((divide2wordsStep b)^[n] ⟨0, a, high⟩).number = high.toNat * 2 ^ 64 + a.toNat := by
  rw [BitVec.lt_def] at hlt
  have hb : b ≠ 0 := by
    rintro rfl
    exact Nat.not_lt_zero _ hlt
  have hsmall : high.toNat * 2 ^ 64 + a.toNat < b.toNat * 2 ^ 64 := by
    have ha := a.isLt
    omega
  constructor
  · refine ⟨_, divide2words_eq hb a high, ?_⟩
    rw [BitVec.toNat_ofNat, Nat.mod_eq_of_lt (Nat.div_lt_of_lt_mul hsmall)]
  · intro n
    induction n with
    | zero =>
      have hzero : (0 : BitVec 64).toNat = 0 := rfl
      rw [Function.iterate_zero_apply, DivideWords.number]
      dsimp only
      rw [hzero, Nat.zero_mul, Nat.zero_add]
    | succ n ih =>
      rw [Function.iterate_succ_apply']
      obtain ⟨s, hs⟩ : ∃ s, s = (divide2wordsStep b)^[n] ⟨0, a, high⟩ := ⟨_, rfl⟩
      rw [← hs] at ih ⊢
      obtain ⟨-, hresult⟩ := divide2wordsStep_spec hb s
      have hsum := quotient_step hb s s.result.toNat
      rw [ih] at hsum
      -- the sum fits in a word, since its multiple of the divisor is below that of a word
      have hfits : s.result.toNat + 2 ^ 64 / b.toNat * s.high.toNat < 2 ^ 64 := by
        apply Nat.lt_of_mul_lt_mul_right (a := b.toNat)
        omega
      rw [hresult, Nat.mod_eq_of_lt hfits]
      exact hsum

/-- A quotient of more than one round. -/
theorem divide2words_floor_two_rounds :
    (∃ result, divide2words 5 3 2 = some result ∧
      result.toNat = (2 * 2 ^ 64 + 5) / 3) ∧
    ∀ n, ((divide2wordsStep 3)^[n] ⟨0, 5, 2⟩).result.toNat * 3 +
      ((divide2wordsStep 3)^[n] ⟨0, 5, 2⟩).number = 2 * 2 ^ 64 + 5 :=
  @divide2words_floor 5 3 2 (by decide)

end Icarus.Vvp
