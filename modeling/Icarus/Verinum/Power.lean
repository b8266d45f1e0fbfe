import Icarus.Core.BinaryPower
import Icarus.Verinum.Serial

/-!
# Powers

`pow` of `verinum`: a table for negative exponents, and squaring that takes the exponent apart.
For signed operands with a length it computes the power modulo the length.
-/

namespace Icarus.Verinum

open Icarus.Core

/-- `make_p_one`. -/
def makePOne (len : Nat) (hasLen hasSign : Bool) : Verinum :=
  signedBits ((List.replicate (if hasLen then len else 2) V.v0).set 0 .v1) hasLen hasSign

/-- `make_m_one`. -/
def makeMOne (len : Nat) (hasLen hasSign : Bool) : Verinum :=
  signedBits (List.replicate (if hasLen then len else 1) V.v1) hasLen hasSign

/-- A number of one bit, repeated, with the length and the flags of another. -/
def fillLike (v : V) (that : Verinum) : Verinum :=
  signedBits (List.replicate that.len v) that.hasLen that.hasSign

/-- `set`; an index past the end fails an assertion. -/
def set (v : Verinum) (idx : Nat) (val : V) : Verinum := { v with bits := v.bits.set idx val }

/-- The results of `pow` for a negative exponent. -/
def negativePow (left right : Verinum) : Verinum :=
  let pOne := makePOne left.len left.hasLen left.hasSign
  let mOne := makeMOne left.len left.hasLen left.hasSign
  if left.isZero then fillLike .vx left
  else if left.hasSign ∧ eq left mOne ≠ .v0 then if right.get 0 = .v0 then pOne else mOne
  else if eq left pOne ≠ .v0 then pOne
  else fillLike .v0 left

/-- `recursive_pow`, over the power of the smaller exponent. -/
def recursivePow (pow : Verinum → Verinum → Option Verinum) (left right : Verinum) :
    Option Verinum :=
  if right.isZero then some (makePOne left.len left.hasLen left.hasSign)
  else if right.get 0 = .v1 then (pow left (right.set 0 .v0)).map fun result => mul left result
  else (pow left (shr right 1)).map fun result => mul result result

/-- `pow`, with so many turns. -/
def powTurns : Nat → Verinum → Verinum → Option Verinum
  | 0, _, _ => none
  | turns + 1, left, right =>
    Option.map trimVnum <|
      if !left.isDefined || !right.isDefined then some (fillLike .vx left)
      else if right.isZero then some (makePOne left.len left.hasLen left.hasSign)
      else if right.isNegative then some (negativePow left right)
      else recursivePow (powTurns turns) left right

/-- `pow`, with the turns that its exponent takes. -/
def pow (left right : Verinum) : Option Verinum := powTurns (2 * right.len + 2) left right

/-- A signed number of a length, without X and Z bits. -/
structure Sized (w : Nat) (v : Verinum) : Prop where
  /-- The length. -/
  len : v.len = w
  /-- There are no X and Z bits. -/
  defined : v.isDefined
  /-- The length was given. -/
  hasLen : v.hasLen = true
  /-- The number is signed. -/
  hasSign : v.hasSign = true

section Sized

variable {w : Nat} {v left right : Verinum}

/-- The number is the integer modulo the power of the length. -/
theorem number_eq_emod (v : Verinum) : (number v.bits : Int) = v.toInt % 2 ^ v.len := by
  have hmod := TwosComplement.reading_modEq v.hasSign v.len (number v.bits)
  have hlt : (number v.bits : Int) < 2 ^ v.len := by exact_mod_cast number_lt v.bits
  calc (number v.bits : Int) = (number v.bits : Int) % 2 ^ v.len :=
        (Int.emod_eq_of_lt (Int.natCast_nonneg _) hlt).symm
    _ = v.toInt % 2 ^ v.len := hmod.symm

theorem Sized.len_pos (hv : Sized w v) (hw : 0 < w) : 0 < v.len := hv.len.symm ▸ hw

theorem Sized.known (hv : Sized w v) : ∀ b ∈ v.bits, b.Known := v.isDefined_iff.mp hv.defined

/-- Bits that are known make a signed number of their length. -/
theorem sized_signedBits {bits : List V} (hlen : bits.length = w) (hknown : ∀ b ∈ bits, b.Known)
    {hasLen hasSign : Bool} (hl : hasLen = true) (hs : hasSign = true) :
    Sized w (signedBits bits hasLen hasSign) :=
  ⟨hlen, isDefined_signedBits hknown _ _, hl, hs⟩

theorem isZero_iff (hv : Sized w v) : v.isZero = true ↔ v.toInt = 0 := by
  rw [isZero, List.all_eq_true]
  constructor
  · intro h
    have hrep : v.bits = List.replicate v.len .v0 :=
      List.eq_replicate_iff.mpr ⟨rfl, fun b hb => of_decide_eq_true (h b hb)⟩
    have hzero : number v.bits = 0 := by
      rw [hrep, number_replicate, V.digit_v0, Nat.mul_zero]
    rw [toInt, hzero]
    exact TwosComplement.reading_of_lt (Nat.two_pow_pos _)
  · intro h
    have hnumber := number_eq_emod v
    rw [h, Int.zero_emod] at hnumber
    have hrep : v.bits = List.replicate v.len .v0 := by
      apply eq_of_number hv.known (known_replicate (Or.inl rfl) _)
      · rw [List.length_replicate]
        rfl
      · rw [number_replicate, V.digit_v0, Nat.mul_zero]
        exact_mod_cast hnumber
    intro b hb
    rw [hrep] at hb
    exact decide_eq_true (List.eq_of_mem_replicate hb)

/-- The lowest bit says whether the integer is odd. -/
theorem get_zero_eq (hv : Sized w v) (hw : 0 < w) :
    v.get 0 = if v.toInt % 2 = 1 then .v1 else .v0 := by
  have hpow : (2 : Int) ∣ 2 ^ v.len := dvd_pow_self 2 (hv.len_pos hw).ne'
  have hparity : (number v.bits : Int) % 2 = v.toInt % 2 := by
    rw [number_eq_emod, Int.emod_emod_of_dvd _ hpow]
  obtain ⟨b, bits, hbits⟩ := List.exists_cons_of_length_pos (hv.len_pos hw)
  have hget : v.get 0 = b := by rw [get, hbits, List.getD_cons_zero]
  have hknown := hv.known b (hbits ▸ List.mem_cons_self)
  rw [hbits, number, Words.sum_cons, pow_one] at hparity
  rw [hget]
  rcases hknown with rfl | rfl
  · rw [V.digit_v0] at hparity
    rw [if_neg (by omega)]
  · rw [V.digit_v1] at hparity
    rw [if_pos (by omega)]

theorem makePOne_spec (hv : Sized w v) (hw : 0 < w) :
    Sized w (makePOne v.len v.hasLen v.hasSign) ∧
      (makePOne v.len v.hasLen v.hasSign).toInt ≡ 1 [ZMOD 2 ^ w] := by
  obtain ⟨n, rfl⟩ := Nat.exists_eq_add_of_le' hw
  have hbits : (List.replicate (if v.hasLen then v.len else 2) V.v0).set 0 .v1 =
      .v1 :: List.replicate n .v0 := by
    rw [if_pos hv.hasLen, hv.len, List.replicate_succ, List.set_cons_zero]
  have hnumber : number (V.v1 :: List.replicate n .v0) = 1 := by
    have hrest : number (List.replicate n V.v0) = 0 := by
      rw [number_replicate, V.digit_v0, Nat.mul_zero]
    rw [number] at hrest ⊢
    rw [Words.sum_cons, hrest]
    rfl
  rw [makePOne, hbits]
  have hsized : Sized (n + 1) (signedBits (V.v1 :: List.replicate n .v0) v.hasLen v.hasSign) :=
    sized_signedBits (by rw [List.length_cons, List.length_replicate])
      (List.forall_mem_cons.mpr ⟨Or.inr rfl, known_replicate (Or.inl rfl) n⟩) hv.hasLen hv.hasSign
  refine ⟨hsized, ?_⟩
  have hmod := TwosComplement.reading_modEq v.hasSign (n + 1)
    (number (V.v1 :: List.replicate n .v0))
  rw [toInt, hsized.len]
  refine hmod.trans ?_
  rw [hnumber]
  rfl

theorem makeMOne_spec (hv : Sized w v) (hw : 0 < w) :
    Sized w (makeMOne v.len v.hasLen v.hasSign) ∧
      (makeMOne v.len v.hasLen v.hasSign).toInt = -1 := by
  rw [makeMOne, if_pos hv.hasLen, hv.len]
  refine ⟨sized_signedBits List.length_replicate (known_replicate (Or.inr rfl) w) hv.hasLen
    hv.hasSign, ?_⟩
  rw [toInt_replicate hw _ _ _ fun h => absurd (h.symm.trans hv.hasSign) Bool.false_ne_true]
  rfl

/-- Clearing the lowest bit of an odd number that is not negative subtracts one. -/
theorem set_zero_spec (hv : Sized w v) (hw : 0 < w) (hodd : v.toInt % 2 = 1)
    (hnonneg : 0 ≤ v.toInt) :
    Sized w (v.set 0 .v0) ∧ (v.set 0 .v0).toInt = v.toInt - 1 := by
  obtain ⟨b, bits, hbits⟩ := List.exists_cons_of_length_pos (hv.len_pos hw)
  have hget := get_zero_eq hv hw
  rw [if_pos hodd, get, hbits, List.getD_cons_zero] at hget
  subst hget
  have hset : (v.set 0 .v0).bits = .v0 :: bits := by rw [set, hbits, List.set_cons_zero]
  have hknown := hv.known
  have hsized : Sized w (v.set 0 .v0) := by
    refine ⟨?_, (isDefined_iff _).mpr ?_, hv.hasLen, hv.hasSign⟩
    · rw [len, hset, ← hv.len, len, hbits, List.length_cons, List.length_cons]
    · rw [hset]
      rw [hbits] at hknown
      exact List.forall_mem_cons.mpr ⟨Or.inl rfl, (List.forall_mem_cons.mp hknown).2⟩
  refine ⟨hsized, ?_⟩
  have hrange := toInt_inRange (hv.len_pos hw)
  rw [TwosComplement.InRange, if_pos hv.hasSign] at hrange
  have hpow : (2 : Int) ^ (v.len - 1) ≤ 2 ^ v.len :=
    pow_le_pow_right₀ (by norm_num) (Nat.sub_le _ 1)
  have hnumber := number_eq_emod v
  rw [Int.emod_eq_of_lt hnonneg (hrange.2.trans_le hpow)] at hnumber
  have hless : number v.bits = number (v.set 0 .v0).bits + 1 := by
    rw [hbits, hset, number, number, Words.sum_cons, Words.sum_cons]
    simp only [V.digit_v0, V.digit_v1]
    omega
  have hsmall : number (v.set 0 .v0).bits < 2 ^ ((v.set 0 .v0).len - 1) := by
    rw [hsized.len, ← hv.len]
    have hcast : (number v.bits : Int) < 2 ^ (v.len - 1) := hnumber ▸ hrange.2
    have hnat : number v.bits < 2 ^ (v.len - 1) := by exact_mod_cast hcast
    omega
  rw [toInt, TwosComplement.reading_of_lt hsmall]
  omega

/-- A product of signed numbers of a length. -/
theorem mul_sized (hl : Sized w left) (hr : Sized w right) (hw : 0 < w) :
    Sized w (mul left right) ∧ (mul left right).toInt ≡ left.toInt * right.toInt [ZMOD 2 ^ w] := by
  have hspec := mul_spec (hl.len_pos hw) hl.defined hr.defined (hr.len_pos hw)
    (hl.hasSign.trans hr.hasSign.symm)
  have hboth : (left.hasLen && right.hasLen) = true := by rw [hl.hasLen, hr.hasLen, Bool.and_self]
  obtain ⟨hlen, hmod⟩ := hspec.sized (Or.inl hboth)
  rw [hl.len, hr.len, Nat.max_self] at hlen hmod
  refine ⟨⟨hlen, hspec.defined, hspec.hasLen_eq.trans hboth, hspec.hasSign_eq.trans ?_⟩, hmod⟩
  rw [hl.hasSign, hr.hasSign, Bool.and_self]

theorem trimVnum_sized (hv : Sized w v) : trimVnum v = v := trimVnum_of_hasLen hv.hasLen

/-! ## The power -/

/-- An exponent above zero is neither of the cases that are treated apart. -/
private theorem positive_tests {v : Verinum} (hv : Sized w v) (hw : 0 < w) (hpos : 0 < v.toInt) :
    ¬ v.isZero = true ∧ ¬ v.isNegative = true := by
  constructor
  · intro hzero
    have := (isZero_iff hv).mp hzero
    omega
  · intro hneg
    have := (isNegative_iff (hv.len_pos hw) hv.defined).mp hneg
    omega

/-- For an exponent that is not negative it is the power modulo the length. -/
theorem powTurns_spec (hl : Sized w left) (hw : 0 < w) (turns n : Nat)
    (h : BinaryPower.steps n ≤ turns) : ∀ right : Verinum, Sized w right → right.toInt = n →
      ∃ r, powTurns turns left right = some r ∧ Sized w r ∧
        r.toInt ≡ left.toInt ^ n [ZMOD 2 ^ w] := by
  obtain ⟨hone, honeInt⟩ := makePOne_spec hl hw
  have hdef : ∀ {right}, Sized w right → ¬ (!left.isDefined || !right.isDefined) = true := by
    intro right hr
    rw [hl.defined, hr.defined]
    exact Bool.false_ne_true
  refine BinaryPower.induction (P := fun turns n => ∀ right : Verinum, Sized w right →
    right.toInt = n → ∃ r, powTurns turns left right = some r ∧ Sized w r ∧
      r.toInt ≡ left.toInt ^ n [ZMOD 2 ^ w]) ?_ ?_ ?_ turns n h
  · intro turns right hr hn
    refine ⟨makePOne left.len left.hasLen left.hasSign, ?_, hone, ?_⟩
    · rw [powTurns, if_neg (hdef hr), if_pos ((isZero_iff hr).mpr hn), Option.map_some,
        trimVnum_sized hone]
    · rw [pow_zero]
      exact honeInt
  · intro turns n hodd ih right hr hn
    have hoddInt : right.toInt % 2 = 1 := by omega
    obtain ⟨hset, hsetInt⟩ := set_zero_spec hr hw hoddInt (by omega)
    obtain ⟨z, hz, hzsized, hzmod⟩ := ih _ hset (by omega)
    obtain ⟨hmul, hmulmod⟩ := mul_sized hl hzsized hw
    refine ⟨mul left z, ?_, hmul, ?_⟩
    · obtain ⟨hzero, hneg⟩ := positive_tests hr hw (by omega)
      have hget : right.get 0 = .v1 := by rw [get_zero_eq hr hw, if_pos hoddInt]
      rw [powTurns, if_neg (hdef hr), if_neg hzero, if_neg hneg, recursivePow, if_neg hzero,
        if_pos hget, hz, Option.map_some, Option.map_some, trimVnum_sized hmul]
    · rw [BinaryPower.pow_odd _ hodd]
      exact hmulmod.trans (hzmod.mul_left _)
  · intro turns n hpos heven ih right hr hn
    obtain ⟨hshrInt, hshrLen, hshrSign, -, hshrDef, hshrWid⟩ :=
      shr_spec (hr.len_pos hw) hr.defined 1
    have hshr : Sized w (shr right 1) :=
      ⟨(hshrWid hr.hasLen).trans hr.len, hshrDef, hshrLen.trans hr.hasLen,
        hshrSign.trans hr.hasSign⟩
    obtain ⟨z, hz, hzsized, hzmod⟩ := ih _ hshr (by rw [hshrInt, hn]; omega)
    obtain ⟨hmul, hmulmod⟩ := mul_sized hzsized hzsized hw
    refine ⟨mul z z, ?_, hmul, ?_⟩
    · obtain ⟨hzero, hneg⟩ := positive_tests hr hw (by omega)
      have hget : ¬ right.get 0 = .v1 := by
        rw [get_zero_eq hr hw, if_neg (by omega)]
        decide
      rw [powTurns, if_neg (hdef hr), if_neg hzero, if_neg hneg, recursivePow, if_neg hzero,
        if_neg hget, hz, Option.map_some, Option.map_some, trimVnum_sized hmul]
    · rw [BinaryPower.pow_even _ heven]
      exact hmulmod.trans (hzmod.mul hzmod)

/-- The power for an exponent that is not negative. -/
theorem pow_spec (hl : Sized w left) (hr : Sized w right) (hw : 0 < w) (hnonneg : 0 ≤ right.toInt) :
    ∃ r, pow left right = some r ∧ Sized w r ∧
      r.toInt ≡ left.toInt ^ right.toInt.toNat [ZMOD 2 ^ w] := by
  have hnumber := number_eq_emod right
  have hrange := toInt_inRange (hr.len_pos hw)
  rw [TwosComplement.InRange, if_pos hr.hasSign] at hrange
  have hpow : (2 : Int) ^ (right.len - 1) ≤ 2 ^ right.len :=
    pow_le_pow_right₀ (by norm_num) (Nat.sub_le _ 1)
  have hlt : right.toInt.toNat < 2 ^ right.len := by
    rw [Int.toNat_lt hnonneg]
    push_cast
    exact hrange.2.trans_le hpow
  exact powTurns_spec hl hw _ _ (BinaryPower.steps_le hlt) right hr (Int.toNat_of_nonneg hnonneg).symm

/-- The power for a negative exponent. -/
theorem pow_negative (hl : Sized w left) (hr : Sized w right) (hw : 0 < w)
    (hneg : right.toInt < 0) : pow left right = some
      (if left.toInt = 0 then fillLike .vx left
      else if left.toInt = -1 then
        if right.toInt % 2 = 1 then makeMOne left.len left.hasLen left.hasSign
        else makePOne left.len left.hasLen left.hasSign
      else if left.toInt = 1 then makePOne left.len left.hasLen left.hasSign
      else fillLike .v0 left) := by
  obtain ⟨hone, honeInt⟩ := makePOne_spec hl hw
  obtain ⟨hmone, hmoneInt⟩ := makeMOne_spec hl hw
  have hdef : ¬ (!left.isDefined || !right.isDefined) = true := by
    rw [hl.defined, hr.defined]
    exact Bool.false_ne_true
  have hzero : ¬ right.isZero = true := fun h0 => by
    have := (isZero_iff hr).mp h0
    omega
  have hnegative := (isNegative_iff (hr.len_pos hw) hr.defined).mpr hneg
  have hresult : pow left right = some (negativePow left right) := by
    have htrim : (negativePow left right).hasLen = true := by
      unfold negativePow
      dsimp only
      split_ifs <;> exact hl.hasLen
    rw [pow, powTurns, if_neg hdef, if_neg hzero, if_pos hnegative, Option.map_some,
      trimVnum_of_hasLen htrim]
  rw [hresult, negativePow]
  congr 1
  have heqM : eq left (makeMOne left.len left.hasLen left.hasSign) ≠ .v0 ↔ left.toInt = -1 := by
    rw [eq_eq (hl.len_pos hw) (hmone.len_pos hw) hl.defined hmone.defined
      (hl.hasSign.trans hmone.hasSign.symm), hmoneInt]
    split_ifs with h <;> simp [h]
  have hgetEven : right.get 0 = .v0 ↔ ¬ right.toInt % 2 = 1 := by
    rw [get_zero_eq hr hw]
    split_ifs with h <;> simp [h]
  by_cases h0 : left.toInt = 0
  · rw [if_pos ((isZero_iff hl).mpr h0), if_pos h0]
  · rw [if_neg (fun h => h0 ((isZero_iff hl).mp h)), if_neg h0]
    by_cases hm : left.toInt = -1
    · rw [if_pos ⟨hl.hasSign, heqM.mpr hm⟩, if_pos hm]
      by_cases hodd : right.toInt % 2 = 1
      · rw [if_neg (fun h => hgetEven.mp h hodd), if_pos hodd]
      · rw [if_pos (hgetEven.mpr hodd), if_neg hodd]
    · rw [if_neg (fun h => hm (heqM.mp h.2)), if_neg hm]
      have hrange := toInt_inRange (hl.len_pos hw)
      rw [TwosComplement.InRange, if_pos hl.hasSign, hl.len] at hrange
      have hwide : 1 < w := by
        by_contra hle
        obtain rfl : w = 1 := by omega
        norm_num at hrange
        omega
      have honeEq : (makePOne left.len left.hasLen left.hasSign).toInt = 1 := by
        have hinRange := toInt_inRange (hone.len_pos hw)
        rw [hone.len, hone.hasSign] at hinRange
        refine TwosComplement.eq_of_modEq hw hinRange ?_ honeInt
        have hpow : (2 : Int) ^ 1 ≤ 2 ^ (w - 1) := pow_le_pow_right₀ (by norm_num) (by omega)
        rw [TwosComplement.InRange, if_pos rfl]
        constructor <;> omega
      have heqP : eq left (makePOne left.len left.hasLen left.hasSign) ≠ .v0 ↔
          left.toInt = 1 := by
        rw [eq_eq (hl.len_pos hw) (hone.len_pos hw) hl.defined hone.defined
          (hl.hasSign.trans hone.hasSign.symm), honeEq]
        split_ifs with h <;> simp [h]
      by_cases h1 : left.toInt = 1
      · rw [if_pos (heqP.mpr h1), if_pos h1]
      · rw [if_neg (fun h => h1 (heqP.mp h)), if_neg h1]

end Sized

end Icarus.Verinum
