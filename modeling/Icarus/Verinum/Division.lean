import Icarus.Verinum.Native
import Icarus.Verinum.Serial

/-!
# Division

`/` and `%` of `verinum`. Where the left operand fits a machine word both operands
are converted and divided natively; else their magnitudes are divided bit by bit.
-/

namespace Icarus.Verinum

open Icarus.Core

/-! ## The operators -/

/-- The end of `/` and `%`. -/
def finish (result : Verinum) (hasLen hasSign : Bool) (useLen : Nat) : Verinum :=
  trimVnum { if hasLen then castToWidth result useLen else result with hasSign := hasSign }

/-- `operator /`; none where the native division fails. -/
def div (left right : Verinum) : Option Verinum :=
  let hasLen := left.hasLen && right.hasLen
  let hasSign := left.hasSign && right.hasSign
  let useLen := left.len
  if !left.isDefined || !right.isDefined || right.isZero then
    some { fill .vx useLen hasLen with hasSign := hasSign }
  else
    let result : Option Verinum :=
      if hasSign then
        if useLen ≤ 63 then
          (nativeSdiv (asLong left) (asLong right)).map fun v =>
            ofBits (nativeBits (· >>> 1) useLen v) hasLen
        else
          let negative := xor left.isNegative right.isNegative
          let result := unsignedDivide (magnitude left) (magnitude right) true
          some (if negative then neg result else result)
      else
        if useLen ≤ 64 then
          let l := asUlong left
          let r := asUlong right
          if r = 0 then none else some (ofBits (nativeBits (· >>> 1) useLen (l / r)) hasLen)
        else some (unsignedDivide left right false)
    result.map fun result => finish result hasLen hasSign useLen

/-- `operator %`; none where the native division fails. -/
def mod (left right : Verinum) : Option Verinum :=
  let hasLen := left.hasLen && right.hasLen
  let hasSign := left.hasSign && right.hasSign
  let useLen := left.len
  if !left.isDefined || !right.isDefined || right.isZero then
    some { fill .vx useLen hasLen with hasSign := hasSign }
  else
    let result : Option Verinum :=
      if hasSign then
        if useLen ≤ 64 then
          (nativeSrem (asLong left) (asLong right)).map fun v =>
            ofBits (nativeBits (·.sshiftRight 1) useLen v) hasLen
        else
          let result := unsignedModulus (magnitude left) (magnitude right)
          some (if left.isNegative then neg result else result)
      else
        if useLen ≤ 64 then
          let l := asUlong left
          let r := asUlong right
          if r = 0 then none else some (ofBits (nativeBits (· >>> 1) useLen (l % r)) hasLen)
        else some (unsignedModulus left right)
    result.map fun result => finish result hasLen hasSign useLen

/-! ## Results -/

/-- What `/` and `%` have to return: the integer, modulo the length of the left operand if both
operands are sized. -/
def Returns (left right : Verinum) (z : Int) (result : Option Verinum) : Prop :=
  ∃ r, result = some r ∧ r.isDefined ∧ r.hasSign = left.hasSign ∧
    ((left.hasLen && right.hasLen) = true → r.len = left.len ∧ r.toInt ≡ z [ZMOD 2 ^ left.len]) ∧
    ((left.hasLen && right.hasLen) = false → r.toInt = z)

/-- A result of the bit loops that the end of the operators can cast. -/
structure Ready (useLen : Nat) (hasSign : Bool) (z : Int) (v : Verinum) : Prop where
  defined : v.isDefined
  pos : 0 < v.len
  congruent : (number v.bits : Int) ≡ z [ZMOD 2 ^ v.len]
  inRange : TwosComplement.InRange hasSign v.len z
  single : v.isSingle = false ∨ useLen ≤ v.len
  wide : useLen ≤ v.len ∨ v.toInt = z

theorem Ready.finish {useLen : Nat} {hasSign : Bool} {z : Int} {v : Verinum}
    (h : Ready useLen hasSign z v) (hasLen : Bool) :
    (finish v hasLen hasSign useLen).isDefined ∧
      (finish v hasLen hasSign useLen).hasSign = hasSign ∧
      (hasLen = true → (finish v hasLen hasSign useLen).len = useLen ∧
        (finish v hasLen hasSign useLen).toInt ≡ z [ZMOD 2 ^ useLen]) ∧
      (hasLen = false → (finish v hasLen hasSign useLen).toInt = z) := by
  obtain ⟨hdef, hlen, hsign, hwidth, hmod⟩ := castToWidth_modEq h.defined h.pos h.single
  unfold Verinum.finish
  cases hasLen with
  | true =>
    simp only [if_true]
    rw [trimVnum_of_hasLen (by exact hlen)]
    refine ⟨hdef, rfl, fun _ => ⟨hwidth, ?_⟩, by simp⟩
    have hz : v.toInt ≡ z [ZMOD 2 ^ useLen] := by
      rcases h.wide with hle | heq
      · have hread := (TwosComplement.reading_modEq v.hasSign v.len (number v.bits)).trans
          h.congruent
        exact hread.of_dvd (pow_dvd_pow 2 hle)
      · rw [heq]
    have hread := TwosComplement.reading_modEq hasSign useLen (number (castToWidth v useLen).bits)
    refine Int.ModEq.trans ?_ (hread.trans (hmod.trans hz))
    unfold toInt
    rw [show ({ castToWidth v useLen with hasSign := hasSign } : Verinum).len = useLen from hwidth]
  | false =>
    simp only [Bool.false_eq_true, if_false]
    obtain ⟨hint, -, hsgn, -, hdef'⟩ := trimVnum_spec
      (show ({ v with hasSign := hasSign } : Verinum).isDefined from h.defined)
    refine ⟨hdef', hsgn, by simp, fun _ => ?_⟩
    rw [hint]
    exact TwosComplement.reading_eq h.pos (number_lt v.bits) h.inRange h.congruent

/-! ## The bit-serial paths -/

section Serial

variable {left right : Verinum}

private theorem number_ne_zero (hne : right.toInt ≠ 0)
    (hsign : right.hasSign = false) : number right.bits ≠ 0 := by
  intro h
  apply hne
  rw [toInt_unsigned hsign, h]
  rfl

theorem inRange_zero (isSigned : Bool) (n : Nat) : TwosComplement.InRange isSigned n 0 := by
  cases isSigned with
  | true => exact TwosComplement.InRange.zero
  | false =>
    simp only [TwosComplement.InRange, Bool.false_eq_true, if_false]
    exact ⟨le_refl _, by positivity⟩

/-- The bit loop divides unsigned operands. -/
theorem ready_divide_unsigned (hl : 0 < left.len) (hr : 0 < right.len) (dl : left.isDefined)
    (dr : right.isDefined) (sl : left.hasSign = false) (sr : right.hasSign = false)
    (hne : right.toInt ≠ 0) :
    Ready left.len false (left.toInt.tdiv right.toInt) (unsignedDivide left right false) := by
  obtain ⟨hdef, -, hsingle, hpos, hint, hsign⟩ :=
    unsignedDivide_spec sl dl hl sr dr hr (number_ne_zero hne sr) false
  have hz : left.toInt.tdiv right.toInt = (unsignedDivide left right false).toInt := by
    rw [hint, toInt_unsigned sl, toInt_unsigned sr]
    rfl
  rw [hz]
  refine ⟨hdef, hpos, (TwosComplement.reading_modEq _ _ _).symm, ?_, Or.inl hsingle, Or.inr rfl⟩
  rcases hsign with hsign | hzero
  · have hrange := toInt_inRange hpos
    rwa [hsign] at hrange
  · rw [hint, hzero]
    exact inRange_zero _ _

/-- The bit loop divides magnitudes, and the sign is put back. -/
theorem ready_divide_signed (hl : 0 < left.len) (hr : 0 < right.len) (dl : left.isDefined)
    (dr : right.isDefined) (hne : right.toInt ≠ 0) :
    Ready left.len true (left.toInt.tdiv right.toInt)
      (if xor left.isNegative right.isNegative then
        neg (unsignedDivide (magnitude left) (magnitude right) true)
      else unsignedDivide (magnitude left) (magnitude right) true) := by
  obtain ⟨mls, mld, mll, mln⟩ := magnitude_spec hl dl
  obtain ⟨mrs, mrd, mrl, mrn⟩ := magnitude_spec hr dr
  obtain ⟨hdef, hlen, hsingle, hpos, hint, hsign⟩ :=
    unsignedDivide_spec mls mld (by omega) mrs mrd (by omega) (by omega) true
  set q := unsignedDivide (magnitude left) (magnitude right) true with hq
  rw [mln, mrn] at hint hsign
  have hnl : left.isNegative = decide (left.toInt < 0) := by
    rw [Bool.eq_iff_iff, isNegative_iff hl dl, decide_eq_true_iff]
  have hnr : right.isNegative = decide (right.toInt < 0) := by
    rw [Bool.eq_iff_iff, isNegative_iff hr dr, decide_eq_true_iff]
  have hrange : TwosComplement.InRange true q.len q.toInt := by
    rcases hsign with hsign | hzero
    · have hself := toInt_inRange hpos
      rwa [hsign] at hself
    · rw [hint, hzero]
      exact inRange_zero _ _
  rw [TwosComplement.tdiv_natAbs, ← hnl, ← hnr, ← hint]
  split_ifs
  · have hneg := neg_spec hpos hdef
    obtain ⟨hsame, hmod⟩ := hneg.sized (Or.inl hlen)
    have hnonneg : 0 ≤ q.toInt := by
      rw [hint]
      exact Int.natCast_nonneg _
    have hrange' : TwosComplement.InRange true q.len (-q.toInt) := by
      simp only [TwosComplement.InRange, if_true] at hrange ⊢
      constructor <;> omega
    have hself := toInt_inRange (v := neg q) (by omega)
    rw [hsame, hneg.hasSign_eq] at hself
    have heq : (neg q).toInt = -q.toInt := by
      rcases hsign with hsign | hzero
      · rw [hsign] at hself
        exact TwosComplement.eq_of_modEq hpos hself hrange' hmod
      · rw [hint, hzero, Nat.cast_zero, neg_zero] at hmod ⊢
        exact TwosComplement.eq_of_modEq hpos hself (inRange_zero _ _) hmod
    refine ⟨hneg.defined, by omega, ?_, by rwa [hsame], Or.inl ?_, Or.inr heq⟩
    · rw [← heq]
      exact (TwosComplement.reading_modEq _ _ _).symm
    · unfold neg
      rw [if_neg (by simp [hdef])]
      rfl
  · exact ⟨hdef, hpos, (TwosComplement.reading_modEq _ _ _).symm, hrange, Or.inl hsingle,
      Or.inr rfl⟩

/-- The bit loop leaves the remainder of unsigned operands. -/
theorem ready_modulus_unsigned (hl : 0 < left.len) (hr : 0 < right.len) (dl : left.isDefined)
    (dr : right.isDefined) (sl : left.hasSign = false) (sr : right.hasSign = false)
    (hne : right.toInt ≠ 0) :
    Ready left.len false (left.toInt.tmod right.toInt) (unsignedModulus left right) := by
  obtain ⟨hplain, hnum, hlen⟩ :=
    unsignedModulus_spec sl dl hl sr dr hr (number_ne_zero hne sr)
  have hz : left.toInt.tmod right.toInt = (unsignedModulus left right).toInt := by
    rw [toInt_unsigned hplain.hasSign, hnum, toInt_unsigned sl, toInt_unsigned sr]
    rfl
  have hself := toInt_inRange hplain.pos
  rw [hplain.hasSign] at hself
  rw [hz]
  exact ⟨hplain.defined, hplain.pos, (TwosComplement.reading_modEq _ _ _).symm, hself, Or.inr hlen,
    Or.inl hlen⟩

/-- The bit loop leaves the remainder of the magnitudes, and the sign of the left operand is put
back. -/
theorem ready_modulus_signed (hl : 0 < left.len) (hr : 0 < right.len) (dl : left.isDefined)
    (dr : right.isDefined) (sl : left.hasSign = true) (hne : right.toInt ≠ 0) :
    Ready left.len true (left.toInt.tmod right.toInt)
      (if left.isNegative then neg (unsignedModulus (magnitude left) (magnitude right))
      else unsignedModulus (magnitude left) (magnitude right)) := by
  obtain ⟨mls, mld, mll, mln⟩ := magnitude_spec hl dl
  obtain ⟨mrs, mrd, mrl, mrn⟩ := magnitude_spec hr dr
  obtain ⟨hplain, hnum, hlen⟩ :=
    unsignedModulus_spec mls mld (by omega) mrs mrd (by omega) (by omega)
  set m := unsignedModulus (magnitude left) (magnitude right) with hm
  rw [mln, mrn] at hnum
  have hint := toInt_unsigned hplain.hasSign
  rw [hnum] at hint
  have hle : left.toInt.natAbs % right.toInt.natAbs ≤ left.toInt.natAbs := Nat.mod_le _ _
  have hrange := (toInt_inRange hl).mono (Nat.le_trans mll hlen)
  rw [sl] at hrange
  rw [TwosComplement.tmod_natAbs]
  simp only [← isNegative_iff hl dl]
  split_ifs with hneg
  · have hz := (isNegative_iff hl dl).mp hneg
    obtain ⟨hgrow, hmod⟩ := number_neg hplain.pos hplain.defined
    have hspec := neg_spec hplain.pos hplain.defined
    obtain ⟨hsame, -⟩ := hspec.sized (Or.inr hplain.hasSign)
    rw [hint] at hmod
    refine ⟨hspec.defined, by have := hplain.pos; omega, hmod, ?_, Or.inr (by omega),
      Or.inl (by omega)⟩
    rw [hsame]
    simp only [TwosComplement.InRange, if_true] at hrange ⊢
    constructor <;> omega
  · have hz := mt (isNegative_iff hl dl).mpr hneg
    refine ⟨hplain.defined, hplain.pos, ?_, ?_, Or.inr (by omega), Or.inl (by omega)⟩
    · rw [← hint]
      exact (TwosComplement.reading_modEq _ _ _).symm
    · simp only [TwosComplement.InRange, if_true] at hrange ⊢
      constructor <;> omega

end Serial

/-! ## The native paths -/

/-- The end of the operators keeps what the native paths write. -/
theorem finish_native {bits : List V} (hb : ∀ b ∈ bits, b.Known) (hasLen hasSign : Bool) :
    (finish (ofBits bits hasLen) hasLen hasSign bits.length).isDefined ∧
      (finish (ofBits bits hasLen) hasLen hasSign bits.length).hasSign = hasSign ∧
      (hasLen = true → (finish (ofBits bits hasLen) hasLen hasSign bits.length).len =
        bits.length) ∧
      (finish (ofBits bits hasLen) hasLen hasSign bits.length).toInt =
        TwosComplement.reading hasSign bits.length (number bits) := by
  have hcast : (if hasLen then castToWidth (ofBits bits hasLen) bits.length
      else ofBits bits hasLen) = ofBits bits hasLen := by
    split_ifs with h
    · exact if_pos ⟨h, rfl⟩
    · rfl
  unfold finish
  rw [hcast]
  obtain ⟨hint, -, hsign, -, hdef⟩ := trimVnum_spec
    (show ({ ofBits bits hasLen with hasSign := hasSign } : Verinum).isDefined from
      (isDefined_iff _).mpr hb)
  refine ⟨hdef, hsign, ?_, hint⟩
  intro h
  rw [trimVnum_of_hasLen (by exact h)]
  rfl

/-- What the native paths return, for the native integer that they compute. -/
theorem returns_native_iff (left right : Verinum) {shift : BitVec 64 → BitVec 64}
    (hshift : Halves shift) {hasLen : Bool} (hboth : (left.hasLen && right.hasLen) = hasLen)
    (hle : left.len ≤ 64) (v : BitVec 64) (z : Int) :
    Returns left right z
        (some (finish (ofBits (nativeBits shift left.len v) hasLen) hasLen left.hasSign
          left.len)) ↔
      (hasLen = true → (v.toNat : Int) ≡ z [ZMOD 2 ^ left.len]) ∧
        (hasLen = false →
          TwosComplement.reading left.hasSign left.len (v.toNat % 2 ^ left.len) = z) := by
  obtain ⟨hknown, hnum⟩ := nativeBits_spec hshift hle v
  have hfinish := finish_native hknown hasLen left.hasSign
  rw [length_nativeBits, hnum] at hfinish
  obtain ⟨hdef, hsign, hlen, hint⟩ := hfinish
  have hmod : TwosComplement.reading left.hasSign left.len (v.toNat % 2 ^ left.len) ≡ v.toNat
      [ZMOD 2 ^ left.len] := by
    refine (TwosComplement.reading_modEq _ _ _).trans ?_
    push_cast
    exact Int.mod_modEq _ _
  unfold Returns
  rw [hboth]
  constructor
  · rintro ⟨r, hr, -, -, hsized, hunsized⟩
    rw [Option.some_inj] at hr
    subst hr
    rw [hint] at hsized hunsized
    exact ⟨fun h => hmod.symm.trans (hsized h).2, hunsized⟩
  · rintro ⟨hsized, hunsized⟩
    refine ⟨_, rfl, hdef, hsign, ?_, ?_⟩
    · intro h
      rw [hint]
      exact ⟨hlen h, hmod.trans (hsized h)⟩
    · rw [hint]
      exact hunsized

/-- Unsigned native integers that fit the left operand are returned as they are. -/
theorem returns_unsigned_iff {left right : Verinum} {hasLen : Bool}
    (hboth : (left.hasLen && right.hasLen) = hasLen) (hsign : left.hasSign = false)
    (hle : left.len ≤ 64) {v : BitVec 64} {q : Nat} (hv : v.toNat < 2 ^ left.len)
    (hq : q < 2 ^ left.len) :
    Returns left right q
        (some (finish (ofBits (nativeBits (· >>> 1) left.len v) hasLen) hasLen false left.len)) ↔
      v.toNat = q := by
  have h := returns_native_iff left right halves_ushiftRight hboth hle v q
  rw [hsign, Nat.mod_eq_of_lt hv, TwosComplement.reading_unsigned] at h
  rw [h]
  have hnat : (v.toNat : Int) ≡ q [ZMOD 2 ^ left.len] ↔ v.toNat = q := by
    constructor
    · intro hmod
      have hcast := Int.natCast_modEq_iff.mp (by exact_mod_cast hmod)
      exact Nat.ModEq.eq_of_lt_of_lt hcast hv hq
    · intro heq
      rw [heq]
  rw [hnat]
  cases hasLen <;> simp

/-- Signed native integers are returned modulo the left operand's length. -/
theorem returns_signed_iff {left right : Verinum} {shift : BitVec 64 → BitVec 64}
    (hshift : Halves shift) {hasLen : Bool} (hboth : (left.hasLen && right.hasLen) = hasLen)
    (hsign : left.hasSign = true) (hpos : 0 < left.len) (hle : left.len ≤ 64) (v : BitVec 64)
    (z : Int) :
    Returns left right z
        (some (finish (ofBits (nativeBits shift left.len v) hasLen) hasLen true left.len)) ↔
      v.toInt ≡ z [ZMOD 2 ^ left.len] ∧
        (hasLen = false → TwosComplement.InRange true left.len z) := by
  have h := returns_native_iff left right hshift hboth hle v z
  rw [hsign] at h
  rw [h]
  have hint : (v.toNat : Int) ≡ v.toInt [ZMOD 2 ^ left.len] := by
    have hmod : (v.toNat : Int) ≡ v.toInt [ZMOD 2 ^ 64] := by
      rw [BitVec.toInt_eq_toNat_cond]
      split_ifs
      · rfl
      · apply Int.modEq_iff_dvd.mpr
        exact ⟨-1, by push_cast; ring⟩
    exact hmod.of_dvd (pow_dvd_pow 2 hle)
  have hlt : v.toNat % 2 ^ left.len < 2 ^ left.len := Nat.mod_lt _ (Nat.two_pow_pos _)
  have hread : ((v.toNat % 2 ^ left.len : Nat) : Int) ≡ v.toInt [ZMOD 2 ^ left.len] := by
    push_cast
    exact (Int.mod_modEq _ _).trans hint
  cases hasLen with
  | true =>
    simp only [true_implies, reduceCtorEq, false_implies, and_true]
    exact ⟨fun hz => hint.symm.trans hz, fun hz => hint.trans hz⟩
  | false =>
    simp only [reduceCtorEq, false_implies, true_and, true_implies]
    constructor
    · rintro rfl
      refine ⟨?_, TwosComplement.reading_inRange true hpos hlt⟩
      exact hread.symm.trans (TwosComplement.reading_modEq _ _ _).symm
    · rintro ⟨hz, hrange⟩
      exact TwosComplement.reading_eq hpos hlt hrange (hread.trans hz)

/-! ## When the operators are right -/

/-- `as_long` keeps the right operand, or enough of it. -/
def WordDivisor (left right : Verinum) : Prop :=
  TwosComplement.InRange true 64 right.toInt ∨
    left.toInt.natAbs < (narrowed right.toInt).natAbs

/-- The right operand of an unsigned native division is not saturated, or it makes no
difference. -/
def UnsaturatedDivisor (left right : Verinum) : Prop :=
  ¬ (left.len ≤ 64 ∧ left.toInt = 2 ^ 64 - 1 ∧ 2 ^ 64 ≤ right.toInt)

/-- Where `/` is right. -/
def DivHolds (left right : Verinum) : Prop :=
  if left.hasSign then
    left.len ≤ 63 → WordDivisor left right ∧
      ¬ ((left.hasLen && right.hasLen) = false ∧ left.toInt = -2 ^ (left.len - 1) ∧
        right.toInt = -1)
  else UnsaturatedDivisor left right

/-- Where `%` is right. -/
def ModHolds (left right : Verinum) : Prop :=
  if left.hasSign then left.len ≤ 64 → WordDivisor left right
  else UnsaturatedDivisor left right

section Operators

variable {left right : Verinum}

private theorem len_pos_of_ne (hne : right.toInt ≠ 0) : 0 < right.len := by
  by_contra h
  apply hne
  have hnil : right.bits = [] := List.length_eq_zero_iff.mp (Nat.eq_zero_of_not_pos h)
  unfold toInt len
  rw [hnil]
  cases right.hasSign <;> rfl

private theorem toInt_asLong' (hdef : left.isDefined) (hsign : left.hasSign = true) :
    (asLong left).toInt = narrowed left.toInt := by
  by_cases h : left.len = 0
  · rw [toInt_of_len_zero h, asLong, if_pos h]
    rfl
  · exact toInt_asLong (Nat.pos_of_ne_zero h) hdef hsign

private theorem not_zero (dl : left.isDefined) (dr : right.isDefined) (hne : right.toInt ≠ 0) :
    ¬ (!left.isDefined || !right.isDefined || right.isZero) = true := by
  have hzero : right.isZero = false := by
    rw [Bool.eq_false_iff]
    intro h
    apply hne
    have hrep : right.bits = List.replicate right.len .v0 := by
      apply List.eq_replicate_iff.mpr
      refine ⟨rfl, ?_⟩
      intro b hb
      exact of_decide_eq_true (List.all_eq_true.mp h b hb)
    have hb : number right.bits = 0 := by
      rw [hrep, number_replicate, V.digit_v0, Nat.mul_zero]
    rw [toInt_eq (len_pos_of_ne hne), hb]
    have hsb : right.signBit = .v0 := by
      unfold signBit get
      rw [hrep, List.getD_eq_getElem?_getD, List.getElem?_replicate]
      split_ifs <;> rfl
    rw [hsb]
    simp
  simp [dl, dr, hzero]

/-- What a signed native path returns. -/
private theorem signed_native_iff {shift : BitVec 64 → BitVec 64} (hshift : Halves shift)
    (sl : left.hasSign = true) (hle : left.len ≤ 64) {o : Option (BitVec 64)} {r y z : Int}
    (hnone : r = 0 → o = none) (hsome : r ≠ 0 → ∃ v, o = some v ∧ v.toInt = y)
    (hz : left.len = 0 → z = 0) :
    Returns left right z
        ((o.map fun v => ofBits (nativeBits shift left.len v) (left.hasLen && right.hasLen)).map
          fun result => finish result (left.hasLen && right.hasLen) true left.len) ↔
      r ≠ 0 ∧ (0 < left.len → y ≡ z [ZMOD 2 ^ left.len] ∧
        ((left.hasLen && right.hasLen) = false → TwosComplement.InRange true left.len z)) := by
  by_cases hr : r = 0
  · rw [hnone hr]
    constructor
    · rintro ⟨_, h, -⟩
      cases h
    · rintro ⟨h, -⟩
      exact absurd hr h
  · obtain ⟨v, hv, hy⟩ := hsome hr
    rw [hv]
    simp only [Option.map_some]
    by_cases hpos : 0 < left.len
    · rw [returns_signed_iff hshift rfl sl hpos hle, hy]
      simp [hr, hpos]
    · have h0 : left.len = 0 := by omega
      have hiff := returns_native_iff left right hshift rfl hle v z
      rw [sl] at hiff
      rw [hiff, h0, hz h0]
      simp only [hr, Nat.lt_irrefl, false_implies, ne_eq, not_false_eq_true, and_true, iff_true]
      refine ⟨fun _ => ?_, fun _ => ?_⟩
      · rw [pow_zero]
        exact Int.modEq_one
      · rw [pow_zero, Nat.mod_one]
        rfl

private theorem saturated_div_iff {a b : Nat} (ha : a < 2 ^ 64) :
    (a / min b (2 ^ 64 - 1) = a / b ↔ ¬ (a = 2 ^ 64 - 1 ∧ 2 ^ 64 ≤ b)) ∧
      (a % min b (2 ^ 64 - 1) = a % b ↔ ¬ (a = 2 ^ 64 - 1 ∧ 2 ^ 64 ≤ b)) := by
  by_cases hsmall : b < 2 ^ 64
  · rw [Nat.min_eq_left (by omega)]
    have hno : ¬ (a = 2 ^ 64 - 1 ∧ 2 ^ 64 ≤ b) := fun h => by omega
    exact ⟨iff_of_true rfl hno, iff_of_true rfl hno⟩
  · rw [Nat.min_eq_right (by omega), Nat.div_eq_of_lt (show a < b by omega),
      Nat.mod_eq_of_lt (show a < b by omega)]
    by_cases htop : a = 2 ^ 64 - 1
    · rw [htop, Nat.div_self (by omega), Nat.mod_self]
      constructor <;> omega
    · rw [Nat.div_eq_of_lt (by omega), Nat.mod_eq_of_lt (by omega)]
      exact ⟨iff_of_true rfl fun h => htop h.1, iff_of_true rfl fun h => htop h.1⟩

/-- What an unsigned native path returns. -/
private theorem unsigned_native_iff (dl : left.isDefined) (dr : right.isDefined)
    (sl : left.hasSign = false) (sr : right.hasSign = false) (hne : right.toInt ≠ 0)
    (hle : left.len ≤ 64) :
    (Returns left right (left.toInt.tdiv right.toInt)
        ((if asUlong right = 0 then none else
            some (ofBits (nativeBits (· >>> 1) left.len (asUlong left / asUlong right))
              (left.hasLen && right.hasLen))).map
          fun result => finish result (left.hasLen && right.hasLen) false left.len) ↔
      UnsaturatedDivisor left right) ∧
    (Returns left right (left.toInt.tmod right.toInt)
        ((if asUlong right = 0 then none else
            some (ofBits (nativeBits (· >>> 1) left.len (asUlong left % asUlong right))
              (left.hasLen && right.hasLen))).map
          fun result => finish result (left.hasLen && right.hasLen) false left.len) ↔
      UnsaturatedDivisor left right) := by
  have hl := toNat_asUlong dl
  have hr := toNat_asUlong dr
  have hlt := number_lt left.bits
  have hlt' : number left.bits < 2 ^ 64 :=
    Nat.lt_of_lt_of_le hlt (Nat.pow_le_pow_right (by omega) hle)
  have hnr := number_ne_zero hne sr
  rw [Nat.min_eq_left (by omega)] at hl
  have hne0 : asUlong right ≠ 0 := by
    intro h
    rw [h] at hr
    have : (0 : BitVec 64).toNat = 0 := rfl
    omega
  have hzl := toInt_unsigned sl
  have hzr := toInt_unsigned sr
  have hcond : UnsaturatedDivisor left right ↔
      ¬ (number left.bits = 2 ^ 64 - 1 ∧ 2 ^ 64 ≤ number right.bits) := by
    unfold UnsaturatedDivisor
    rw [hzl, hzr]
    constructor
    · intro h hbad
      exact h ⟨hle, by omega, by omega⟩
    · intro h hbad
      exact h ⟨by omega, by omega⟩
  obtain ⟨hdiv, hmod⟩ := saturated_div_iff hlt'
  have hq : number left.bits / number right.bits < 2 ^ left.len :=
    Nat.lt_of_le_of_lt (Nat.div_le_self _ _) hlt
  have hm : number left.bits % number right.bits < 2 ^ left.len :=
    Nat.lt_of_le_of_lt (Nat.mod_le _ _) hlt
  have hvq : (asUlong left / asUlong right).toNat =
      number left.bits / min (number right.bits) (2 ^ 64 - 1) := by
    rw [BitVec.toNat_udiv, hl, hr]
  have hvm : (asUlong left % asUlong right).toNat =
      number left.bits % min (number right.bits) (2 ^ 64 - 1) := by
    rw [BitVec.toNat_umod, hl, hr]
  rw [if_neg hne0, if_neg hne0, hcond, ← hdiv]
  simp only [Option.map_some]
  constructor
  · rw [hzl, hzr, ← Int.ofNat_tdiv]
    rw [returns_unsigned_iff rfl sl hle (by
      rw [hvq]
      exact Nat.lt_of_le_of_lt (Nat.div_le_self _ _) hlt) hq, hvq]
  · rw [hzl, hzr, ← Int.ofNat_tmod]
    rw [returns_unsigned_iff rfl sl hle (by
      rw [hvm]
      exact Nat.lt_of_le_of_lt (Nat.mod_le _ _) hlt) hm, hvm, hdiv, hmod]

/-- What the bit-serial paths return. -/
private theorem returns_serial {v : Verinum} {z : Int} {hasSign : Bool}
    (hsign : left.hasSign = hasSign) (h : Ready left.len hasSign z v) :
    Returns left right z ((some v).map
      fun result => finish result (left.hasLen && right.hasLen) hasSign left.len) := by
  obtain ⟨hdef, hsgn, hsized, hunsized⟩ := h.finish (left.hasLen && right.hasLen)
  exact ⟨_, rfl, hdef, hsgn.trans hsign.symm, hsized, hunsized⟩

private theorem narrowed_left (sl : left.hasSign = true) (hle : left.len ≤ 64) :
    narrowed left.toInt = left.toInt := by
  apply narrowed_of_inRange
  by_cases hpos : 0 < left.len
  · have hrange := toInt_inRange hpos
    rw [sl] at hrange
    exact hrange.mono hle
  · rw [toInt_of_len_zero (by omega)]
    exact TwosComplement.InRange.zero

private theorem wordDivisor_iff_of_zero (h : left.toInt = 0) (hne : right.toInt ≠ 0) :
    WordDivisor left right ↔ narrowed right.toInt ≠ 0 := by
  unfold WordDivisor
  rw [h]
  constructor
  · rintro (hfit | hlt)
    · rwa [narrowed_of_inRange hfit]
    · intro h0
      rw [h0] at hlt
      exact absurd hlt (by simp)
  · intro h0
    right
    rw [Int.natAbs_zero]
    exact Int.natAbs_pos.mpr h0

/-- The signed native quotient. -/
private theorem signed_div_iff (dl : left.isDefined) (dr : right.isDefined)
    (sl : left.hasSign = true) (sr : right.hasSign = true) (hne : right.toInt ≠ 0)
    (hle : left.len ≤ 63) :
    Returns left right (left.toInt.tdiv right.toInt)
        (((nativeSdiv (asLong left) (asLong right)).map fun v =>
            ofBits (nativeBits (· >>> 1) left.len v) (left.hasLen && right.hasLen)).map
          fun result => finish result (left.hasLen && right.hasLen) true left.len) ↔
      WordDivisor left right ∧ ¬ ((left.hasLen && right.hasLen) = false ∧
        left.toInt = -2 ^ (left.len - 1) ∧ right.toInt = -1) := by
  have hal := toInt_asLong' dl sl
  have har := toInt_asLong' dr sr
  rw [narrowed_left sl (by omega)] at hal
  have hmin : (asLong left).toInt ≠ -2 ^ 63 := by
    rw [hal]
    by_cases hpos : 0 < left.len
    · have hrange := toInt_inRange hpos
      rw [sl] at hrange
      have hwide := hrange.mono hle
      simp only [TwosComplement.InRange, if_true] at hwide
      omega
    · rw [toInt_of_len_zero (by omega)]
      decide
  obtain ⟨hnone, hsome⟩ := nativeSdiv_spec (asLong right) hmin
  rw [hal, har] at hsome
  rw [har] at hnone
  rw [signed_native_iff halves_ushiftRight sl (by omega) hnone hsome
    (fun h => by rw [toInt_of_len_zero h, Int.zero_tdiv])]
  by_cases hpos : 0 < left.len
  · have hrange := toInt_inRange hpos
    rw [sl] at hrange
    unfold WordDivisor
    rw [← tdiv_narrowed_iff hpos hle hrange hne]
    simp only [hpos, true_implies]
  · have h0 : left.toInt = 0 := toInt_of_len_zero (by omega)
    rw [wordDivisor_iff_of_zero h0 hne, h0, show left.len = 0 by omega]
    simp

/-- The signed native remainder. -/
private theorem signed_mod_iff (dl : left.isDefined) (dr : right.isDefined)
    (sl : left.hasSign = true) (sr : right.hasSign = true) (hne : right.toInt ≠ 0)
    (hle : left.len ≤ 64) :
    Returns left right (left.toInt.tmod right.toInt)
        (((nativeSrem (asLong left) (asLong right)).map fun v =>
            ofBits (nativeBits (·.sshiftRight 1) left.len v) (left.hasLen && right.hasLen)).map
          fun result => finish result (left.hasLen && right.hasLen) true left.len) ↔
      WordDivisor left right := by
  have hal := toInt_asLong' dl sl
  have har := toInt_asLong' dr sr
  rw [narrowed_left sl hle] at hal
  obtain ⟨hnone, hsome⟩ := nativeSrem_spec (asLong left) (asLong right)
  rw [hal, har] at hsome
  rw [har] at hnone
  rw [signed_native_iff halves_sshiftRight sl hle hnone hsome
    (fun h => by rw [toInt_of_len_zero h, Int.zero_tmod])]
  by_cases hpos : 0 < left.len
  · have hrange := toInt_inRange hpos
    rw [sl] at hrange
    unfold WordDivisor
    rw [← tmod_narrowed_iff hpos hle hrange hne (left.hasLen && right.hasLen)]
    simp only [hpos, true_implies]
  · have h0 : left.toInt = 0 := toInt_of_len_zero (by omega)
    rw [wordDivisor_iff_of_zero h0 hne]
    simp [hpos]

/-- `/` returns the truncated quotient and `%` the remainder exactly where the native paths
convert the operands without loss or do not notice, and where the quotient fits. -/
theorem division_correct_iff (left right : Verinum) (dl : left.isDefined) (dr : right.isDefined)
    (hsign : left.hasSign = right.hasSign) (hne : right.toInt ≠ 0) :
    (Returns left right (left.toInt.tdiv right.toInt) (div left right) ↔ DivHolds left right) ∧
      (Returns left right (left.toInt.tmod right.toInt) (mod left right) ↔
        ModHolds left right) := by
  have hr := len_pos_of_ne hne
  have hz := not_zero dl dr hne
  unfold div mod DivHolds ModHolds
  rw [if_neg hz, if_neg hz]
  cases sl : left.hasSign with
  | false =>
    have sr : right.hasSign = false := hsign.symm.trans sl
    simp only [Bool.false_and, Bool.false_eq_true, if_false]
    by_cases hle : left.len ≤ 64
    · rw [if_pos hle, if_pos hle]
      exact unsigned_native_iff dl dr sl sr hne hle
    · have hl : 0 < left.len := by omega
      have hcond : UnsaturatedDivisor left right := fun h => hle h.1
      rw [if_neg hle, if_neg hle]
      exact ⟨iff_of_true (returns_serial sl (ready_divide_unsigned hl hr dl dr sl sr hne)) hcond,
        iff_of_true (returns_serial sl (ready_modulus_unsigned hl hr dl dr sl sr hne)) hcond⟩
  | true =>
    have sr : right.hasSign = true := hsign.symm.trans sl
    simp only [sr, Bool.and_true, if_true]
    constructor
    · by_cases hle : left.len ≤ 63
      · rw [if_pos hle, signed_div_iff dl dr sl sr hne hle]
        exact ⟨fun h _ => h, fun h => h hle⟩
      · have hl : 0 < left.len := by omega
        rw [if_neg hle]
        exact iff_of_true (returns_serial sl (ready_divide_signed hl hr dl dr hne))
          fun h => absurd h hle
    · by_cases hle : left.len ≤ 64
      · rw [if_pos hle, signed_mod_iff dl dr sl sr hne hle]
        exact ⟨fun h _ => h, fun h => h hle⟩
      · have hl : 0 < left.len := by omega
        rw [if_neg hle]
        exact iff_of_true (returns_serial sl (ready_modulus_signed hl hr dl dr sl hne))
          fun h => absurd h hle

/-- Minus seven by two, unsized in four bits. -/
theorem division_correct_iff_example :
    let left := signedBits [.v1, .v0, .v0, .v1] false true
    let right := signedBits [.v0, .v1, .v0] true true
    Returns left right (-3) (div left right) ∧ Returns left right (-1) (mod left right) := by
  intro left right
  obtain ⟨hdiv, hmod⟩ := division_correct_iff left right (by decide) (by decide) rfl (by decide)
  have hl : left.toInt = -7 := by decide
  have hr : right.toInt = 2 := by decide
  have hword : WordDivisor left right := Or.inl (by decide)
  rw [hl, hr] at hdiv hmod
  exact ⟨hdiv.mpr fun _ => ⟨hword, by decide⟩, hmod.mpr fun _ => hword⟩

set_option maxRecDepth 4000 in
/-- An unsized minus eight by minus one keeps its sign, a divisor of `2 ^ 63` divides by zero,
and one of `2 ^ 64` divides the largest word into one. -/
theorem division_loses_operands :
    (div (signedBits [.v0, .v0, .v0, .v1] false true) (signedBits [.v1] false true)).map toInt =
        some (-8) ∧
      div (signedBits [.v1, .v0] true true)
        (signedBits (List.replicate 63 .v0 ++ [.v1, .v0]) true true) = none ∧
      (div (ofBits (List.replicate 64 .v1) true)
        (ofBits (List.replicate 64 .v0 ++ [.v1]) true)).map toInt = some 1 := by
  exact ⟨by decide, by decide, by decide⟩

end Operators

end Icarus.Verinum
