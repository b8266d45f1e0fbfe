import Icarus.Verinum.Basic

/-!
# Comparisons

`==` and `<=` of `verinum`: equal pads first, then the bits that only the longer
operand has, then the common bits from the top. Between operands of the same
signedness they compare the integers.
-/

namespace Icarus.Verinum

open Icarus.Core

/-- The bit that a comparison repeats above an operand. -/
def comparePad (signedCalc : Bool) (v : Verinum) : V :=
  if signedCalc then v.get (v.len - 1) else .v0

/-- `operator ==`. -/
def eq (left right : Verinum) : V :=
  let signedCalc := left.hasSign && right.hasSign
  let leftPad := comparePad signedCalc left
  let rightPad := comparePad signedCalc right
  if leftPad = .v1 ∧ rightPad = .v0 then .v0
  else if leftPad = .v0 ∧ rightPad = .v1 then .v0
  else
    let maxLen := max left.len right.len
    if extend left.bits leftPad maxLen = extend right.bits rightPad maxLen then .v1 else .v0

/-- The loop of `<=` over the common bits, from the top; the bits still to be read are those
below `idx`. -/
def leLoop (left right : List V) : Nat → V
  | 0 => .v1
  | idx + 1 =>
    let l := left.getD idx .v0
    let r := right.getD idx .v0
    if l = .vx ∨ l = .vz ∨ r = .vx ∨ r = .vz then .vx
    else if r.digit < l.digit then .v0
    else if l.digit < r.digit then .v1
    else leLoop left right idx

/-- `operator <=`. -/
def le (left right : Verinum) : V :=
  let signedCalc := left.hasSign && right.hasSign
  let leftPad := comparePad signedCalc left
  let rightPad := comparePad signedCalc right
  if leftPad = .v1 ∧ rightPad = .v0 then .v1
  else if leftPad = .v0 ∧ rightPad = .v1 then .v0
  else if (left.bits.drop right.len).any (· ≠ rightPad) then
    if signedCalc ∧ leftPad = .v1 then .v1 else .v0
  else if (right.bits.drop left.len).any (· ≠ leftPad) then
    if signedCalc ∧ rightPad = .v1 then .v0 else .v1
  else leLoop left.bits right.bits (min left.len right.len)

/-! ## Strings of one length -/

/-- Known strings of one length are equal when their numbers are. -/
theorem eq_of_number {xs ys : List V} (hx : ∀ b ∈ xs, b.Known) (hy : ∀ b ∈ ys, b.Known)
    (hlen : xs.length = ys.length) (h : number xs = number ys) : xs = ys := by
  induction xs generalizing ys with
  | nil => exact (List.length_eq_zero_iff.mp hlen.symm).symm
  | cons x xs ih =>
    cases ys with
    | nil => simp at hlen
    | cons y ys =>
      have hdx := x.digit_lt
      have hdy := y.digit_lt
      simp only [number, Words.sum_cons] at h
      have hdigit : x.digit = y.digit := by omega
      have hrest : number xs = number ys := by
        unfold number
        omega
      rw [(hx x (by simp)).eq_of_digit (hy y (by simp)) hdigit,
        ih (fun b hb => hx b (List.mem_cons_of_mem _ hb))
          (fun b hb => hy b (List.mem_cons_of_mem _ hb)) (by simpa using hlen) hrest]

/-- A string that is not all zeros is a positive number, and one that is not all ones is
not the largest. -/
theorem number_of_any_ne {xs : List V} {pad : V} (hx : ∀ b ∈ xs, b.Known) (hp : pad.Known)
    (h : xs.any (· ≠ pad)) :
    (pad = .v0 → 0 < number xs) ∧ (pad = .v1 → number xs + 1 < 2 ^ xs.length) := by
  have hne : xs ≠ List.replicate xs.length pad := by
    intro heq
    obtain ⟨b, hb, hbp⟩ := List.any_eq_true.mp h
    rw [heq] at hb
    exact (of_decide_eq_true hbp) (List.eq_of_mem_replicate hb)
  have hnum : number xs ≠ number (List.replicate xs.length pad) := by
    intro heq
    apply hne
    apply eq_of_number hx _ (by simp) heq
    intro b hb
    rwa [List.eq_of_mem_replicate hb]
  rw [number_replicate] at hnum
  have hlt := number_lt xs
  constructor
  · rintro rfl
    rw [V.digit_v0, Nat.mul_zero] at hnum
    omega
  · rintro rfl
    rw [V.digit_v1, Nat.mul_one] at hnum
    omega

theorem eq_replicate_of_not_any {xs : List V} {pad : V} (h : ¬ xs.any (· ≠ pad)) :
    xs = List.replicate xs.length pad := by
  apply List.eq_replicate_iff.mpr
  refine ⟨rfl, ?_⟩
  intro b hb
  by_contra hne
  apply h
  exact List.any_eq_true.mpr ⟨b, hb, decide_eq_true hne⟩

/-- The loop compares the bits that it reads. -/
theorem leLoop_eq {left right : List V} (hl : ∀ b ∈ left, b.Known) (hr : ∀ b ∈ right, b.Known)
    (idx : Nat) (hll : idx ≤ left.length) (hlr : idx ≤ right.length) :
    leLoop left right idx =
      if number (left.take idx) ≤ number (right.take idx) then .v1 else .v0 := by
  induction idx with
  | zero => simp [leLoop, number]
  | succ idx ih =>
    have hget : ∀ xs : List V, (∀ b ∈ xs, b.Known) → idx < xs.length →
        (xs.getD idx .v0).Known ∧
          number (xs.take (idx + 1)) =
            number (xs.take idx) + 2 ^ idx * (xs.getD idx .v0).digit ∧
          number (xs.take idx) < 2 ^ idx := by
      intro xs hxs hidx
      have hget : xs.getD idx .v0 = xs[idx] := by
        rw [List.getD_eq_getElem?_getD, List.getElem?_eq_getElem hidx, Option.getD_some]
      have hlt := number_lt (xs.take idx)
      rw [List.length_take_of_le hidx.le] at hlt
      refine ⟨?_, ?_, hlt⟩
      · rw [hget]
        exact hxs _ (List.getElem_mem hidx)
      · rw [List.take_add_one, List.getElem?_eq_getElem hidx, number_append,
          List.length_take_of_le hidx.le, hget]
        simp [number]
    obtain ⟨kl, hnl, hbl⟩ := hget left hl (by omega)
    obtain ⟨kr, hnr, hbr⟩ := hget right hr (by omega)
    have hrec := ih (by omega) (by omega)
    simp only [leLoop]
    rw [hrec, hnl, hnr]
    generalize number (left.take idx) = nl at *
    generalize number (right.take idx) = nr at *
    rcases kl with h1 | h1 <;> rcases kr with h2 | h2 <;> rw [h1, h2] <;>
      simp <;> omega

/-! ## Integers -/

section Integers

variable {v : Verinum}

theorem comparePad_eq {signedCalc : Bool} (h : signedCalc = v.hasSign) :
    comparePad signedCalc v = v.signBit := by
  rw [h]
  rfl

private theorem number_split (m : Nat) (hm : m ≤ v.len) :
    number v.bits = number (v.bits.take m) + 2 ^ m * number (v.bits.drop m) ∧
      number (v.bits.take m) < 2 ^ m ∧ (2 : Int) ^ v.len = 2 ^ m * 2 ^ (v.len - m) := by
  have hsplit := number_append (v.bits.take m) (v.bits.drop m)
  have hlt := number_lt (v.bits.take m)
  rw [List.length_take_of_le hm] at hsplit hlt
  rw [List.take_append_drop] at hsplit
  refine ⟨hsplit, hlt, ?_⟩
  rw [← pow_add, Nat.add_sub_cancel' hm]

/-- Where only sign bits are left above, the low bits tell the integer. -/
theorem toInt_take {m : Nat} (hpos : 0 < v.len) (hm : m ≤ v.len)
    (h : ¬ (v.bits.drop m).any (· ≠ v.signBit)) :
    v.toInt = number (v.bits.take m) - 2 ^ m * v.signBit.digit := by
  obtain ⟨hsplit, -, hpow⟩ := number_split m hm
  have hrep := eq_replicate_of_not_any h
  rw [List.length_drop, show v.bits.length = v.len from rfl] at hrep
  have hone := Nat.two_pow_pos (v.len - m)
  rw [toInt_eq hpos, hsplit, hrep, number_replicate, hpow]
  push_cast [Nat.cast_sub hone]
  ring

/-- A bit above that is not the sign bit puts the integer out of the range below. -/
theorem toInt_of_any_ne {m : Nat} (hpos : 0 < v.len) (hv : ∀ b ∈ v.bits, b.Known)
    (h : (v.bits.drop m).any (· ≠ v.signBit)) :
    (v.signBit = .v0 → 2 ^ m ≤ v.toInt) ∧ (v.signBit = .v1 → v.toInt < -2 ^ m) := by
  have hm : m ≤ v.len := by
    by_contra hlt
    rw [List.drop_of_length_le (Nat.le_of_lt (Nat.not_le.mp hlt))] at h
    simp at h
  obtain ⟨hsplit, hlow, hpow⟩ := number_split m hm
  have hhigh := number_of_any_ne (fun b hb => hv b (List.mem_of_mem_drop hb)) (known_signBit hv) h
  rw [List.length_drop, show v.bits.length = v.len from rfl] at hhigh
  have hlow' : (number (v.bits.take m) : Int) < 2 ^ m := by exact_mod_cast hlow
  have htwo : (0 : Int) < 2 ^ m := by exact_mod_cast Nat.two_pow_pos m
  constructor
  · intro h0
    have hge : (1 : Int) ≤ number (v.bits.drop m) := by exact_mod_cast hhigh.1 h0
    rw [toInt_eq hpos, hsplit, h0]
    push_cast
    have := mul_le_mul_of_nonneg_left hge htwo.le
    simp only [V.digit_v0]
    push_cast
    linarith [Int.natCast_nonneg (number (v.bits.take m))]
  · intro h1
    have hle : (number (v.bits.drop m) : Int) + 2 ≤ 2 ^ (v.len - m) := by
      exact_mod_cast hhigh.2 h1
    rw [toInt_eq hpos, hsplit, h1, hpow]
    push_cast
    have := mul_le_mul_of_nonneg_left hle htwo.le
    simp only [V.digit_v1]
    push_cast
    linarith

/-- The integer of a sign bit. -/
theorem toInt_bounds (hpos : 0 < v.len) :
    (v.signBit = .v0 → 0 ≤ v.toInt ∧ v.toInt < 2 ^ v.len) ∧
      (v.signBit = .v1 → -2 ^ v.len ≤ v.toInt ∧ v.toInt < 0) := by
  have hlt : (number v.bits : Int) < 2 ^ v.len := by exact_mod_cast number_lt v.bits
  have hge := Int.natCast_nonneg (number v.bits)
  rw [toInt_eq hpos]
  constructor
  · intro h0
    rw [h0]
    simpa using hlt
  · intro h1
    rw [h1]
    simp only [V.digit_v1, Nat.cast_one, mul_one]
    constructor <;> linarith

end Integers

section Operands

variable {left right : Verinum}

/-- The loops of `<=` for operands with the same sign bit. -/
private theorem le_same (hl : 0 < left.len) (hr : 0 < right.len) (kl : ∀ b ∈ left.bits, b.Known)
    (kr : ∀ b ∈ right.bits, b.Known) (hsame : left.signBit = right.signBit) {signedCalc : Bool}
    (hcalc : left.signBit = .v1 → signedCalc = true) :
    (if (left.bits.drop right.len).any (· ≠ right.signBit) then
        if signedCalc ∧ left.signBit = .v1 then V.v1 else .v0
      else if (right.bits.drop left.len).any (· ≠ left.signBit) then
        if signedCalc ∧ right.signBit = .v1 then .v0 else .v1
      else leLoop left.bits right.bits (min left.len right.len)) =
      if left.toInt ≤ right.toInt then .v1 else .v0 := by
  have hbl := toInt_bounds hl
  have hbr := toInt_bounds hr
  rw [← hsame] at hbr ⊢
  have hsign := known_signBit kl
  by_cases hal : (left.bits.drop right.len).any (· ≠ left.signBit)
  · obtain ⟨hzero, hone⟩ := toInt_of_any_ne hl kl hal
    rw [if_pos hal]
    rcases hsign with h0 | h1
    · have := hzero h0
      have := hbr.1 h0
      rw [if_neg (by rw [h0]; simp), if_neg (by omega)]
    · have := hone h1
      have := hbr.2 h1
      rw [if_pos ⟨hcalc h1, h1⟩, if_pos (by omega)]
  rw [if_neg hal]
  by_cases har : (right.bits.drop left.len).any (· ≠ left.signBit)
  · rw [if_pos har]
    rw [hsame] at har
    obtain ⟨hzero, hone⟩ := toInt_of_any_ne hr kr har
    rw [← hsame] at hzero hone
    rcases hsign with h0 | h1
    · have := hzero h0
      have := hbl.1 h0
      rw [if_neg (by rw [h0]; simp), if_pos (by omega)]
    · have := hone h1
      have := hbl.2 h1
      rw [if_pos ⟨hcalc h1, h1⟩, if_neg (by omega)]
  rw [if_neg har, leLoop_eq kl kr (min left.len right.len) (Nat.min_le_left _ _)
    (Nat.min_le_right _ _)]
  -- Only sign bits are left above the common length.
  have hcut : ∀ {v : Verinum} {m n : Nat}, v.len = m → ¬ (v.bits.drop n).any (· ≠ v.signBit) →
      ¬ (v.bits.drop (min m n)).any (· ≠ v.signBit) := by
    intro v m n hm h
    rcases Nat.le_total m n with hle | hle
    · rw [Nat.min_eq_left hle, List.drop_of_length_le (show v.bits.length ≤ m from hm.le)]
      simp
    · rwa [Nat.min_eq_right hle]
  rw [hsame] at har
  have hleft := toInt_take hl (Nat.min_le_left _ _) (hcut rfl hal)
  have hright := toInt_take hr (Nat.min_le_left _ _) (hcut rfl har)
  rw [Nat.min_comm right.len] at hright
  rw [hleft, hright, hsame]
  congr 1
  rw [eq_iff_iff]
  constructor <;> intro h <;> omega

/-- `<=` compares the integers of operands of one signedness. -/
theorem le_eq (hl : 0 < left.len) (hr : 0 < right.len) (dl : left.isDefined)
    (dr : right.isDefined) (hsign : left.hasSign = right.hasSign) :
    le left right = if left.toInt ≤ right.toInt then .v1 else .v0 := by
  have kl := (isDefined_iff left).mp dl
  have kr := (isDefined_iff right).mp dr
  have hcalc : (left.hasSign && right.hasSign) = left.hasSign := by rw [← hsign, Bool.and_self]
  have hcalc' : (left.hasSign && right.hasSign) = right.hasSign := hcalc.trans hsign
  have hbl := toInt_bounds hl
  have hbr := toInt_bounds hr
  unfold le
  simp only [comparePad_eq hcalc, comparePad_eq hcalc']
  rcases known_signBit kl with h0 | h1
  · rcases known_signBit kr with g0 | g1
    · rw [if_neg (by rw [h0]; simp), if_neg (by rw [g0]; simp)]
      exact le_same hl hr kl kr (h0.trans g0.symm) (by rw [h0]; simp)
    · rw [if_neg (by rw [h0]; simp), if_pos ⟨h0, g1⟩, if_neg]
      have := hbl.1 h0
      have := hbr.2 g1
      omega
  · rcases known_signBit kr with g0 | g1
    · rw [if_pos ⟨h1, g0⟩, if_pos]
      have := hbl.2 h1
      have := hbr.1 g0
      omega
    · rw [if_neg (by rw [g1]; simp), if_neg (by rw [h1]; simp)]
      apply le_same hl hr kl kr (h1.trans g1.symm)
      intro _
      rw [hcalc]
      by_contra hns
      rw [signBit, if_neg hns] at h1
      cases h1

/-- `==` compares the integers of operands of one signedness. -/
theorem eq_eq (hl : 0 < left.len) (hr : 0 < right.len) (dl : left.isDefined)
    (dr : right.isDefined) (hsign : left.hasSign = right.hasSign) :
    eq left right = if left.toInt = right.toInt then .v1 else .v0 := by
  have kl := (isDefined_iff left).mp dl
  have kr := (isDefined_iff right).mp dr
  have hcalc : (left.hasSign && right.hasSign) = left.hasSign := by rw [← hsign, Bool.and_self]
  have hcalc' : (left.hasSign && right.hasSign) = right.hasSign := hcalc.trans hsign
  have hbl := toInt_bounds hl
  have hbr := toInt_bounds hr
  unfold eq
  simp only [comparePad_eq hcalc, comparePad_eq hcalc']
  by_cases hdiff : left.signBit = right.signBit
  · rw [if_neg (by rw [hdiff]; rintro ⟨h1, h0⟩; rw [h1] at h0; cases h0),
      if_neg (by rw [hdiff]; rintro ⟨h1, h0⟩; rw [h1] at h0; cases h0)]
    congr 1
    rw [eq_iff_iff]
    have hml := number_extend_modEq hl (max left.len right.len)
    have hmr := number_extend_modEq hr (max left.len right.len)
    constructor
    · intro heq
      rw [heq] at hml
      apply TwosComplement.eq_of_modEq (by omega : 0 < max left.len right.len)
        ((toInt_inRange hl).mono (Nat.le_max_left _ _))
      · rw [hsign]
        exact (toInt_inRange hr).mono (Nat.le_max_right _ _)
      · exact hml.symm.trans hmr
    · intro heq
      rw [heq] at hml
      have hmod := hml.trans hmr.symm
      apply eq_of_number (known_extend kl (known_signBit kl) _)
        (known_extend kr (known_signBit kr) _) (by simp)
      have hlt1 := number_lt (extend left.bits left.signBit (max left.len right.len))
      have hlt2 := number_lt (extend right.bits right.signBit (max left.len right.len))
      rw [length_extend] at hlt1 hlt2
      have hnat := (Int.natCast_modEq_iff).mp (by exact_mod_cast hmod)
      exact Nat.ModEq.eq_of_lt_of_lt hnat hlt1 hlt2
  · rcases known_signBit kl with h0 | h1 <;> rcases known_signBit kr with g0 | g1
    · exact absurd (h0.trans g0.symm) hdiff
    · rw [if_neg (by rw [h0]; simp), if_pos ⟨h0, g1⟩, if_neg]
      have := hbl.1 h0
      have := hbr.2 g1
      omega
    · rw [if_pos ⟨h1, g0⟩, if_neg]
      have := hbl.2 h1
      have := hbr.1 g0
      omega
    · exact absurd (h1.trans g1.symm) hdiff

end Operands

end Icarus.Verinum
