import Icarus.Verinum.Sums

/-!
# Shifts and casts

`<<`, `>>` and `cast_to_width` of `verinum`. A left shift multiplies, a right
shift divides and rounds down, and a cast keeps the integer modulo the width.
-/

namespace Icarus.Verinum

open Icarus.Core

/-- `operator <<`. -/
def shl (that : Verinum) (shift : Nat) : Verinum :=
  let len := if that.hasLen then that.len else that.len + shift
  trimVnum (signedBits ((List.replicate shift V.v0 ++ that.bits).take len) that.hasLen that.hasSign)

/-- `operator >>`. -/
def shr (that : Verinum) (shift : Nat) : Verinum :=
  let sgnBit := that.signBit
  if that.len ≤ shift then
    let len := if that.hasLen then that.len else 1
    signedBits (List.replicate len sgnBit) that.hasLen that.hasSign
  else
    let len := if that.hasLen then that.len else that.len - shift
    trimVnum (signedBits (extend (that.bits.drop shift) sgnBit len) that.hasLen that.hasSign)

/-- The constructor that copies some of the bits. -/
def copyBits (that : Verinum) (nbits : Nat) : Verinum where
  bits :=
    let copy := min nbits that.len
    let pad :=
      if that.hasSign ∨ that.isSingle then (that.bits.take copy).getLastD .v0 else .v0
    extend (that.bits.take copy) pad nbits
  hasLen := true
  hasSign := that.hasSign
  isSingle := false
  isString := that.isString && that.len = nbits

/-- `cast_to_width`. -/
def castToWidth (that : Verinum) (width : Nat) : Verinum :=
  if that.hasLen ∧ that.len = width then that
  else if width ≤ that.len then copyBits that width
  else if that.len = 0 then { fill .v0 width true with hasSign := that.hasSign }
  else
    let pad := that.get (that.len - 1)
    let pad := if pad = .v1 ∧ ¬ that.hasSign ∧ ¬ that.isSingle then .v0 else pad
    let pad :=
      if that.hasLen ∧ ¬ that.hasSign ∧ ¬ that.isSingle then
        if pad = .vx then .v0 else if pad = .vz then .v0 else pad
      else pad
    signedBits (extend that.bits pad width) true that.hasSign

/-! ## Left shift -/

section Shifts

variable {v : Verinum}

theorem known_replicate {b : V} (hb : b.Known) (n : Nat) : ∀ c ∈ List.replicate n b, c.Known := by
  intro c hc
  rwa [List.eq_of_mem_replicate hc]

/-- A left shift of an unsized number multiplies the integer. -/
theorem shl_spec (hpos : 0 < v.len) (hdef : v.isDefined) (hlen : v.hasLen = false) (shift : Nat) :
    (shl v shift).toInt = v.toInt * 2 ^ shift ∧ (shl v shift).hasLen = false ∧
      (shl v shift).hasSign = v.hasSign ∧ 0 < (shl v shift).len ∧ (shl v shift).isDefined := by
  have hknown := (isDefined_iff v).mp hdef
  have hall : ∀ b ∈ List.replicate shift V.v0 ++ v.bits, b.Known := by
    intro b hb
    rcases List.mem_append.mp hb with hb | hb
    · exact known_replicate (Or.inl rfl) shift b hb
    · exact hknown b hb
  have hlong : (List.replicate shift V.v0 ++ v.bits).length = v.len + shift := by
    rw [List.length_append, List.length_replicate, Nat.add_comm]
    rfl
  obtain ⟨hint, hhas, hsgn, hlt, hdef'⟩ := trimVnum_spec
    (isDefined_signedBits hall false v.hasSign)
  unfold shl
  rw [hlen]
  simp only [Bool.false_eq_true, if_false]
  rw [← hlong, List.take_length]
  refine ⟨?_, hhas, hsgn, hlt (by rw [len_signedBits]; omega), hdef'⟩
  rw [hint, toInt_eq (by rw [len_signedBits]; omega), len_signedBits, hlong, toInt_eq hpos]
  have hsb : (signedBits (List.replicate shift .v0 ++ v.bits) false v.hasSign).signBit =
      v.signBit := by
    rw [signBit_signedBits, hlong]
    unfold signBit get
    split_ifs
    · rw [List.getD_append_right _ _ _ _ (by simp; omega)]
      congr 1
      simp
      omega
    · rfl
  rw [hsb]
  have hnum : number (signedBits (List.replicate shift .v0 ++ v.bits) false v.hasSign).bits =
      2 ^ shift * number v.bits := by
    have happ := number_append (List.replicate shift V.v0) v.bits
    rw [number_replicate, V.digit_v0, Nat.mul_zero, Nat.zero_add, List.length_replicate] at happ
    exact happ
  rw [hnum]
  push_cast
  ring

/-! ## Right shift -/

theorem number_drop (bits : List V) (k : Nat) : number (bits.drop k) = number bits / 2 ^ k := by
  have hsplit := number_append (bits.take k) (bits.drop k)
  rw [List.take_append_drop, List.length_take] at hsplit
  have hlt := number_lt (bits.take k)
  rw [List.length_take] at hlt
  rcases Nat.le_total k bits.length with hk | hk
  · rw [Nat.min_eq_left hk] at hsplit hlt
    rw [hsplit, Nat.add_mul_div_left _ _ (Nat.two_pow_pos k), Nat.div_eq_of_lt hlt, Nat.zero_add]
  · have hpow := Nat.pow_le_pow_right (n := 2) (by omega) hk
    rw [List.drop_of_length_le hk, Nat.div_eq_of_lt (Nat.lt_of_lt_of_le (number_lt bits) hpow)]
    rfl

/-- A string of sign bits is zero or minus one. -/
theorem toInt_replicate {n : Nat} (hn : 0 < n) (b : V) (hasLen hasSign : Bool)
    (hb : hasSign = false → b = .v0) :
    (signedBits (List.replicate n b) hasLen hasSign).toInt = -b.digit := by
  have hpos := Nat.two_pow_pos n
  have hsign : (signedBits (List.replicate n b) hasLen hasSign).signBit = b := by
    rw [signBit_signedBits, List.length_replicate, List.getD_eq_getElem?_getD,
      List.getElem?_replicate, if_pos (Nat.sub_lt hn Nat.one_pos), Option.getD_some]
    cases hasSign with
    | true => rfl
    | false => exact (hb rfl).symm
  have hbits : (signedBits (List.replicate n b) hasLen hasSign).bits = List.replicate n b := rfl
  rw [toInt_eq (by rw [len_signedBits, List.length_replicate]; exact hn), hsign, hbits,
    number_replicate, len_signedBits, List.length_replicate]
  push_cast [Nat.cast_sub hpos]
  ring

/-- Dropping low bits divides the integer. -/
theorem toInt_drop {shift : Nat} (hlt : shift < v.len) (hasLen : Bool) :
    (signedBits (v.bits.drop shift) hasLen v.hasSign).toInt = v.toInt / 2 ^ shift ∧
      (signedBits (v.bits.drop shift) hasLen v.hasSign).signBit = v.signBit := by
  have hlen : (v.bits.drop shift).length = v.len - shift := List.length_drop
  have hsign : (signedBits (v.bits.drop shift) hasLen v.hasSign).signBit = v.signBit := by
    rw [signBit_signedBits, hlen]
    unfold signBit get
    rw [List.getD_eq_getElem?_getD, List.getD_eq_getElem?_getD, List.getElem?_drop,
      show shift + (v.len - shift - 1) = v.len - 1 by omega]
  refine ⟨?_, hsign⟩
  have hbits : (signedBits (v.bits.drop shift) hasLen v.hasSign).bits = v.bits.drop shift := rfl
  obtain ⟨k, hk⟩ : ∃ k, v.len = shift + k := ⟨v.len - shift, by omega⟩
  have hpow : (0 : Int) < 2 ^ shift := by exact_mod_cast Nat.two_pow_pos shift
  rw [toInt_eq (by rw [len_signedBits, hlen]; omega), toInt_eq (by omega : 0 < v.len), hsign, hbits,
    number_drop, len_signedBits, hlen, hk, Nat.add_sub_cancel_left, pow_add, mul_assoc,
    Int.sub_mul_ediv_left _ _ hpow.ne']
  push_cast
  rfl

/-- A right shift divides the integer and rounds down. -/
theorem shr_spec (hpos : 0 < v.len) (hdef : v.isDefined) (shift : Nat) :
    (shr v shift).toInt = v.toInt / 2 ^ shift ∧ (shr v shift).hasLen = v.hasLen ∧
      (shr v shift).hasSign = v.hasSign ∧ 0 < (shr v shift).len ∧ (shr v shift).isDefined ∧
      (v.hasLen = true → (shr v shift).len = v.len) := by
  have hknown := (isDefined_iff v).mp hdef
  have hsb := known_signBit hknown
  unfold shr
  by_cases hle : v.len ≤ shift
  · simp only [if_pos hle]
    have hlen : 0 < if v.hasLen then v.len else 1 := by split_ifs <;> omega
    refine ⟨?_, rfl, rfl, ?_, isDefined_signedBits (known_replicate hsb _) _ _, ?_⟩
    · rw [toInt_replicate hlen _ _ _ (by intro h; rw [signBit, h]; rfl)]
      have hpow : (2 : Int) ^ v.len ≤ 2 ^ shift := by
        exact_mod_cast Nat.pow_le_pow_right (by omega) hle
      have hlt : (number v.bits : Int) < 2 ^ v.len := by exact_mod_cast number_lt v.bits
      have hge := Int.natCast_nonneg (number v.bits)
      have hz := toInt_eq hpos
      symm
      rcases hsb with h0 | h1
      · rw [h0] at hz ⊢
        apply Int.ediv_eq_zero_of_lt <;> simp only [V.digit_v0] at hz <;> push_cast at hz <;> linarith
      · rw [h1] at hz ⊢
        simp only [V.digit_v1, Nat.cast_one, mul_one] at hz ⊢
        apply Int.ediv_eq_neg_one_of_neg_of_le <;> linarith
    · rw [len_signedBits, List.length_replicate]
      exact hlen
    · intro h
      rw [len_signedBits, List.length_replicate, if_pos h]
  · have hlt : shift < v.len := Nat.not_le.mp hle
    simp only [if_neg hle]
    have hlen : v.len - shift ≤ if v.hasLen then v.len else v.len - shift := by split_ifs <;> omega
    have hdropped : ∀ b ∈ v.bits.drop shift, b.Known :=
      fun b hb => hknown b (List.mem_of_mem_drop hb)
    have hall := known_extend hdropped hsb (if v.hasLen then v.len else v.len - shift)
    obtain ⟨hint, hhas, hsgn, hgt, hdef'⟩ := trimVnum_spec
      (isDefined_signedBits hall v.hasLen v.hasSign)
    obtain ⟨hdrop, hdropsb⟩ := toInt_drop hlt v.hasLen
    refine ⟨?_, hhas, hsgn, hgt (by rw [len_signedBits, length_extend]; omega), hdef', ?_⟩
    · rw [hint, ← hdrop]
      refine toInt_of_extend (w := signedBits (v.bits.drop shift) v.hasLen v.hasSign) rfl ?_ ?_ ?_
      · rw [len_signedBits, List.length_drop]
        exact Nat.sub_pos_of_lt hlt
      · rw [len_signedBits, len_signedBits, length_extend, List.length_drop]
        exact hlen
      · rw [len_signedBits, length_extend, hdropsb]
        rfl
    · intro h
      rw [trimVnum_of_hasLen (by exact h), len_signedBits, length_extend, if_pos h]

/-! ## Casts -/

/-- A cast keeps the low bits and repeats the sign bit above. -/
theorem castToWidth_spec {width : Nat} (hdef : v.isDefined)
    (hsingle : v.isSingle = false ∨ width ≤ v.len) :
    (castToWidth v width).bits = extend v.bits v.signBit width ∧
      (castToWidth v width).hasLen = true ∧ (castToWidth v width).hasSign = v.hasSign := by
  have hknown := (isDefined_iff v).mp hdef
  unfold castToWidth
  by_cases hsame : v.hasLen = true ∧ v.len = width
  · rw [if_pos hsame]
    refine ⟨?_, hsame.1, rfl⟩
    rw [← hsame.2, extend_of_le _ (by exact Nat.le_refl _)]
    exact (List.take_of_length_le (Nat.le_refl _)).symm
  rw [if_neg hsame]
  by_cases hshort : width ≤ v.len
  · rw [if_pos hshort]
    refine ⟨?_, rfl, rfl⟩
    simp only [copyBits, Nat.min_eq_left hshort]
    rw [extend_of_le _ (by rw [List.length_take]; exact Nat.le_min.mpr ⟨Nat.le_refl _, hshort⟩),
      extend_of_le _ hshort, List.take_take, Nat.min_self]
  rw [if_neg hshort]
  by_cases hzero : v.len = 0
  · rw [if_pos hzero]
    refine ⟨?_, rfl, rfl⟩
    have hnil : v.bits = [] := List.length_eq_zero_iff.mp hzero
    have hsb : v.signBit = .v0 := by
      unfold signBit get
      rw [hnil]
      split_ifs <;> rfl
    rw [hnil, extend_nil, hsb]
    rfl
  rw [if_neg hzero]
  have hsing : v.isSingle = false := hsingle.resolve_right hshort
  have htop : (v.get (v.len - 1)).Known := by
    unfold get
    have hlt : v.len - 1 < v.bits.length := Nat.sub_one_lt hzero
    rw [List.getD_eq_getElem?_getD, List.getElem?_eq_getElem hlt]
    exact hknown _ (List.getElem_mem hlt)
  refine ⟨?_, rfl, rfl⟩
  simp only [signedBits, ofBits, signBit, hsing]
  rcases htop with h | h <;> rw [h] <;> cases v.hasSign <;> cases v.hasLen <;> rfl

/-- A cast keeps the integer modulo the width. -/
theorem castToWidth_modEq {width : Nat} (hdef : v.isDefined) (hpos : 0 < v.len)
    (hsingle : v.isSingle = false ∨ width ≤ v.len) :
    (castToWidth v width).isDefined ∧ (castToWidth v width).hasLen = true ∧
      (castToWidth v width).hasSign = v.hasSign ∧ (castToWidth v width).len = width ∧
      (number (castToWidth v width).bits : Int) ≡ v.toInt [ZMOD 2 ^ width] := by
  have hknown := (isDefined_iff v).mp hdef
  obtain ⟨hbits, hlen, hsign⟩ := castToWidth_spec hdef hsingle
  refine ⟨?_, hlen, hsign, ?_, ?_⟩
  · rw [isDefined_iff, hbits]
    exact known_extend hknown (known_signBit hknown) width
  · rw [len, hbits, length_extend]
  · rw [hbits]
    exact number_extend_modEq hpos width

end Shifts

end Icarus.Verinum
