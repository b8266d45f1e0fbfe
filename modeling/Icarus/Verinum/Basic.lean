import Icarus.Core.TwosComplement
import Icarus.Core.Words

/-!
# Numbers of the compiler

`verinum`: a little-endian string of four-valued bits, with or without a length,
signed or unsigned. A number without X and Z bits stands for an integer; a longer
string stands for the same integer when it repeats the sign bit.
-/

namespace Icarus

open Icarus.Core

namespace Verinum

/-- `verinum::V`. -/
inductive V
  | v0 | v1 | vx | vz
  deriving DecidableEq, Repr

/-- The number that a bit adds. -/
def V.digit : V → Nat
  | .v1 => 1
  | _ => 0

/-- `operator ~` of a bit. -/
def V.not : V → V
  | .v0 => .v1
  | .v1 => .v0
  | _ => .vx

/-- `add_with_carry`: the sum bit and the carry. -/
def addWithCarry (l r c : V) : V × V :=
  if c = .vx ∨ c = .vz then (.vx, .vx)
  else if l = .vx ∨ l = .vz then (.vx, .vx)
  else if r = .vx ∨ r = .vz then (.vx, .vx)
  else
    let sum := c.digit + l.digit + r.digit
    (if sum % 2 = 1 then .v1 else .v0, if 2 ≤ sum then .v1 else .v0)

/-- A bit is zero or one. -/
def V.Known (b : V) : Prop := b = .v0 ∨ b = .v1

instance (b : V) : Decidable b.Known := inferInstanceAs (Decidable (_ ∨ _))

@[simp] theorem V.digit_v0 : V.digit .v0 = 0 := rfl

@[simp] theorem V.digit_v1 : V.digit .v1 = 1 := rfl

theorem V.digit_lt (b : V) : b.digit < 2 ^ 1 := by cases b <;> decide

theorem V.Known.eq_of_digit {a b : V} (ha : a.Known) (hb : b.Known) (h : a.digit = b.digit) :
    a = b := by
  rcases ha with rfl | rfl <;> rcases hb with rfl | rfl <;> first | rfl | cases h

theorem V.Known.not {b : V} (h : b.Known) : b.not.Known ∧ b.not.digit + b.digit = 1 := by
  rcases h with rfl | rfl <;> decide

/-- Known bits and a known carry are added. -/
theorem addWithCarry_eq {l r c : V} (hl : l.Known) (hr : r.Known) (hc : c.Known) :
    (addWithCarry l r c).1.Known ∧ (addWithCarry l r c).2.Known ∧
      (addWithCarry l r c).1.digit + 2 * (addWithCarry l r c).2.digit =
        l.digit + r.digit + c.digit := by
  rcases hl with rfl | rfl <;> rcases hr with rfl | rfl <;> rcases hc with rfl | rfl <;> decide

/-! ## Strings of bits -/

/-- `n` bits of a string that continues with a pad. -/
def extend (bits : List V) (pad : V) (n : Nat) : List V :=
  (List.range n).map fun idx => bits.getD idx pad

@[simp] theorem length_extend (bits : List V) (pad : V) (n : Nat) :
    (extend bits pad n).length = n := by simp [extend]

theorem getElem?_extend (bits : List V) (pad : V) (n i : Nat) :
    (extend bits pad n)[i]? = if i < n then some (bits.getD i pad) else none := by
  by_cases hi : i < n <;> simp [extend, hi]

theorem extend_of_le {bits : List V} (pad : V) {n : Nat} (h : n ≤ bits.length) :
    extend bits pad n = bits.take n := by
  apply List.ext_getElem?
  intro i
  rw [getElem?_extend, List.getElem?_take]
  split_ifs with hi
  · rw [List.getD_eq_getElem?_getD, List.getElem?_eq_getElem (by omega), Option.getD_some]
  · rfl

theorem extend_of_ge {bits : List V} (pad : V) {n : Nat} (h : bits.length ≤ n) :
    extend bits pad n = bits ++ List.replicate (n - bits.length) pad := by
  apply List.ext_getElem?
  intro i
  rw [getElem?_extend, List.getElem?_append, List.getElem?_replicate, List.getD_eq_getElem?_getD]
  by_cases hi : i < bits.length
  · rw [if_pos (by omega), if_pos hi, List.getElem?_eq_getElem hi, Option.getD_some]
  · rw [if_neg hi, List.getElem?_eq_none (by omega), Option.getD_none]
    by_cases hn : i < n
    · rw [if_pos hn, if_pos (by omega)]
    · rw [if_neg hn, if_neg (by omega)]

theorem extend_succ (bits : List V) (pad : V) (n : Nat) :
    extend bits pad (n + 1) = extend bits pad n ++ [bits.getD n pad] := by
  rw [extend, List.range_succ, List.map_append]
  rfl

theorem extend_nil (pad : V) (n : Nat) : extend [] pad n = List.replicate n pad := by
  rw [extend_of_ge pad (Nat.zero_le n), List.nil_append, List.length_nil, Nat.sub_zero]

theorem extend_cons (b : V) (bits : List V) (pad : V) (n : Nat) :
    extend (b :: bits) pad (n + 1) = b :: extend bits pad n := by
  rw [extend, List.range_succ_eq_map, List.map_cons, List.map_map]
  rfl

theorem extend_map_not (bits : List V) (pad : V) (n : Nat) :
    extend (bits.map V.not) pad.not n = (extend bits pad n).map V.not := by
  rw [extend, extend, List.map_map]
  apply List.map_congr_left
  intro idx _
  simp only [List.getD_eq_getElem?_getD, List.getElem?_map, Function.comp_apply]
  cases bits[idx]? <;> rfl

theorem known_extend {bits : List V} {pad : V} (h : ∀ b ∈ bits, b.Known) (hp : pad.Known)
    (n : Nat) : ∀ b ∈ extend bits pad n, b.Known := by
  intro b hb
  obtain ⟨i, -, rfl⟩ := List.mem_map.mp hb
  rw [List.getD_eq_getElem?_getD]
  by_cases hi : i < bits.length
  · rw [List.getElem?_eq_getElem hi]
    exact h _ (List.getElem_mem hi)
  · rwa [List.getElem?_eq_none (by omega)]

/-- The number of a string of bits. -/
def number (bits : List V) : Nat := Words.sum 1 V.digit bits

theorem number_lt (bits : List V) : number bits < 2 ^ bits.length := by
  have h := Words.sum_lt V.digit_lt bits
  rwa [Nat.one_mul] at h

theorem number_append (xs ys : List V) :
    number (xs ++ ys) = number xs + 2 ^ xs.length * number ys := by
  have h := Words.sum_append (w := 1) V.digit xs ys
  rwa [Nat.one_mul] at h

theorem number_singleton (b : V) : number [b] = b.digit := by simp [number]

theorem number_replicate (n : Nat) (b : V) :
    number (List.replicate n b) = (2 ^ n - 1) * b.digit := by
  induction n with
  | zero => simp [number]
  | succ n ih =>
    have hpos := Nat.two_pow_pos n
    rw [List.replicate_succ', number_append, ih, number_singleton, List.length_replicate,
      ← Nat.add_mul, Nat.pow_succ]
    congr 1
    omega

/-- Complementing known bits subtracts from the largest number. -/
theorem number_map_not {bits : List V} (h : ∀ b ∈ bits, b.Known) :
    (∀ b ∈ bits.map V.not, b.Known) ∧
      number (bits.map V.not) + number bits + 1 = 2 ^ bits.length := by
  constructor
  · intro b hb
    obtain ⟨c, hc, rfl⟩ := List.mem_map.mp hb
    exact (h c hc).not.1
  · induction bits with
    | nil => rfl
    | cons b bits ih =>
      have hb := (h b (by simp)).not.2
      have hrest := ih fun c hc => h c (List.mem_cons_of_mem _ hc)
      simp only [number, List.map_cons, Words.sum_cons, List.length_cons, Nat.pow_succ] at hrest ⊢
      omega

end Verinum

/-- `verinum`. -/
structure Verinum where
  /-- `bits_`. -/
  bits : List Verinum.V
  /-- `has_len_`: the length was specified. -/
  hasLen : Bool
  /-- `has_sign_`. -/
  hasSign : Bool
  /-- `is_single_`: the number comes from a literal of a single bit value. -/
  isSingle : Bool
  /-- `string_flag_`. -/
  isString : Bool
  deriving DecidableEq, Repr

namespace Verinum

/-- The constructor from bits. -/
def ofBits (bits : List V) (hasLen : Bool) : Verinum := ⟨bits, hasLen, false, false, false⟩

/-- The constructor from one bit, repeated. -/
def fill (v : V) (nbits : Nat) (hasLen : Bool) : Verinum := ofBits (List.replicate nbits v) hasLen

/-- `len`. -/
def len (v : Verinum) : Nat := v.bits.length

/-- `get`; an index past the end fails an assertion. -/
def get (v : Verinum) (idx : Nat) : V := v.bits.getD idx .v0

/-- `sign_bit`. -/
def signBit (v : Verinum) : V := if v.hasSign then v.get (v.len - 1) else .v0

/-- `is_defined`. -/
def isDefined (v : Verinum) : Bool := v.bits.all fun b => b ≠ .vx ∧ b ≠ .vz

/-- `is_zero`. -/
def isZero (v : Verinum) : Bool := v.bits.all fun b => b = .v0

/-- `is_negative`. -/
def isNegative (v : Verinum) : Bool := v.get (v.len - 1) = .v1 ∧ v.hasSign

/-- The integer of a number. -/
def toInt (v : Verinum) : Int := TwosComplement.reading v.hasSign v.len (number v.bits)

/-! ## The integer -/

theorem isDefined_iff (v : Verinum) : v.isDefined ↔ ∀ b ∈ v.bits, b.Known := by
  have hbit : ∀ b : V, decide (b ≠ .vx ∧ b ≠ .vz) = true ↔ b.Known := by
    intro b
    cases b <;> decide
  simp only [isDefined, List.all_eq_true, hbit]

theorem known_signBit {v : Verinum} (h : ∀ b ∈ v.bits, b.Known) : v.signBit.Known := by
  unfold signBit get
  split_ifs
  · rw [List.getD_eq_getElem?_getD]
    by_cases hi : v.len - 1 < v.bits.length
    · rw [List.getElem?_eq_getElem hi]
      exact h _ (List.getElem_mem hi)
    · rw [List.getElem?_eq_none (by omega)]
      exact Or.inl rfl
  · exact Or.inl rfl

/-- The top bit tells which half the number is in. -/
theorem number_top {v : Verinum} (h : 0 < v.len) :
    number v.bits = number (v.bits.take (v.len - 1)) + 2 ^ (v.len - 1) * (v.get (v.len - 1)).digit := by
  have hlt : v.len - 1 < v.bits.length := Nat.sub_one_lt_of_lt h
  have hsplit : v.bits = v.bits.take (v.len - 1) ++ [v.get (v.len - 1)] := by
    rw [get, List.getD_eq_getElem?_getD, List.getElem?_eq_getElem hlt, Option.getD_some,
      List.take_append_getElem hlt, Nat.sub_add_cancel h]
    exact (List.take_of_length_le (Nat.le_refl _)).symm
  have hlen : (v.bits.take (v.len - 1)).length = v.len - 1 := by
    rw [List.length_take]
    omega
  conv_lhs => rw [hsplit]
  rw [number_append, hlen, number_singleton]

/-- A number without bits is zero. -/
theorem toInt_of_len_zero {v : Verinum} (h : v.len = 0) : v.toInt = 0 := by
  have hnil : v.bits = [] := List.length_eq_zero_iff.mp h
  rw [toInt, hnil]
  exact TwosComplement.reading_of_lt (Nat.two_pow_pos _)

/-- The integer is in the range of its length. -/
theorem toInt_inRange {v : Verinum} (h : 0 < v.len) :
    TwosComplement.InRange v.hasSign v.len v.toInt :=
  TwosComplement.reading_inRange v.hasSign h (number_lt v.bits)

/-- The integer, from number and sign bit. -/
theorem toInt_eq {v : Verinum} (h : 0 < v.len) :
    v.toInt = (number v.bits : Int) - 2 ^ v.len * v.signBit.digit := by
  have htop := number_top h
  have hlow := number_lt (v.bits.take (v.len - 1))
  have hle : v.len - 1 ≤ v.bits.length := Nat.sub_le _ _
  rw [List.length_take, Nat.min_eq_left hle] at hlow
  unfold toInt signBit
  cases v.hasSign with
  | false => simp [TwosComplement.reading_unsigned]
  | true =>
    have hd := (v.get (v.len - 1)).digit_lt
    rcases (show (v.get (v.len - 1)).digit = 0 ∨ (v.get (v.len - 1)).digit = 1 by omega) with
      h0 | h1
    · rw [h0, Nat.mul_zero] at htop
      rw [TwosComplement.reading_of_lt (by omega), if_pos rfl, h0]
      simp
    · rw [h1, Nat.mul_one] at htop
      rw [TwosComplement.reading_of_ge (by omega), if_pos rfl, h1]
      simp

/-- Extended by its sign bit to any length, the number is congruent to the integer. -/
theorem number_extend_modEq {v : Verinum} (h : 0 < v.len) (n : Nat) :
    (number (extend v.bits v.signBit n) : Int) ≡ v.toInt [ZMOD 2 ^ n] := by
  rw [toInt_eq h]
  apply Int.modEq_iff_dvd.mpr
  by_cases hn : n ≤ v.len
  · have hsplit := number_append (v.bits.take n) (v.bits.drop n)
    rw [List.take_append_drop, List.length_take_of_le hn] at hsplit
    obtain ⟨k, hk⟩ : ∃ k, v.len = n + k := ⟨v.len - n, by omega⟩
    rw [extend_of_le _ hn, hsplit, hk, pow_add]
    push_cast
    exact ⟨number (v.bits.drop n) - 2 ^ k * v.signBit.digit, by ring⟩
  · have hlen : v.bits.length ≤ n := by
      have : v.bits.length = v.len := rfl
      omega
    obtain ⟨k, hk⟩ : ∃ k, n = v.len + k := ⟨n - v.len, by omega⟩
    have hpos := Nat.two_pow_pos k
    rw [extend_of_ge _ hlen, number_append, number_replicate, hk, pow_add]
    rw [show v.bits.length = v.len from rfl, Nat.add_sub_cancel_left]
    push_cast [Nat.cast_sub hpos]
    exact ⟨-v.signBit.digit, by ring⟩

/-- A string that repeats the sign bit stands for the same integer. -/
theorem toInt_of_extend {v w : Verinum} (hsign : v.hasSign = w.hasSign) (hw : 0 < w.len)
    (hle : w.len ≤ v.len) (h : v.bits = extend w.bits w.signBit v.len) : v.toInt = w.toInt := by
  have hmod := number_extend_modEq hw v.len
  rw [← h] at hmod
  unfold toInt
  apply TwosComplement.reading_eq (show 0 < v.len by omega) (number_lt v.bits) _ hmod
  rw [hsign]
  exact (toInt_inRange hw).mono hle

end Verinum

end Icarus
