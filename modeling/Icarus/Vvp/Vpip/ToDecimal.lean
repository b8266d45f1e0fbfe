import Icarus.Core.Numeral
import Icarus.Vvp.Bits
import Mathlib.Tactic.IntervalCases

/-!
# Vectors as decimal text

A vector is converted to digits to the base `10 ^ 9`, thirty-two bits at a time, and these
are written as decimal digits, less the zeros in front. A negative vector is complemented
on the way, with a one added to the last bits.
-/

namespace Icarus.Vvp.Vpip

open Icarus.Core

/-- `BDIGITS`, where a long has 64 bits. -/
def bdigits : Nat := 9

/-- `BASE`. -/
def base : Nat := 1000000000

/-- `BBITS`. -/
def bbits : Nat := 32

/-- `UINT_MAX`. -/
def uintMax : Nat := 2 ^ 32 - 1

/-- Shift the next bits into the digits; also the carry out of the last digit. -/
def shiftIn : List Nat → Nat → List Nat × Nat
  | [], val => ([], val)
  | v :: valv, val =>
    let val := ((v * 2 ^ bbits) % 2 ^ 64 + val) % 2 ^ 64
    let (valv, carry) := shiftIn valv (val / base)
    (val % base :: valv, carry)

/-- The decimal digits of a digit to the base, as characters. -/
def segment (v : Nat) : List Char :=
  ((List.range bdigits).map fun i => Nat.digitChar (v / 10 ^ i % 10)).reverse

/-- One character, unless it is a zero in front. -/
def writeDigit (buf : List Char × Bool) (c : Char) : List Char × Bool :=
  let zeroSuppress := buf.2 && c = '0'
  (if zeroSuppress then buf.1 else buf.1 ++ [c], zeroSuppress)

/-- Write a digit to the base. -/
def writeDigits (buf : List Char × Bool) (v : Nat) : List Char × Bool :=
  (segment v).foldl writeDigit buf

/-- The state of the loop over the bits. -/
structure DecState where
  /-- The digits. -/
  valv : List Nat
  /-- The bits that are not shifted in yet. -/
  val : Nat
  /-- Whether the digits were too few. -/
  overflow : Bool
  /-- The number of X bits. -/
  countX : Nat
  /-- The number of Z bits. -/
  countZ : Nat

/-- The bits that count: the ones, or the zeros of a negative vector. -/
def counts (comp : Bool) (b : Bit4) : Bool :=
  match b with
  | .one => !comp
  | .zero => comp
  | _ => false

/-- One bit, with the number of the bits behind it. -/
def decStep (comp : Bool) (s : DecState) (b : Bit4) (left : Nat) : DecState :=
  let countX := if b = .x then s.countX + 1 else s.countX
  let countZ := if b = .z then s.countZ + 1 else s.countZ
  let val := (s.val + (counts comp b).toNat) % 2 ^ 64
  if left % bbits = 0 then
    let val := if comp ∧ left = 0 then (val + 1) % 2 ^ 64 else val
    let (valv, carry) := shiftIn s.valv val
    ⟨valv, 0, s.overflow || carry ≠ 0, countX, countZ⟩
  else ⟨s.valv, (val + val) % 2 ^ 64, s.overflow, countX, countZ⟩

/-- The loop over the bits, from the most significant one on. -/
def decLoop (comp : Bool) : DecState → List Bit4 → DecState
  | s, [] => s
  | s, b :: bs => decLoop comp (decStep comp s b bs.length) bs

/-- The decimal text of a vector. -/
structure DecText where
  /-- The text. -/
  text : List Char
  /-- Whether there was a carry out of the digits. -/
  overflow : Bool

/-- The number of digits to the base for a number of bits. -/
def decLength (mbits : Nat) : Nat := ((mbits * 28 + 92) / 93 + bdigits - 1) / bdigits

/-- Write the text, once all bits are in. -/
def decWrite (size : Nat) (comp : Bool) (s : DecState) : List Char :=
  if s.countX = size then ['x']
  else if s.countX > 0 then ['X']
  else if s.countZ = size then ['z']
  else if s.countZ > 0 then ['Z']
  else
    let (buf, zeroSuppress) := s.valv.reverse.foldl writeDigits (if comp then ['-'] else [], true)
    if zeroSuppress then buf ++ [if comp then '1' else '0'] else buf

/-- The text of a vector; none where the width is over the limit that is asserted. -/
def vec4ToDecStr (vec4 : Vector4) (signedFlag : Bool) : Option DecText :=
  let size := vec4.length
  let sign := if signedFlag then vec4.getLastD .x else .zero
  let comp : Bool := sign = .one
  let mbits := if signedFlag then (size + uintMax) % 2 ^ 32 else size
  if mbits < (uintMax - 92) / 28 then
    let s := decLoop comp ⟨List.replicate (decLength mbits) 0, 0, false,
      if sign = .x then 1 else 0, if sign = .z then 1 else 0⟩ (vec4.take mbits).reverse
    some ⟨decWrite size comp s, s.overflow⟩
  else none

/-- The canonical decimal numeral of an integer. -/
def decimalNumeral : Int → List Char
  | .ofNat n => Nat.toDigits 10 n
  | .negSucc n => '-' :: Nat.toDigits 10 (n + 1)

/-! ## The digits -/

theorem base_pos : 0 < base := by norm_num [base]

/-- Thirty-two more bits in the digits. -/
theorem shiftIn_spec {valv : List Nat} {val : Nat} (hdigits : ∀ d ∈ valv, d < base)
    (hval : val ≤ 2 ^ 32) : (shiftIn valv val).1.length = valv.length ∧
      (∀ d ∈ (shiftIn valv val).1, d < base) ∧
      Nat.ofDigits base (shiftIn valv val).1 + base ^ valv.length * (shiftIn valv val).2 =
        Nat.ofDigits base valv * 2 ^ 32 + val := by
  induction valv generalizing val with
  | nil =>
    refine ⟨rfl, hdigits, ?_⟩
    simp [shiftIn]
  | cons v valv ih =>
    have hv : v < base := hdigits v List.mem_cons_self
    have hsum : ((v * 2 ^ bbits) % 2 ^ 64 + val) % 2 ^ 64 = v * 2 ^ 32 + val := by
      rw [base] at hv
      rw [bbits]
      omega
    have hquot : (v * 2 ^ 32 + val) / base ≤ 2 ^ 32 := by
      refine Nat.div_le_of_le_mul ?_
      calc v * 2 ^ 32 + val ≤ v * 2 ^ 32 + 2 ^ 32 := Nat.add_le_add_left hval _
        _ = (v + 1) * 2 ^ 32 := (Nat.succ_mul _ _).symm
        _ ≤ base * 2 ^ 32 := Nat.mul_le_mul_right _ hv
    obtain ⟨hlen, hall, htotal⟩ := ih (fun d hd => hdigits d (List.mem_cons_of_mem _ hd)) hquot
    rw [shiftIn, hsum]
    refine ⟨congrArg Nat.succ hlen, fun d hd => ?_, ?_⟩
    · rcases List.mem_cons.mp hd with rfl | hd
      · exact Nat.mod_lt _ base_pos
      · exact hall d hd
    · have hdiv := Nat.div_add_mod (v * 2 ^ 32 + val) base
      rw [Numeral.ofDigits_cons, Numeral.ofDigits_cons, List.length_cons, Nat.pow_succ]
      generalize Nat.ofDigits base (shiftIn valv ((v * 2 ^ 32 + val) / base)).1 = x at htotal ⊢
      generalize (shiftIn valv ((v * 2 ^ 32 + val) / base)).2 = c at htotal ⊢
      generalize (v * 2 ^ 32 + val) / base = q at htotal hdiv
      generalize (v * 2 ^ 32 + val) % base = r at hdiv ⊢
      calc r + base * x + base ^ valv.length * base * c
          = r + base * (x + base ^ valv.length * c) := by ring
        _ = r + base * (Nat.ofDigits base valv * 2 ^ 32 + q) := by rw [htotal]
        _ = (base * q + r) + base * Nat.ofDigits base valv * 2 ^ 32 := by ring
        _ = (v + base * Nat.ofDigits base valv) * 2 ^ 32 + val := by rw [hdiv]; ring

/-- There is no carry where the number has room. -/
theorem shiftIn_fits {valv : List Nat} {val : Nat} (hdigits : ∀ d ∈ valv, d < base)
    (hval : val ≤ 2 ^ 32)
    (hfits : Nat.ofDigits base valv * 2 ^ 32 + val < base ^ valv.length) :
    (shiftIn valv val).1.length = valv.length ∧ (∀ d ∈ (shiftIn valv val).1, d < base) ∧
      Nat.ofDigits base (shiftIn valv val).1 = Nat.ofDigits base valv * 2 ^ 32 + val ∧
      (shiftIn valv val).2 = 0 := by
  obtain ⟨hlen, hall, htotal⟩ := shiftIn_spec hdigits hval
  have hcarry : (shiftIn valv val).2 = 0 := by
    by_contra hne
    have hle : base ^ valv.length * 1 ≤ base ^ valv.length * (shiftIn valv val).2 :=
      Nat.mul_le_mul_left _ (Nat.one_le_iff_ne_zero.mpr hne)
    omega
  rw [hcarry, Nat.mul_zero, Nat.add_zero] at htotal
  exact ⟨hlen, hall, htotal, hcarry⟩

/-- The digits are enough: `28 / 93` is over the decimal logarithm of two. -/
theorem two_pow_lt_decLength {mbits : Nat} (hpos : 0 < mbits) :
    2 ^ mbits < base ^ decLength mbits := by
  obtain ⟨n, hn⟩ : ∃ n, n = (mbits * 28 + 92) / 93 := ⟨_, rfl⟩
  have hlog : (2 ^ mbits) ^ 93 < (10 ^ n) ^ 93 := by
    calc (2 ^ mbits) ^ 93 = (2 ^ 93) ^ mbits := by rw [← pow_mul, ← pow_mul, Nat.mul_comm]
      _ < (10 ^ 28) ^ mbits := Nat.pow_lt_pow_left (by norm_num) hpos.ne'
      _ = 10 ^ (28 * mbits) := by rw [← pow_mul]
      _ ≤ 10 ^ (n * 93) := Nat.pow_le_pow_right (by omega) (by omega)
      _ = (10 ^ n) ^ 93 := by rw [pow_mul]
  have hlength : n ≤ 9 * decLength mbits := by
    rw [decLength, ← hn, show bdigits = 9 from rfl]
    omega
  calc 2 ^ mbits < 10 ^ n := lt_of_pow_lt_pow_left₀ 93 (Nat.zero_le _) hlog
    _ ≤ 10 ^ (9 * decLength mbits) := Nat.pow_le_pow_right (by omega) hlength
    _ = base ^ decLength mbits := by
      rw [pow_mul]
      rfl

/-! ## The loop over the bits -/

/-- The digits and the bits that are not shifted in yet are the bits so far. -/
structure Converting (s : DecState) (len left n : Nat) : Prop where
  /-- The number of digits. -/
  length : s.valv.length = len
  /-- The digits. -/
  digits : ∀ d ∈ s.valv, d < base
  /-- There was no carry. -/
  overflow : s.overflow = false
  /-- The number of the bits so far. -/
  pending : ∃ j c, s.val = 2 * c ∧ c < 2 ^ j ∧ n = Nat.ofDigits base s.valv * 2 ^ j + c ∧
    j + left % 32 ≤ 32 ∧ (left % 32 = 0 → j = 0) ∧
    (Nat.ofDigits base s.valv = 0 ∨ left % 32 = 0 ∨ j + left % 32 = 32)

/-- The digits are a number. -/
structure Converted (s : DecState) (n : Nat) : Prop where
  /-- The digits. -/
  digits : ∀ d ∈ s.valv, d < base
  /-- There was no carry. -/
  overflow : s.overflow = false
  /-- The number. -/
  value : Nat.ofDigits base s.valv = n

variable {comp : Bool} {s : DecState} {len left n : Nat} {b : Bit4}

/-- The pending bits with the next one. -/
theorem Converting.next (comp : Bool) (h : Converting s len (left + 1) n) (b : Bit4) :
    ∃ j c, (s.val + (counts comp b).toNat) % 2 ^ 64 = c ∧ c < 2 ^ j ∧ j + left % 32 ≤ 32 ∧
      2 * n + (counts comp b).toNat = Nat.ofDigits base s.valv * 2 ^ j + c ∧
      (Nat.ofDigits base s.valv = 0 ∨ j + left % 32 = 32) := by
  obtain ⟨j, c, hval, hc, hn, hroom, hzero, hcase⟩ := h.pending
  have hbit := Bool.toNat_le (counts comp b)
  have hj : j + 1 + left % 32 ≤ 32 := by omega
  have hpow : 2 ^ (j + 1) ≤ 2 ^ 32 := Nat.pow_le_pow_right (by omega) (by omega)
  rw [Nat.pow_succ] at hpow
  refine ⟨j + 1, s.val + (counts comp b).toNat, Nat.mod_eq_of_lt (by omega), ?_, hj, ?_, ?_⟩
  · rw [Nat.pow_succ]
    omega
  · rw [hn, hval, Nat.pow_succ]
    ring
  · rcases hcase with hcase | hcase | hcase
    · exact Or.inl hcase
    · have := hzero hcase
      omega
    · omega

/-- A bit that is not the last one. -/
theorem Converting.step (h : Converting s len (left + 1) n) (b : Bit4) (hleft : left ≠ 0)
    (hfits : 2 * n + (counts comp b).toNat < base ^ len) :
    Converting (decStep comp s b left) len left (2 * n + (counts comp b).toNat) := by
  obtain ⟨j, c, hval, hc, hroom, hn, hcase⟩ := h.next comp b
  have hpow : 2 ^ j ≤ 2 ^ 32 := Nat.pow_le_pow_right (by omega) (by omega)
  rw [decStep, bbits, hval]
  by_cases hend : left % 32 = 0
  · have hall : Nat.ofDigits base s.valv * 2 ^ j = Nat.ofDigits base s.valv * 2 ^ 32 := by
      rcases hcase with hcase | hcase
      · rw [hcase, Nat.zero_mul, Nat.zero_mul]
      · rw [hend, Nat.add_zero] at hcase
        rw [hcase]
    rw [hall] at hn
    obtain ⟨hlen, hdigits, hvalue, hcarry⟩ := shiftIn_fits h.digits (hc.le.trans hpow)
      (by rw [← hn, h.length]; exact hfits)
    simp only [if_pos hend, hleft, and_false, if_false]
    refine ⟨hlen.trans h.length, hdigits, ?_, 0, 0, rfl, Nat.one_pos, ?_, by omega,
      fun _ => rfl, Or.inr (Or.inl hend)⟩
    · simp [h.overflow, hcarry]
    · rw [hvalue, hn, Nat.pow_zero, Nat.mul_one, Nat.add_zero]
  · simp only [if_neg hend]
    refine ⟨h.length, h.digits, h.overflow, j, c, ?_, hc, hn, hroom, fun hz => absurd hz hend, ?_⟩
    · rw [Nat.mod_eq_of_lt (by omega), Nat.two_mul]
    · exact hcase.imp_right Or.inr

/-- The last bit; a one is added to a negative vector. -/
theorem Converting.last (h : Converting s len 1 n) (b : Bit4)
    (hfits : 2 * n + (counts comp b).toNat + comp.toNat < base ^ len) :
    Converted (decStep comp s b 0) (2 * n + (counts comp b).toNat + comp.toNat) := by
  obtain ⟨j, c, hval, hc, hroom, hn, hcase⟩ := h.next comp b
  have hpow : 2 ^ j ≤ 2 ^ 32 := Nat.pow_le_pow_right (by omega) (by omega)
  have hall : Nat.ofDigits base s.valv * 2 ^ j = Nat.ofDigits base s.valv * 2 ^ 32 := by
    rcases hcase with hcase | hcase
    · rw [hcase, Nat.zero_mul, Nat.zero_mul]
    · rw [show j = 32 from hcase]
  have hlast : (if comp ∧ (0 : Nat) = 0 then (c + 1) % 2 ^ 64 else c) = c + comp.toNat := by
    cases comp with
    | false => simp
    | true =>
      rw [if_pos ⟨rfl, rfl⟩, Nat.mod_eq_of_lt (by omega)]
      rfl
  have hcomp := Bool.toNat_le comp
  rw [hall] at hn
  obtain ⟨hlen, hdigits, hvalue, hcarry⟩ := shiftIn_fits h.digits
    (show c + comp.toNat ≤ 2 ^ 32 by omega) (by rw [← Nat.add_assoc, ← hn, h.length]; exact hfits)
  rw [decStep, hval, if_pos (Nat.zero_mod _), hlast]
  refine ⟨hdigits, ?_, ?_⟩
  · simp [h.overflow, hcarry]
  · rw [hn, Nat.add_assoc]
    exact hvalue

/-- The loop over the bits converts the number of the bits that count. -/
theorem decLoop_spec (comp : Bool) {bs : List Bit4} (h : Converting s len bs.length n) (hne : bs ≠ [])
    (hfits : (n + 1) * 2 ^ bs.length < base ^ len) :
    Converted (decLoop comp s bs)
      ((bs.map (counts comp)).foldl (fun m b => 2 * m + b.toNat) n + comp.toNat) := by
  induction bs generalizing s n with
  | nil => exact absurd rfl hne
  | cons b bs ih =>
    have hbit := Bool.toNat_le (counts comp b)
    have hcomp := Bool.toNat_le comp
    rw [List.length_cons, Nat.pow_succ] at hfits
    have hpos := Nat.one_le_two_pow (n := bs.length)
    have hnext : (2 * n + (counts comp b).toNat + 1) * 2 ^ bs.length ≤
        (n + 1) * (2 ^ bs.length * 2) := by
      calc (2 * n + (counts comp b).toNat + 1) * 2 ^ bs.length
          ≤ (2 * (n + 1)) * 2 ^ bs.length := Nat.mul_le_mul_right _ (by omega)
        _ = (n + 1) * (2 ^ bs.length * 2) := by ring
    have hsmall : 2 * n + (counts comp b).toNat + 1 ≤
        (2 * n + (counts comp b).toNat + 1) * 2 ^ bs.length := Nat.le_mul_of_pos_right _ hpos
    rw [decLoop]
    cases bs with
    | nil =>
      exact h.last b (by omega)
    | cons b' bs =>
      exact ih (h.step b (by simp) (by omega)) (List.cons_ne_nil _ _) (hnext.trans_lt hfits)

/-! ## The text -/

/-- The digits of a digit to the base, least significant first. -/
def segmentDigits (v : Nat) : List Nat := (List.range bdigits).map fun i => v / 10 ^ i % 10

theorem ofDigits_range (v k : Nat) :
    Nat.ofDigits 10 ((List.range k).map fun i => v / 10 ^ i % 10) = v % 10 ^ k := by
  induction k with
  | zero => rw [Nat.pow_zero, Nat.mod_one]; rfl
  | succ k ih =>
    rw [List.range_succ, List.map_append, Nat.ofDigits_append, ih, List.length_map,
      List.length_range, Nat.mod_pow_succ]
    simp

theorem segmentDigits_spec {v : Nat} (hv : v < base) :
    (segmentDigits v).length = bdigits ∧ Nat.ofDigits 10 (segmentDigits v) = v := by
  refine ⟨by rw [segmentDigits, List.length_map, List.length_range], ?_⟩
  rw [segmentDigits, ofDigits_range]
  exact Nat.mod_eq_of_lt hv

theorem segment_eq (v : Nat) : segment v = ((segmentDigits v).map Nat.digitChar).reverse := by
  rw [segment, segmentDigits, List.map_map]
  rfl

/-- Characters after the first one that is no zero. -/
theorem foldl_writeDigit_shown (buf cs : List Char) :
    cs.foldl writeDigit (buf, false) = (buf ++ cs, false) := by
  induction cs generalizing buf with
  | nil => rw [List.append_nil]; rfl
  | cons c cs ih =>
    rw [List.foldl_cons, writeDigit]
    simp only [Bool.false_and, Bool.false_eq_true, if_false]
    rw [ih, List.append_assoc, List.singleton_append]

/-- The zeros in front are left out. -/
theorem foldl_writeDigit (buf cs : List Char) : cs.foldl writeDigit (buf, true) =
    (buf ++ cs.dropWhile (· = '0'), (cs.dropWhile (· = '0')).isEmpty) := by
  induction cs with
  | nil => rw [List.dropWhile_nil, List.append_nil]; rfl
  | cons c cs ih =>
    rw [List.foldl_cons, writeDigit, List.dropWhile_cons]
    by_cases hc : c = '0'
    · simp only [hc, decide_true, Bool.and_true, if_true]
      exact ih
    · simp only [hc, decide_false, Bool.and_false, Bool.false_eq_true, if_false]
      rw [foldl_writeDigit_shown, List.append_assoc, List.singleton_append]
      rfl

/-- The digits of all digits to the base. -/
theorem foldl_writeDigits (valv : List Nat) (buf : List Char × Bool) :
    valv.reverse.foldl writeDigits buf =
      ((valv.flatMap segmentDigits).map Nat.digitChar).reverse.foldl writeDigit buf := by
  induction valv using List.reverseRecOn generalizing buf with
  | nil => rfl
  | append_singleton valv v ih =>
    rw [List.reverse_append, List.reverse_singleton, List.singleton_append, List.foldl_cons, ih,
      List.flatMap_append, List.flatMap_singleton, List.map_append, List.reverse_append,
      List.foldl_append, writeDigits, segment_eq]

theorem digitChar_eq_zero {d : Nat} (hd : d < 10) : Nat.digitChar d = '0' ↔ d = 0 := by
  interval_cases d <;> decide

theorem dropWhile_digitChar {ds : List Nat} (hds : ∀ d ∈ ds, d < 10) :
    (ds.map Nat.digitChar).dropWhile (· = '0') = (ds.dropWhile (· = 0)).map Nat.digitChar := by
  induction ds with
  | nil => rfl
  | cons d ds ih =>
    have hd := digitChar_eq_zero (hds d List.mem_cons_self)
    rw [List.map_cons, List.dropWhile_cons, List.dropWhile_cons]
    by_cases hzero : d = 0
    · rw [if_pos (decide_eq_true (hd.mpr hzero)), if_pos (decide_eq_true hzero)]
      exact ih fun e he => hds e (List.mem_cons_of_mem _ he)
    · rw [if_neg (mt of_decide_eq_true (mt hd.mp hzero)), if_neg (mt of_decide_eq_true hzero)]
      rfl

/-- The text of digits to the base. -/
theorem writeDigits_spec {valv : List Nat} (hdigits : ∀ d ∈ valv, d < base) (buf : List Char) :
    valv.reverse.foldl writeDigits (buf, true) =
      if Nat.ofDigits base valv = 0 then (buf, true)
      else (buf ++ Nat.toDigits 10 (Nat.ofDigits base valv), false) := by
  have hvalue : Nat.ofDigits 10 (valv.flatMap segmentDigits) = Nat.ofDigits base valv :=
    Numeral.ofDigits_flatMap fun v hv => segmentDigits_spec (hdigits v hv)
  have hten : ∀ d ∈ valv.flatMap segmentDigits, d < 10 := by
    intro d hd
    obtain ⟨v, -, hd⟩ := List.mem_flatMap.mp hd
    obtain ⟨i, -, rfl⟩ := List.mem_map.mp hd
    exact Nat.mod_lt _ (by omega)
  have hdrop : ((valv.flatMap segmentDigits).map Nat.digitChar).reverse.dropWhile (· = '0') =
      ((Nat.digits 10 (Nat.ofDigits base valv)).map Nat.digitChar).reverse := by
    rw [← hvalue, Numeral.digits_ofDigits_zeros (by omega) hten, List.rdropWhile, List.map_reverse,
      List.reverse_reverse, ← List.map_reverse]
    exact dropWhile_digitChar fun d hd => hten d (List.mem_reverse.mp hd)
  rw [foldl_writeDigits, foldl_writeDigit, hdrop]
  by_cases hzero : Nat.ofDigits base valv = 0
  · rw [if_pos hzero, hzero, Nat.digits_zero]
    simp
  · rw [if_neg hzero, Numeral.toDigits_eq hzero]
    simp [Nat.digits_ne_nil_iff_ne_zero.mpr hzero]

/-! ## The value -/

theorem decLoop_countX {bs : List Bit4} (hbs : ∀ b ∈ bs, b = .zero ∨ b = .one) :
    (decLoop comp s bs).countX = s.countX ∧ (decLoop comp s bs).countZ = s.countZ := by
  induction bs generalizing s with
  | nil => exact ⟨rfl, rfl⟩
  | cons b bs ih =>
    obtain ⟨hx, hz⟩ := ih (s := decStep comp s b bs.length) fun b' hb' =>
      hbs b' (List.mem_cons_of_mem _ hb')
    rw [decLoop, hx, hz, decStep]
    rcases hbs b List.mem_cons_self with rfl | rfl <;> constructor <;> (simp only []; split <;> rfl)

/-- The bits that count make the number, or the one less than its complement. -/
theorem foldl_counts (comp : Bool) {v : Vector4} (hv : v.hasXz = false) :
    (v.reverse.map (counts comp)).foldl (fun m b => 2 * m + b.toNat) 0 =
      if comp then 2 ^ v.length - 1 - v.toNat else v.toNat := by
  have hknown := Vector4.hasXz_eq_false.mp hv
  clear hv
  induction v with
  | nil => cases comp <;> rfl
  | cons b v ih =>
    have hlt := Vector4.toNat_lt v
    rw [List.reverse_cons, List.map_append, List.foldl_append,
      ih fun b' hb' => hknown b' (List.mem_cons_of_mem _ hb'), Vector4.toNat, List.length_cons,
      Nat.pow_succ]
    rcases hknown b List.mem_cons_self with rfl | rfl <;> cases comp <;> simp [counts] <;> omega

/-- The text of a number. -/
theorem decWrite_spec {size : Nat} (h : Converted s n) (hx : s.countX = 0) (hz : s.countZ = 0)
    (hsize : 0 < size) : decWrite size comp s = (if comp then ['-'] else []) ++
      if n = 0 then [if comp then '1' else '0'] else Nat.toDigits 10 n := by
  rw [decWrite, hx, hz, if_neg hsize.ne, if_neg (Nat.lt_irrefl 0), if_neg hsize.ne,
    if_neg (Nat.lt_irrefl 0), writeDigits_spec h.digits, h.value]
  by_cases hn : n = 0
  · rw [if_pos hn, if_pos hn]
    rfl
  · rw [if_neg hn, if_neg hn]
    rfl

/-- All bits of a vector of zeros and ones. -/
theorem decLoop_converted (comp : Bool) {v : Vector4} (hv : v.hasXz = false) (hne : v ≠ []) :
    let s := decLoop comp ⟨List.replicate (decLength v.length) 0, 0, false, 0, 0⟩ v.reverse
    Converted s (if comp then 2 ^ v.length - v.toNat else v.toNat) ∧ s.countX = 0 ∧
      s.countZ = 0 := by
  have hpos : 0 < v.length := List.length_pos_of_ne_nil hne
  have hstart : Converting ⟨List.replicate (decLength v.length) 0, 0, false, 0, 0⟩
      (decLength v.length) v.reverse.length 0 := by
    refine ⟨List.length_replicate, fun d hd => ?_, rfl, 0, 0, rfl, Nat.one_pos, ?_, ?_,
      fun _ => rfl, Or.inl Nat.ofDigits_replicate_zero⟩
    · rw [List.eq_of_mem_replicate hd]
      exact base_pos
    · rw [Nat.ofDigits_replicate_zero, Nat.zero_mul]
    · omega
  have hloop := decLoop_spec comp hstart (List.reverse_ne_nil_iff.mpr hne) (by
    rw [List.length_reverse, Nat.zero_add, Nat.one_mul]
    exact two_pow_lt_decLength hpos)
  have hlt := Vector4.toNat_lt v
  rw [foldl_counts comp hv] at hloop
  refine ⟨?_, decLoop_countX fun b hb =>
    Vector4.hasXz_eq_false.mp hv b (List.mem_reverse.mp hb)⟩
  cases comp with
  | false => exact hloop
  | true =>
    simp only [if_true, Bool.toNat_true] at hloop ⊢
    rw [show 2 ^ v.length - v.toNat = 2 ^ v.length - 1 - v.toNat + 1 by omega]
    exact hloop

theorem toNat_concat (w : Vector4) (b : Bit4) :
    Vector4.toNat (w ++ [b]) = w.toNat + 2 ^ w.length * if b = .one then 1 else 0 := by
  induction w with
  | nil => simp [Vector4.toNat]
  | cons c w ih =>
    rw [List.cons_append, Vector4.toNat, ih, Vector4.toNat, List.length_cons, Nat.pow_succ]
    ring

/-- A vector with its sign bit apart. -/
theorem toInt_concat (w : Vector4) (b : Bit4) : Vector4.toInt (w ++ [b]) =
    if b = .one then -((2 ^ w.length - w.toNat : Nat) : Int) else w.toNat := by
  have hlt := Vector4.toNat_lt w
  have htop := Vector4.testBit_top (v := w ++ [b]) (by simp)
  have hsub : (w ++ [b]).length - 1 = w.length := by simp
  rw [hsub, toNat_concat] at htop
  by_cases hb : b = .one
  · rw [if_pos hb, Nat.mul_one, decide_eq_true (Nat.le_add_left _ _)] at htop
    rw [if_pos hb, Vector4.toInt_of_top (by rw [hsub, toNat_concat, if_pos hb]; simpa using htop),
      toNat_concat, if_pos hb, List.length_append, List.length_singleton, Nat.pow_succ]
    congr 2
    omega
  · rw [if_neg hb, Nat.mul_zero, Nat.add_zero, decide_eq_false (Nat.not_le.mpr hlt)] at htop
    rw [if_neg hb, Vector4.toInt_of_not_top (by rw [hsub, toNat_concat, if_neg hb]; simpa using htop),
      toNat_concat, if_neg hb, Nat.mul_zero, Nat.add_zero]

theorem decimalNumeral_natCast (n : Nat) : decimalNumeral n =
    [] ++ if n = 0 then ['0'] else Nat.toDigits 10 n := by
  by_cases hn : n = 0
  · rw [hn]
    rfl
  · rw [if_neg hn]
    rfl

theorem decimalNumeral_neg {n : Nat} (hn : n ≠ 0) :
    decimalNumeral (-(n : Int)) = '-' :: Nat.toDigits 10 n := by
  obtain ⟨m, rfl⟩ := Nat.exists_eq_succ_of_ne_zero hn
  rfl

/-- The number of a vector, as the text shows it. -/
def shownValue (v : Vector4) (signedFlag : Bool) : Int := if signedFlag then v.toInt else v.toNat

/-- The text of a vector is the decimal numeral of its number, with no carry. -/
theorem vec4ToDecStr_spec {v : Vector4} (hv : v.hasXz = false) (hne : v ≠ []) (signedFlag : Bool)
    (hlimit : v.length - signedFlag.toNat < (uintMax - 92) / 28) :
    vec4ToDecStr v signedFlag = some ⟨decimalNumeral (shownValue v signedFlag), false⟩ := by
  have hpos : 0 < v.length := List.length_pos_of_ne_nil hne
  cases signedFlag with
  | false =>
    obtain ⟨hconv, hx, hz⟩ := decLoop_converted false hv hne
    have hlimit' : v.length < (uintMax - 92) / 28 := hlimit
    rw [vec4ToDecStr]
    simp only [Bool.false_eq_true, if_false, reduceCtorEq, decide_false, List.take_length]
    rw [if_pos hlimit', hconv.overflow, decWrite_spec hconv hx hz hpos]
    exact congrArg (fun text => some (DecText.mk text false)) (decimalNumeral_natCast v.toNat).symm
  | true =>
    obtain ⟨w, b, rfl⟩ := v.eq_nil_or_concat'.resolve_left hne
    have hbits := Vector4.hasXz_eq_false.mp hv
    have hw : Vector4.hasXz w = false :=
      Vector4.hasXz_eq_false.mpr fun b' hb' => hbits b' (List.mem_append_left _ hb')
    have hlen : (w ++ [b]).length = w.length + 1 := by simp
    have hlimit' : w.length < (uintMax - 92) / 28 := by
      rw [hlen] at hlimit
      exact hlimit
    have hmbits : (w.length + 1 + uintMax) % 2 ^ 32 = w.length := by
      rw [uintMax] at hlimit' ⊢
      omega
    have hlast : (w ++ [b]).getLastD .x = b := by simp
    have hsign : b = .zero ∨ b = .one := hbits b (by simp)
    have hx : (if b = .x then 1 else 0) = 0 := by rcases hsign with rfl | rfl <;> rfl
    have hz : (if b = .z then 1 else 0) = 0 := by rcases hsign with rfl | rfl <;> rfl
    rw [vec4ToDecStr]
    simp only [if_true, hlast, hlen, hmbits, List.take_left, hx, hz]
    rw [if_pos hlimit', shownValue, if_pos rfl, toInt_concat]
    by_cases hnil : w = []
    · rw [hnil]
      rcases hsign with rfl | rfl <;> rfl
    · obtain ⟨hconv, hsx, hsz⟩ := decLoop_converted (decide (b = .one)) hw hnil
      rw [hconv.overflow, decWrite_spec hconv hsx hsz (Nat.succ_pos _)]
      have hlt := Vector4.toNat_lt w
      rcases hsign with rfl | rfl
      · exact congrArg (fun text => some (DecText.mk text false))
          (decimalNumeral_natCast (Vector4.toNat w)).symm
      · have hpos' : 2 ^ w.length - Vector4.toNat w ≠ 0 := by omega
        simp only [decide_true, if_true, if_neg hpos']
        rw [decimalNumeral_neg hpos']
        rfl

end Icarus.Vvp.Vpip
