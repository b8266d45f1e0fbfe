import Icarus.Vvp.Strength
import Mathlib.Tactic.IntervalCases

/-!
# Words of a memory as text

`$writememb` and `$writememh` print a word as the simulator formats it; `make_bin_value` and
`make_hex_value` read the digits from the last one on into the 32-bit chunks of a `vecval`. The
digits of a word are read back as the word, for hex digits that do not mix known and unknown bits.
-/

namespace Icarus.Vpi

open Icarus.Vvp

/-! ## Text of a word -/

/-- `vvp_bit4_to_ascii`. -/
def asciiOf : Bit4 → Char
  | .zero => '0'
  | .one => '1'
  | .x => 'x'
  | .z => 'z'

/-- `vpiBinStrVal`: the highest bit comes first. -/
def binStr (word : Vector4) : List Char := (word.map asciiOf).reverse

/-- The characters of a known digit. -/
def hexChars : List Char :=
  ['0', '1', '2', '3', '4', '5', '6', '7', '8', '9', 'a', 'b', 'c', 'd', 'e', 'f']

/-- The entry of `hex_digits` for four bits. -/
def hexDigit (digit : List Bit4) : Char :=
  if digit.count .z = 4 then 'z'
  else if digit.count .x = 4 then 'x'
  else if 0 < digit.count .z ∧ digit.count .x = 0 then 'Z'
  else if 0 < digit.count .x then 'X'
  else hexChars.getD (digit.foldr (fun b bv => (if b = .one then 1 else 0) + 2 * bv) 0) '0'

/-- The bits of a digit; those that the word does not have are zero unless all the others are
X or all are Z. -/
def fillDigit (digit : List Bit4) : List Bit4 :=
  if digit.length < 4 ∧ ∀ b ∈ digit, b = .x then List.replicate 4 .x
  else if digit.length < 4 ∧ ∀ b ∈ digit, b = .z then List.replicate 4 .z
  else digit ++ List.replicate (4 - digit.length) .zero

/-- `vpip_vec4_to_hex_str`. -/
def hexStr (word : Vector4) : List Char :=
  ((List.range ((word.length + 3) / 4)).map fun idx =>
    hexDigit (fillDigit ((word.drop (4 * idx)).take 4))).reverse

/-! ## Value of a text -/

/-- The `vecval` of a word: 32-bit chunks of two planes. -/
structure Vecval where
  aval : Nat → BitVec 32
  bval : Nat → BitVec 32

/-- The variables of the loop over the digits. -/
structure ValueState where
  width : Nat
  wordMax : Int
  cur : Nat
  vecval : Vecval

/-- The planes of a binary digit. -/
def binDigit (c : Char) : BitVec 32 × BitVec 32 :=
  if c = '0' then (0, 0)
  else if c = '1' then (1, 0)
  else if c = 'x' ∨ c = 'X' then (1, 1)
  else if c = 'z' ∨ c = 'Z' then (0, 1)
  else (0, 0)

/-- The planes of a hex digit. -/
def hexPlanes (c : Char) : BitVec 32 × BitVec 32 :=
  if '0' ≤ c ∧ c ≤ '9' then (BitVec.ofNat 32 (c.toNat - '0'.toNat), 0)
  else if 'a' ≤ c ∧ c ≤ 'f' then (BitVec.ofNat 32 (c.toNat - 'a'.toNat + 10), 0)
  else if 'A' ≤ c ∧ c ≤ 'F' then (BitVec.ofNat 32 (c.toNat - 'A'.toNat + 10), 0)
  else if c = 'x' ∨ c = 'X' then (15, 15)
  else if c = 'z' ∨ c = 'Z' then (0, 15)
  else (0, 0)

/-- One turn of the loop over the digits of `step` bits. -/
def valueDigit (step : Nat) (planes : Char → BitVec 32 × BitVec 32) (s : ValueState) (c : Char) :
    ValueState :=
  if c = '_' then s
  else
    let vecval : Vecval :=
      ⟨fun j =>
          if j = s.cur then s.vecval.aval j ||| (planes c).1 <<< s.width else s.vecval.aval j,
        fun j =>
          if j = s.cur then s.vecval.bval j ||| (planes c).2 <<< s.width else s.vecval.bval j⟩
    if s.width + step = 32 then ⟨0, s.wordMax - 32, s.cur + 1, vecval⟩
    else ⟨s.width + step, s.wordMax, s.cur, vecval⟩

/-- The loop over the digits, from the last one on. -/
def valueLoop (step : Nat) (planes : Char → BitVec 32 × BitVec 32) :
    List Char → ValueState → ValueState
  | [], s => s
  | c :: cs, s =>
    if s.width < s.wordMax then valueLoop step planes cs (valueDigit step planes s c) else s

/-- `make_bin_value` and `make_hex_value`; the warning about excess digits is left out. -/
def makeValue (step : Nat) (planes : Char → BitVec 32 × BitVec 32) (wordWidth : Nat)
    (text : List Char) : Vecval :=
  (valueLoop step planes text.reverse ⟨0, wordWidth, 0, ⟨fun _ => 0, fun _ => 0⟩⟩).vecval

/-- `make_bin_value`. -/
def makeBinValue : Nat → List Char → Vecval := makeValue 1 binDigit

/-- `make_hex_value`. -/
def makeHexValue : Nat → List Char → Vecval := makeValue 4 hexPlanes

/-- A bit of two planes. -/
def bitOf (a b : Bool) : Bit4 :=
  match a, b with
  | false, false => .zero
  | true, false => .one
  | true, true => .x
  | false, true => .z

/-- The word that a `vecval` is put as. -/
def Vecval.word (v : Vecval) (width : Nat) : Vector4 :=
  (List.range width).map fun i =>
    bitOf ((v.aval (i / 32)).getLsbD (i % 32)) ((v.bval (i / 32)).getLsbD (i % 32))

/-! ## The loop over the digits -/

section Loop

variable {step : Nat} {planes : Char → BitVec 32 × BitVec 32} {text : List Char}

/-- A bit of the digits, the lowest digit first. -/
def digitBit (step : Nat) (plane : Char → BitVec 32) (text : List Char) (i : Nat) : Bool :=
  (plane (text.getD (i / step) '0')).getLsbD (i % step)

/-- The state after some digits. -/
structure ValueState.After (step : Nat) (planes : Char → BitVec 32 × BitVec 32) (wordWidth : Nat)
    (text : List Char) (k : Nat) (s : ValueState) : Prop where
  width : s.width = step * k % 32
  wordMax : s.wordMax = wordWidth - 32 * (step * k / 32 : Nat)
  cur : s.cur = step * k / 32
  aval : ∀ j t, t < 32 → (s.vecval.aval j).getLsbD t =
    (decide (32 * j + t < step * k) && digitBit step (fun c => (planes c).1) text (32 * j + t))
  bval : ∀ j t, t < 32 → (s.vecval.bval j).getLsbD t =
    (decide (32 * j + t < step * k) && digitBit step (fun c => (planes c).2) text (32 * j + t))

/-- A digit in a chunk. -/
theorem getLsbD_chunk {plane : Char → BitVec 32} (hstep : step = 1 ∨ step = 4)
    (hsmall : ∀ c i, step ≤ i → (plane c).getLsbD i = false) {chunk : Nat → BitVec 32} {k : Nat}
    (hchunk : ∀ j t, t < 32 → (chunk j).getLsbD t =
      (decide (32 * j + t < step * k) && digitBit step plane text (32 * j + t)))
    {c : Char} (hc : text.getD k '0' = c) {j t : Nat} (ht : t < 32) :
    (if j = step * k / 32 then chunk j ||| plane c <<< (step * k % 32) else chunk j).getLsbD t =
      (decide (32 * j + t < step * (k + 1)) && digitBit step plane text (32 * j + t)) := by
  have hold := hchunk j t ht
  have hnext : step * (k + 1) = step * k + step := Nat.mul_succ step k
  by_cases hj : j = step * k / 32
  · have hdiv := Nat.div_add_mod (step * k) 32
    rw [← hj] at hdiv
    rw [if_pos hj, BitVec.getLsbD_or, hold, BitVec.getLsbD_shiftLeft, decide_eq_true ht,
      Bool.true_and]
    by_cases hlow : t < step * k % 32
    · rw [decide_eq_true hlow, decide_eq_true (by omega), decide_eq_true (by omega)]
      simp
    · obtain ⟨m, hm⟩ : ∃ m, t = step * k % 32 + m := Nat.exists_eq_add_of_le (Nat.le_of_not_lt hlow)
      have hbit : 32 * j + t = step * k + m := by omega
      rw [decide_eq_false hlow, decide_eq_false (by omega), Bool.false_and, Bool.false_or,
        Bool.not_false, Bool.true_and, hbit, hnext, hm, Nat.add_sub_cancel_left]
      by_cases hin : m < step
      · have hpos : 0 < step := by omega
        rw [decide_eq_true (by omega), Bool.true_and, digitBit, Nat.mul_add_div hpos,
          Nat.div_eq_of_lt hin, Nat.add_zero, hc, Nat.mul_add_mod, Nat.mod_eq_of_lt hin]
      · rw [hsmall c m (Nat.le_of_not_lt hin), decide_eq_false (by omega), Bool.false_and]
  · rw [if_neg hj, hold]
    have hiff : 32 * j + t < step * k ↔ 32 * j + t < step * (k + 1) := by
      rcases hstep with rfl | rfl <;> omega
    rw [decide_eq_decide.mpr hiff]

/-- One digit. -/
theorem valueDigit_spec (hstep : step = 1 ∨ step = 4)
    (hsmall : ∀ c i, step ≤ i → (planes c).1.getLsbD i = false ∧ (planes c).2.getLsbD i = false)
    {wordWidth k : Nat} {s : ValueState} (h : s.After step planes wordWidth text k) {c : Char}
    (hc : text.getD k '0' = c) (hne : c ≠ '_') :
    (valueDigit step planes s c).After step planes wordWidth text (k + 1) := by
  obtain ⟨hwidth, hmax, hcur, haval, hbval⟩ := h
  have ha : ∀ j t, t < 32 →
      (if j = s.cur then s.vecval.aval j ||| (planes c).1 <<< s.width
        else s.vecval.aval j).getLsbD t =
      (decide (32 * j + t < step * (k + 1)) &&
        digitBit step (fun c => (planes c).1) text (32 * j + t)) := by
    intro j t ht
    rw [hcur, hwidth]
    exact getLsbD_chunk hstep (fun c i hi => (hsmall c i hi).1) haval hc ht
  have hb : ∀ j t, t < 32 →
      (if j = s.cur then s.vecval.bval j ||| (planes c).2 <<< s.width
        else s.vecval.bval j).getLsbD t =
      (decide (32 * j + t < step * (k + 1)) &&
        digitBit step (fun c => (planes c).2) text (32 * j + t)) := by
    intro j t ht
    rw [hcur, hwidth]
    exact getLsbD_chunk hstep (fun c i hi => (hsmall c i hi).2) hbval hc ht
  unfold valueDigit
  rw [if_neg hne]
  dsimp only
  split_ifs with hfull
  · refine ⟨?_, ?_, ?_, ha, hb⟩ <;> dsimp only <;> rcases hstep with rfl | rfl <;> omega
  · refine ⟨?_, ?_, ?_, ha, hb⟩ <;> dsimp only <;> rcases hstep with rfl | rfl <;> omega

/-- The loop takes digits until the word is full. -/
theorem valueLoop_spec (hstep : step = 1 ∨ step = 4)
    (hsmall : ∀ c i, step ≤ i → (planes c).1.getLsbD i = false ∧ (planes c).2.getLsbD i = false)
    {wordWidth : Nat} (hne : ∀ c ∈ text, c ≠ '_') (hlen : wordWidth ≤ step * text.length)
    {digits : List Char} {k : Nat} (hdigits : text.drop k = digits) {s : ValueState}
    (h : s.After step planes wordWidth text k) :
    ∃ m, wordWidth ≤ step * m ∧
      (valueLoop step planes digits s).After step planes wordWidth text m := by
  induction digits generalizing k s with
  | nil =>
    have hk : text.length ≤ k := List.drop_eq_nil_iff.mp hdigits
    exact ⟨k, hlen.trans (Nat.mul_le_mul_left step hk), h⟩
  | cons c digits ih =>
    rw [valueLoop]
    split_ifs with hroom
    · have hget : text[k]? = some c := by
        rw [← List.head?_drop, hdigits, List.head?_cons]
      have hc : text.getD k '0' = c := by rw [List.getD_eq_getElem?_getD, hget, Option.getD_some]
      have hrest : text.drop (k + 1) = digits := by
        rw [← List.drop_drop, hdigits, List.drop_one, List.tail_cons]
      exact ih hrest (valueDigit_spec hstep hsmall h hc (hne c (List.mem_of_getElem? hget)))
    · refine ⟨k, ?_, h⟩
      rw [h.width, h.wordMax] at hroom
      omega

/-- The bits of a word are the bits of the digits. -/
theorem word_makeValue (hstep : step = 1 ∨ step = 4)
    (hsmall : ∀ c i, step ≤ i → (planes c).1.getLsbD i = false ∧ (planes c).2.getLsbD i = false)
    {wordWidth : Nat} (hne : ∀ c ∈ text, c ≠ '_') (hlen : wordWidth ≤ step * text.length) :
    (makeValue step planes wordWidth text.reverse).word wordWidth =
      (List.range wordWidth).map fun i =>
        bitOf (digitBit step (fun c => (planes c).1) text i)
          (digitBit step (fun c => (planes c).2) text i) := by
  have hstart : ValueState.After step planes wordWidth text 0
      ⟨0, wordWidth, 0, ⟨fun _ => 0, fun _ => 0⟩⟩ := by
    refine ⟨by simp, by simp, by simp, fun j t _ => ?_, fun j t _ => ?_⟩
    · simp
    · simp
  obtain ⟨m, hm, hafter⟩ := valueLoop_spec hstep hsmall hne hlen List.drop_zero hstart
  unfold Vecval.word
  refine List.map_congr_left fun i hi => ?_
  have hlt : i < step * m := (List.mem_range.mp hi).trans_le hm
  have hi32 : 32 * (i / 32) + i % 32 = i := Nat.div_add_mod i 32
  have hmod : i % 32 < 32 := Nat.mod_lt i (by decide)
  rw [makeValue, List.reverse_reverse, hafter.aval _ _ hmod, hafter.bval _ _ hmod, hi32,
    decide_eq_true hlt, Bool.true_and, Bool.true_and]

end Loop

/-! ## Words read back -/

/-- The bit of a binary digit. -/
theorem bitOf_binDigit (b : Bit4) :
    bitOf ((binDigit (asciiOf b)).1.getLsbD 0) ((binDigit (asciiOf b)).2.getLsbD 0) = b := by
  cases b <;> rfl

theorem binDigit_small (c : Char) (i : Nat) (hi : 1 ≤ i) :
    (binDigit c).1.getLsbD i = false ∧ (binDigit c).2.getLsbD i = false := by
  unfold binDigit
  split_ifs <;> simp [Nat.ne_of_gt hi]

/-- A binary word is read back. -/
theorem word_makeBinValue (word : Vector4) :
    (makeBinValue word.length (binStr word)).word word.length = word := by
  have hne : ∀ c ∈ word.map asciiOf, c ≠ '_' := by
    intro c hc
    obtain ⟨b, -, rfl⟩ := List.mem_map.mp hc
    cases b <;> decide
  unfold makeBinValue binStr
  rw [word_makeValue (Or.inl rfl) binDigit_small hne (by simp)]
  refine List.ext_getElem (by simp) fun i hi hi' => ?_
  rw [List.getElem_map, List.getElem_range]
  unfold digitBit
  rw [Nat.div_one, Nat.mod_one, List.getD_eq_getElem?_getD, List.getElem?_map,
    List.getElem?_eq_getElem hi', Option.map_some, Option.getD_some]
  exact bitOf_binDigit word[i]

/-- Known bits, or all X, or all Z. -/
def UnmixedDigit (digit : List Bit4) : Prop :=
  (∀ b ∈ digit, b = .zero ∨ b = .one) ∨ (∀ b ∈ digit, b = .x) ∨ ∀ b ∈ digit, b = .z

/-- No hex digit of the word mixes X, Z and known bits. -/
def Unmixed (word : Vector4) : Prop := ∀ idx, UnmixedDigit ((word.drop (4 * idx)).take 4)

theorem hexPlanes_small (c : Char) (i : Nat) (hi : 4 ≤ i) :
    (hexPlanes c).1.getLsbD i = false ∧ (hexPlanes c).2.getLsbD i = false := by
  have hsmall : ∀ n < 16, (BitVec.ofNat 32 n).getLsbD i = false := by
    intro n hn
    have hpow : 16 ≤ 2 ^ i := Nat.pow_le_pow_right Nat.two_pos hi
    rw [BitVec.getLsbD_ofNat, Nat.testBit_lt_two_pow (hn.trans_le hpow), Bool.and_false]
  have hzero : (0 : BitVec 32).getLsbD i = false := BitVec.getLsbD_zero
  have hfull : (15 : BitVec 32).getLsbD i = false := hsmall 15 (by decide)
  unfold hexPlanes
  split_ifs with h1 h2 h3
  · have hc : c.toNat ≤ 57 := h1.2
    exact ⟨hsmall _ (show c.toNat - 48 < 16 by omega), hzero⟩
  · have hc : c.toNat ≤ 102 := h2.2
    exact ⟨hsmall _ (show c.toNat - 97 + 10 < 16 by omega), hzero⟩
  · have hc : c.toNat ≤ 70 := h3.2
    exact ⟨hsmall _ (show c.toNat - 65 + 10 < 16 by omega), hzero⟩
  · exact ⟨hfull, hfull⟩
  · exact ⟨hzero, hfull⟩
  · exact ⟨hzero, hzero⟩

/-- A digit that is all X or all Z is filled. -/
theorem fillDigit_replicate {n : Nat} {b : Bit4} (hn : 0 < n) (hle : n ≤ 4)
    (hb : b = .x ∨ b = .z) : fillDigit (List.replicate n b) = List.replicate 4 b := by
  unfold fillDigit
  rcases Nat.lt_or_ge n 4 with hlt | hge
  · rcases hb with rfl | rfl
    · rw [if_pos ⟨by simpa using hlt, fun b h => List.eq_of_mem_replicate h⟩]
    · rw [if_neg, if_pos ⟨by simpa using hlt, fun b h => List.eq_of_mem_replicate h⟩]
      intro h
      exact absurd (h.2 .z (List.mem_replicate.mpr ⟨hn.ne', rfl⟩)) (by decide)
  · rw [if_neg (by simp; omega), if_neg (by simp; omega), Nat.le_antisymm hle hge]
    simp

/-- Four known bits. -/
theorem bitOf_hexPlanes_known {digit : List Bit4} (hlen : digit.length = 4)
    (h : ∀ b ∈ digit, b = .zero ∨ b = .one) {m : Nat} (hm : m < 4) :
    bitOf ((hexPlanes (hexDigit digit)).1.getLsbD m) ((hexPlanes (hexDigit digit)).2.getLsbD m) =
      digit.getD m .zero := by
  match digit, hlen with
  | [b0, b1, b2, b3], _ =>
    rcases h b0 (by simp) with rfl | rfl <;> rcases h b1 (by simp) with rfl | rfl <;>
      rcases h b2 (by simp) with rfl | rfl <;> rcases h b3 (by simp) with rfl | rfl <;>
      interval_cases m <;> rfl

/-- The bits of a hex digit. -/
theorem bitOf_hexPlanes {digit : List Bit4} (hlen : digit.length ≤ 4) (h : UnmixedDigit digit)
    {m : Nat} (hm : m < digit.length) :
    bitOf ((hexPlanes (hexDigit (fillDigit digit))).1.getLsbD m)
      ((hexPlanes (hexDigit (fillDigit digit))).2.getLsbD m) = digit[m] := by
  have hmem : digit[m] ∈ digit := List.getElem_mem hm
  have hm4 : m < 4 := hm.trans_le hlen
  rcases h with hknown | hx | hz
  · have hfill : fillDigit digit = digit ++ List.replicate (4 - digit.length) .zero := by
      unfold fillDigit
      rw [if_neg, if_neg]
      · intro hz
        have hbit := hknown _ hmem
        rw [hz.2 _ hmem] at hbit
        exact absurd hbit (by decide)
      · intro hx
        have hbit := hknown _ hmem
        rw [hx.2 _ hmem] at hbit
        exact absurd hbit (by decide)
    have hfilled : ∀ b ∈ digit ++ List.replicate (4 - digit.length) .zero,
        b = .zero ∨ b = .one := by
      intro b hb
      rcases List.mem_append.mp hb with hb | hb
      · exact hknown b hb
      · exact Or.inl (List.eq_of_mem_replicate hb)
    rw [hfill, bitOf_hexPlanes_known (by simp; omega) hfilled hm4, List.getD_eq_getElem?_getD,
      List.getElem?_append_left hm, List.getElem?_eq_getElem hm, Option.getD_some]
  · have hfill : fillDigit digit = List.replicate 4 .x := by
      rw [List.eq_replicate_iff.mpr ⟨rfl, hx⟩]
      exact fillDigit_replicate (by omega) hlen (Or.inl rfl)
    rw [hfill, hx _ hmem]
    interval_cases m <;> rfl
  · have hfill : fillDigit digit = List.replicate 4 .z := by
      rw [List.eq_replicate_iff.mpr ⟨rfl, hz⟩]
      exact fillDigit_replicate (by omega) hlen (Or.inr rfl)
    rw [hfill, hz _ hmem]
    interval_cases m <;> rfl

theorem hexChars_getD_mem (n : Nat) : hexChars.getD n '0' ∈ hexChars := by
  rw [List.getD_eq_getElem?_getD]
  cases h : hexChars[n]? with
  | none => decide
  | some c => exact List.mem_of_getElem? h

/-- The characters of hex digits. -/
theorem hexDigit_mem (digit : List Bit4) :
    hexDigit digit ∈ hexChars ++ ['z', 'x', 'Z', 'X'] := by
  unfold hexDigit
  split_ifs
  · decide
  · decide
  · decide
  · decide
  · exact List.mem_append_left _ (hexChars_getD_mem _)

/-- A hex word whose digits are not mixed is read back. -/
theorem word_makeHexValue {word : Vector4} (h : Unmixed word) :
    (makeHexValue word.length (hexStr word)).word word.length = word := by
  have hne : ∀ c ∈ (List.range ((word.length + 3) / 4)).map fun idx =>
      hexDigit (fillDigit ((word.drop (4 * idx)).take 4)), c ≠ '_' := by
    intro c hc
    obtain ⟨idx, -, rfl⟩ := List.mem_map.mp hc
    have hchars : (hexChars ++ ['z', 'x', 'Z', 'X']).all (fun c => c ≠ '_') = true := by decide
    exact of_decide_eq_true (List.all_eq_true.mp hchars _ (hexDigit_mem _))
  unfold makeHexValue hexStr
  rw [word_makeValue (Or.inr rfl) hexPlanes_small hne (by simp; omega)]
  refine List.ext_getElem (by simp) fun i hi hi' => ?_
  rw [List.getElem_map, List.getElem_range]
  have hidx : i / 4 < (word.length + 3) / 4 := by omega
  have hlen : ((word.drop (4 * (i / 4))).take 4).length ≤ 4 := by simp
  have hmod : i % 4 < ((word.drop (4 * (i / 4))).take 4).length := by
    rw [List.length_take, List.length_drop]
    omega
  unfold digitBit
  rw [List.getD_eq_getElem?_getD, List.getElem?_map, List.getElem?_range hidx, Option.map_some,
    Option.getD_some, bitOf_hexPlanes hlen (h (i / 4)) hmod, List.getElem_take, List.getElem_drop]
  congr 1
  exact Nat.div_add_mod i 4

end Icarus.Vpi
