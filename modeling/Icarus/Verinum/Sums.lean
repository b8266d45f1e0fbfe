import Icarus.Verinum.Basic

/-!
# Sums and products

`+`, both `-` and `*` of `verinum`. The bit loops run over the operands extended
by their sign bits; an unsized result grows by a bit where it has to, and the
product is trimmed.
-/

namespace Icarus.Verinum

open Icarus.Core

/-! ## Trimming -/

/-- The loop of `trim_vnum` down from `top` over bits of one value. -/
def skipTop (bits : List V) (v : V) : Nat → Nat
  | 0 => 0
  | top + 1 => if bits.getD (top + 1) .v0 = v then skipTop bits v top else top + 1

/-- The copy that `trim_vnum` returns. -/
def trimTo (that : Verinum) (tlen : Nat) : Verinum :=
  { ofBits (that.bits.take tlen) false with hasSign := that.hasSign }

/-- `trim_vnum`. -/
def trimVnum (that : Verinum) : Verinum :=
  if that.hasLen then that
  else if that.len < 2 then that
  else if that.hasSign then
    let sign := that.get (that.len - 1)
    let top := skipTop that.bits sign (that.len - 1)
    let top := if that.get top ≠ sign then top + 1 else top
    trimTo that (top + 1)
  else
    let top := skipTop that.bits .v0 (that.len - 1)
    if top + 1 = that.len then that
    else
      let tlen := top + 2
      trimTo that (if that.get top = .v0 then tlen - 1 else tlen)

theorem skipTop_spec (bits : List V) (v : V) (top : Nat) :
    skipTop bits v top ≤ top ∧
      (∀ i, skipTop bits v top < i → i ≤ top → bits.getD i .v0 = v) ∧
      (skipTop bits v top = 0 ∨ bits.getD (skipTop bits v top) .v0 ≠ v) := by
  induction top with
  | zero => exact ⟨Nat.le_refl _, by omega, Or.inl rfl⟩
  | succ top ih =>
    obtain ⟨hle, hall, hstop⟩ := ih
    simp only [skipTop]
    split_ifs with h
    · refine ⟨by omega, ?_, hstop⟩
      intro i hi hi'
      rcases Nat.lt_or_eq_of_le hi' with hlt | rfl
      · exact hall i hi (by omega)
      · exact h
    · exact ⟨Nat.le_refl _, by omega, Or.inr h⟩

/-- Trimming repeats of the sign bit keeps the integer. -/
private theorem toInt_trimTo {v : Verinum} {tlen : Nat} (hpos : 0 < tlen) (hle : tlen ≤ v.len)
    (h : ∀ i, tlen ≤ i → i < v.len → v.get i = (trimTo v tlen).signBit) :
    (trimTo v tlen).toInt = v.toInt := by
  have hlen : (trimTo v tlen).len = tlen := by
    simp only [trimTo, len, ofBits, List.length_take]
    exact Nat.min_eq_left hle
  refine (toInt_of_extend (v := v) (w := trimTo v tlen) rfl (by omega) (by omega) ?_).symm
  apply List.ext_getElem?
  intro i
  rw [getElem?_extend]
  by_cases hi : i < v.len
  · have hget : v.bits[i]? = some (v.get i) := by
      rw [get, List.getD_eq_getElem?_getD, List.getElem?_eq_getElem hi, Option.getD_some]
    rw [if_pos hi, hget, Option.some_inj, List.getD_eq_getElem?_getD]
    have hbits : (trimTo v tlen).bits = v.bits.take tlen := rfl
    by_cases hit : i < tlen
    · rw [hbits, List.getElem?_take_of_lt hit, hget, Option.getD_some]
    · rw [hbits, List.getElem?_take_eq_none (by omega), Option.getD_none]
      exact h i (by omega) hi
  · rw [if_neg hi]
    exact List.getElem?_eq_none (Nat.not_lt.mp hi)

/-- The bits kept when trimming: all bits above repeat the new sign bit. -/
private theorem trimVnum_cases {v : Verinum} (hlen : v.hasLen = false) :
    trimVnum v = v ∨ ∃ tlen, trimVnum v = trimTo v tlen ∧ 0 < tlen ∧ tlen ≤ v.len ∧
      ∀ i, tlen ≤ i → i < v.len → v.get i = (trimTo v tlen).signBit := by
  have hbit : ∀ tlen, 0 < tlen → tlen ≤ v.len →
      (trimTo v tlen).signBit = if v.hasSign then v.get (tlen - 1) else .v0 := by
    intro tlen htpos hle
    have htlen : (trimTo v tlen).len = tlen := by
      simp only [trimTo, len, ofBits, List.length_take]
      exact Nat.min_eq_left hle
    unfold signBit
    rw [htlen]
    have hget : (trimTo v tlen).get (tlen - 1) = v.get (tlen - 1) := by
      simp only [get, trimTo, ofBits, List.getD_eq_getElem?_getD]
      rw [List.getElem?_take_of_lt (by omega)]
    rw [hget]
    rfl
  unfold trimVnum
  rw [if_neg (by simp [hlen])]
  by_cases hshort : v.len < 2
  · exact Or.inl (if_pos hshort)
  rw [if_neg hshort]
  by_cases hsign : v.hasSign = true
  · rw [if_pos hsign]
    obtain ⟨hle, hall, -⟩ := skipTop_spec v.bits (v.get (v.len - 1)) (v.len - 1)
    set top := skipTop v.bits (v.get (v.len - 1)) (v.len - 1) with htop
    right
    by_cases hne : v.get top ≠ v.get (v.len - 1)
    · have hlt : top ≠ v.len - 1 := fun h => hne (by rw [h])
      refine ⟨top + 1 + 1, ?_, by omega, by omega, ?_⟩
      · simp only [← htop, if_pos hne]
      · intro i hi hi'
        rw [hbit _ (by omega) (by omega), if_pos hsign]
        exact (hall i (by omega) (by omega)).trans (hall (top + 1) (by omega) (by omega)).symm
    · refine ⟨top + 1, ?_, by omega, by omega, ?_⟩
      · simp only [← htop, if_neg hne]
      · intro i hi hi'
        rw [hbit _ (by omega) (by omega), if_pos hsign, Nat.add_sub_cancel, not_not.mp hne]
        exact hall i (by omega) (by omega)
  · rw [if_neg hsign]
    obtain ⟨hle, hall, -⟩ := skipTop_spec v.bits .v0 (v.len - 1)
    set top := skipTop v.bits .v0 (v.len - 1) with htop
    by_cases hfull : top + 1 = v.len
    · left
      simp only [if_pos hfull]
    · right
      have habove : ∀ tlen, 0 < tlen → tlen ≤ v.len → top < tlen →
          ∀ i, tlen ≤ i → i < v.len → v.get i = (trimTo v tlen).signBit := by
        intro tlen htpos htle htop i hi hi'
        rw [hbit tlen htpos htle, if_neg hsign]
        exact hall i (by omega) (by omega)
      by_cases hzero : v.get top = .v0
      · refine ⟨top + 1, ?_, by omega, by omega, habove _ (by omega) (by omega) (by omega)⟩
        simp only [if_neg hfull, if_pos hzero]
        rfl
      · refine ⟨top + 2, ?_, by omega, by omega, habove _ (by omega) (by omega) (by omega)⟩
        simp only [if_neg hfull, if_neg hzero]

/-- `trim_vnum` does not touch a sized number. -/
theorem trimVnum_of_hasLen {v : Verinum} (h : v.hasLen = true) : trimVnum v = v := if_pos h

/-- `trim_vnum` keeps the integer and the flags. -/
theorem trimVnum_spec {v : Verinum} (hdef : v.isDefined) :
    (trimVnum v).toInt = v.toInt ∧ (trimVnum v).hasLen = v.hasLen ∧
      (trimVnum v).hasSign = v.hasSign ∧ (0 < v.len → 0 < (trimVnum v).len) ∧
      (trimVnum v).isDefined := by
  by_cases hlen : v.hasLen = true
  · rw [trimVnum_of_hasLen hlen]
    exact ⟨rfl, rfl, rfl, id, hdef⟩
  · rcases trimVnum_cases (Bool.eq_false_iff.mpr hlen) with heq | ⟨tlen, heq, htpos, hle, h⟩
    · rw [heq]
      exact ⟨rfl, rfl, rfl, id, hdef⟩
    · rw [heq]
      refine ⟨toInt_trimTo htpos hle h, (Bool.eq_false_iff.mpr hlen).symm, rfl, ?_, ?_⟩
      · intro hpos
        simp only [trimTo, ofBits, len, List.length_take]
        exact Nat.lt_min.mpr ⟨htpos, hpos⟩
      · rw [isDefined_iff] at hdef ⊢
        intro b hb
        exact hdef b (List.mem_of_mem_take hb)

/-! ## The operators -/

/-- The result bits with their flags. -/
def signedBits (bits : List V) (hasLen hasSign : Bool) : Verinum :=
  { ofBits bits hasLen with hasSign := hasSign }

/-- The result for operands with X or Z bits. -/
def undefined (len : Nat) (hasLen hasSign : Bool) : Verinum :=
  { fill .vx (if hasLen then len else 1) hasLen with hasSign := hasSign }

/-- The two bit loops of `+` and `-`: over the bits of both operands, then over the rest of
the longer one with the pad of the shorter. -/
def ripple (l : List V) (lpad : V) (r : List V) (rpad carry : V) : List V × V :=
  let low := Words.pass (fun lr c => addWithCarry lr.1 lr.2 c) (l.zip r) carry
  let high :=
    if r.length < l.length then
      Words.pass (fun b c => addWithCarry b rpad c) (l.drop r.length) low.2
    else
      Words.pass (fun b c => addWithCarry lpad b c) (r.drop l.length) low.2
  (low.1 ++ high.1, high.2)

/-- The extra bit is part of the result unless it is what the result repeats anyway. -/
def appendNe (bits : List V) (extra pad : V) : List V :=
  if extra ≠ pad then bits ++ [extra] else bits

/-- `operator +`. -/
def add (left right : Verinum) : Verinum :=
  let hasLen := left.hasLen && right.hasLen
  let hasSign := left.hasSign && right.hasSign
  let maxLen := max left.len right.len
  if !left.isDefined || !right.isDefined then undefined maxLen hasLen hasSign
  else
    let (bits, carry) := ripple left.bits left.signBit right.bits right.signBit .v0
    let extra := (addWithCarry left.signBit right.signBit carry).1
    let pad := if hasSign then bits.getD (maxLen - 1) .v0 else .v0
    signedBits (if hasLen then bits else appendNe bits extra pad) hasLen hasSign

/-- Binary `operator -`. -/
def sub (left right : Verinum) : Verinum :=
  let hasLen := left.hasLen && right.hasLen
  let hasSign := left.hasSign && right.hasSign
  let maxLen := max left.len right.len
  if !left.isDefined || !right.isDefined then undefined maxLen hasLen hasSign
  else
    let (bits, carry) :=
      ripple left.bits left.signBit (right.bits.map V.not) right.signBit.not .v1
    let extra := (addWithCarry left.signBit right.signBit.not carry).1
    let pad := bits.getD (maxLen - 1) .v0
    signedBits (if hasSign && !hasLen then appendNe bits extra pad else bits) hasLen hasSign

/-- Unary `operator -`. -/
def neg (right : Verinum) : Verinum :=
  let hasLen := right.hasLen
  let hasSign := right.hasSign
  if !right.isDefined then undefined right.len hasLen hasSign
  else
    let (bits, carry) := Words.pass (fun b c => addWithCarry .v0 b.not c) right.bits .v1
    let extra := (addWithCarry .v0 right.signBit.not carry).1
    let pad := bits.getD (right.len - 1) .v0
    signedBits (if hasSign && !hasLen then appendNe bits extra pad else bits) hasLen hasSign

/-- One turn of the outer loop of `*`: the left operand added to the result from bit `rdx` up. -/
def mulRow (left : Verinum) (len rdx : Nat) (result : List V) : List V :=
  let row := (extend left.bits left.signBit (len - rdx)).zip (result.drop rdx)
  result.take rdx ++ (Words.pass (fun lr c => addWithCarry lr.1 lr.2 c) row .v0).1

/-- The outer loop of `*`, before turn `rdx`. -/
def mulRows (left right : Verinum) (len : Nat) : Nat → List V
  | 0 => List.replicate len .v0
  | rdx + 1 =>
    let result := mulRows left right len rdx
    if right.bits.getD rdx right.signBit = .v0 then result else mulRow left len rdx result

/-- `operator *`. -/
def mul (left right : Verinum) : Verinum :=
  let hasLen := left.hasLen && right.hasLen
  let hasSign := left.hasSign && right.hasSign
  let len := if hasLen then max left.len right.len else left.len + right.len
  if !left.isDefined || !right.isDefined then undefined len hasLen hasSign
  else trimVnum (signedBits (mulRows left right len len) hasLen hasSign)

/-! ## Sums of extended operands -/

/-- The sum of two strings extended to `n` bits. -/
def sumBits (l : List V) (lpad : V) (r : List V) (rpad carry : V) (n : Nat) : List V × V :=
  Words.pass (fun lr c => addWithCarry lr.1 lr.2 c) ((extend l lpad n).zip (extend r rpad n)) carry

private theorem pass_zip_replicate_left (pad : V) (r : List V) (carry : V) :
    Words.pass (fun lr c => addWithCarry lr.1 lr.2 c) ((List.replicate r.length pad).zip r) carry =
      Words.pass (fun b c => addWithCarry pad b c) r carry := by
  induction r generalizing carry with
  | nil => rfl
  | cons b r ih =>
    simp only [List.length_cons, List.replicate_succ, List.zip_cons_cons, Words.pass_cons, ih]

private theorem pass_zip_replicate_right (l : List V) (pad carry : V) :
    Words.pass (fun lr c => addWithCarry lr.1 lr.2 c) (l.zip (List.replicate l.length pad)) carry =
      Words.pass (fun b c => addWithCarry b pad c) l carry := by
  induction l generalizing carry with
  | nil => rfl
  | cons b l ih =>
    simp only [List.length_cons, List.replicate_succ, List.zip_cons_cons, Words.pass_cons, ih]

/-- The two loops are one loop over the extended operands. -/
theorem ripple_eq (l : List V) (lpad : V) (r : List V) (rpad carry : V) :
    ripple l lpad r rpad carry = sumBits l lpad r rpad carry (max l.length r.length) := by
  induction l generalizing r carry with
  | nil =>
    have hr : extend r rpad r.length = r := by
      rw [extend_of_le rpad (Nat.le_refl _), List.take_length]
    unfold ripple sumBits
    rw [List.length_nil, Nat.zero_max, hr, extend_nil, pass_zip_replicate_left]
    simp
  | cons a l ih =>
    cases r with
    | nil =>
      have hl : extend (a :: l) lpad (a :: l).length = a :: l := by
        rw [extend_of_le lpad (Nat.le_refl _), List.take_length]
      unfold ripple sumBits
      rw [List.length_nil, Nat.max_zero, hl, extend_nil, pass_zip_replicate_right]
      simp
    | cons b r =>
      have hrest := ih r (addWithCarry a b carry).2
      unfold ripple sumBits at *
      simp only [List.length_cons, Nat.succ_max_succ, extend_cons, List.zip_cons_cons,
        Words.pass_cons, List.drop_succ_cons, Nat.add_lt_add_iff_right, List.cons_append] at hrest ⊢
      rw [← hrest]

/-- One more bit of the sum. -/
theorem sumBits_succ (l : List V) (lpad : V) (r : List V) (rpad carry : V) (n : Nat) :
    sumBits l lpad r rpad carry (n + 1) =
      ((sumBits l lpad r rpad carry n).1 ++
          [(addWithCarry (l.getD n lpad) (r.getD n rpad) (sumBits l lpad r rpad carry n).2).1],
        (addWithCarry (l.getD n lpad) (r.getD n rpad) (sumBits l lpad r rpad carry n).2).2) := by
  unfold sumBits
  rw [extend_succ, extend_succ, List.zip_append (by simp), Words.pass_append]
  rfl

@[simp] theorem length_sumBits (l : List V) (lpad : V) (r : List V) (rpad carry : V) (n : Nat) :
    (sumBits l lpad r rpad carry n).1.length = n := by simp [sumBits]

/-- What a string of added bits is worth. -/
theorem pass_addWithCarry {xs ys : List V} {carry : V} (hx : ∀ b ∈ xs, b.Known)
    (hy : ∀ b ∈ ys, b.Known) (hc : carry.Known) (hlen : xs.length = ys.length) :
    let sum := Words.pass (fun lr c => addWithCarry lr.1 lr.2 c) (xs.zip ys) carry
    (∀ b ∈ sum.1, b.Known) ∧
      number sum.1 + 2 ^ xs.length * sum.2.digit = number xs + number ys + carry.digit := by
  intro sum
  have hmem : ∀ lr ∈ xs.zip ys, lr.1.Known ∧ lr.2.Known := by
    rintro ⟨l, r⟩ hlr
    exact ⟨hx l (List.of_mem_zip hlr).1, hy r (List.of_mem_zip hlr).2⟩
  constructor
  · refine Words.forall_mem_pass (P := V.Known) (Q := V.Known) ?_ hc
    intro lr hlr c hknown
    obtain ⟨hsum, hcarry, -⟩ := addWithCarry_eq (hmem lr hlr).1 (hmem lr hlr).2 hknown
    exact ⟨hcarry, hsum⟩
  · have hstep : ∀ lr ∈ xs.zip ys, ∀ c : V, c.Known → (addWithCarry lr.1 lr.2 c).2.Known ∧
        (addWithCarry lr.1 lr.2 c).1.digit + 2 ^ 1 * (addWithCarry lr.1 lr.2 c).2.digit =
          lr.1.digit + lr.2.digit + c.digit := by
      intro lr hlr c hknown
      exact (addWithCarry_eq (hmem lr hlr).1 (hmem lr hlr).2 hknown).2
    have hpass := Words.sum_pass (w := 1) (D := V.digit) (C := V.digit) (P := V.Known)
      (F := fun lr : V × V => lr.1.digit + lr.2.digit)
      (f := fun lr c => addWithCarry lr.1 lr.2 c) hstep hc
    have hfst := Words.sum_zip_fst (w := 1) V.digit xs ys hlen
    have hsnd := Words.sum_zip_snd (w := 1) V.digit xs ys hlen
    rw [Words.sum_add, hfst, hsnd, List.length_zip, hlen, Nat.min_self, Nat.one_mul] at hpass
    rw [hlen]
    exact hpass.2

/-- The sum of extended operands, as an equation of numbers. -/
theorem number_sumBits {l r : List V} {lpad rpad carry : V} (hl : ∀ b ∈ l, b.Known)
    (hlpad : lpad.Known) (hr : ∀ b ∈ r, b.Known) (hrpad : rpad.Known) (hc : carry.Known)
    (n : Nat) :
    (∀ b ∈ (sumBits l lpad r rpad carry n).1, b.Known) ∧
      number (sumBits l lpad r rpad carry n).1 +
          2 ^ n * (sumBits l lpad r rpad carry n).2.digit =
        number (extend l lpad n) + number (extend r rpad n) + carry.digit := by
  have hpass := pass_addWithCarry (known_extend hl hlpad n) (known_extend hr hrpad n) hc (by simp)
  rw [length_extend] at hpass
  exact hpass

/-! ## Results -/

/-- `result` stands for the integer `z`: exactly if it is not sized and takes an extra bit where
it has to, and else modulo its length. -/
structure Computes (result : Verinum) (hasLen hasSign : Bool) (len : Nat) (wide : Bool)
    (z : Int) : Prop where
  defined : result.isDefined
  hasLen_eq : result.hasLen = hasLen
  hasSign_eq : result.hasSign = hasSign
  sized : hasLen = true ∨ wide = false → result.len = len ∧ result.toInt ≡ z [ZMOD 2 ^ len]
  unsized : hasLen = false → wide = true → result.toInt = z

@[simp] theorem len_signedBits (bits : List V) (hasLen hasSign : Bool) :
    (signedBits bits hasLen hasSign).len = bits.length := rfl

theorem signBit_signedBits (bits : List V) (hasLen hasSign : Bool) :
    (signedBits bits hasLen hasSign).signBit =
      if hasSign then bits.getD (bits.length - 1) .v0 else .v0 := rfl

/-- With the extra bit where it is needed, the result is exact. -/
theorem toInt_appendNe {bits : List V} {extra : V} {hasLen hasSign : Bool} {z : Int}
    (hpos : 0 < bits.length)
    (hmod : (number (bits ++ [extra]) : Int) ≡ z [ZMOD 2 ^ (bits.length + 1)])
    (hz : TwosComplement.InRange hasSign (bits.length + 1) z) :
    (signedBits (appendNe bits extra (signedBits bits hasLen hasSign).signBit)
      hasLen hasSign).toInt = z := by
  have hlt := number_lt (bits ++ [extra])
  rw [List.length_append, List.length_singleton] at hlt
  have hwide : (signedBits (bits ++ [extra]) hasLen hasSign).toInt = z := by
    unfold toInt
    rw [len_signedBits, List.length_append, List.length_singleton]
    exact TwosComplement.reading_eq (Nat.succ_pos _) hlt hz hmod
  unfold appendNe
  split_ifs with hne
  · exact hwide
  · rw [← hwide]
    symm
    refine toInt_of_extend (w := signedBits bits hasLen hasSign) rfl hpos ?_ ?_
    · rw [len_signedBits, len_signedBits, List.length_append]
      omega
    · rw [← not_not.mp hne, len_signedBits, List.length_append, List.length_singleton,
        extend_of_ge _ (by exact Nat.le_succ _), show (signedBits bits hasLen hasSign).bits = bits
          from rfl, Nat.add_sub_cancel_left]
      rfl

theorem length_appendNe (bits : List V) (extra pad : V) :
    bits.length ≤ (appendNe bits extra pad).length := by
  unfold appendNe
  split_ifs
  · simp
  · exact Nat.le_refl _

theorem isDefined_signedBits {bits : List V} (h : ∀ b ∈ bits, b.Known) (hasLen hasSign : Bool) :
    (signedBits bits hasLen hasSign).isDefined := (isDefined_iff _).mpr h

theorem known_appendNe {bits : List V} {extra pad : V} (h : ∀ b ∈ bits ++ [extra], b.Known) :
    ∀ b ∈ appendNe bits extra pad, b.Known := by
  unfold appendNe
  split_ifs
  · exact h
  · intro b hb
    exact h b (List.mem_append_left _ hb)

/-- What `+` and both `-` return, given what the added strings are worth. -/
theorem computes_sumBits (hasLen : Bool) {hasSign wide : Bool} {l r : List V}
    {lpad rpad carry : V} {n : Nat} {z : Int} (hn : 0 < n) (hln : l.length ≤ n) (hrn : r.length ≤ n)
    (hl : ∀ b ∈ l, b.Known) (hlpad : lpad.Known) (hr : ∀ b ∈ r, b.Known) (hrpad : rpad.Known)
    (hc : carry.Known)
    (hmod : ∀ m, ((number (extend l lpad m) + number (extend r rpad m) + carry.digit : Nat) : Int)
      ≡ z [ZMOD 2 ^ m])
    (hz : wide = true → TwosComplement.InRange hasSign (n + 1) z) :
    let sum := sumBits l lpad r rpad carry n
    let extra := (addWithCarry lpad rpad sum.2).1
    let pad := if hasSign then sum.1.getD (n - 1) .v0 else .v0
    Computes (signedBits (if wide && !hasLen then appendNe sum.1 extra pad else sum.1) hasLen hasSign)
      hasLen hasSign n wide z := by
  intro sum extra pad
  have hcong : ∀ m, (number (sumBits l lpad r rpad carry m).1 : Int) ≡ z [ZMOD 2 ^ m] := by
    intro m
    have heq := (number_sumBits hl hlpad hr hrpad hc m).2
    refine Int.ModEq.trans ?_ (hmod m)
    rw [← heq]
    apply Int.modEq_iff_dvd.mpr
    push_cast
    exact ⟨(sumBits l lpad r rpad carry m).2.digit, by ring⟩
  have hlen : sum.1.length = n := length_sumBits l lpad r rpad carry n
  have hsucc : sum.1 ++ [extra] = (sumBits l lpad r rpad carry (n + 1)).1 := by
    rw [sumBits_succ, List.getD_eq_getElem?_getD, List.getD_eq_getElem?_getD,
      List.getElem?_eq_none hln, List.getElem?_eq_none hrn]
    rfl
  have hknown := (number_sumBits hl hlpad hr hrpad hc n).1
  have hknown' := (number_sumBits hl hlpad hr hrpad hc (n + 1)).1
  rw [← hsucc] at hknown'
  have hpad : pad = (signedBits sum.1 hasLen hasSign).signBit := by
    rw [signBit_signedBits, hlen]
  refine ⟨?_, rfl, rfl, ?_, ?_⟩
  · apply isDefined_signedBits
    split_ifs
    · exact known_appendNe hknown'
    · exact hknown
  · intro hsized
    rw [if_neg]
    swap
    · rcases hsized with h | h <;> simp [h]
    refine ⟨hlen, ?_⟩
    refine Int.ModEq.trans ?_ (hcong n)
    have hread := TwosComplement.reading_modEq hasSign n (number sum.1)
    unfold toInt
    rwa [len_signedBits, hlen]
  · intro hunsized hwide
    rw [if_pos (by rw [hunsized, hwide]; rfl), hpad]
    apply toInt_appendNe
    · omega
    · rw [hsucc, hlen]
      exact hcong (n + 1)
    · rw [hlen]
      exact hz hwide

/-- The complement of an extended operand and a carry subtract the operand. -/
theorem complement_modEq {v : Verinum} (hpos : 0 < v.len) (hdef : ∀ b ∈ v.bits, b.Known) (m : Nat) :
    ((number (extend (v.bits.map V.not) v.signBit.not m) + 1 : Nat) : Int)
      ≡ -v.toInt [ZMOD 2 ^ m] := by
  have hknown := known_extend hdef (known_signBit hdef) m
  have hnot := (number_map_not hknown).2
  rw [length_extend] at hnot
  have hv := (number_extend_modEq hpos m).neg
  refine Int.ModEq.trans ?_ hv
  rw [extend_map_not]
  apply Int.modEq_iff_dvd.mpr
  refine ⟨-1, ?_⟩
  have hcast : ((number ((extend v.bits v.signBit m).map V.not) : Int) +
      number (extend v.bits v.signBit m) + 1) = 2 ^ m := by exact_mod_cast hnot
  push_cast
  linarith

section Operators

variable {left right : Verinum}

/-- Defined operands take the branch that computes. -/
private theorem undefined_or {p q : Bool} (hp : p = true) (hq : q = true) :
    ¬ (!p || !q) = true := by simp [hp, hq]

theorem add_spec (hl : 0 < left.len) (dl : left.isDefined) (dr : right.isDefined)
    (hr : 0 < right.len) (hsign : left.hasSign = right.hasSign) :
    Computes (add left right) (left.hasLen && right.hasLen) (left.hasSign && right.hasSign)
      (max left.len right.len) true (left.toInt + right.toInt) := by
  have kl := (isDefined_iff left).mp dl
  have kr := (isDefined_iff right).mp dr
  have hrange : true = true → TwosComplement.InRange (left.hasSign && right.hasSign)
      (max left.len right.len + 1) (left.toInt + right.toInt) := by
    intro _
    rw [← hsign, Bool.and_self]
    apply TwosComplement.InRange.add (by omega)
    · exact (toInt_inRange hl).mono (Nat.le_max_left _ _)
    · rw [hsign]
      exact (toInt_inRange hr).mono (Nat.le_max_right _ _)
  have hmod : ∀ m, ((number (extend left.bits left.signBit m) +
      number (extend right.bits right.signBit m) + V.v0.digit : Nat) : Int)
      ≡ left.toInt + right.toInt [ZMOD 2 ^ m] := by
    intro m
    push_cast
    simpa using (number_extend_modEq hl m).add (number_extend_modEq hr m)
  have hsum := computes_sumBits (left.hasLen && right.hasLen) (by omega)
    (Nat.le_max_left left.len right.len) (Nat.le_max_right left.len right.len) kl (known_signBit kl)
    kr (known_signBit kr) (Or.inl rfl) hmod hrange
  unfold add
  rw [if_neg (undefined_or dl dr), ripple_eq]
  have hif : ∀ (c : Bool) (x y : List V),
      (if c then x else y) = if true && !c then y else x := by
    intro c x y
    cases c <;> rfl
  rw [show max left.bits.length right.bits.length = max left.len right.len from rfl]
  simp only [hif (left.hasLen && right.hasLen)]
  exact hsum

theorem sub_spec (hl : 0 < left.len) (dl : left.isDefined) (dr : right.isDefined)
    (hr : 0 < right.len) :
    Computes (sub left right) (left.hasLen && right.hasLen) (left.hasSign && right.hasSign)
      (max left.len right.len) (left.hasSign && right.hasSign) (left.toInt - right.toInt) := by
  have kl := (isDefined_iff left).mp dl
  have kr := (isDefined_iff right).mp dr
  have hrange : (left.hasSign && right.hasSign) = true →
      TwosComplement.InRange (left.hasSign && right.hasSign)
        (max left.len right.len + 1) (left.toInt - right.toInt) := by
    intro hs
    obtain ⟨hsl, hsr⟩ := (Bool.and_eq_true _ _).mp hs
    have rl := toInt_inRange hl
    have rr := toInt_inRange hr
    rw [hsl] at rl
    rw [hsr] at rr
    rw [hs]
    exact TwosComplement.InRange.sub (by omega) (rl.mono (Nat.le_max_left _ _))
      (rr.mono (Nat.le_max_right _ _))
  have hmod : ∀ m, ((number (extend left.bits left.signBit m) +
      number (extend (right.bits.map V.not) right.signBit.not m) + V.v1.digit : Nat) : Int)
      ≡ left.toInt - right.toInt [ZMOD 2 ^ m] := by
    intro m
    have h := (number_extend_modEq hl m).add (complement_modEq hr kr m)
    push_cast at h ⊢
    simpa [sub_eq_add_neg, add_assoc] using h
  have hlen : (right.bits.map V.not).length ≤ max left.len right.len := by
    rw [List.length_map]
    exact Nat.le_max_right _ _
  have hsum := computes_sumBits (left.hasLen && right.hasLen) (by omega)
    (Nat.le_max_left left.len right.len) hlen kl (known_signBit kl)
    (number_map_not kr).1 (known_signBit kr).not.1 (Or.inr rfl) hmod hrange
  unfold sub
  rw [if_neg (undefined_or dl dr), ripple_eq, List.length_map]
  rw [show max left.bits.length right.bits.length = max left.len right.len from rfl]
  revert hsum
  cases left.hasSign && right.hasSign <;> exact id

/-- Unary minus is the subtraction from an empty string. -/
private theorem pass_neg (bits : List V) (pad carry : V) :
    Words.pass (fun b c => addWithCarry .v0 b.not c) bits carry =
      sumBits [] .v0 (bits.map V.not) pad carry bits.length := by
  have hripple := ripple_eq [] .v0 (bits.map V.not) pad carry
  rw [List.length_nil, List.length_map, Nat.zero_max] at hripple
  rw [← hripple]
  simp [ripple, Words.pass_map]

theorem neg_spec (hr : 0 < right.len) (dr : right.isDefined) :
    Computes (neg right) right.hasLen right.hasSign right.len right.hasSign (-right.toInt) := by
  have kr := (isDefined_iff right).mp dr
  have hrange : right.hasSign = true →
      TwosComplement.InRange right.hasSign (right.len + 1) (-right.toInt) := by
    intro hs
    have rr := toInt_inRange hr
    rw [hs] at rr ⊢
    rw [← zero_sub]
    exact TwosComplement.InRange.sub hr TwosComplement.InRange.zero rr
  have hmod : ∀ m, ((number (extend [] .v0 m) +
      number (extend (right.bits.map V.not) right.signBit.not m) + V.v1.digit : Nat) : Int)
      ≡ -right.toInt [ZMOD 2 ^ m] := by
    intro m
    rw [extend_nil, number_replicate, V.digit_v0, Nat.mul_zero, Nat.zero_add]
    exact complement_modEq hr kr m
  have hlen : (right.bits.map V.not).length ≤ right.len := by
    rw [List.length_map]
    exact Nat.le_refl _
  have hsum := computes_sumBits (l := []) right.hasLen hr (Nat.zero_le _) hlen
    (by simp) (Or.inl rfl) (number_map_not kr).1 (known_signBit kr).not.1 (Or.inr rfl) hmod hrange
  unfold neg
  rw [if_neg (by simp [dr]), pass_neg _ right.signBit.not]
  rw [show right.bits.length = right.len from rfl]
  revert hsum
  cases right.hasSign <;> exact id

/-- One row adds the left operand, shifted. -/
theorem mulRow_spec (hl : 0 < left.len) (kl : ∀ b ∈ left.bits, b.Known) {len rdx : Nat}
    {result : List V} (hle : rdx ≤ len) (hlen : result.length = len)
    (hknown : ∀ b ∈ result, b.Known) :
    (mulRow left len rdx result).length = len ∧
      (∀ b ∈ mulRow left len rdx result, b.Known) ∧
      (number (mulRow left len rdx result) : Int)
        ≡ number result + 2 ^ rdx * left.toInt [ZMOD 2 ^ len] := by
  have hdrop : (result.drop rdx).length = len - rdx := by rw [List.length_drop, hlen]
  have htake : (result.take rdx).length = rdx := by
    rw [List.length_take, hlen]
    exact Nat.min_eq_left hle
  have hsplit := number_append (result.take rdx) (result.drop rdx)
  rw [List.take_append_drop, htake] at hsplit
  have hrow := pass_addWithCarry (known_extend kl (known_signBit kl) (len - rdx))
    (fun b hb => hknown b (List.mem_of_mem_drop hb)) (Or.inl rfl : V.v0.Known)
    (by rw [length_extend, hdrop])
  rw [length_extend] at hrow
  set row := (extend left.bits left.signBit (len - rdx)).zip (result.drop rdx) with hrowdef
  set sum := Words.pass (fun lr c => addWithCarry lr.1 lr.2 c) row .v0 with hsum
  obtain ⟨hsumknown, heq⟩ := hrow
  have hlow := number_extend_modEq hl (len - rdx)
  have hmul : mulRow left len rdx result = result.take rdx ++ sum.1 := rfl
  rw [hmul]
  refine ⟨?_, ?_, ?_⟩
  · rw [List.length_append, htake, hsum, Words.length_pass, hrowdef, List.length_zip,
      length_extend, hdrop, Nat.min_self]
    omega
  · intro b hb
    rcases List.mem_append.mp hb with hb | hb
    · exact hknown b (List.mem_of_mem_take hb)
    · exact hsumknown b hb
  · rw [number_append, htake]
    obtain ⟨k, hk⟩ := hlow.dvd
    apply Int.modEq_iff_dvd.mpr
    have hpow : (2 : Int) ^ len = 2 ^ rdx * 2 ^ (len - rdx) := by
      rw [← pow_add, Nat.add_sub_cancel' hle]
    have heq' : (number sum.1 : Int) + 2 ^ (len - rdx) * sum.2.digit =
        number (extend left.bits left.signBit (len - rdx)) + number (result.drop rdx) := by
      exact_mod_cast heq
    refine ⟨k + sum.2.digit, ?_⟩
    rw [hsplit, hpow]
    push_cast
    calc _ = 2 ^ rdx * (left.toInt - number (extend left.bits left.signBit (len - rdx))) +
          2 ^ rdx * (number (extend left.bits left.signBit (len - rdx)) +
            number (result.drop rdx) - number sum.1) := by ring
      _ = 2 ^ rdx * (2 ^ (len - rdx) * k) + 2 ^ rdx * (2 ^ (len - rdx) * sum.2.digit) := by
        rw [hk, ← heq']
        ring
      _ = 2 ^ rdx * 2 ^ (len - rdx) * (k + sum.2.digit) := by ring

/-- After some rows the result is the product with the bits of the right operand seen so far. -/
theorem mulRows_spec (hl : 0 < left.len) (kl : ∀ b ∈ left.bits, b.Known)
    (kr : ∀ b ∈ right.bits, b.Known) {len : Nat} (rdx : Nat) (hle : rdx ≤ len) :
    (mulRows left right len rdx).length = len ∧
      (∀ b ∈ mulRows left right len rdx, b.Known) ∧
      (number (mulRows left right len rdx) : Int)
        ≡ left.toInt * number (extend right.bits right.signBit rdx) [ZMOD 2 ^ len] := by
  induction rdx with
  | zero =>
    refine ⟨List.length_replicate, ?_, ?_⟩
    · intro b hb
      exact Or.inl (List.eq_of_mem_replicate hb)
    · rw [mulRows, number_replicate]
      simp [extend, number]
  | succ rdx ih =>
    obtain ⟨hlen, hknown, hmod⟩ := ih (by omega)
    have hbit : (right.bits.getD rdx right.signBit).Known := by
      apply known_extend kr (known_signBit kr) (rdx + 1)
      rw [extend_succ]
      simp
    have hnext : (number (extend right.bits right.signBit (rdx + 1)) : Int) =
        number (extend right.bits right.signBit rdx) +
          2 ^ rdx * (right.bits.getD rdx right.signBit).digit := by
      rw [extend_succ, number_append, number_singleton, length_extend]
      push_cast
      rfl
    simp only [mulRows]
    split_ifs with hzero
    · rw [hnext, hzero]
      simpa using ⟨hlen, hknown, hmod⟩
    · have hone : right.bits.getD rdx right.signBit = .v1 := hbit.resolve_left hzero
      obtain ⟨hlen', hknown', hmod'⟩ := mulRow_spec hl kl (by omega : rdx ≤ len) hlen hknown
      refine ⟨hlen', hknown', hmod'.trans ?_⟩
      rw [hnext, hone, V.digit_v1, Nat.cast_one, mul_one, mul_add, mul_comm left.toInt (2 ^ rdx)]
      exact hmod.add_right _

theorem mul_spec (hl : 0 < left.len) (dl : left.isDefined) (dr : right.isDefined)
    (hr : 0 < right.len) (hsign : left.hasSign = right.hasSign) :
    Computes (mul left right) (left.hasLen && right.hasLen) (left.hasSign && right.hasSign)
      (max left.len right.len) true (left.toInt * right.toInt) := by
  have kl := (isDefined_iff left).mp dl
  have kr := (isDefined_iff right).mp dr
  have hrows : ∀ len hasLen hasSign, 0 < len →
      let result := signedBits (mulRows left right len len) hasLen hasSign
      result.len = len ∧ result.isDefined ∧
        (number (mulRows left right len len) : Int) ≡ left.toInt * right.toInt [ZMOD 2 ^ len] := by
    intro len hasLen hasSign hpos
    obtain ⟨hlen, hknown, hmod⟩ := mulRows_spec hl kl kr len (Nat.le_refl len)
    exact ⟨hlen, isDefined_signedBits hknown _ _,
      hmod.trans ((number_extend_modEq hr len).mul_left left.toInt)⟩
  unfold mul
  rw [if_neg (undefined_or dl dr)]
  cases hboth : left.hasLen && right.hasLen with
  | true =>
    obtain ⟨hlen, hdef, hmod⟩ := hrows (max left.len right.len) true
      (left.hasSign && right.hasSign) (by omega)
    simp only [if_true]
    rw [trimVnum_of_hasLen rfl]
    refine ⟨hdef, rfl, rfl, fun _ => ⟨hlen, ?_⟩, by simp⟩
    refine Int.ModEq.trans ?_ hmod
    unfold toInt
    rw [hlen]
    exact TwosComplement.reading_modEq _ _ _
  | false =>
    obtain ⟨hlen, hdef, hmod⟩ := hrows (left.len + right.len) false
      (left.hasSign && right.hasSign) (by omega)
    simp only [Bool.false_eq_true, if_false]
    obtain ⟨hint, hhas, hsgn, -, hdef'⟩ := trimVnum_spec hdef
    refine ⟨hdef', hhas, hsgn, by simp, fun _ _ => ?_⟩
    rw [hint]
    have hlt := number_lt (mulRows left right (left.len + right.len) (left.len + right.len))
    have hrange : TwosComplement.InRange (left.hasSign && right.hasSign) (left.len + right.len)
        (left.toInt * right.toInt) := by
      rw [← hsign, Bool.and_self]
      refine TwosComplement.InRange.mul hl hr (toInt_inRange hl) ?_
      rw [hsign]
      exact toInt_inRange hr
    rw [len_signedBits] at hlen
    rw [hlen] at hlt
    unfold toInt
    rw [len_signedBits, hlen]
    exact TwosComplement.reading_eq (by omega) hlt hrange hmod

/-- The operators compute the integer sum, difference, negation and product. -/
theorem arithmetic_computes (left right : Verinum) (hl : 0 < left.len) (hr : 0 < right.len) (dl : left.isDefined)
    (dr : right.isDefined) (hsign : left.hasSign = right.hasSign) :
    Computes (add left right) (left.hasLen && right.hasLen) (left.hasSign && right.hasSign)
        (max left.len right.len) true (left.toInt + right.toInt) ∧
      Computes (sub left right) (left.hasLen && right.hasLen) (left.hasSign && right.hasSign)
        (max left.len right.len) (left.hasSign && right.hasSign) (left.toInt - right.toInt) ∧
      Computes (neg right) right.hasLen right.hasSign right.len right.hasSign (-right.toInt) ∧
      Computes (mul left right) (left.hasLen && right.hasLen) (left.hasSign && right.hasSign)
        (max left.len right.len) true (left.toInt * right.toInt) :=
  ⟨add_spec hl dl dr hr hsign, sub_spec hl dl dr hr, neg_spec hr dr,
    mul_spec hl dl dr hr hsign⟩

/-- An unsized `-3` of three bits and a sized `-1` of two. -/
theorem arithmetic_computes_example :
    let left := signedBits [.v1, .v0, .v1] false true
    let right := signedBits [.v1, .v1] true true
    (add left right).toInt = -4 ∧ (sub left right).toInt = -2 ∧
      (neg right).toInt ≡ 1 [ZMOD 2 ^ 2] ∧ (mul left right).toInt = 3 := by
  intro left right
  obtain ⟨hadd, hsub, hneg, hmul⟩ := arithmetic_computes left right (by decide) (by decide) (by decide) (by decide) rfl
  exact ⟨hadd.unsized rfl rfl, hsub.unsized rfl rfl, (hneg.sized (Or.inl rfl)).2,
    hmul.unsized rfl rfl⟩

end Operators

end Icarus.Verinum
