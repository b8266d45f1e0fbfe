import Icarus.Core.Numeral
import Icarus.Vvp.Bits
import Mathlib.Tactic.IntervalCases

/-!
# Decimal text as vectors

The text is read from its end on, and the decimal digits are halved for each bit of the
vector. A minus sign in front complements the vector.
-/

namespace Icarus.Vvp

namespace Vector4

/-- The complement of a bit: X and Z bits give X bits. -/
def invertBit : Bit4 → Bit4
  | .zero => .one
  | .one => .zero
  | _ => .x

/-- `invert`. -/
def invert (v : Vector4) : Vector4 := v.map invertBit

/-- `add_with_carry`: the sum and the carry of bits. -/
def bitAddWithCarry (a b c : Bit4) : Bit4 × Bit4 :=
  if [a, b, c].any fun d => d = .x ∨ d = .z then (.x, .x)
  else
    match [a, b, c].count .one with
    | 0 => (.zero, c)
    | 1 => (.one, .zero)
    | 2 => (.zero, .one)
    | _ => (.one, .one)

/-- The loop of the sum of a vector and an integer. -/
def addIntLoop : Int → Bit4 → Vector4 → Vector4
  | _, _, [] => []
  | that, carry, bit :: v =>
    if that = 0 ∧ carry = .zero then bit :: v
    else
      let thatBit := if that % 2 = 1 then Bit4.one else .zero
      let that := that / 2
      if thatBit = .zero ∧ carry = .zero then bit :: addIntLoop that carry v
      else
        let (bit, carry) := bitAddWithCarry bit thatBit carry
        bit :: addIntLoop that carry v

/-- `operator +=` with an integer. -/
def addInt (v : Vector4) (that : Int) : Vector4 :=
  if v.hasXz then List.replicate v.length .x else addIntLoop that .zero v

end Vector4

namespace Vpip

/-- What reading a decimal text gives. -/
inductive DecDigits
  | digits (str : List Nat) (isNegative : Bool)
  | invalid

/-- Read the text from its end on; none where the text is left at its front. An underscore
is skipped, and the minus sign is one only at the front, with no underscore behind it. -/
def decDigits : Bool → List Char → Option DecDigits
  | skipped, [] => if skipped then none else some (.digits [] false)
  | skipped, c :: rest =>
    if rest = [] ∧ c = '-' ∧ skipped = false then some (.digits [] true)
    else if c = '_' then decDigits true rest
    else if c.isDigit then
      (decDigits false rest).map fun
        | .digits str isNegative => .digits ((c.toNat - '0'.toNat) :: str) isNegative
        | .invalid => .invalid
    else some .invalid

/-- The half of an odd digit goes to the digit before it, which is the last one done. -/
def carryDown (val : Nat) : List Nat → List Nat
  | [] => []
  | prev :: done => (if val % 2 = 1 then prev + 5 else prev) :: done

/-- Divide decimal digits by two, least significant first, with those done in reverse. -/
def halveLoop : List Nat → List Nat → List Nat
  | done, [] => done.reverse
  | done, val :: rest => halveLoop (val / 2 :: carryDown val done) rest

/-- The bits of decimal digits. -/
def decBits : Nat → List Nat → Vector4
  | 0, _ => []
  | n + 1, str =>
    (if str.headD 0 % 2 = 1 then Bit4.one else .zero) :: decBits n (halveLoop [] str)

/-- Set a vector of some width from a decimal text, up to its length in an unsigned number. There is
no place for the digits of the longest texts. -/
def decStrToVec4 (size : Nat) (buf : List Char) : Option Vector4 :=
  match buf with
  | 'x' :: _ | 'X' :: _ => some (List.replicate size .x)
  | 'z' :: tbuf | 'Z' :: tbuf =>
    some (List.replicate size (if tbuf.all (· = '_') then .z else .x))
  | _ =>
    let slen := buf.length % 2 ^ 32
    if slen + 1 < 2 ^ 32 then
      (decDigits false (buf.take slen).reverse).map fun
        | .invalid => List.replicate size .x
        | .digits str isNegative =>
          let vec := decBits size str
          if isNegative then vec.invert.addInt 1 else vec
    else none

end Vpip

/-! ## Complements -/

namespace Vector4

/-- The number of a bit. -/
def bitNat (b : Bit4) : Nat := if b = .one then 1 else 0

theorem toNat_cons (b : Bit4) (v : Vector4) : toNat (b :: v) = bitNat b + 2 * v.toNat := rfl

theorem bitAddWithCarry_spec {a b c : Bit4} (ha : a = .zero ∨ a = .one) (hb : b = .zero ∨ b = .one)
    (hc : c = .zero ∨ c = .one) :
    ((bitAddWithCarry a b c).1 = .zero ∨ (bitAddWithCarry a b c).1 = .one) ∧
      ((bitAddWithCarry a b c).2 = .zero ∨ (bitAddWithCarry a b c).2 = .one) ∧
      bitNat a + bitNat b + bitNat c =
        bitNat (bitAddWithCarry a b c).1 + 2 * bitNat (bitAddWithCarry a b c).2 := by
  rcases ha with rfl | rfl <;> rcases hb with rfl | rfl <;> rcases hc with rfl | rfl <;> decide

theorem known_cons {b : Bit4} {v : Vector4} :
    hasXz (b :: v) = false ↔ (b = .zero ∨ b = .one) ∧ v.hasXz = false := by
  rw [hasXz_eq_false, hasXz_eq_false, List.forall_mem_cons]

/-- A bit in front of numbers with the same low bits. -/
theorem modEq_cons {r x : Int} {n : Nat} (h : r ≡ x [ZMOD 2 ^ n]) (b : Int) :
    b + 2 * r ≡ b + 2 * x [ZMOD 2 ^ (n + 1)] := by
  rw [pow_succ']
  exact (h.mul_left' (c := 2)).add_left b

/-- The loop of the sum is the sum, modulo the power of the width. -/
theorem addIntLoop_spec {v : Vector4} (hv : v.hasXz = false) (that : Int) (carry : Bit4)
    (hcarry : carry = .zero ∨ carry = .one) :
    (addIntLoop that carry v).hasXz = false ∧ (addIntLoop that carry v).length = v.length ∧
      ((addIntLoop that carry v).toNat : Int) ≡ v.toNat + that + bitNat carry
        [ZMOD 2 ^ v.length] := by
  induction v generalizing that carry with
  | nil => exact ⟨rfl, rfl, Int.modEq_one⟩
  | cons b v ih =>
    obtain ⟨hb, hv⟩ := known_cons.mp hv
    have hsplit := Int.emod_add_mul_ediv that 2
    rw [addIntLoop]
    by_cases hdone : that = 0 ∧ carry = .zero
    · rw [if_pos hdone, hdone.1, hdone.2]
      refine ⟨known_cons.mpr ⟨hb, hv⟩, rfl, ?_⟩
      simp [bitNat, Int.ModEq.refl]
    · rw [if_neg hdone]
      obtain ⟨thatBit, hthat⟩ : ∃ t, t = if that % 2 = 1 then Bit4.one else .zero := ⟨_, rfl⟩
      have hbit : (bitNat thatBit : Int) = that % 2 := by
        rcases Int.emod_two_eq_zero_or_one that with h | h <;> rw [hthat, h] <;> rfl
      have hthatBit : thatBit = .zero ∨ thatBit = .one := by
        rw [hthat]
        split
        · exact Or.inr rfl
        · exact Or.inl rfl
      simp only [← hthat]
      by_cases hskip : thatBit = .zero ∧ carry = .zero
      · obtain ⟨hknown, hlen, hmod⟩ := ih hv (that / 2) carry hcarry
        rw [if_pos hskip]
        refine ⟨known_cons.mpr ⟨hb, hknown⟩, congrArg Nat.succ hlen, ?_⟩
        rw [toNat_cons, toNat_cons, List.length_cons]
        push_cast
        refine (modEq_cons hmod _).trans ?_
        rw [Int.ModEq]
        congr 1
        rw [hskip.1] at hbit
        rw [hskip.2]
        simp only [bitNat] at hbit ⊢
        push_cast at hbit ⊢
        omega
      · obtain ⟨hs, hc, hsum⟩ := bitAddWithCarry_spec hb hthatBit hcarry
        obtain ⟨hknown, hlen, hmod⟩ := ih hv (that / 2) _ hc
        rw [if_neg hskip]
        refine ⟨known_cons.mpr ⟨hs, hknown⟩, congrArg Nat.succ hlen, ?_⟩
        rw [toNat_cons, toNat_cons, List.length_cons]
        push_cast
        refine (modEq_cons hmod _).trans ?_
        rw [Int.ModEq]
        congr 1
        zify at hsum
        omega

theorem known_invert {v : Vector4} (hv : v.hasXz = false) : v.invert.hasXz = false ∧
    v.invert.length = v.length ∧ v.invert.toNat = 2 ^ v.length - 1 - v.toNat := by
  induction v with
  | nil => exact ⟨rfl, rfl, rfl⟩
  | cons b v ih =>
    obtain ⟨hb, hv⟩ := known_cons.mp hv
    obtain ⟨hknown, hlen, hval⟩ := ih hv
    have hlt := toNat_lt v
    have hcons : invert (b :: v) = invertBit b :: invert v := rfl
    rw [hcons]
    rcases hb with rfl | rfl
    · refine ⟨known_cons.mpr ⟨Or.inr rfl, hknown⟩, congrArg Nat.succ hlen, ?_⟩
      rw [toNat_cons, toNat_cons, hval, List.length_cons, Nat.pow_succ,
        show bitNat (invertBit .zero) = 1 from rfl, show bitNat .zero = 0 from rfl]
      omega
    · refine ⟨known_cons.mpr ⟨Or.inl rfl, hknown⟩, congrArg Nat.succ hlen, ?_⟩
      rw [toNat_cons, toNat_cons, hval, List.length_cons, Nat.pow_succ,
        show bitNat (invertBit .one) = 0 from rfl, show bitNat .one = 1 from rfl]
      omega

/-- The complement and one more is the negation. -/
theorem addInt_invert {v : Vector4} (hv : v.hasXz = false) :
    v.invert.addInt 1 = ofInt v.length (-(v.toNat : Int)) := by
  have hlt := toNat_lt v
  obtain ⟨hknown, hlen, hval⟩ := known_invert hv
  obtain ⟨hsum, hsumLen, hmod⟩ := addIntLoop_spec hknown 1 .zero (Or.inl rfl)
  rw [addInt, hknown, if_neg Bool.false_ne_true, ← ofNat_toNat hsum, hsumLen, hlen,
    ← ofInt_natCast, ofInt_eq_iff]
  rw [hlen] at hmod
  refine hmod.trans ?_
  rw [hval, Int.modEq_iff_dvd]
  refine ⟨-1, ?_⟩
  push_cast [Nat.sub_sub, Nat.cast_sub (show 1 + v.toNat ≤ 2 ^ v.length by omega)]
  simp [bitNat]
  ring

end Vector4

namespace Vpip

/-! ## Halving -/

/-- Half of the digits that are left, in front of those done. -/
theorem halveLoop_spec {rest : List Nat} (done : List Nat) (hrest : ∀ d ∈ rest, d < 10)
    (hdone : ∀ d ∈ done, d < 10) (hlast : ∀ d ∈ done.head?, d < 5) :
    (∀ d ∈ halveLoop done rest, d < 10) ∧ Nat.ofDigits 10 (halveLoop done rest) =
      Nat.ofDigits 10 done.reverse + 10 ^ done.length * Nat.ofDigits 10 rest / 2 := by
  induction rest generalizing done with
  | nil =>
    refine ⟨fun d hd => hdone d (List.mem_reverse.mp hd), ?_⟩
    rw [halveLoop, Nat.ofDigits_nil, Nat.mul_zero, Nat.zero_div, Nat.add_zero]
  | cons val rest ih =>
    have hval : val < 10 := hrest val List.mem_cons_self
    have hrest' : ∀ d ∈ rest, d < 10 := fun d hd => hrest d (List.mem_cons_of_mem _ hd)
    rw [halveLoop, Core.Numeral.ofDigits_cons]
    cases done with
    | nil =>
      obtain ⟨hdigits, hvalue⟩ := ih [val / 2] hrest'
        (fun d hd => by rw [List.mem_singleton.mp hd]; omega)
        (fun d hd => by rw [← Option.some.inj hd]; omega)
      refine ⟨hdigits, hvalue.trans ?_⟩
      simp only [List.reverse_singleton, Nat.ofDigits_singleton, List.length_singleton, pow_one,
        List.reverse_nil, Nat.ofDigits_nil, List.length_nil, Nat.pow_zero]
      omega
    | cons prev done =>
      have hprev : prev < 5 := hlast prev rfl
      have hdone' : ∀ d ∈ done, d < 10 := fun d hd => hdone d (List.mem_cons_of_mem _ hd)
      obtain ⟨hdigits, hvalue⟩ := ih
        (val / 2 :: (if val % 2 = 1 then prev + 5 else prev) :: done) hrest'
        (fun d hd => by
          rcases List.mem_cons.mp hd with rfl | hd
          · omega
          · rcases List.mem_cons.mp hd with rfl | hd
            · split <;> omega
            · exact hdone' d hd)
        (fun d hd => by rw [← Option.some.inj hd]; omega)
      refine ⟨hdigits, hvalue.trans ?_⟩
      have hhalf : val = 2 * (val / 2) + val % 2 := by omega
      simp only [List.reverse_cons, Nat.ofDigits_append, Nat.ofDigits_singleton, List.length_append,
        List.length_reverse, List.length_cons, List.length_nil, Nat.zero_add, Nat.pow_succ]
      generalize Nat.ofDigits 10 rest = r
      generalize 10 ^ done.length = k
      generalize Nat.ofDigits 10 done.reverse = x
      rcases Nat.mod_two_eq_zero_or_one val with hpar | hpar
      · obtain ⟨q, rfl⟩ : ∃ q, val = 2 * q := ⟨val / 2, by omega⟩
        rw [hpar, if_neg Nat.zero_ne_one]
        have h₁ : k * 10 * 10 * r = 2 * (50 * (k * r)) := by ring
        have h₂ : k * 10 * (2 * q + 10 * r) = 2 * (10 * (k * q) + 50 * (k * r)) := by ring
        rw [h₁, h₂, Nat.mul_div_cancel_left _ Nat.two_pos, Nat.mul_div_cancel_left _ Nat.two_pos,
          Nat.mul_div_cancel_left _ Nat.two_pos]
        ring
      · obtain ⟨q, rfl⟩ : ∃ q, val = 2 * q + 1 := ⟨val / 2, by omega⟩
        have h₁ : k * 10 * 10 * r = 2 * (50 * (k * r)) := by ring
        have h₂ : k * 10 * (2 * q + 1 + 10 * r) = 2 * (10 * (k * q) + 5 * k + 50 * (k * r)) := by
          ring
        have h₃ : (2 * q + 1) / 2 = q := by omega
        rw [hpar, if_pos rfl, h₁, h₂, h₃, Nat.mul_div_cancel_left _ Nat.two_pos,
          Nat.mul_div_cancel_left _ Nat.two_pos]
        ring

/-- The bits of decimal digits are those of their number. -/
theorem decBits_spec {str : List Nat} (hstr : ∀ d ∈ str, d < 10) (size : Nat) :
    decBits size str = Vector4.ofNat size (Nat.ofDigits 10 str) := by
  have hspec : (decBits size str).hasXz = false ∧ (decBits size str).length = size ∧
      (decBits size str).toNat = Nat.ofDigits 10 str % 2 ^ size := by
    induction size generalizing str with
    | zero => exact ⟨rfl, rfl, (Nat.mod_one _).symm⟩
    | succ n ih =>
      obtain ⟨hdigits, hvalue⟩ := halveLoop_spec [] hstr
        (fun d hd => absurd hd List.not_mem_nil) (fun d hd => nomatch hd)
      obtain ⟨hknown, hlen, hval⟩ := ih hdigits
      have hhead : str.headD 0 % 2 = Nat.ofDigits 10 str % 2 := by
        cases str with
        | nil => rfl
        | cons d str =>
          rw [Core.Numeral.ofDigits_cons, List.headD_cons]
          omega
      rw [List.reverse_nil, Nat.ofDigits_nil, List.length_nil, Nat.pow_zero, Nat.one_mul,
        Nat.zero_add] at hvalue
      rw [decBits, hhead]
      refine ⟨Vector4.known_cons.mpr ⟨?_, hknown⟩, congrArg Nat.succ hlen, ?_⟩
      · split
        · exact Or.inr rfl
        · exact Or.inl rfl
      · rw [Vector4.toNat_cons, hval, hvalue, Nat.pow_succ', Nat.mod_mul]
        congr 1
        rcases Nat.mod_two_eq_zero_or_one (Nat.ofDigits 10 str) with h | h <;> rw [h] <;> rfl
  obtain ⟨hknown, hlen, hval⟩ := hspec
  rw [← Vector4.ofNat_toNat hknown, hlen, hval, Vector4.ofNat_eq_iff, Nat.mod_mod]

/-! ## Reading -/

/-- Digits are read as digits. -/
theorem decDigits_append {ds : List Nat} (hds : ∀ d ∈ ds, d < 10) {rest : List Char}
    {str : List Nat} {isNegative : Bool} (hrest : decDigits false rest = some (.digits str isNegative)) :
    decDigits false (ds.map Nat.digitChar ++ rest) = some (.digits (ds ++ str) isNegative) := by
  induction ds with
  | nil => exact hrest
  | cons d ds ih =>
    have hd := hds d List.mem_cons_self
    have hdigit : (Nat.digitChar d).isDigit = true := by interval_cases d <;> rfl
    have hminus : Nat.digitChar d ≠ '-' := by interval_cases d <;> decide
    have hunder : Nat.digitChar d ≠ '_' := by interval_cases d <;> decide
    have hval : (Nat.digitChar d).toNat - '0'.toNat = d := by interval_cases d <;> rfl
    rw [List.map_cons, List.cons_append, decDigits, if_neg fun h => hminus h.2.1, if_neg hunder,
      if_pos hdigit, ih fun e he => hds e (List.mem_cons_of_mem _ he), hval]
    rfl

/-- A text that starts with neither X nor Z is read as digits. -/
theorem decStrToVec4_of_head {size : Nat} {c : Char} {buf : List Char}
    (hc : c ∉ ['x', 'X', 'z', 'Z']) {str : List Nat} {isNegative : Bool}
    (hread : decDigits false ((c :: buf).take ((c :: buf).length % 2 ^ 32)).reverse =
      some (.digits str isNegative)) :
    decStrToVec4 size (c :: buf) = if (c :: buf).length % 2 ^ 32 + 1 < 2 ^ 32 then
      some (if isNegative then (decBits size str).invert.addInt 1 else decBits size str)
    else none := by
  simp only [List.mem_cons, List.not_mem_nil, or_false, not_or] at hc
  obtain ⟨hx, hX, hz, hZ⟩ := hc
  rw [decStrToVec4]
  · rw [hread]
    rfl
  · exact fun _ h => hx (List.cons.inj h).1
  · exact fun _ h => hX (List.cons.inj h).1
  · exact fun _ h => hz (List.cons.inj h).1
  · exact fun _ h => hZ (List.cons.inj h).1

/-- A text that is not too long is read as a whole. -/
theorem decStrToVec4_short {size : Nat} {c : Char} {buf : List Char}
    (hc : c ∉ ['x', 'X', 'z', 'Z']) (hshort : (c :: buf).length + 1 < 2 ^ 32) {str : List Nat}
    {isNegative : Bool} (hread : decDigits false (c :: buf).reverse = some (.digits str isNegative)) :
    decStrToVec4 size (c :: buf) =
      some (if isNegative then (decBits size str).invert.addInt 1 else decBits size str) := by
  have hslen : (c :: buf).length % 2 ^ 32 = (c :: buf).length := Nat.mod_eq_of_lt (by omega)
  rw [← List.take_length (l := c :: buf), ← hslen] at hread
  rw [decStrToVec4_of_head hc hread, hslen, if_pos hshort]

theorem digitChar_not_mem {d : Nat} (hd : d < 10) : Nat.digitChar d ∉ ['x', 'X', 'z', 'Z'] := by
  interval_cases d <;> decide

/-- The numeral of a number gives its low bits. -/
theorem decStrToVec4_toDigits (size : Nat) {n : Nat}
    (hshort : (Nat.toDigits 10 n).length + 1 < 2 ^ 32) :
    decStrToVec4 size (Nat.toDigits 10 n) = some (Vector4.ofNat size n) := by
  obtain ⟨ds, hds, hvalue, htext⟩ := Core.Numeral.exists_digits n
  have hne : ds ≠ [] := by
    rintro rfl
    exact Nat.toDigits_ne_nil htext
  obtain ⟨init, d, rfl⟩ := ds.eq_nil_or_concat'.resolve_left hne
  have hread : decDigits false ((init ++ [d]).map Nat.digitChar ++ []) =
      some (.digits (init ++ [d] ++ []) false) := decDigits_append hds rfl
  rw [List.append_nil, List.append_nil, ← List.reverse_reverse ((init ++ [d]).map _), ← htext] at hread
  have hcons : Nat.toDigits 10 n = Nat.digitChar d :: (init.map Nat.digitChar).reverse := by
    rw [htext, List.map_append, List.reverse_append]
    rfl
  rw [hcons] at hread hshort ⊢
  rw [decStrToVec4_short (digitChar_not_mem (hds d (by simp))) hshort hread, if_neg Bool.false_ne_true,
    decBits_spec hds, hvalue]

/-- The bits of decimal digits, negated if there is a sign. -/
theorem signed_decBits {str : List Nat} (hstr : ∀ d ∈ str, d < 10) {n : Nat}
    (hvalue : Nat.ofDigits 10 str = n) (isNegative : Bool) (size : Nat) :
    (if isNegative then (decBits size str).invert.addInt 1 else decBits size str) =
      Vector4.ofInt size (if isNegative then -(n : Int) else n) := by
  rw [decBits_spec hstr, hvalue]
  cases isNegative with
  | false =>
    rw [if_neg Bool.false_ne_true, if_neg Bool.false_ne_true]
    exact (Vector4.ofInt_natCast _ _).symm
  | true =>
    rw [if_pos rfl, if_pos rfl, Vector4.addInt_invert (Vector4.hasXz_ofNat ..),
      Vector4.length_ofNat, Vector4.toNat_ofNat, Vector4.ofInt_eq_iff]
    push_cast
    exact (Int.mod_modEq _ _).neg

/-- The numeral behind a minus sign gives the low bits of the negation. -/
theorem decStrToVec4_minus (size : Nat) {n : Nat}
    (hshort : ('-' :: Nat.toDigits 10 n).length + 1 < 2 ^ 32) :
    decStrToVec4 size ('-' :: Nat.toDigits 10 n) = some (Vector4.ofInt size (-(n : Int))) := by
  obtain ⟨ds, hds, hvalue, htext⟩ := Core.Numeral.exists_digits n
  have hread : decDigits false (ds.map Nat.digitChar ++ ['-']) = some (.digits (ds ++ []) true) :=
    decDigits_append hds rfl
  have hrev : ('-' :: Nat.toDigits 10 n).reverse = ds.map Nat.digitChar ++ ['-'] := by
    rw [htext, List.reverse_cons, List.reverse_reverse]
  rw [← hrev] at hread
  rw [decStrToVec4_short (by decide) hshort hread, List.append_nil,
    signed_decBits hds hvalue, if_pos rfl]

end Vpip

end Icarus.Vvp
