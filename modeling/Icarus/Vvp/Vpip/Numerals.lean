import Icarus.Vvp.Vpip.Padding

/-!
# Numerals as vectors

A numeral is digits with underscores between them, and maybe a minus sign in front. The function
for decimal texts reads every numeral as its integer, if the text is not too long. Those for binary,
octal and hexadecimal texts do so as far as the number fits the digits, and the one for binary texts
fails on an underscore behind the first character.
-/

namespace Icarus.Vvp.Vpip

/-- The bit of a character of a binary text. -/
def binBit (ch : Char) : Option Bit4 :=
  if ch = '0' then some .zero
  else if ch = '1' then some .one
  else if ch = 'x' ∨ ch = 'X' then some .x
  else if ch = 'z' ∨ ch = 'Z' then some .z
  else none

/-- The loop of `vpip_bin_str_to_vec4` over the text from its end on, with as many bits left to
set: none where an assertion fails, no vector where there is no digit. Behind underscores two
characters are left by assertion. -/
def binDigits : Nat → List Char → Option (Option Vector4)
  | _, [] => some (some [])
  | left, ch :: rest =>
    if ch = '_' then if 1 < rest.length then binDigits left rest else none
    else if ch = '-' then if rest = [] then some (some []) else none
    else match left with
      | 0 => none
      | left + 1 =>
        match binBit ch with
        | none => some none
        | some bit => (binDigits left rest).map fun v => v.map (bit :: ·)

/-- `vpip_bin_str_to_vec4`. -/
def binStrToVec4 (size : Nat) (buf : List Char) : Option Vector4 :=
  let skipChars := (buf.filter fun ch => ch = '-' ∨ ch = '_').length
  let tsize := (buf.length - skipChars) % 2 ^ 32
  (binDigits tsize buf.reverse).map fun
    | none => List.replicate size .x
    | some bits =>
      negatePad (buf.head? = some '-') size (bits ++ List.replicate (tsize - bits.length) .x)

/-- The value of a digit of a binary text. -/
def binValue (ch : Char) : Option Nat :=
  if ch = '0' then some 0 else if ch = '1' then some 1 else none

/-- The value of a digit of a decimal text. -/
def decValue (ch : Char) : Option Nat :=
  if ch.isDigit then some (ch.toNat - '0'.toNat) else none

/-- A numeral: an optional minus sign, a first digit, and more digits with underscores before
them. -/
structure Numeral (value : Char → Option Nat) where
  /-- There is a minus sign. -/
  isNegative : Bool
  /-- The first digit. -/
  first : Char
  /-- The other digits, each with the number of the underscores before it. -/
  rest : List (Nat × Char)
  /-- They are digits. -/
  valid : ∀ ch ∈ first :: rest.map Prod.snd, (value ch).isSome

namespace Numeral

variable {value : Char → Option Nat} (t : Numeral value)

/-- The sign. -/
def signChars : List Char := if t.isNegative then ['-'] else []

/-- The text. -/
def text : List Char :=
  t.signChars ++ t.first :: t.rest.flatMap fun d => List.replicate d.1 '_' ++ [d.2]

/-- The values of the digits from the last one on. -/
def digits : List Nat := ((t.first :: t.rest.map Prod.snd).filterMap value).reverse

/-- The number without the sign. -/
def magnitude (base : Nat) : Nat := Nat.ofDigits base t.digits

/-- The number. -/
def integer (base : Nat) : Int := if t.isNegative then -(t.magnitude base) else t.magnitude base

/-- The values of the digits that a function finds from the end of the text on, where it has the
length of the text in an unsigned number. -/
def seenDigits : List Nat := ((t.text.take (t.text.length % 2 ^ 32)).filterMap value).reverse

/-- The number of these digits. -/
def seen (base : Nat) : Nat := Nat.ofDigits base t.seenDigits

end Numeral

/-- The digits of a base: they have values below the base, and none of them is a sign, an
underscore or a letter for X or Z bits. -/
structure Digits (base : Nat) (value : Char → Option Nat) : Prop where
  /-- The values are below the base. -/
  lt : ∀ ch v, value ch = some v → v < base
  /-- Other characters have no value. -/
  other : ∀ ch ∈ ['_', '-', 'x', 'X', 'z', 'Z'], value ch = none

/-- A sign, an underscore or an unknown digit, one at a time. -/
theorem forall_mem_other {P : Char → Prop} (hline : P '_') (hminus : P '-') (hx : P 'x')
    (hX : P 'X') (hz : P 'z') (hZ : P 'Z') : ∀ ch ∈ ['_', '-', 'x', 'X', 'z', 'Z'], P ch := by
  simp only [List.forall_mem_cons, List.not_mem_nil, false_implies, implies_true, and_true]
  exact ⟨hline, hminus, hx, hX, hz, hZ⟩

theorem toNat_sub_le {ch low high : Char} (h : low ≤ ch ∧ ch ≤ high) :
    ch.toNat - low.toNat ≤ high.toNat - low.toNat :=
  Nat.sub_le_sub_right (UInt32.le_iff_toNat_le.mp h.2) _

theorem bin_digits : Digits 2 binValue where
  lt ch v h := by
    unfold binValue at h
    split_ifs at h <;> cases h <;> decide
  other := forall_mem_other rfl rfl rfl rfl rfl rfl

theorem oct_digits : Digits 8 octValue where
  lt ch v h := by
    obtain ⟨hrange, hv⟩ := Option.ite_none_right_eq_some.mp h
    rw [← Option.some.inj hv]
    exact Nat.lt_succ_of_le (toNat_sub_le hrange)
  other := forall_mem_other rfl rfl rfl rfl rfl rfl

theorem dec_digits : Digits 10 decValue where
  lt ch v h := by
    obtain ⟨hdigit, hv⟩ := Option.ite_none_right_eq_some.mp h
    have hrange : '0' ≤ ch ∧ ch ≤ '9' := by
      rw [Char.isDigit, Bool.and_eq_true, decide_eq_true_eq, decide_eq_true_eq] at hdigit
      exact hdigit
    rw [← Option.some.inj hv]
    exact Nat.lt_succ_of_le (toNat_sub_le hrange)
  other := forall_mem_other rfl rfl rfl rfl rfl rfl

theorem hex_digits : Digits 16 hexValue where
  lt ch v h := by
    unfold hexValue at h
    split_ifs at h with hdec hlower hupper
    · rw [← Option.some.inj h]
      exact Nat.lt_of_le_of_lt (toNat_sub_le hdec) (by decide)
    · rw [← Option.some.inj h]
      exact Nat.add_lt_add_right (Nat.lt_succ_of_le (toNat_sub_le hlower)) 10
    · rw [← Option.some.inj h]
      exact Nat.add_lt_add_right (Nat.lt_succ_of_le (toNat_sub_le hupper)) 10
  other := forall_mem_other rfl rfl rfl rfl rfl rfl

/-! ## Texts from the end on -/

/-- A text of a numeral from some place back to its start: digits, with underscores behind them, and
maybe a minus sign. -/
inductive Back (value : Char → Option Nat) : List Char → Prop
  | nil : Back value []
  | sign : Back value ['-']
  | digit (n : Nat) {ch : Char} {l : List Char} (hch : (value ch).isSome) (hl : Back value l) :
      Back value (List.replicate n '_' ++ ch :: l)

namespace Back

variable {base : Nat} {value : Char → Option Nat} {l : List Char}

theorem drop (h : Back value l) (k : Nat) : Back value (l.drop k) := by
  induction h generalizing k with
  | nil =>
    rw [List.drop_nil]
    exact .nil
  | sign =>
    cases k with
    | zero => exact .sign
    | succ k =>
      rw [List.drop_succ_cons, List.drop_nil]
      exact .nil
  | @digit n ch l hch hl ih =>
    rw [List.drop_append, List.drop_replicate, List.length_replicate]
    cases hk : k - n with
    | zero => exact .digit _ hch hl
    | succ j =>
      rw [Nat.sub_eq_zero_of_le (show n ≤ k by omega), List.drop_succ_cons]
      exact ih j

/-- Underscores and signs have no value. -/
theorem filterMap_digit (hdigits : Digits base value) {n v : Nat} {ch : Char}
    (hch : value ch = some v) (l : List Char) :
    (List.replicate n '_' ++ ch :: l).filterMap value = v :: l.filterMap value := by
  have hunder : (List.replicate n '_').filterMap value = [] :=
    List.filterMap_eq_nil_iff.mpr fun a ha => by
      rw [List.eq_of_mem_replicate ha]
      exact hdigits.other _ (by decide)
  rw [List.filterMap_append, hunder, List.nil_append, List.filterMap_cons_some hch]

theorem filterMap_sign (hdigits : Digits base value) : ['-'].filterMap value = [] :=
  List.filterMap_cons_none (hdigits.other _ (by decide))

/-- A digit is no sign, no underscore and no letter for X or Z bits. -/
theorem not_mem_other (hdigits : Digits base value) {ch : Char} {v : Nat} (h : value ch = some v) :
    ch ∉ ['_', '-', 'x', 'X', 'z', 'Z'] := by
  intro hmem
  rw [hdigits.other ch hmem] at h
  cases h

/-- The other characters are digits. -/
theorem length_filter_add (hdigits : Digits base value) (h : Back value l) :
    (l.filter fun ch => ch = '-' ∨ ch = '_').length + (l.filterMap value).length = l.length := by
  induction h with
  | nil => rfl
  | sign =>
    rw [filterMap_sign hdigits]
    rfl
  | @digit n ch l hch hl ih =>
    obtain ⟨v, hv⟩ := Option.isSome_iff_exists.mp hch
    have hother := not_mem_other hdigits hv
    simp only [List.mem_cons, not_or] at hother
    have hskip : (List.replicate n '_').filter (fun ch => ch = '-' ∨ ch = '_') =
        List.replicate n '_' := List.filter_eq_self.mpr fun a ha => by
      rw [List.eq_of_mem_replicate ha]
      rfl
    rw [filterMap_digit hdigits hv, List.filter_append, hskip, List.filter_cons_of_neg (by
      rw [decide_eq_true_eq]
      exact fun h => h.elim hother.2.1 hother.1)]
    simp only [List.length_append, List.length_cons]
    omega

/-! ## Reading from the end on -/

theorem radixDigits_underscores (bits : Nat) (value : Char → Option Nat) (m n : Nat)
    (l : List Char) : radixDigits bits value m (List.replicate n '_' ++ l) =
      radixDigits bits value m l := by
  cases m with
  | zero => rw [radixDigits, radixDigits]
  | succ m =>
    induction n with
    | zero => rfl
    | succ n ih => rw [List.replicate_succ, List.cons_append, radixDigits, if_pos rfl, ih]

/-- Digits are read as their bits, as long as there are some. -/
theorem radixDigits_eq (hdigits : Digits base value) (h : Back value l) (bits m : Nat) :
    radixDigits bits value m l = if m ≤ (l.filterMap value).length then
      some (some (((l.filterMap value).take m).flatMap (Vector4.ofNat bits))) else none := by
  induction h generalizing m with
  | nil => cases m <;> rfl
  | sign =>
    rw [filterMap_sign hdigits]
    cases m <;> rfl
  | @digit n ch l hch hl ih =>
    obtain ⟨v, hv⟩ := Option.isSome_iff_exists.mp hch
    have hother := not_mem_other hdigits hv
    simp only [List.mem_cons, List.not_mem_nil, or_false, not_or] at hother
    obtain ⟨hunder, hminus, hx, hX, hz, hZ⟩ := hother
    rw [radixDigits_underscores, filterMap_digit hdigits hv, List.length_cons]
    cases m with
    | zero => rw [radixDigits, if_pos (Nat.zero_le _), List.take_zero, List.flatMap_nil]
    | succ m =>
      have hbits : charBits bits value ch = some (Vector4.ofNat bits v) := by
        rw [charBits, if_neg (by tauto), if_neg (by tauto), hv, Option.map_some]
      rw [radixDigits, if_neg hunder, if_neg hminus, hbits, ih m]
      simp only [Nat.succ_le_succ_iff, List.take_succ_cons, List.flatMap_cons]
      split <;> rfl

theorem decDigits_underscores {ch : Char} (hunder : ch ≠ '_') (hminus : ch ≠ '-') (n : Nat)
    (l : List Char) (skipped : Bool) : decDigits skipped (List.replicate n '_' ++ ch :: l) =
      decDigits false (ch :: l) := by
  induction n generalizing skipped with
  | zero =>
    have hsign : ∀ b : Bool, ¬ (l = [] ∧ ch = '-' ∧ b = false) := fun b h => hminus h.2.1
    rw [List.replicate_zero, List.nil_append, decDigits, decDigits, if_neg (hsign _),
      if_neg (hsign _), if_neg hunder]
  | succ n ih =>
    rw [List.replicate_succ, List.cons_append, decDigits, if_neg (by simp), if_pos rfl, ih]

/-- Decimal digits are read as such. -/
theorem decDigits_eq (h : Back decValue l) :
    decDigits false l = some (.digits (l.filterMap decValue) (l.getLast? = some '-')) := by
  induction h with
  | nil => rfl
  | sign => rfl
  | @digit n ch l hch hl ih =>
    obtain ⟨v, hv⟩ := Option.isSome_iff_exists.mp hch
    have hother := not_mem_other dec_digits hv
    simp only [List.mem_cons, not_or] at hother
    obtain ⟨hdigit, hval⟩ := Option.ite_none_right_eq_some.mp hv
    have hlast : (List.replicate n '_' ++ ch :: l).getLast? = some '-' ↔
        l.getLast? = some '-' := by
      rw [List.getLast?_append_of_ne_nil _ (List.cons_ne_nil ch l), List.getLast?_cons]
      cases hl : l.getLast? with
      | none => simp [hother.2.1]
      | some last => rfl
    rw [decDigits_underscores hother.1 hother.2.1, decDigits, if_neg fun h => hother.2.1 h.2.1,
      if_neg hother.1, if_pos hdigit, ih, filterMap_digit dec_digits hv, Option.some.inj hval]
    simp only [hlast, Option.map_some]

theorem binDigits_underscores (left n : Nat) (ch : Char) (l : List Char) :
    binDigits left (List.replicate n '_' ++ ch :: l) =
      if n = 0 ∨ l ≠ [] then binDigits left (ch :: l) else none := by
  induction n with
  | zero => rw [if_pos (Or.inl rfl)]; rfl
  | succ n ih =>
    have hlen : (List.replicate n '_' ++ ch :: l).length = n + l.length + 1 := by
      rw [List.length_append, List.length_replicate, List.length_cons, Nat.add_assoc]
    rw [List.replicate_succ, List.cons_append, binDigits.eq_def]
    simp only [if_true, hlen, ih]
    by_cases hl : l = []
    · rw [hl, List.length_nil]
      cases n with
      | zero => rfl
      | succ n => rw [if_pos (by omega), if_neg (by simp), if_neg (by simp)]
    · have hpos : 0 < l.length := List.length_pos_of_ne_nil hl
      rw [if_pos (by omega), if_pos (Or.inr hl), if_pos (Or.inr hl)]

/-- The second character from the start of a text is not an underscore behind the first. -/
theorem second_ne_iff {n : Nat} {ch : Char} (hch : ch ≠ '_') (l : List Char) :
    (List.replicate n '_' ++ ch :: l).reverse[1]? ≠ some '_' ↔
      (n = 0 ∨ l ≠ []) ∧ l.reverse[1]? ≠ some '_' := by
  rw [List.reverse_append, List.reverse_cons, List.reverse_replicate, List.append_assoc,
    List.singleton_append]
  cases hl : l.reverse with
  | nil =>
    rw [List.reverse_eq_nil_iff.mp hl]
    cases n <;> simp [List.replicate_succ]
  | cons a m =>
    have hne : l ≠ [] := by
      rintro rfl
      cases hl
    cases m with
    | nil => simp [hne, hch]
    | cons b m => simp [hne]

/-- Binary digits are read as their bits, if there is room, and no underscore behind the first
character. -/
theorem binDigits_eq (h : Back binValue l) (left : Nat) :
    binDigits left l =
      if (l.filterMap binValue).length ≤ left ∧ l.reverse[1]? ≠ some '_' then
        some (some ((l.filterMap binValue).flatMap (Vector4.ofNat 1))) else none := by
  induction h generalizing left with
  | nil => rfl
  | sign => rfl
  | @digit n ch l hch hl ih =>
    obtain ⟨v, hv⟩ := Option.isSome_iff_exists.mp hch
    have hother := not_mem_other bin_digits hv
    simp only [List.mem_cons, not_or] at hother
    have hbit : ∃ b, binBit ch = some b ∧ Vector4.ofNat 1 v = [b] := by
      unfold binValue at hv
      split_ifs at hv with h₀ h₁
      · exact ⟨.zero, if_pos h₀, by rw [← Option.some.inj hv]; rfl⟩
      · exact ⟨.one, by rw [binBit, if_neg h₀, if_pos h₁], by rw [← Option.some.inj hv]; rfl⟩
    obtain ⟨b, hb, hv'⟩ := hbit
    rw [binDigits_underscores, filterMap_digit bin_digits hv, List.length_cons]
    simp only [second_ne_iff hother.1]
    by_cases hplace : n = 0 ∨ l ≠ []
    · simp only [hplace, if_true, true_and]
      cases left with
      | zero => rw [binDigits, if_neg hother.1, if_neg hother.2.1, if_neg (by omega)]
      | succ left =>
        rw [binDigits, if_neg hother.1, if_neg hother.2.1, ih left]
        simp only [hb, Nat.succ_le_succ_iff, List.flatMap_cons, hv']
        split <;> rfl
    · rw [if_neg hplace, if_neg fun h => hplace h.2.1]

end Back

/-! ## Bits of digits -/

section DigitBits

variable {bits : Nat} {ds : List Nat}

theorem known_digitBits (bits : Nat) (ds : List Nat) :
    Vector4.hasXz (ds.flatMap (Vector4.ofNat bits)) = false := by
  refine Vector4.hasXz_eq_false.mpr fun b hb => ?_
  obtain ⟨d, -, hb⟩ := List.mem_flatMap.mp hb
  exact Vector4.hasXz_eq_false.mp (Vector4.hasXz_ofNat bits d) b hb

theorem length_digitBits (bits : Nat) (ds : List Nat) :
    (ds.flatMap (Vector4.ofNat bits)).length = bits * ds.length := by
  induction ds with
  | nil => rfl
  | cons d ds ih =>
    rw [List.flatMap_cons, List.length_append, ih, Vector4.length_ofNat, List.length_cons]
    ring

/-- The bits of digits are those of their number. -/
theorem toNat_digitBits (hds : ∀ d ∈ ds, d < 2 ^ bits) :
    Vector4.toNat (ds.flatMap (Vector4.ofNat bits)) = Nat.ofDigits (2 ^ bits) ds := by
  induction ds with
  | nil => rfl
  | cons d ds ih =>
    rw [List.flatMap_cons, Vector4.toNat_append, Vector4.toNat_ofNat, Vector4.length_ofNat,
      ih fun d hd => hds d (List.mem_cons_of_mem _ hd), Core.Numeral.ofDigits_cons,
      Nat.mod_eq_of_lt (hds d List.mem_cons_self)]

/-- Some bits of the digits need no more digits than have them. -/
theorem take_digitBits {width m : Nat} (hm : width ≤ bits * m) (hle : m ≤ ds.length) :
    List.take width ((ds.take m).flatMap (Vector4.ofNat bits)) =
      List.take width (ds.flatMap (Vector4.ofNat bits)) := by
  have hlen : width ≤ ((ds.take m).flatMap (Vector4.ofNat bits)).length := by
    rwa [length_digitBits, List.length_take_of_le hle]
  conv_rhs => rw [← List.take_append_drop m ds, List.flatMap_append]
  rw [List.take_append_of_le_length hlen]

/-- So many digits have the bits. -/
theorem length_take_digitBits (hpos : 0 < bits) {width : Nat}
    (hle : (width + (bits - 1)) / bits ≤ ds.length) :
    (List.take width (ds.flatMap (Vector4.ofNat bits))).length = width := by
  have hlt := Nat.lt_mul_div_succ (width + (bits - 1)) hpos
  have hmul := Nat.mul_le_mul_left bits hle
  rw [Nat.mul_succ] at hlt
  rw [List.length_take_of_le]
  rw [length_digitBits]
  omega

end DigitBits

/-! ## Texts of numerals -/

namespace Numeral

variable {base : Nat} {value : Char → Option Nat} (t : Numeral value)

theorem back_signChars : Back value t.signChars := by
  unfold signChars
  split
  · exact .sign
  · exact .nil

/-- The text ends with a digit. -/
theorem exists_back_text : ∃ ch l, (value ch).isSome ∧ Back value l ∧ t.text.reverse = ch :: l := by
  have hall : ∀ rest : List (Nat × Char), (∀ d ∈ rest, (value d.2).isSome) →
      ∃ ch l, (value ch).isSome ∧ Back value l ∧
        (t.signChars ++ t.first :: rest.flatMap fun d => List.replicate d.1 '_' ++ [d.2]).reverse =
          ch :: l := by
    intro rest hrest
    induction rest using List.reverseRecOn with
    | nil =>
      refine ⟨t.first, t.signChars.reverse, t.valid _ List.mem_cons_self, ?_, ?_⟩
      · have hsign : t.signChars.reverse = t.signChars := by
          unfold signChars
          split <;> rfl
        rw [hsign]
        exact t.back_signChars
      · rw [List.flatMap_nil, List.reverse_append, List.reverse_singleton, List.singleton_append]
    | append_singleton rest d ih =>
      obtain ⟨ch, l, hch, hl, htext⟩ := ih fun d hd => hrest d (List.mem_append_left _ hd)
      refine ⟨d.2, List.replicate d.1 '_' ++ ch :: l,
        hrest d (List.mem_append_right _ (List.mem_singleton_self d)), .digit _ hch hl, ?_⟩
      rw [List.flatMap_append, ← List.cons_append, ← List.append_assoc, List.reverse_append, htext,
        List.flatMap_singleton, List.reverse_append, List.reverse_singleton, List.reverse_replicate,
        List.append_assoc, List.singleton_append]
  exact hall t.rest fun d hd => t.valid _ (List.mem_cons_of_mem _ (List.mem_map_of_mem hd))

theorem back_text : Back value t.text.reverse := by
  obtain ⟨ch, l, hch, hl, htext⟩ := t.exists_back_text
  rw [htext]
  exact .digit 0 hch hl

/-- The end of a part of the text, back to the start. -/
theorem back_take (k : Nat) : Back value (t.text.take k).reverse := by
  rw [List.reverse_take]
  exact t.back_text.drop _

theorem filterMap_text (hdigits : Digits base value) :
    t.text.reverse.filterMap value = t.digits := by
  have hsign : t.signChars.filterMap value = [] := by
    unfold signChars
    split
    · exact Back.filterMap_sign hdigits
    · rfl
  have hrest : (t.rest.flatMap fun d => List.replicate d.1 '_' ++ [d.2]).filterMap value =
      (t.rest.map Prod.snd).filterMap value := by
    have hrest : ∀ d ∈ t.rest, (value d.2).isSome := fun d hd =>
      t.valid _ (List.mem_cons_of_mem _ (List.mem_map_of_mem hd))
    generalize t.rest = rest at hrest ⊢
    induction rest with
    | nil => rfl
    | cons d rest ih =>
      obtain ⟨v, hv⟩ := Option.isSome_iff_exists.mp (hrest d List.mem_cons_self)
      rw [List.flatMap_cons, List.filterMap_append, Back.filterMap_digit hdigits hv,
        ih fun d hd => hrest d (List.mem_cons_of_mem _ hd), List.map_cons,
        List.filterMap_cons_some hv]
      rfl
  obtain ⟨v, hv⟩ := Option.isSome_iff_exists.mp (t.valid t.first List.mem_cons_self)
  rw [List.filterMap_reverse, text, List.filterMap_append, hsign, List.nil_append, digits,
    List.filterMap_cons_some hv, List.filterMap_cons_some hv, hrest]

/-- The digits are the characters that are not skipped. -/
theorem length_text (hdigits : Digits base value) :
    t.text.length - (t.text.filter fun ch => ch = '-' ∨ ch = '_').length = t.digits.length := by
  have h := t.back_text.length_filter_add hdigits
  rw [t.filterMap_text hdigits, List.filter_reverse, List.length_reverse, List.length_reverse] at h
  omega

/-- The text starts with a minus sign if there is one. -/
theorem head_text (hdigits : Digits base value) :
    decide (t.text.head? = some '-') = t.isNegative := by
  obtain ⟨v, hv⟩ := Option.isSome_iff_exists.mp (t.valid t.first List.mem_cons_self)
  have hother := Back.not_mem_other hdigits hv
  cases hneg : t.isNegative with
  | true => simp [text, signChars, hneg]
  | false =>
    have hne : t.first ≠ '-' := fun h => hother (by simp [h])
    simp [text, signChars, hneg, hne]

theorem digits_lt (hdigits : Digits base value) : ∀ d ∈ t.digits, d < base := by
  intro d hd
  obtain ⟨ch, -, hv⟩ := List.mem_filterMap.mp (List.mem_reverse.mp hd)
  exact hdigits.lt ch d hv

theorem seenDigits_lt (hdigits : Digits base value) : ∀ d ∈ t.seenDigits, d < base := by
  intro d hd
  obtain ⟨ch, -, hv⟩ := List.mem_filterMap.mp (List.mem_reverse.mp hd)
  exact hdigits.lt ch d hv

/-- A text that is not too long is seen as a whole. -/
theorem seenDigits_short (hdigits : Digits base value) (hshort : t.text.length < 2 ^ 32) :
    t.seenDigits = t.digits := by
  rw [seenDigits, Nat.mod_eq_of_lt hshort, List.take_length, ← List.filterMap_reverse,
    t.filterMap_text hdigits]

/-- A binary numeral is read as its bits, if there are not too many and no underscore is the second
character. -/
theorem binStrToVec4_text (t : Numeral binValue) (size : Nat) :
    binStrToVec4 size t.text = if t.digits.length < 2 ^ 32 ∧ t.text[1]? ≠ some '_' then
      some (negatePad t.isNegative size (t.digits.flatMap (Vector4.ofNat 1))) else none := by
  have hread := t.back_text.binDigits_eq (t.digits.length % 2 ^ 32)
  rw [t.filterMap_text bin_digits, List.reverse_reverse] at hread
  have hroom : t.digits.length ≤ t.digits.length % 2 ^ 32 ↔ t.digits.length < 2 ^ 32 := by
    omega
  simp only [hroom] at hread
  rw [binStrToVec4, t.length_text bin_digits, t.head_text bin_digits, hread]
  by_cases h : t.digits.length < 2 ^ 32 ∧ t.text[1]? ≠ some '_'
  · have hfull : t.digits.length % 2 ^ 32 - (t.digits.flatMap (Vector4.ofNat 1)).length = 0 := by
      rw [length_digitBits, Nat.one_mul, Nat.mod_eq_of_lt h.1, Nat.sub_self]
    simp only [if_pos h, Option.map_some, hfull, List.replicate_zero, List.append_nil]
  · rw [if_neg h, if_neg h]
    rfl

/-- An octal or hexadecimal numeral is read as the bits of the digits that are seen, if these are
enough. -/
theorem radixStrToVec4_text (hdigits : Digits base value) {bits : Nat} (hpos : 0 < bits)
    (size : Nat) :
    radixStrToVec4 bits value size t.text =
      if (bits * t.digits.length % 2 ^ 32 + (bits - 1)) / bits ≤ t.seenDigits.length then
        some (negatePad t.isNegative size (List.take (bits * t.digits.length % 2 ^ 32)
          (t.seenDigits.flatMap (Vector4.ofNat bits)))) else none := by
  obtain ⟨width, hwidth⟩ : ∃ w, w = bits * t.digits.length % 2 ^ 32 := ⟨_, rfl⟩
  obtain ⟨m, hm⟩ : ∃ m, m = (width + (bits - 1)) / bits := ⟨_, rfl⟩
  have hread := (t.back_take (t.text.length % 2 ^ 32)).radixDigits_eq hdigits bits m
  rw [List.filterMap_reverse, ← seenDigits] at hread
  have hle : width ≤ bits * m := by
    have hlt := Nat.lt_mul_div_succ (width + (bits - 1)) hpos
    rw [← hm, Nat.mul_succ] at hlt
    omega
  have hneg : t.text.head? = some '-' ↔ t.isNegative = true := by
    rw [← t.head_text hdigits, decide_eq_true_eq]
  rw [radixStrToVec4, t.length_text hdigits, ← hwidth]
  simp only [← hm, hread]
  by_cases h : m ≤ t.seenDigits.length
  · have hlen := length_take_digitBits hpos (hm ▸ h)
    simp only [if_pos h, Option.map_some, take_digitBits hle h, hneg, negatePad]
    have hlen' := length_negated (Vector4.known_take (known_digitBits bits t.seenDigits) width)
      t.isNegative
    rw [hlen] at hlen'
    rw [hlen'] <;> rfl
  · simp only [if_neg h, Option.map_none]

/-- A decimal numeral is read as the number that is seen, if there is place for the digits. -/
theorem decStrToVec4_text (t : Numeral decValue) (size : Nat) :
    decStrToVec4 size t.text = if t.text.length % 2 ^ 32 + 1 < 2 ^ 32 then
      some (Vector4.ofInt size (if t.isNegative then -(t.seen 10 : Int) else t.seen 10))
    else none := by
  obtain ⟨c, buf, htext, hc⟩ : ∃ c buf, t.text = c :: buf ∧ c ∉ ['x', 'X', 'z', 'Z'] := by
    obtain ⟨v, hv⟩ := Option.isSome_iff_exists.mp (t.valid t.first List.mem_cons_self)
    have hother := Back.not_mem_other dec_digits hv
    rw [text, signChars]
    split
    · exact ⟨'-', _, rfl, by decide⟩
    · exact ⟨t.first, _, rfl, fun h => hother (List.mem_cons_of_mem _ (List.mem_cons_of_mem _ h))⟩
  have hread := (t.back_take (t.text.length % 2 ^ 32)).decDigits_eq
  rw [List.filterMap_reverse, ← seenDigits, List.getLast?_reverse] at hread
  rw [htext] at hread
  rw [htext, decStrToVec4_of_head hc hread, signed_decBits (n := t.seen 10)
    (t.seenDigits_lt dec_digits) rfl, ← htext]
  cases hk : t.text.length % 2 ^ 32 with
  | zero =>
    -- nothing is seen, not even the sign
    have hzero : t.seen 10 = 0 := by
      rw [seen, seenDigits, hk]
      rfl
    rw [hzero]
    simp
  | succ k =>
    have hhead : (t.text.take (k + 1)).head? = t.text.head? := by
      rw [htext]
      rfl
    rw [hhead, t.head_text dec_digits]

end Numeral

/-! ## Numbers -/

/-- The condition for the functions for octal and hexadecimal texts: the digits that are seen are
enough for the bits and have the right low bits, and the number fits the bits. -/
def RadixReads (bits : Nat) {value : Char → Option Nat} (t : Numeral value) (size : Nat) : Prop :=
  let width := bits * t.digits.length % 2 ^ 32
  (width + (bits - 1)) / bits ≤ t.seenDigits.length ∧
    t.seen (2 ^ bits) ≡ t.magnitude (2 ^ bits) [MOD 2 ^ min width size] ∧
      Fits t.isNegative width (t.magnitude (2 ^ bits)) size

theorem radixStrToVec4_iff {bits : Nat} {value : Char → Option Nat} (hpos : 0 < bits)
    (hdigits : Digits (2 ^ bits) value) (t : Numeral value) (size : Nat) :
    radixStrToVec4 bits value size t.text = some (Vector4.ofInt size (t.integer (2 ^ bits))) ↔
      RadixReads bits t size := by
  obtain ⟨width, hwidth⟩ : ∃ w, w = bits * t.digits.length % 2 ^ 32 := ⟨_, rfl⟩
  obtain ⟨m, hm⟩ : ∃ m, m = (width + (bits - 1)) / bits := ⟨_, rfl⟩
  rw [t.radixStrToVec4_text hdigits hpos, RadixReads]
  simp only [← hwidth, ← hm]
  by_cases h : m ≤ t.seenDigits.length
  · have hlen := length_take_digitBits hpos (hm ▸ h)
    have hval := Vector4.toNat_take width (t.seenDigits.flatMap (Vector4.ofNat bits))
    rw [toNat_digitBits (t.seenDigits_lt hdigits)] at hval
    have hread := negatePad_read_iff (Vector4.known_take (known_digitBits bits t.seenDigits) width)
      (hval.trans (by rw [hlen])) t.isNegative (t.magnitude (2 ^ bits)) size
    rw [hlen] at hread
    rw [if_pos h, and_iff_right h, Option.some_inj]
    exact hread
  · rw [if_neg h]
    exact iff_of_false (by simp) fun hall => h hall.1

theorem binStrToVec4_iff (t : Numeral binValue) (size : Nat) :
    binStrToVec4 size t.text = some (Vector4.ofInt size (t.integer 2)) ↔
      t.digits.length < 2 ^ 32 ∧ t.text[1]? ≠ some '_' ∧
        Fits t.isNegative t.digits.length (t.magnitude 2) size := by
  have hlen := length_digitBits 1 t.digits
  rw [Nat.one_mul] at hlen
  have htoNat : Vector4.toNat (t.digits.flatMap (Vector4.ofNat 1)) = t.magnitude 2 :=
    @toNat_digitBits 1 _ (t.digits_lt bin_digits)
  have hval : Vector4.toNat (t.digits.flatMap (Vector4.ofNat 1)) =
      t.magnitude 2 % 2 ^ List.length (t.digits.flatMap (Vector4.ofNat 1)) := by
    rw [← htoNat, Nat.mod_eq_of_lt (Vector4.toNat_lt _)]
  have hread := negatePad_eq_iff (known_digitBits 1 t.digits) hval t.isNegative size
  rw [hlen] at hread
  rw [t.binStrToVec4_text, ← and_assoc]
  by_cases h : t.digits.length < 2 ^ 32 ∧ t.text[1]? ≠ some '_'
  · rw [if_pos h, and_iff_right h, Option.some_inj]
    exact hread
  · rw [if_neg h]
    exact iff_of_false (by simp) fun hall => h hall.1

theorem decStrToVec4_iff (t : Numeral decValue) (size : Nat) :
    decStrToVec4 size t.text = some (Vector4.ofInt size (t.integer 10)) ↔
      t.text.length % 2 ^ 32 + 1 < 2 ^ 32 ∧ t.seen 10 ≡ t.magnitude 10 [MOD 2 ^ size] := by
  rw [t.decStrToVec4_text]
  by_cases h : t.text.length % 2 ^ 32 + 1 < 2 ^ 32
  · rw [if_pos h, and_iff_right h, Option.some_inj, Numeral.integer, ofInt_sign_eq_iff]
  · rw [if_neg h]
    exact iff_of_false (by simp) fun hall => h hall.1

/-- In a text that is not too long, the number need only fit. -/
theorem radixReads_short {bits : Nat} {value : Char → Option Nat} (hpos : 0 < bits)
    (hdigits : Digits (2 ^ bits) value) (t : Numeral value) (hshort : t.text.length < 2 ^ 32)
    (hbits : bits * t.digits.length < 2 ^ 32) (size : Nat) :
    RadixReads bits t size ↔
      Fits t.isNegative (bits * t.digits.length) (t.magnitude (2 ^ bits)) size := by
  have hseen := t.seenDigits_short hdigits hshort
  have hcount : (bits * t.digits.length + (bits - 1)) / bits = t.digits.length := by
    rw [Nat.mul_add_div hpos, Nat.div_eq_of_lt (Nat.sub_lt hpos Nat.one_pos), Nat.add_zero]
  rw [RadixReads, Numeral.seen, hseen, Nat.mod_eq_of_lt hbits, hcount, and_iff_right le_rfl]
  exact and_iff_right (Nat.ModEq.refl _)

/-- When the functions set a vector to the integer of a numeral, for each of the bases. -/
theorem str_to_vec4_right (size : Nat) :
    (∀ t : Numeral binValue, binStrToVec4 size t.text = some (Vector4.ofInt size (t.integer 2)) ↔
      t.digits.length < 2 ^ 32 ∧ t.text[1]? ≠ some '_' ∧
        Fits t.isNegative t.digits.length (t.magnitude 2) size) ∧
    (∀ t : Numeral octValue, octStrToVec4 size t.text = some (Vector4.ofInt size (t.integer 8)) ↔
      RadixReads 3 t size) ∧
    (∀ t : Numeral hexValue, hexStrToVec4 size t.text = some (Vector4.ofInt size (t.integer 16)) ↔
      RadixReads 4 t size) ∧
    ∀ t : Numeral decValue, decStrToVec4 size t.text = some (Vector4.ofInt size (t.integer 10)) ↔
      t.text.length % 2 ^ 32 + 1 < 2 ^ 32 ∧ t.seen 10 ≡ t.magnitude 10 [MOD 2 ^ size] :=
  ⟨fun t => binStrToVec4_iff t size, fun t => radixStrToVec4_iff (by decide) oct_digits t size,
    fun t => radixStrToVec4_iff (by decide) hex_digits t size, fun t => decStrToVec4_iff t size⟩

/-- The binary numeral -11 gives the one as a vector of four bits. -/
theorem not_str_to_vec4_right :
    ¬ ∀ size : Nat,
      (∀ t : Numeral binValue, binStrToVec4 size t.text =
        some (Vector4.ofInt size (t.integer 2))) ∧
      (∀ t : Numeral octValue, octStrToVec4 size t.text =
        some (Vector4.ofInt size (t.integer 8))) ∧
      (∀ t : Numeral hexValue, hexStrToVec4 size t.text =
        some (Vector4.ofInt size (t.integer 16))) ∧
      ∀ t : Numeral decValue, decStrToVec4 size t.text =
        some (Vector4.ofInt size (t.integer 10)) := by
  intro h
  obtain ⟨hbin, -⟩ := h 4
  exact absurd (hbin ⟨true, '1', [(0, '1')], by simp [binValue]⟩) (by decide)

end Icarus.Vvp.Vpip
