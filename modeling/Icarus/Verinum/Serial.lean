import Icarus.Verinum.Compare
import Icarus.Verinum.Shift

/-!
# Division bit by bit

`unsigned_divide` and `unsigned_modulus` of `verinum`: the divisor is shifted until it is
as wide as the dividend, then compared, subtracted and halved. The signed operators
divide magnitudes.
-/

namespace Icarus.Verinum

open Icarus.Core

/-- The scans of `unsigned_divide` and `unsigned_modulus` for the highest bit that is set. -/
def width (bits : List V) : Nat → Nat
  | 0 => 0
  | nwid + 1 => if bits.getD nwid .v0 = .v0 then width bits nwid else nwid + 1

/-- The loop of `unsigned_divide`; the bits of the result. -/
def divideLoop : Nat → Verinum → Verinum → List V → List V
  | 0, _, _, result => result
  | idx + 1, num, den, result =>
    if le den num ≠ .v0 then divideLoop idx (sub num den) (shr den 1) (result.set idx .v1)
    else divideLoop idx num (shr den 1) result

/-- `unsigned_divide`. -/
def unsignedDivide (num den : Verinum) (signedResult : Bool) : Verinum :=
  let num := { num with hasLen := false }
  let den := { den with hasLen := false }
  let nwid := width num.bits num.len
  let dwid := width den.bits den.len
  if nwid < dwid then fill .v0 1 true
  else
    let den := shl den (nwid - dwid)
    let idx := nwid - dwid + 1
    let result := List.replicate (if signedResult then idx + 1 else idx) V.v0
    signedBits (divideLoop idx num den result) true signedResult

/-- The loop of `unsigned_modulus`. -/
def modulusLoop : Nat → Verinum → Verinum → Verinum
  | 0, num, _ => num
  | idx + 1, num, den =>
    modulusLoop idx (if le den num ≠ .v0 then sub num den else num) (shr den 1)

/-- `unsigned_modulus`. -/
def unsignedModulus (num den : Verinum) : Verinum :=
  let num := { num with hasLen := false }
  let den := { den with hasLen := false }
  let nwid := width num.bits num.len
  let dwid := width den.bits den.len
  if nwid < dwid then num
  else modulusLoop (nwid - dwid + 1) num (shl den (nwid - dwid))

/-- An operand without its sign. -/
def magnitude (v : Verinum) : Verinum :=
  { if v.isNegative then neg v else v with hasSign := false }

/-! ## Unsigned numbers without a length -/

/-- The numbers that the bit loops work on. -/
structure Plain (v : Verinum) : Prop where
  hasLen : v.hasLen = false
  hasSign : v.hasSign = false
  defined : v.isDefined
  pos : 0 < v.len

section Loops

variable {num den : Verinum}

theorem toInt_unsigned (h : num.hasSign = false) : num.toInt = number num.bits := by
  unfold toInt
  rw [h, TwosComplement.reading_unsigned]

/-- The loops subtract without borrow. -/
theorem Plain.sub (hn : num.Plain) (hd : den.Plain) (hle : number den.bits ≤ number num.bits) :
    (sub num den).Plain ∧ number (sub num den).bits = number num.bits - number den.bits ∧
      num.len ≤ (sub num den).len := by
  have hsub := sub_spec hn.pos hn.defined hd.defined hd.pos
  rw [hn.hasLen, hn.hasSign, Bool.false_and, Bool.false_and] at hsub
  obtain ⟨hlen, hmod⟩ := hsub.sized (Or.inr rfl)
  have hpos : 0 < (Verinum.sub num den).len := by
    have := hn.pos
    omega
  refine ⟨⟨hsub.hasLen_eq, hsub.hasSign_eq, hsub.defined, hpos⟩, ?_, by omega⟩
  have hnum := number_lt num.bits
  have hpow : 2 ^ num.len ≤ 2 ^ max num.len den.len :=
    Nat.pow_le_pow_right (by omega) (Nat.le_max_left _ _)
  have hrange : TwosComplement.InRange false (max num.len den.len)
      ((number num.bits : Int) - number den.bits) := by
    simp only [TwosComplement.InRange, Bool.false_eq_true, if_false]
    have hcast : (number num.bits : Int) < 2 ^ max num.len den.len := by
      exact_mod_cast Nat.lt_of_lt_of_le hnum hpow
    constructor <;> omega
  rw [toInt_unsigned hn.hasSign, toInt_unsigned hd.hasSign] at hmod
  have hself := toInt_inRange hpos
  rw [hsub.hasSign_eq, hlen] at hself
  have heq := TwosComplement.eq_of_modEq (by have := hn.pos; omega) hself hrange hmod
  rw [toInt_unsigned hsub.hasSign_eq] at heq
  omega

/-- The loops halve the divisor. -/
theorem Plain.shr (hd : den.Plain) :
    (shr den 1).Plain ∧ number (shr den 1).bits = number den.bits / 2 := by
  obtain ⟨hint, hlen, hsign, hpos, hdef, -⟩ := shr_spec hd.pos hd.defined 1
  have hplain : (Verinum.shr den 1).Plain :=
    ⟨hlen.trans hd.hasLen, hsign.trans hd.hasSign, hdef, hpos⟩
  refine ⟨hplain, ?_⟩
  rw [toInt_unsigned hplain.hasSign, toInt_unsigned hd.hasSign, pow_one] at hint
  exact_mod_cast hint

/-- The loops compare the numbers. -/
theorem Plain.le (hn : num.Plain) (hd : den.Plain) :
    le den num ≠ .v0 ↔ number den.bits ≤ number num.bits := by
  rw [le_eq hd.pos hn.pos hd.defined hn.defined (hd.hasSign.trans hn.hasSign.symm),
    toInt_unsigned hd.hasSign, toInt_unsigned hn.hasSign]
  split_ifs with h
  · simpa using h
  · simpa using h

/-- Setting a bit that is clear adds its power. -/
theorem number_set {bits : List V} {idx : Nat} (h : bits[idx]? = some .v0) :
    number (bits.set idx .v1) = number bits + 2 ^ idx := by
  induction bits generalizing idx with
  | nil => simp at h
  | cons b bits ih =>
    cases idx with
    | zero =>
      simp only [List.getElem?_cons_zero, Option.some_inj] at h
      subst h
      simp only [List.set_cons_zero, number, Words.sum_cons, V.digit_v0, V.digit_v1]
      omega
    | succ idx =>
      have hrec := ih (by simpa using h)
      simp only [List.set_cons_succ, number, Words.sum_cons, pow_succ] at hrec ⊢
      omega

private theorem div_sub_shift {N D k : Nat} (hD : 0 < D) (hle : D * 2 ^ k ≤ N) :
    N / D = (N - D * 2 ^ k) / D + 2 ^ k ∧ N % D = (N - D * 2 ^ k) % D := by
  obtain ⟨m, rfl⟩ : ∃ m, N = m + D * 2 ^ k := ⟨N - D * 2 ^ k, by omega⟩
  rw [Nat.add_sub_cancel, Nat.add_mul_div_left _ _ hD, Nat.add_mul_mod_self_left]
  exact ⟨rfl, rfl⟩

/-- What both loops keep: the number is below twice the shifted divisor. -/
structure Aligned (D idx : Nat) (num den : Verinum) : Prop where
  num_plain : num.Plain
  den_plain : den.Plain
  below : number num.bits < D * 2 ^ idx
  shifted : 0 < idx → number den.bits = D * 2 ^ (idx - 1)

/-- One turn of the loops. -/
theorem Aligned.step {D idx : Nat} (h : Aligned D (idx + 1) num den) :
    (le den num ≠ .v0 ↔ D * 2 ^ idx ≤ number num.bits) ∧
      (D * 2 ^ idx ≤ number num.bits → Aligned D idx (sub num den) (shr den 1) ∧
        number (sub num den).bits = number num.bits - D * 2 ^ idx ∧
        num.len ≤ (sub num den).len) ∧
      (¬ D * 2 ^ idx ≤ number num.bits → Aligned D idx num (shr den 1)) := by
  have hden : number den.bits = D * 2 ^ idx := h.shifted (Nat.succ_pos idx)
  obtain ⟨hshr, hhalf⟩ := h.den_plain.shr
  have hnext : 0 < idx → number (Verinum.shr den 1).bits = D * 2 ^ (idx - 1) := by
    intro hpos
    obtain ⟨k, rfl⟩ : ∃ k, idx = k + 1 := ⟨idx - 1, by omega⟩
    rw [hhalf, hden, pow_succ, ← Nat.mul_assoc, Nat.mul_div_cancel _ (by omega)]
    rfl
  have hbelow := h.below
  rw [pow_succ, ← Nat.mul_assoc] at hbelow
  refine ⟨?_, ?_, ?_⟩
  · rw [h.num_plain.le h.den_plain, hden]
  · intro hle
    rw [← hden] at hle
    obtain ⟨hsub, hdiff, hlen⟩ := h.num_plain.sub h.den_plain hle
    rw [hden] at hdiff hle
    exact ⟨⟨hsub, hshr, by omega, hnext⟩, hdiff, hlen⟩
  · intro hlt
    exact ⟨h.num_plain, hshr, by omega, hnext⟩

/-- The loop of `unsigned_divide` adds the quotient to the result. -/
theorem divideLoop_spec {D : Nat} (hD : 0 < D) (idx : Nat) {num den : Verinum} {result : List V}
    (h : Aligned D idx num den) (hknown : ∀ b ∈ result, b.Known)
    (hclear : ∀ i, i < idx → result[i]? = some .v0) :
    (∀ b ∈ divideLoop idx num den result, b.Known) ∧
      (divideLoop idx num den result).length = result.length ∧
      number (divideLoop idx num den result) = number result + number num.bits / D := by
  induction idx generalizing num den result with
  | zero =>
    have hbelow := h.below
    rw [pow_zero, Nat.mul_one] at hbelow
    rw [divideLoop, Nat.div_eq_of_lt hbelow]
    exact ⟨hknown, rfl, rfl⟩
  | succ idx ih =>
    obtain ⟨hcmp, hyes, hno⟩ := h.step
    rw [divideLoop]
    by_cases hle : D * 2 ^ idx ≤ number num.bits
    · obtain ⟨hnext, hdiff, -⟩ := hyes hle
      have hset : ∀ b ∈ result.set idx .v1, b.Known := by
        intro b hb
        rcases List.mem_or_eq_of_mem_set hb with hb | rfl
        · exact hknown b hb
        · exact Or.inr rfl
      have hclear' : ∀ i, i < idx → (result.set idx .v1)[i]? = some .v0 := by
        intro i hi
        rw [List.getElem?_set_ne (by omega)]
        exact hclear i (by omega)
      obtain ⟨hk, hlen, hnum⟩ := ih hnext hset hclear'
      rw [if_pos (hcmp.mpr hle)]
      refine ⟨hk, by rw [hlen, List.length_set], ?_⟩
      rw [hnum, number_set (hclear idx (by omega)), hdiff, (div_sub_shift hD hle).1]
      omega
    · rw [if_neg (mt hcmp.mp hle)]
      exact ih (hno hle) hknown fun i hi => hclear i (by omega)

/-- The loop of `unsigned_modulus` leaves the remainder. -/
theorem modulusLoop_spec {D : Nat} (hD : 0 < D) (idx : Nat) {num den : Verinum}
    (h : Aligned D idx num den) :
    (modulusLoop idx num den).Plain ∧ number (modulusLoop idx num den).bits = number num.bits % D ∧
      num.len ≤ (modulusLoop idx num den).len := by
  induction idx generalizing num den with
  | zero =>
    have hbelow := h.below
    rw [pow_zero, Nat.mul_one] at hbelow
    rw [modulusLoop, Nat.mod_eq_of_lt hbelow]
    exact ⟨h.num_plain, rfl, Nat.le_refl _⟩
  | succ idx ih =>
    obtain ⟨hcmp, hyes, hno⟩ := h.step
    rw [modulusLoop]
    by_cases hle : D * 2 ^ idx ≤ number num.bits
    · obtain ⟨hnext, hdiff, hgrow⟩ := hyes hle
      obtain ⟨hplain, hnum, hlen⟩ := ih hnext
      rw [if_pos (hcmp.mpr hle)]
      refine ⟨hplain, ?_, Nat.le_trans hgrow hlen⟩
      rw [hnum, hdiff, ← (div_sub_shift hD hle).2]
    · rw [if_neg (mt hcmp.mp hle)]
      exact ih (hno hle)

/-- The scan finds the width of the number. -/
theorem width_spec {bits : List V} (hb : ∀ b ∈ bits, b.Known) (n : Nat) (hn : n ≤ bits.length) :
    width bits n ≤ n ∧ number (bits.take n) < 2 ^ width bits n ∧
      (0 < width bits n → 2 ^ (width bits n - 1) ≤ number (bits.take n)) := by
  induction n with
  | zero => simp [width, number]
  | succ n ih =>
    obtain ⟨hle, hlt, hge⟩ := ih (by omega)
    have hget : bits.getD n .v0 = bits[n] := by
      rw [List.getD_eq_getElem?_getD, List.getElem?_eq_getElem hn, Option.getD_some]
    have htake : number (bits.take (n + 1)) = number (bits.take n) + 2 ^ n * bits[n].digit := by
      rw [List.take_add_one, List.getElem?_eq_getElem hn, number_append,
        List.length_take_of_le (by omega)]
      simp [number]
    rw [width, hget, htake]
    have hlow := number_lt (bits.take n)
    rw [List.length_take_of_le (by omega)] at hlow
    rcases hb _ (List.getElem_mem hn) with h0 | h1
    · rw [if_pos h0, h0, V.digit_v0, Nat.mul_zero, Nat.add_zero]
      exact ⟨by omega, hlt, hge⟩
    · rw [if_neg (by rw [h1]; simp), h1, V.digit_v1, Nat.mul_one, Nat.add_sub_cancel, pow_succ]
      refine ⟨Nat.le_refl _, by omega, fun _ => by omega⟩

/-- Dropping the length keeps everything else. -/
theorem plain_of_unsigned (hsign : num.hasSign = false) (hdef : num.isDefined)
    (hpos : 0 < num.len) : ({ num with hasLen := false } : Verinum).Plain :=
  ⟨rfl, hsign, hdef, hpos⟩

/-- The shift before the loops aligns the divisor with the number. -/
theorem aligned_shl (hn : num.Plain) (hd : den.Plain) (hne : number den.bits ≠ 0)
    (hle : width den.bits den.len ≤ width num.bits num.len) :
    Aligned (number den.bits) (width num.bits num.len - width den.bits den.len + 1) num
      (shl den (width num.bits num.len - width den.bits den.len)) := by
  obtain ⟨hint, hlen, hsign, hpos, hdef⟩ := shl_spec hd.pos hd.defined hd.hasLen
    (width num.bits num.len - width den.bits den.len)
  obtain ⟨-, hnlt, -⟩ := width_spec ((isDefined_iff num).mp hn.defined) num.len (Nat.le_refl _)
  obtain ⟨-, hdlt, hdge⟩ := width_spec ((isDefined_iff den).mp hd.defined) den.len (Nat.le_refl _)
  rw [List.take_of_length_le (by exact Nat.le_refl _)] at hnlt hdlt hdge
  have hdpos : 0 < width den.bits den.len := by
    by_contra h
    rw [Nat.eq_zero_of_not_pos h] at hdlt
    omega
  have hge := hdge hdpos
  have hplain : (shl den (width num.bits num.len - width den.bits den.len)).Plain :=
    ⟨hlen, hsign.trans hd.hasSign, hdef, hpos⟩
  rw [toInt_unsigned hplain.hasSign, toInt_unsigned hd.hasSign] at hint
  refine ⟨hn, hplain, ?_, fun _ => by exact_mod_cast hint⟩
  calc number num.bits < 2 ^ width num.bits num.len := hnlt
    _ = 2 ^ (width den.bits den.len - 1) *
        2 ^ (width num.bits num.len - width den.bits den.len + 1) := by
      rw [← pow_add]
      congr 1
      omega
    _ ≤ number den.bits * 2 ^ (width num.bits num.len - width den.bits den.len + 1) :=
      Nat.mul_le_mul_right _ hge

theorem lt_of_width_lt (hn : ∀ b ∈ num.bits, b.Known) (hd : ∀ b ∈ den.bits, b.Known)
    (hlt : width num.bits num.len < width den.bits den.len) :
    number num.bits < number den.bits := by
  obtain ⟨-, hnlt, -⟩ := width_spec hn num.len (Nat.le_refl _)
  obtain ⟨-, -, hdge⟩ := width_spec hd den.len (Nat.le_refl _)
  rw [List.take_of_length_le (by exact Nat.le_refl _)] at hnlt hdge
  have hpow : 2 ^ width num.bits num.len ≤ 2 ^ (width den.bits den.len - 1) :=
    Nat.pow_le_pow_right (by omega) (by omega)
  exact Nat.lt_of_lt_of_le (Nat.lt_of_lt_of_le hnlt hpow) (hdge (by omega))

/-- `unsigned_divide` divides; where the quotient is zero by the lengths alone the result is one
unsigned bit. -/
theorem unsignedDivide_spec (hns : num.hasSign = false) (hnd : num.isDefined) (hnp : 0 < num.len)
    (hds : den.hasSign = false) (hdd : den.isDefined) (hdp : 0 < den.len)
    (hne : number den.bits ≠ 0) (signedResult : Bool) :
    (unsignedDivide num den signedResult).isDefined ∧
      (unsignedDivide num den signedResult).hasLen = true ∧
      (unsignedDivide num den signedResult).isSingle = false ∧
      0 < (unsignedDivide num den signedResult).len ∧
      (unsignedDivide num den signedResult).toInt =
        ((number num.bits / number den.bits : Nat) : Int) ∧
      ((unsignedDivide num den signedResult).hasSign = signedResult ∨
        number num.bits / number den.bits = 0) := by
  have hnum := plain_of_unsigned hns hnd hnp
  have hden := plain_of_unsigned hds hdd hdp
  by_cases hlt : width num.bits num.len < width den.bits den.len
  · have hzero : number num.bits / number den.bits = 0 := Nat.div_eq_of_lt
      (lt_of_width_lt ((isDefined_iff num).mp hnd) ((isDefined_iff den).mp hdd) hlt)
    have hres : unsignedDivide num den signedResult = fill .v0 1 true := if_pos hlt
    rw [hres]
    refine ⟨rfl, rfl, rfl, Nat.one_pos, ?_, Or.inr hzero⟩
    rw [show (fill .v0 1 true).toInt = 0 from rfl]
    exact_mod_cast hzero.symm
  · have haligned := aligned_shl hnum hden hne (Nat.not_lt.mp hlt)
    set idx := width num.bits num.len - width den.bits den.len + 1 with hidx
    have hclear : ∀ i, i < idx →
        (List.replicate (if signedResult then idx + 1 else idx) V.v0)[i]? = some .v0 := by
      intro i hi
      rw [List.getElem?_replicate, if_pos (by split_ifs <;> omega)]
    obtain ⟨hknown, hlen, hquot⟩ := divideLoop_spec (Nat.pos_of_ne_zero hne) idx haligned
      (known_replicate (Or.inl rfl) _) hclear
    have hres : unsignedDivide num den signedResult = signedBits (divideLoop idx
        { num with hasLen := false } (shl { den with hasLen := false } (idx - 1))
        (List.replicate (if signedResult then idx + 1 else idx) V.v0)) true signedResult :=
      if_neg hlt
    rw [number_replicate, V.digit_v0, Nat.mul_zero, Nat.zero_add] at hquot
    rw [List.length_replicate] at hlen
    rw [hres]
    have hquot' : number (divideLoop idx { num with hasLen := false }
        (shl { den with hasLen := false } (idx - 1))
        (List.replicate (if signedResult then idx + 1 else idx) V.v0)) =
        number num.bits / number den.bits := hquot
    have hlen' : (divideLoop idx { num with hasLen := false }
        (shl { den with hasLen := false } (idx - 1))
        (List.replicate (if signedResult then idx + 1 else idx) V.v0)).length =
        if signedResult then idx + 1 else idx := hlen
    refine ⟨isDefined_signedBits hknown _ _, rfl, rfl, ?_, ?_, Or.inl rfl⟩
    · rw [len_signedBits, hlen']
      split_ifs <;> omega
    · have hsmall : number num.bits / number den.bits < 2 ^ idx :=
        Nat.div_lt_of_lt_mul haligned.below
      unfold toInt
      rw [len_signedBits, hlen']
      have hbits : ∀ bits, (signedBits bits true signedResult).bits = bits := fun _ => rfl
      rw [hbits, hquot']
      cases signedResult with
      | false => exact TwosComplement.reading_unsigned _ _
      | true => exact TwosComplement.reading_of_lt hsmall

/-- `unsigned_modulus` leaves the remainder in no fewer bits than the number has. -/
theorem unsignedModulus_spec (hns : num.hasSign = false) (hnd : num.isDefined) (hnp : 0 < num.len)
    (hds : den.hasSign = false) (hdd : den.isDefined) (hdp : 0 < den.len)
    (hne : number den.bits ≠ 0) :
    (unsignedModulus num den).Plain ∧
      number (unsignedModulus num den).bits = number num.bits % number den.bits ∧
      num.len ≤ (unsignedModulus num den).len := by
  have hnum := plain_of_unsigned hns hnd hnp
  have hden := plain_of_unsigned hds hdd hdp
  by_cases hlt : width num.bits num.len < width den.bits den.len
  · have hres : unsignedModulus num den = { num with hasLen := false } := if_pos hlt
    rw [hres, Nat.mod_eq_of_lt
      (lt_of_width_lt ((isDefined_iff num).mp hnd) ((isDefined_iff den).mp hdd) hlt)]
    exact ⟨hnum, rfl, Nat.le_refl _⟩
  · have haligned := aligned_shl hnum hden hne (Nat.not_lt.mp hlt)
    have hspec := modulusLoop_spec (Nat.pos_of_ne_zero hne) _ haligned
    have hres : unsignedModulus num den = modulusLoop
        (width num.bits num.len - width den.bits den.len + 1) { num with hasLen := false }
        (shl { den with hasLen := false } (width num.bits num.len - width den.bits den.len)) :=
      if_neg hlt
    rw [hres]
    exact hspec

end Loops

/-! ## Magnitudes -/

section Magnitudes

variable {v : Verinum}

theorem isNegative_iff (hpos : 0 < v.len) (hdef : v.isDefined) :
    v.isNegative = true ↔ v.toInt < 0 := by
  have hbound := toInt_bounds hpos
  have hneg : v.isNegative = true ↔ v.signBit = .v1 := by
    unfold isNegative signBit
    cases v.hasSign <;> simp
  rw [hneg]
  rcases known_signBit ((isDefined_iff v).mp hdef) with h | h
  · have := (hbound.1 h).1
    rw [h]
    simp only [reduceCtorEq, false_iff]
    omega
  · have := (hbound.2 h).2
    rw [h]
    simpa using this

/-- The negation of a number, read as bits. -/
theorem number_neg (hpos : 0 < v.len) (hdef : v.isDefined) :
    v.len ≤ (neg v).len ∧
      (number (neg v).bits : Int) ≡ -v.toInt [ZMOD 2 ^ (neg v).len] := by
  have hneg := neg_spec hpos hdef
  have hlen : v.len ≤ (neg v).len := by
    have hcell : (Words.pass (fun b c => addWithCarry .v0 b.not c) v.bits .v1).1.length = v.len :=
      Words.length_pass _ _ _
    unfold neg
    rw [if_neg (by simp [hdef])]
    simp only [len_signedBits]
    split_ifs
    · exact Nat.le_trans hcell.ge (length_appendNe _ _ _)
    · exact hcell.ge
  refine ⟨hlen, ?_⟩
  have hread := (TwosComplement.reading_modEq (neg v).hasSign (neg v).len (number (neg v).bits)).symm
  by_cases hsized : v.hasLen = true ∨ v.hasSign = false
  · obtain ⟨hsame, hmod⟩ := hneg.sized hsized
    rw [hsame] at hread ⊢
    refine Int.ModEq.trans hread ?_
    unfold toInt at hmod ⊢
    rwa [hsame] at hmod
  · have hexact := hneg.unsized (by simpa using fun h => hsized (Or.inl h))
      (by simpa using fun h => hsized (Or.inr h))
    rw [← hexact]
    exact hread

/-- The magnitude of an operand. -/
theorem magnitude_spec (hpos : 0 < v.len) (hdef : v.isDefined) :
    (magnitude v).hasSign = false ∧ (magnitude v).isDefined ∧ v.len ≤ (magnitude v).len ∧
      number (magnitude v).bits = v.toInt.natAbs := by
  have hrange := toInt_inRange hpos
  by_cases hneg : v.isNegative = true
  · have hz := (isNegative_iff hpos hdef).mp hneg
    obtain ⟨hlen, hmod⟩ := number_neg hpos hdef
    have hmag : magnitude v = { neg v with hasSign := false } := by rw [magnitude, if_pos hneg]
    rw [hmag]
    refine ⟨rfl, (neg_spec hpos hdef).defined, hlen, ?_⟩
    have hfit : TwosComplement.InRange false (neg v).len (-v.toInt) := by
      have hsign : v.hasSign = true := by
        by_contra h
        have := toInt_unsigned (Bool.eq_false_iff.mpr h)
        omega
      rw [hsign] at hrange
      have hpow : (2 : Int) ^ (v.len - 1) < 2 ^ (neg v).len := by
        exact_mod_cast Nat.pow_lt_pow_right (by omega) (by omega : v.len - 1 < (neg v).len)
      simp only [TwosComplement.InRange, if_true, Bool.false_eq_true, if_false] at hrange ⊢
      constructor <;> omega
    have heq := TwosComplement.reading_eq (by omega : 0 < (neg v).len) (number_lt (neg v).bits)
      hfit hmod
    rw [TwosComplement.reading_unsigned] at heq
    show number (neg v).bits = _
    omega
  · have hz := mt (isNegative_iff hpos hdef).mpr hneg
    have hmag : magnitude v = { v with hasSign := false } := by rw [magnitude, if_neg hneg]
    rw [hmag]
    refine ⟨rfl, hdef, Nat.le_refl _, ?_⟩
    have hint := toInt_eq hpos
    have hbound := toInt_bounds hpos
    rcases known_signBit ((isDefined_iff v).mp hdef) with h | h
    · rw [h] at hint
      simp only [V.digit_v0, Nat.cast_zero, mul_zero, sub_zero] at hint
      show number v.bits = _
      omega
    · exact absurd (hbound.2 h).2 hz

end Magnitudes

end Icarus.Verinum
