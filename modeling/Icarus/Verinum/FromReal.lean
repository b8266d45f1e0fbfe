import Icarus.Verinum.Native
import Icarus.Verinum.Sums
import Icarus.Vvp.Planes.Real
import Mathlib.Data.Nat.Size

/-!
# Numbers from reals

The constructor of a `verinum` from a `double` rounds it, writes its bits with one more for the
sign, negates them if the real is negative, and drops what the sign repeats. The words of a large
number are peeled off its fraction from the top down. Where the exponent is a multiple of the word
length, no word has the bit for the sign, which is then read without having been set.
-/

namespace Icarus.Verinum

open Icarus.Core
open Icarus.Vvp (Double lround frexp truncate)

/-- `signed_trim`. -/
def signedTrim (that : Verinum) : Verinum :=
  let sign := that.get (that.len - 1)
  let tlen := skipTop that.bits sign (that.len - 1)
  let tlen := if that.get tlen ≠ sign then tlen + 1 else tlen
  let tlen := tlen + 1
  if tlen < that.len then { that with bits := that.bits.take tlen } else that

/-- The bits that the loop over the words sets, from word `words - 1` down. -/
def wordBits (nbits : Nat) : Nat → ℚ → List V
  | 0, _ => []
  | wd + 1, fraction =>
    let bits := truncate fraction
    let maxIdx := min ((wd + 1) * 64) nbits
    wordBits nbits wd ((fraction - bits.toNat) * 2 ^ 64) ++
      nativeBits (· >>> 1) (maxIdx - wd * 64) bits

/-- The bits of a number of more than a word, from its fraction and exponent. -/
def largeBits (nbits : Nat) (fraction : ℚ) (exponent : Nat) : List V :=
  let nwords := (exponent - 1) / 64
  let fraction := fraction * 2 ^ ((exponent - 1) % 64 + 1)
  if nwords = 0 then nativeBits (· >>> 1) nbits (truncate fraction)
  else wordBits nbits (nwords + 1) fraction

/-- The constructor from a `double`. The negation and the trimming read all of the bits: none
where some are not set. -/
def ofDouble : Double → Option Verinum
  | none => some (signedBits [.vx] false true)
  | some val =>
    let isNeg := val < 0
    let val := if isNeg then -val else val
    let val : ℚ := lround val
    let (fraction, exponent) := frexp val
    let nbits := (exponent + 1).toNat
    if nbits ≤ 64 then
      let sval := BitVec.ofInt 64 (lround val)
      let sval := if isNeg then -sval else sval
      some (signedTrim (signedBits (nativeBits (·.sshiftRight 1) nbits sval) false true))
    else
      let bits := largeBits nbits fraction exponent.toNat
      if bits.length = nbits then
        let that := signedBits bits false true
        some (signedTrim (if isNeg then neg that else that))
      else none

/-! ## Trimming -/

/-- The length is the least one at which an integer has its two's complement. -/
def Minimal (v : Verinum) : Prop :=
  IsLeast {n | 0 < n ∧ TwosComplement.InRange true n v.toInt} v.len

theorem minimal_of_one {v : Verinum} (hsign : v.hasSign = true) (hlen : v.len = 1) : v.Minimal := by
  have hrange := toInt_inRange (v := v) (by omega)
  rw [hsign] at hrange
  exact ⟨⟨by omega, hrange⟩, fun n hn => hlen ▸ hn.1⟩

/-- A bit below the sign that differs from it is needed. -/
theorem minimal_of_ne {v : Verinum} {n : Nat} (hsign : v.hasSign = true)
    (hknown : ∀ b ∈ v.bits, b.Known) (hlen : v.len = n + 2) (hne : v.get n ≠ v.get (n + 1)) :
    v.Minimal := by
  have hpos : 0 < v.len := by omega
  have hrange := toInt_inRange hpos
  rw [hsign] at hrange
  refine ⟨⟨hpos, hrange⟩, fun m hm => ?_⟩
  by_contra hlt
  have hn : n < v.bits.length := by
    rw [show v.bits.length = v.len from rfl]
    omega
  have hbit : v.signBit = v.get (n + 1) := by
    rw [signBit, if_pos hsign, hlen]
    rfl
  have hany : (v.bits.drop n).any (· ≠ v.signBit) := by
    refine List.any_eq_true.mpr ⟨v.get n, ?_, ?_⟩
    · rw [get, List.getD_eq_getElem?_getD, List.getElem?_eq_getElem hn, Option.getD_some]
      exact List.mem_of_getElem? (i := 0) (by rw [List.getElem?_drop, Nat.add_zero,
        List.getElem?_eq_getElem hn])
    · rw [hbit]
      exact decide_eq_true hne
  obtain ⟨hzero, hone⟩ := toInt_of_any_ne hpos hknown hany
  have hlow := hm.2.mono (show m ≤ n + 1 by omega)
  rw [TwosComplement.InRange, if_pos rfl, Nat.add_sub_cancel] at hlow
  rcases known_signBit hknown with h | h
  · exact absurd hlow.2 (not_lt.mpr (hzero h))
  · exact absurd hlow.1 (not_le.mpr (hone h))

/-- The function is the other one for trimming. -/
theorem signedTrim_eq {bits : List V} (hpos : 0 < bits.length) :
    signedTrim (signedBits bits false true) = trimVnum (signedBits bits false true) := by
  obtain ⟨v, hv⟩ : ∃ v, v = signedBits bits false true := ⟨_, rfl⟩
  have hlen : v.len = bits.length := by rw [hv, len_signedBits]
  obtain ⟨top, htop⟩ : ∃ top, top = skipTop v.bits (v.get (v.len - 1)) (v.len - 1) := ⟨_, rfl⟩
  have hwhole : ∀ tlen, v.len ≤ tlen → trimTo v tlen = v := by
    intro tlen hle
    have htake : bits.take tlen = bits := List.take_of_length_le (hlen ▸ hle)
    rw [hv]
    exact congrArg (signedBits · false true) htake
  have hlenFlag : v.hasLen = false := by rw [hv]; rfl
  have hsign : v.hasSign = true := by rw [hv]; rfl
  rw [← hv, signedTrim, trimVnum, hlenFlag, hsign, if_neg Bool.false_ne_true, if_pos rfl]
  simp only [← htop]
  obtain ⟨tlen, htlen⟩ : ∃ tlen, tlen =
    (if v.get top ≠ v.get (v.len - 1) then top + 1 else top) + 1 := ⟨_, rfl⟩
  simp only [← htlen]
  by_cases hshort : v.len < 2
  · have hone : v.len = 1 := by omega
    have hzero : top = 0 := by rw [htop, hone]; rfl
    rw [if_pos hshort, if_neg]
    rw [htlen, hzero, hone]
    simp
  · rw [if_neg hshort]
    split
    · rw [hv]
      rfl
    · next hge => exact (hwhole tlen (Nat.not_lt.mp hge)).symm

/-- Trimming keeps the integer and leaves the least length. -/
theorem signedTrim_spec {bits : List V} (hpos : 0 < bits.length) (hknown : ∀ b ∈ bits, b.Known) :
    (signedTrim (signedBits bits false true)).isDefined ∧
      (signedTrim (signedBits bits false true)).hasSign = true ∧
      (signedTrim (signedBits bits false true)).toInt = (signedBits bits false true).toInt ∧
      (signedTrim (signedBits bits false true)).Minimal := by
  obtain ⟨htoInt, -, hsign, -, hdef⟩ := trimVnum_spec (isDefined_signedBits hknown false true)
  rw [← signedTrim_eq hpos] at htoInt hsign hdef
  have hsign : (signedTrim (signedBits bits false true)).hasSign = true := hsign
  refine ⟨hdef, hsign, htoInt, ?_⟩
  obtain ⟨v, hv⟩ : ∃ v, v = signedBits bits false true := ⟨_, rfl⟩
  have hlen : v.len = bits.length := by rw [hv, len_signedBits]
  have hbits : v.bits = bits := by rw [hv]; rfl
  rw [← hv] at hsign hdef ⊢
  have hresult := (isDefined_iff _).mp hdef
  obtain ⟨hle, hall, hstop⟩ := skipTop_spec v.bits (v.get (v.len - 1)) (v.len - 1)
  obtain ⟨top, htop⟩ : ∃ top, top = skipTop v.bits (v.get (v.len - 1)) (v.len - 1) := ⟨_, rfl⟩
  rw [← htop] at hle hall hstop
  have hget : ∀ tlen, ∀ i < tlen, (v.bits.take tlen).getD i .v0 = v.get i := by
    intro tlen i hi
    rw [get, List.getD_eq_getElem?_getD, List.getD_eq_getElem?_getD, List.getElem?_take_of_lt hi]
  have htrim : (signedTrim v).bits =
      v.bits.take ((if v.get top ≠ v.get (v.len - 1) then top + 1 else top) + 1) := by
    obtain ⟨tlen, htlen⟩ : ∃ tlen, tlen =
      (if v.get top ≠ v.get (v.len - 1) then top + 1 else top) + 1 := ⟨_, rfl⟩
    rw [signedTrim]
    simp only [← htop, ← htlen]
    split
    · rfl
    · next hge => exact (List.take_of_length_le (Nat.not_lt.mp hge)).symm
  by_cases hsame : v.get top = v.get (v.len - 1)
  · have hzero : top = 0 := hstop.resolve_right fun hne => hne hsame
    rw [if_neg (not_not.mpr hsame), hzero] at htrim
    refine minimal_of_one hsign ?_
    rw [len, htrim, hbits, List.length_take]
    omega
  · have hlt : top + 2 ≤ v.len := by
      by_contra hge
      exact hsame (congrArg v.get (by omega))
    rw [if_pos hsame] at htrim
    refine minimal_of_ne (n := top) hsign hresult ?_ ?_
    · rw [len, htrim]
      exact List.length_take_of_le hlt
    · rw [get, get, htrim, hget _ _ (by omega), hget _ _ (by omega),
        show v.get (top + 1) = v.get (v.len - 1) from hall (top + 1) (by omega) (by omega)]
      exact hsame

/-! ## Words -/

/-- The top word of a fraction, and what is left of it. -/
theorem truncate_div {x k : Nat} (hx : x < 2 ^ (64 + k)) :
    (truncate ((x : ℚ) / 2 ^ k)).toNat = x / 2 ^ k ∧
      (x : ℚ) / 2 ^ k - (x / 2 ^ k : Nat) = (x % 2 ^ k : Nat) / 2 ^ k := by
  have hpow : (0 : ℚ) < 2 ^ k := by positivity
  have hfloor : ⌊(x : ℚ) / 2 ^ k⌋ = ((x / 2 ^ k : Nat) : Int) := by
    have h := Rat.floor_natCast_div_natCast x (2 ^ k)
    push_cast at h ⊢
    exact h
  constructor
  · have hlt : x / 2 ^ k < 2 ^ 64 := by
      rw [Nat.div_lt_iff_lt_mul (Nat.two_pow_pos k), ← Nat.pow_add]
      exact hx
    rw [truncate, hfloor, BitVec.ofInt_natCast, BitVec.toNat_ofNat, Nat.mod_eq_of_lt hlt]
  · have hsplit : ((2 ^ k * (x / 2 ^ k) + x % 2 ^ k : Nat) : ℚ) = x := by rw [Nat.div_add_mod]
    rw [eq_div_iff hpow.ne', sub_mul, div_mul_cancel₀ _ hpow.ne', ← hsplit]
    push_cast
    ring

/-- The words of a number are peeled off from the top. -/
theorem wordBits_spec (nbits : Nat) {words x : Nat} {fraction : ℚ} (hx : x < 2 ^ (64 * words))
    (hfraction : fraction * 2 ^ (64 * words) = 2 ^ 64 * x) (hle : 64 * (words - 1) ≤ nbits) :
    (∀ b ∈ wordBits nbits words fraction, b.Known) ∧
      (wordBits nbits words fraction).length = min (64 * words) nbits ∧
      number (wordBits nbits words fraction) = x % 2 ^ min (64 * words) nbits := by
  induction words generalizing x fraction with
  | zero =>
    refine ⟨fun b hb => absurd hb List.not_mem_nil, ?_, ?_⟩
    · rw [Nat.mul_zero, Nat.zero_min]
      rfl
    · rw [Nat.mul_zero, Nat.zero_min, Nat.pow_zero, Nat.mod_one]
      rfl
  | succ wd ih =>
    obtain ⟨k, hk⟩ : ∃ k, k = 64 * wd := ⟨_, rfl⟩
    have hword : fraction = (x : ℚ) / 2 ^ k := by
      have hpow : (0 : ℚ) < 2 ^ k := by positivity
      rw [Nat.mul_succ, ← hk, pow_add] at hfraction
      rw [eq_div_iff hpow.ne']
      linarith
    rw [Nat.mul_succ, ← hk, Nat.add_comm] at hx
    rw [Nat.add_sub_cancel, ← hk] at hle
    obtain ⟨htrunc, hrest⟩ := truncate_div hx
    have hlow := Nat.mod_lt x (Nat.two_pow_pos k)
    have hscaled : (fraction - (truncate fraction).toNat) * 2 ^ 64 * 2 ^ (64 * wd) =
        2 ^ 64 * (x % 2 ^ k : Nat) := by
      have hpow : (0 : ℚ) < 2 ^ k := by positivity
      rw [hword, htrunc, hrest, ← hk]
      field_simp
    obtain ⟨hknown, hlen, hnum⟩ := ih (hk ▸ hlow) hscaled (by omega)
    rw [← hk, Nat.min_eq_left hle] at hlen hnum
    obtain ⟨n, hn⟩ : ∃ n, min (64 * (wd + 1)) nbits = k + n :=
      ⟨min (64 * (wd + 1)) nbits - k, by omega⟩
    have hcount : min ((wd + 1) * 64) nbits - wd * 64 = n := by omega
    rw [wordBits, hcount, hn]
    refine ⟨fun b hb => ?_, ?_, ?_⟩
    · rcases List.mem_append.mp hb with hb | hb
      · exact hknown b hb
      · exact known_nativeBits _ _ _ b hb
    · rw [List.length_append, hlen, length_nativeBits]
    · rw [number_append, hlen, hnum, number_nativeBits_ushiftRight, hword, htrunc, Nat.mod_mod,
        pow_add, Nat.mod_mul]

/-- The bits of a number of more than a word are set up to a multiple of the word length. -/
theorem largeBits_spec {n : Nat} (hlarge : 64 ≤ n.size) :
    (∀ b ∈ largeBits (n.size + 1) ((n : ℚ) / 2 ^ n.size) n.size, b.Known) ∧
      ((largeBits (n.size + 1) ((n : ℚ) / 2 ^ n.size) n.size).length = n.size + 1 ↔
        n.size = 64 ∨ ¬ 64 ∣ n.size) ∧
      number (largeBits (n.size + 1) ((n : ℚ) / 2 ^ n.size) n.size) = n := by
  have hlt := Nat.lt_size_self n
  obtain ⟨e, he⟩ : ∃ e, n.size = e + 1 := ⟨n.size - 1, by omega⟩
  rw [he] at hlt hlarge ⊢
  obtain ⟨k, hk⟩ : ∃ k, k = 64 * (e / 64) := ⟨_, rfl⟩
  have hfraction : (n : ℚ) / 2 ^ (e + 1) * 2 ^ (e % 64 + 1) = n / 2 ^ k := by
    have hpow : (2 : ℚ) ^ (e + 1) = 2 ^ k * 2 ^ (e % 64 + 1) := by
      rw [← pow_add]
      congr 1
      omega
    rw [hpow]
    field_simp
  rw [largeBits, Nat.add_sub_cancel, hfraction]
  by_cases hword : e / 64 = 0
  · have hsmall : n < 2 ^ (64 + k) := hlt.trans_le (Nat.pow_le_pow_right Nat.two_pos (by omega))
    rw [if_pos hword, hk, hword, Nat.mul_zero]
    rw [hk, hword, Nat.mul_zero] at hsmall
    have htrunc := (truncate_div hsmall).1
    rw [Nat.pow_zero, Nat.div_one] at htrunc
    refine ⟨known_nativeBits _ _ _, ?_, ?_⟩
    · rw [length_nativeBits]
      exact iff_of_true rfl (Or.inl (by omega))
    · rw [number_nativeBits_ushiftRight, htrunc, Nat.mod_eq_of_lt]
      exact hlt.trans (Nat.pow_lt_pow_right (by decide) (Nat.lt_succ_self _))
  · rw [if_neg hword]
    have htop : n < 2 ^ (64 * (e / 64 + 1)) :=
      hlt.trans_le (Nat.pow_le_pow_right Nat.two_pos (by omega))
    have hfraction : (n : ℚ) / 2 ^ k * 2 ^ (64 * (e / 64 + 1)) = 2 ^ 64 * n := by
      rw [Nat.mul_succ, ← hk, pow_add]
      field_simp
    obtain ⟨hknown, hlen, hnum⟩ := wordBits_spec (e + 1 + 1) htop hfraction (by omega)
    refine ⟨hknown, ?_, ?_⟩
    · rw [hlen]
      omega
    · rw [hnum, Nat.mod_eq_of_lt]
      exact hlt.trans_le (Nat.pow_le_pow_right Nat.two_pos (by omega))

/-! ## Rounding -/

theorem frexp_natCast (n : Nat) : frexp n = ((n : ℚ) / 2 ^ n.size, (n.size : Int)) := by
  rcases Nat.eq_zero_or_pos n with rfl | hpos
  · simp [frexp]
  · have hsize : Nat.log 2 n + 1 = n.size := by
      refine le_antisymm ?_ (Nat.size_le.mpr (Nat.lt_pow_succ_log_self (by decide) n))
      exact Nat.lt_size.mpr (Nat.pow_log_le_self 2 hpos.ne')
    have hlog : Int.log 2 (n : ℚ) + 1 = (n.size : Int) := by
      rw [Int.log_natCast, ← hsize]
      push_cast
      rfl
    rw [frexp, if_neg (by exact_mod_cast hpos.ne'), hlog, zpow_natCast]

theorem lround_natCast (n : Nat) : lround (n : ℚ) = n := by
  have hneg : ¬ ((n : ℚ) < 0) := not_lt.mpr (Nat.cast_nonneg n)
  have hfloor : ⌊(n : ℚ) + 1 / 2⌋ = (n : Int) := by
    rw [Int.floor_eq_iff]
    push_cast
    constructor <;> linarith
  rw [lround, if_neg hneg, hfloor]

/-- The magnitude of a real, rounded. -/
def magnitudeOf (val : ℚ) : Nat := ⌊|val| + 1 / 2⌋₊

theorem lround_abs (val : ℚ) : lround |val| = magnitudeOf val := by
  have hnonneg : (0 : ℚ) ≤ |val| + 1 / 2 := by positivity
  rw [lround, if_neg (not_lt.mpr (abs_nonneg val)), magnitudeOf, Int.natCast_floor_eq_floor hnonneg]

theorem lround_eq (val : ℚ) :
    lround val = if val < 0 then -(magnitudeOf val : Int) else magnitudeOf val := by
  rw [← lround_abs]
  split
  · next h => rw [lround, if_pos h, lround, if_neg (not_lt.mpr (abs_nonneg val)), abs_of_neg h]
  · next h => rw [abs_of_nonneg (not_lt.mp h)]

/-- The rounded real is the nearest integer, and the one away from zero of two. -/
theorem lround_nearest (val : ℚ) : |(lround val : ℚ) - val| ≤ 1 / 2 ∧
    (|(lround val : ℚ) - val| = 1 / 2 → |val| < |(lround val : ℚ)|) := by
  have hnonneg : (0 : ℚ) ≤ |val| + 1 / 2 := by positivity
  have hle : (magnitudeOf val : ℚ) ≤ |val| + 1 / 2 := Nat.floor_le hnonneg
  have hlt : |val| + 1 / 2 < (magnitudeOf val : ℚ) + 1 := Nat.lt_floor_add_one _
  have habs : |(lround val : ℚ)| = magnitudeOf val := by
    rw [lround_eq]
    split
    · rw [Int.cast_neg, abs_neg, Int.cast_natCast, Nat.abs_cast]
    · rw [Int.cast_natCast, Nat.abs_cast]
  have hdiff : |(lround val : ℚ) - val| = |(magnitudeOf val : ℚ) - (|val|)| := by
    rw [lround_eq]
    split
    · next h =>
      rw [abs_of_neg h, Int.cast_neg, Int.cast_natCast, ← abs_neg]
      congr 1
      ring
    · next h => rw [abs_of_nonneg (not_lt.mp h), Int.cast_natCast]
  rw [hdiff, habs]
  refine ⟨abs_le.mpr ⟨by linarith, by linarith⟩, fun htie => ?_⟩
  rcases abs_choice ((magnitudeOf val : ℚ) - (|val|)) with h | h <;> linarith

/-! ## The constructor -/

/-- A number has only zeros and ones, is signed, stands for an integer, and is as short as it can
be. -/
structure Represents (v : Verinum) (z : Int) : Prop where
  defined : v.isDefined
  signed : v.hasSign = true
  toInt_eq : v.toInt = z
  minimal : v.Minimal

theorem represents_signedTrim {bits : List V} {z : Int} (hpos : 0 < bits.length)
    (hknown : ∀ b ∈ bits, b.Known) (hz : (signedBits bits false true).toInt = z) :
    (signedTrim (signedBits bits false true)).Represents z := by
  obtain ⟨hdef, hsign, htoInt, hmin⟩ := signedTrim_spec hpos hknown
  exact ⟨hdef, hsign, htoInt.trans hz, hmin⟩

/-- A rounded real fits its bits and one for the sign. -/
theorem lround_inRange (val : ℚ) :
    TwosComplement.InRange true ((magnitudeOf val).size + 1) (lround val) := by
  have hlt : ((magnitudeOf val : Nat) : Int) < 2 ^ (magnitudeOf val).size := by
    exact_mod_cast Nat.lt_size_self (magnitudeOf val)
  have hnonneg := Int.natCast_nonneg (magnitudeOf val)
  rw [TwosComplement.InRange, if_pos rfl, Nat.add_sub_cancel, lround_eq]
  split <;> constructor <;> omega

/-- The bits of a small number. -/
theorem toInt_smallBits {val : ℚ} (hsmall : (magnitudeOf val).size + 1 ≤ 64) :
    (signedBits (nativeBits (·.sshiftRight 1) ((magnitudeOf val).size + 1)
      (BitVec.ofInt 64 (lround val))) false true).toInt = lround val := by
  obtain ⟨-, hnum⟩ := nativeBits_spec halves_sshiftRight hsmall (BitVec.ofInt 64 (lround val))
  refine TwosComplement.reading_eq (Nat.succ_pos _) ?_ ?_ ?_
  · exact number_lt _
  · rw [len_signedBits, length_nativeBits]
    exact lround_inRange val
  · have hword : ((BitVec.ofInt 64 (lround val)).toNat : Int) ≡ lround val [ZMOD 2 ^ 64] := by
      rw [BitVec.toNat_ofInt, Int.toNat_of_nonneg (Int.emod_nonneg _ (by positivity))]
      exact Int.mod_modEq _ _
    rw [len_signedBits, length_nativeBits]
    refine Int.ModEq.trans ?_ (hword.of_dvd (pow_dvd_pow 2 hsmall))
    have hlow := (Nat.mod_modEq (BitVec.ofInt 64 (lround val)).toNat
      (2 ^ ((magnitudeOf val).size + 1)))
    rw [← hnum] at hlow
    exact_mod_cast hlow

/-- The bits of a large number, negated if need be. -/
theorem represents_large {bits : List V} {n : Nat} (hlen : bits.length = n.size + 1)
    (hknown : ∀ b ∈ bits, b.Known) (hnum : number bits = n) (hpos : 0 < n) (isNeg : Bool) :
    (signedTrim (if isNeg then neg (signedBits bits false true)
      else signedBits bits false true)).Represents (if isNeg then -(n : Int) else n) := by
  have hlt := Nat.lt_size_self n
  have htoInt : (signedBits bits false true).toInt = n := by
    have hread := @TwosComplement.reading_of_lt true bits.length (number bits)
      (by rwa [hlen, hnum, Nat.add_sub_cancel])
    rw [hnum] at hread
    rw [toInt, len_signedBits]
    exact (congrArg _ hnum).trans hread
  have hbits : 0 < bits.length := by omega
  cases isNeg with
  | false => exact represents_signedTrim hbits hknown htoInt
  | true =>
    have hdef := isDefined_signedBits hknown false true
    have hneg := @neg_spec (signedBits bits false true) hbits hdef
    have hvalue : (neg (signedBits bits false true)).toInt = -(n : Int) := by
      rw [hneg.unsized rfl rfl, htoInt]
    have hshape : neg (signedBits bits false true) =
        signedBits (neg (signedBits bits false true)).bits false true := by
      rw [neg, hdef]
      rfl
    have hne : 0 < (neg (signedBits bits false true)).bits.length := by
      by_contra hzero
      have := toInt_of_len_zero (v := neg (signedBits bits false true)) (by
        rw [len]
        omega)
      omega
    rw [if_pos rfl, if_pos rfl, hshape]
    rw [hshape] at hvalue
    exact represents_signedTrim hne ((isDefined_iff _).mp hneg.defined) hvalue

/-- The constructor, from the magnitude. -/
theorem ofDouble_eq (val : ℚ) : ofDouble (some val) =
    if (magnitudeOf val).size + 1 ≤ 64 then
      some (signedTrim (signedBits (nativeBits (·.sshiftRight 1) ((magnitudeOf val).size + 1)
        (BitVec.ofInt 64 (lround val))) false true))
    else
      let bits := largeBits ((magnitudeOf val).size + 1)
        ((magnitudeOf val : ℚ) / 2 ^ (magnitudeOf val).size) (magnitudeOf val).size
      if bits.length = (magnitudeOf val).size + 1 then
        some (signedTrim (if val < 0 then neg (signedBits bits false true)
          else signedBits bits false true))
      else none := by
  have habs : (if val < 0 then -val else val) = |val| := by
    split
    · next h => rw [abs_of_neg h]
    · next h => rw [abs_of_nonneg (not_lt.mp h)]
  have hnbits : (((magnitudeOf val).size : Int) + 1).toNat = (magnitudeOf val).size + 1 := rfl
  rw [ofDouble]
  simp only [habs, lround_abs, Int.cast_natCast, frexp_natCast, hnbits, Int.toNat_natCast,
    lround_natCast]
  have hsval : (if val < 0 then -BitVec.ofInt 64 (magnitudeOf val : Int)
      else BitVec.ofInt 64 (magnitudeOf val : Int)) = BitVec.ofInt 64 (lround val) := by
    rw [lround_eq]
    split
    · exact BitVec.ofInt_neg.symm
    · rfl
  rw [← hsval]

/-- The constructor is right unless the exponent is a multiple of the word length that is not the
least one. -/
theorem ofDouble_represents_iff (val : ℚ) :
    (∃ v, ofDouble (some val) = some v ∧ v.Represents (lround val)) ↔
      (magnitudeOf val).size ≤ 64 ∨ ¬ 64 ∣ (magnitudeOf val).size := by
  rw [ofDouble_eq]
  by_cases hsmall : (magnitudeOf val).size + 1 ≤ 64
  · rw [if_pos hsmall]
    refine iff_of_true ⟨_, rfl, ?_⟩ (Or.inl (by omega))
    exact represents_signedTrim (by rw [length_nativeBits]; omega) (known_nativeBits _ _ _)
      (toInt_smallBits hsmall)
  · rw [if_neg hsmall]
    obtain ⟨hknown, hlen, hnum⟩ := largeBits_spec (n := magnitudeOf val) (by omega)
    have hpos : 0 < magnitudeOf val := Nat.size_pos.mp (by omega)
    simp only
    by_cases hall : (magnitudeOf val).size = 64 ∨ ¬ 64 ∣ (magnitudeOf val).size
    · rw [if_pos (hlen.mpr hall)]
      refine iff_of_true ⟨_, rfl, ?_⟩ (hall.imp_left le_of_eq)
      have hlarge := represents_large (hlen.mpr hall) hknown hnum hpos (decide (val < 0))
      simp only [decide_eq_true_eq] at hlarge
      rwa [lround_eq]
    · rw [if_neg fun h => hall (hlen.mp h)]
      refine iff_of_false (by simp) fun h => hall ?_
      exact h.imp_left fun h => by omega

/-- The number of bits of a magnitude. -/
theorem size_magnitudeOf_eq_iff {s : Nat} (hs : 0 < s) (val : ℚ) : (magnitudeOf val).size = s ↔
    2 ^ (s - 1) ≤ |val| + 1 / 2 ∧ |val| + 1 / 2 < 2 ^ s := by
  have hnonneg : (0 : ℚ) ≤ |val| + 1 / 2 := by positivity
  have hlow : 2 ^ (s - 1) ≤ |val| + 1 / 2 ↔ s - 1 < (magnitudeOf val).size := by
    rw [Nat.lt_size, magnitudeOf, Nat.le_floor_iff hnonneg]
    push_cast
    rfl
  have hhigh : |val| + 1 / 2 < 2 ^ s ↔ (magnitudeOf val).size ≤ s := by
    rw [Nat.size_le, magnitudeOf, Nat.floor_lt hnonneg]
    push_cast
    rfl
  rw [hlow, hhigh]
  omega

/-- The constructor builds the rounded real at its least length, unless it takes up all the bits of
two or more words. -/
theorem ofDouble_right (m e : Int) :
    (∃ v, ofDouble (some (m * 2 ^ e)) = some v ∧ v.Represents (lround (m * 2 ^ e))) ↔
      ∀ k : Nat, 2 ≤ k → ¬ (2 ^ (64 * k - 1) ≤ |(m * 2 ^ e : ℚ)| + 1 / 2 ∧
        |(m * 2 ^ e : ℚ)| + 1 / 2 < 2 ^ (64 * k)) := by
  rw [ofDouble_represents_iff]
  constructor
  · intro h k hk hfull
    have hsize := (size_magnitudeOf_eq_iff (by omega) _).mpr hfull
    rw [hsize] at h
    exact h.elim (by omega) fun h => h (Nat.dvd_mul_right 64 k)
  · intro h
    by_contra hnot
    obtain ⟨hlarge, hdvd⟩ := not_or.mp hnot
    obtain ⟨k, hk⟩ := not_not.mp hdvd
    exact h k (by omega) ((size_magnitudeOf_eq_iff (by omega) _).mp hk)

/-- Of two to the power 127, the bit for the sign is not set. -/
theorem not_ofDouble_right : ¬ ∀ m e : Int,
    ∃ v, ofDouble (some (m * 2 ^ e)) = some v ∧ v.Represents (lround (m * 2 ^ e)) := by
  intro h
  have hsize : (magnitudeOf (((1 : Int) : ℚ) * 2 ^ (127 : Int))).size = 128 := by
    rw [size_magnitudeOf_eq_iff (by decide)]
    norm_num [abs_of_pos]
  have hright := (ofDouble_represents_iff _).mp (h 1 127)
  rw [hsize] at hright
  exact absurd hright (by decide)

end Icarus.Verinum
