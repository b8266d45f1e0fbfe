import Icarus.Netmisc.Normalize
import Icarus.Verinum.Order
import Icarus.Verinum.Text

/-!
# Numbers of other lengths

Trimming drops what the sign bit repeats, padding and casting repeat it, and a cast to fewer bits
keeps the low ones. The literal of a single bit is no number in this: its bit fills any width.
-/

namespace Icarus.Verinum

open Icarus.Core

/-! ## Trimming twice -/

/-- Trimming keeps a highest bit that differs and the bit above it. -/
private theorem skipTop_take {bits : List V} {v : V} {top : Nat} (hlen : top + 2 ≤ bits.length)
    (hsame : bits.getD (top + 1) .v0 = v) (hstop : bits.getD top .v0 ≠ v) :
    skipTop (bits.take (top + 2)) v (top + 1) = top := by
  have hget : ∀ i < top + 2, (bits.take (top + 2)).getD i .v0 = bits.getD i .v0 := by
    intro i hi
    rw [List.getD_eq_getElem?_getD, List.getD_eq_getElem?_getD, List.getElem?_take_of_lt hi]
  rw [skipTop, if_pos ((hget _ (by omega)).trans hsame)]
  cases top with
  | zero => rfl
  | succ top => rw [skipTop, if_neg fun h => hstop ((hget _ (by omega)).symm.trans h)]

section Trim

variable {v : Verinum} {tlen : Nat}

theorem len_trimTo (hle : tlen ≤ v.len) : (trimTo v tlen).len = tlen :=
  (List.length_take_of_le hle :)

/-- The bit that trimming drops from the top. -/
private def spare (v : Verinum) : V := if v.hasSign then v.get (v.len - 1) else .v0

/-- The highest bit that differs from it. -/
private def trimTop (v : Verinum) : Nat := skipTop v.bits (spare v) (v.len - 1)

/-- The three results of trimming an unsized number. -/
private theorem trimVnum_eq (hlen : v.hasLen = false) (htwo : 2 ≤ v.len) :
    trimVnum v =
      if v.get (trimTop v) = spare v then trimTo v (trimTop v + 1)
      else if v.hasSign = false ∧ trimTop v + 1 = v.len then v
      else trimTo v (trimTop v + 2) := by
  have hshort : ¬ v.len < 2 := Nat.not_lt.mpr htwo
  unfold trimVnum
  rw [if_neg (by simp [hlen]), if_neg hshort]
  cases hsign : v.hasSign with
  | true =>
    have hspare : spare v = v.get (v.len - 1) := if_pos hsign
    have htop : skipTop v.bits (v.get (v.len - 1)) (v.len - 1) = trimTop v := by
      rw [trimTop, hspare]
    rw [if_pos rfl]
    dsimp only
    rw [htop, hspare]
    by_cases hsame : v.get (trimTop v) = v.get (v.len - 1)
    · simp [hsame]
    · simp [hsame]
  | false =>
    have hspare : spare v = .v0 := if_neg (by simp [hsign])
    have htop : skipTop v.bits .v0 (v.len - 1) = trimTop v := by rw [trimTop, hspare]
    rw [if_neg Bool.false_ne_true]
    dsimp only
    rw [htop, hspare]
    by_cases hfull : trimTop v + 1 = v.len
    · have hne : v.get (trimTop v) ≠ .v0 := by
        rcases (skipTop_spec v.bits (spare v) (v.len - 1)).2.2 with hzero | hne
        · rw [show trimTop v = 0 from hzero] at hfull
          omega
        · rw [hspare, htop] at hne
          exact hne
      simp [hfull, hne]
    · by_cases hsame : v.get (trimTop v) = .v0
      · simp [hfull, hsame]
      · simp [hfull, hsame]

/-- The bit above the highest one that differs is dropped, unless it is there to tell. -/
private theorem trimTop_spec (htwo : 2 ≤ v.len) :
    trimTop v + 1 ≤ v.len ∧ (v.get (trimTop v) = spare v → trimTop v = 0) ∧
      (trimTop v + 1 < v.len → v.get (trimTop v + 1) = spare v) := by
  obtain ⟨hle, hall, hstop⟩ := skipTop_spec v.bits (spare v) (v.len - 1)
  refine ⟨?_, fun hsame => ?_, fun hlt => ?_⟩
  · have : trimTop v ≤ v.len - 1 := hle
    omega
  · exact hstop.resolve_right fun hne => hne hsame
  · exact hall _ (Nat.lt_succ_self _) (by omega)

/-- Trimming does not lengthen, and what is trimmed is not trimmed further. -/
theorem trimVnum_idem (v : Verinum) :
    trimVnum (trimVnum v) = trimVnum v ∧ (trimVnum v).len ≤ v.len := by
  by_cases hlen : v.hasLen = true
  · rw [trimVnum_of_hasLen hlen, trimVnum_of_hasLen hlen]
    exact ⟨rfl, Nat.le_refl _⟩
  rw [Bool.not_eq_true] at hlen
  by_cases hshort : v.len < 2
  · have hsame : trimVnum v = v := by
      unfold trimVnum
      rw [if_neg (by simp [hlen]), if_pos hshort]
    rw [hsame, hsame]
    exact ⟨rfl, Nat.le_refl _⟩
  have htwo := Nat.not_lt.mp hshort
  obtain ⟨hle, hzero, habove⟩ := trimTop_spec htwo
  have heq := trimVnum_eq hlen htwo
  by_cases hsame : v.get (trimTop v) = spare v
  · rw [if_pos hsame, hzero hsame, Nat.zero_add] at heq
    have hone : (trimTo v 1).len = 1 := len_trimTo (by omega)
    rw [heq]
    refine ⟨?_, by omega⟩
    unfold trimVnum
    rw [if_neg (by simp [trimTo, ofBits]), if_pos (by omega)]
  rw [if_neg hsame] at heq
  by_cases hfull : v.hasSign = false ∧ trimTop v + 1 = v.len
  · rw [if_pos hfull] at heq
    rw [heq, heq]
    exact ⟨rfl, Nat.le_refl _⟩
  rw [if_neg hfull] at heq
  have hlt : trimTop v + 1 < v.len := by
    by_contra hge
    have hend : trimTop v + 1 = v.len := by omega
    cases hsign : v.hasSign with
    | true =>
      apply hsame
      rw [spare, if_pos hsign, ← hend, Nat.add_sub_cancel]
    | false => exact hfull ⟨hsign, hend⟩
  have hgets := habove hlt
  generalize htop : trimTop v = top at *
  have hlen' : (trimTo v (top + 2)).len = top + 2 := len_trimTo hlt
  have hget : ∀ i < top + 2, (trimTo v (top + 2)).get i = v.get i := by
    intro i hi
    simp only [get, trimTo, ofBits, List.getD_eq_getElem?_getD]
    rw [List.getElem?_take_of_lt hi]
  have hspare : spare (trimTo v (top + 2)) = spare v := by
    rw [spare, hlen', show top + 2 - 1 = top + 1 from rfl, hget _ (by omega), hgets]
    rw [spare]
    show (if v.hasSign then _ else _) = _
    split_ifs <;> rfl
  have htop' : trimTop (trimTo v (top + 2)) = top := by
    rw [trimTop, hspare, hlen']
    exact skipTop_take hlt hgets hsame
  rw [heq, trimVnum_eq rfl (by omega), htop', hspare, hget _ (by omega), if_neg hsame, hlen',
    if_neg fun h => absurd h.2 (by omega)]
  refine ⟨?_, hlt⟩
  simp only [trimTo, ofBits, List.take_take, Nat.min_self]

end Trim

/-! ## Casts and pads -/

section Resize

variable {v : Verinum} {width : Nat}

/-- Bits that are all zero are zero. -/
theorem toInt_of_zeros {w : Verinum} (h : w.bits = List.replicate width .v0) : w.toInt = 0 := by
  rw [toInt, h, number_replicate, V.digit_v0, Nat.mul_zero]
  exact TwosComplement.reading_of_lt (Nat.two_pow_pos _)

/-- A cast has the length that is asked for. -/
theorem len_castToWidth (v : Verinum) (width : Nat) : (castToWidth v width).len = width := by
  unfold castToWidth
  by_cases hsame : v.hasLen ∧ v.len = width
  · rw [if_pos hsame]
    exact hsame.2
  rw [if_neg hsame]
  by_cases hle : width ≤ v.len
  · rw [if_pos hle]
    exact length_extend _ _ _
  rw [if_neg hle]
  by_cases hzero : v.len = 0
  · rw [if_pos hzero]
    exact List.length_replicate
  · rw [if_neg hzero]
    exact length_extend _ _ _

/-- A cast to fewer bits keeps the low ones. -/
theorem bits_castToWidth (hlt : width < v.len) :
    (castToWidth v width).bits = v.bits.take width := by
  have hlen : width = (v.bits.take width).length := (List.length_take_of_le hlt.le).symm
  rw [castToWidth, if_neg fun h => hlt.ne' h.2, if_pos hlt.le, copyBits]
  dsimp only
  rw [Nat.min_eq_left hlt.le, extend_of_le _ hlen.le, List.take_take, Nat.min_self]

/-- The bit that fills the bits above: the literal of a single bit repeats its bit, any other
unsigned number does not. -/
def fillBit (v : Verinum) : V := if v.isSingle then v.get (v.len - 1) else v.signBit

private theorem castToWidth_bits (hlt : v.len < width) (hpos : 0 < v.len) (hdef : v.isDefined) :
    (castToWidth v width).bits = extend v.bits (fillBit v) width ∧
      (castToWidth v width).hasSign = v.hasSign := by
  have hknown := getD_known (v.isDefined_iff.mp hdef) (v.len - 1)
  rw [castToWidth, if_neg fun h => absurd h.2 hlt.ne, if_neg (by omega), if_neg hpos.ne', fillBit,
    signBit]
  unfold get
  refine ⟨?_, rfl⟩
  cases v.isSingle <;> cases v.hasSign <;> cases v.hasLen <;>
    rcases hknown with h | h <;> rw [h] <;> rfl

/-- The number that `pad_to_width` makes before it looks for a string. -/
def padded (that : Verinum) (width : Nat) : Verinum :=
  let pad := that.get (that.len - 1)
  let pad := if pad = .v1 ∧ !that.hasSign ∧ !that.isSingle then .v0 else pad
  let pad := if that.hasLen ∧ !that.hasSign ∧ !that.isSingle ∧ (pad = .vx ∨ pad = .vz) then .v0
    else pad
  { ofBits (extend that.bits pad width) that.hasLen with hasSign := that.hasSign }

/-- A string is padded by writing it out and reading it back. -/
theorem padToWidth_eq_ofString (isprint : Byte → Bool) (hlt : v.len < width) (hpos : 0 < v.len) :
    (if v.isString ∧ width % 8 = 0 then (asString isprint (padded v width)).bind ofString
      else some (padded v width)) = some (padToWidth v width) := by
  have hlen : (padded v width).len = width := length_extend _ _ _
  have hpad : padToWidth v width = if v.isString ∧ width % 8 = 0 then
      ⟨(padded v width).bits.map twoState, true, false, false, true⟩ else padded v width := by
    rw [padToWidth, if_neg (Nat.not_le.mpr hlt), if_neg hpos.ne']
    rfl
  rw [hpad]
  by_cases hstring : v.isString ∧ width % 8 = 0
  · rw [if_pos hstring, if_pos hstring,
      bind_asString_ofString isprint (by omega) (by rw [hlen]; exact hstring.2)]
  · rw [if_neg hstring, if_neg hstring]

/-- So does padding; a string that is padded to whole bytes comes back unsigned. -/
private theorem padToWidth_bits (hlt : v.len < width) (hpos : 0 < v.len) (hdef : v.isDefined) :
    (padToWidth v width).bits = extend v.bits (fillBit v) width ∧
      (v.isString = false ∨ v.hasSign = false → (padToWidth v width).hasSign = v.hasSign) := by
  have hknown := v.isDefined_iff.mp hdef
  have htop := getD_known hknown (v.len - 1)
  have hfill : (fillBit v).Known := by
    rw [fillBit]
    split_ifs
    · exact htop
    · exact known_signBit hknown
  have hbits : (padded v width).bits = extend v.bits (fillBit v) width := by
    rw [padded, fillBit, signBit]
    unfold get
    cases v.isSingle <;> cases v.hasSign <;> cases v.hasLen <;>
      rcases htop with h | h <;> rw [h] <;> rfl
  have hpad := padToWidth_eq_ofString (fun _ => true) hlt hpos
  by_cases hstring : v.isString ∧ width % 8 = 0
  · have hlen : (padded v width).len = width := length_extend _ _ _
    rw [if_pos hstring, bind_asString_ofString _ (by omega) (by rw [hlen]; exact hstring.2),
      Option.some_inj] at hpad
    rw [← hpad, hbits]
    refine ⟨map_twoState (known_extend hknown hfill width), fun h => ?_⟩
    rcases h with h | h
    · exact absurd (h.symm.trans hstring.1) Bool.false_ne_true
    · exact h.symm
  · rw [if_neg hstring, Option.some_inj] at hpad
    rw [← hpad]
    exact ⟨hbits, fun _ => rfl⟩

/-- Repeating the bit that fills keeps the integer, but for the literal of a single bit. -/
private theorem toInt_of_fill {w : Verinum} (hsingle : v.isSingle → v.hasSign)
    (hpos : 0 < v.len) (hle : v.len ≤ width) (hbits : w.bits = extend v.bits (fillBit v) width)
    (hsign : w.hasSign = v.hasSign) : w.toInt = v.toInt := by
  have hfill : fillBit v = v.signBit := by
    rw [fillBit, signBit]
    by_cases h : v.isSingle = true
    · rw [if_pos h, if_pos (hsingle h)]
    · rw [if_neg h]
  have hlen : w.len = width := by rw [len, hbits, length_extend]
  refine toInt_of_extend hsign hpos (hlen ▸ hle) ?_
  rw [hlen, hbits, hfill]

/-- Trimming, casting and padding keep the integer of a number without X and Z bits, and a cast
to fewer bits keeps the low ones; the unsigned literal of a single bit is filled with its bit. -/
theorem resize_spec (v : Verinum) (width : Nat) :
    (v.isDefined → (trimVnum v).toInt = v.toInt) ∧ trimVnum (trimVnum v) = trimVnum v ∧
      (trimVnum v).len ≤ v.len ∧ (castToWidth v width).len = width ∧
      (width < v.len → (castToWidth v width).bits = v.bits.take width) ∧
      (v.isDefined → v.len ≤ width → (v.isSingle → v.hasSign) →
        (castToWidth v width).toInt = v.toInt ∧
          (v.isString = false ∨ v.hasSign = false → (padToWidth v width).toInt = v.toInt)) ∧
      (v.isDefined → 0 < v.len → v.len < width → v.isSingle →
        (castToWidth v width).bits = extend v.bits (v.get (v.len - 1)) width ∧
          (padToWidth v width).bits = extend v.bits (v.get (v.len - 1)) width) := by
  obtain ⟨hidem, hle⟩ := trimVnum_idem v
  refine ⟨fun hdef => (trimVnum_spec hdef).1, hidem, hle, len_castToWidth v width,
    bits_castToWidth, fun hdef hwidth hsingle => ?_, fun hdef hpos hlt hsingle => ?_⟩
  · rcases hwidth.lt_or_eq with hlt | heq
    · rcases Nat.eq_zero_or_pos v.len with hzero | hpos
      · have hcast : (castToWidth v width).bits = List.replicate width .v0 := by
          rw [castToWidth, if_neg fun h => absurd h.2 hlt.ne, if_neg (by omega), if_pos hzero]
          rfl
        have hpad : (padToWidth v width).bits = List.replicate width .v0 := by
          rw [padToWidth, if_neg (by omega), if_pos hzero]
          rfl
        rw [toInt_of_len_zero hzero, toInt_of_zeros hcast, toInt_of_zeros hpad]
        exact ⟨rfl, fun _ => rfl⟩
      · obtain ⟨hcast, hcastSign⟩ := castToWidth_bits hlt hpos hdef
        obtain ⟨hpad, hpadSign⟩ := padToWidth_bits hlt hpos hdef
        exact ⟨toInt_of_fill hsingle hpos hwidth hcast hcastSign, fun h =>
          toInt_of_fill hsingle hpos hwidth hpad (hpadSign h)⟩
    · have hpad : padToWidth v width = v := if_pos heq.ge
      have hsame : extend v.bits v.signBit width = v.bits.take width :=
        extend_of_le v.signBit heq.ge
      obtain ⟨hcast, -, hcastSign⟩ := castToWidth_spec hdef (Or.inr heq.ge)
      refine ⟨?_, fun _ => by rw [hpad]⟩
      have hall : (castToWidth v width).bits = v.bits :=
        hcast.trans (hsame.trans (List.take_of_length_le heq.le))
      rw [toInt, toInt, len, len, hall, hcastSign]
  · have hfill : fillBit v = v.get (v.len - 1) := if_pos hsingle
    rw [← hfill]
    exact ⟨(castToWidth_bits hlt hpos hdef).1, (padToWidth_bits hlt hpos hdef).1⟩

/-- The literal of a single 1 is cast to 3 in two bits. -/
theorem castToWidth_single : ¬ ∀ (v : Verinum) (width : Nat), v.isDefined → v.len ≤ width →
    (castToWidth v width).toInt = v.toInt := by
  intro h
  have hone := h ⟨[.v1], false, false, true, false⟩ 2 rfl (by decide)
  exact absurd hone (by decide)

end Resize

end Icarus.Verinum
