import Icarus.Verinum.Compare

/-!
# Native integers

`as_ulong` and `as_long` of `verinum`, native division, and the loop that writes a
native integer back as bits. `as_ulong` saturates; `as_long` keeps the low bits and
the sign, so a native quotient is the quotient only where enough of the divisor is
kept.
-/

namespace Icarus.Verinum

open Icarus.Core

/-- The loop of `as_ulong`. -/
def ulongLoop : List V → BitVec 64 → BitVec 64 → BitVec 64
  | [], _, val => val
  | b :: bits, mask, val =>
    if b = .v1 then
      if mask = 0 then ~~~mask else ulongLoop bits (mask <<< 1) (val ||| mask)
    else ulongLoop bits (mask <<< 1) val

/-- `as_ulong`. -/
def asUlong (v : Verinum) : BitVec 64 :=
  if v.len = 0 then 0 else if !v.isDefined then 0 else ulongLoop v.bits 1 0

/-- The loop of `as_long` that sets the bits of a number that is not negative. -/
def setLoop : List V → BitVec 64 → BitVec 64 → BitVec 64
  | [], _, val => val
  | b :: bits, mask, val => setLoop bits (mask <<< 1) (if b = .v1 then val ||| mask else val)

/-- The loop of `as_long` that clears the bits of a negative number. -/
def clearLoop : List V → BitVec 64 → BitVec 64 → BitVec 64
  | [], _, val => val
  | b :: bits, mask, val =>
    clearLoop bits ((mask <<< 1) ||| 1) (if b = .v0 then val &&& mask else val)

/-- `as_long`; the warning about lost bits is left out. -/
def asLong (v : Verinum) : BitVec 64 :=
  if v.len = 0 then 0
  else if !v.isDefined then 0
  else
    let top := if 63 < v.len then 63 else v.len
    if v.hasSign ∧ v.get (v.len - 1) = .v1 then clearLoop (v.bits.take top) (~~~1) (~~~0)
    else setLoop (v.bits.take top) 1 0

/-- The loop that writes the low bits of a native integer. -/
def nativeBits (shift : BitVec 64 → BitVec 64) : Nat → BitVec 64 → List V
  | 0, _ => []
  | n + 1, v => (if v &&& 1 ≠ 0 then V.v1 else .v0) :: nativeBits shift n (shift v)

/-- Native division; none where the divisor is zero. -/
def nativeSdiv (l r : BitVec 64) : Option (BitVec 64) :=
  if l = BitVec.intMin 64 ∧ r = -1 then some (BitVec.intMin 64)
  else if r = 0 then none
  else some (l.sdiv r)

/-- Native remainder; none where the divisor is zero. -/
def nativeSrem (l r : BitVec 64) : Option (BitVec 64) :=
  if l = BitVec.intMin 64 ∧ r = -1 then some 0
  else if r = 0 then none
  else some (l.srem r)

/-! ## Reading -/

private theorem toNat_mask (k : Nat) :
    (BitVec.ofNat 64 (2 ^ k)) <<< 1 = BitVec.ofNat 64 (2 ^ (k + 1)) := by
  apply BitVec.eq_of_toNat_eq
  rw [BitVec.toNat_shiftLeft, BitVec.toNat_ofNat, BitVec.toNat_ofNat, Nat.shiftLeft_eq,
    Nat.mod_mul_mod, ← pow_add]

private theorem toNat_mask_of_lt {k : Nat} (hk : k < 64) :
    (BitVec.ofNat 64 (2 ^ k)).toNat = 2 ^ k := by
  rw [BitVec.toNat_ofNat]
  exact Nat.mod_eq_of_lt (Nat.pow_lt_pow_right (by omega) hk)

private theorem toNat_or_mask {k : Nat} (hk : k < 64) {val : BitVec 64} (hval : val.toNat < 2 ^ k) :
    (val ||| BitVec.ofNat 64 (2 ^ k)).toNat = val.toNat + 2 ^ k := by
  have hor := Nat.two_pow_add_eq_or_of_lt hval 1
  rw [BitVec.toNat_or, toNat_mask_of_lt hk, Nat.or_comm]
  rw [Nat.mul_one] at hor
  rw [← hor, Nat.add_comm]

/-- A mask shifted out is zero. -/
private theorem mask_eq_zero {k : Nat} (hk : 64 ≤ k) : BitVec.ofNat 64 (2 ^ k) = 0 := by
  apply BitVec.eq_of_toNat_eq
  obtain ⟨j, rfl⟩ : ∃ j, k = 64 + j := ⟨k - 64, by omega⟩
  rw [BitVec.toNat_ofNat, pow_add, Nat.mul_mod_right]
  rfl

private theorem mask_ne_zero {k : Nat} (hk : k < 64) : BitVec.ofNat 64 (2 ^ k) ≠ 0 := by
  intro h
  have hnat := toNat_mask_of_lt hk
  rw [h] at hnat
  exact absurd hnat.symm (Nat.two_pow_pos k).ne'

/-- `as_ulong` adds the bits and saturates. -/
theorem toNat_ulongLoop {bits : List V} (hb : ∀ b ∈ bits, b.Known) (k : Nat) {val : BitVec 64}
    (hval : val.toNat < 2 ^ k) :
    (ulongLoop bits (BitVec.ofNat 64 (2 ^ k)) val).toNat =
      min (val.toNat + 2 ^ k * number bits) (2 ^ 64 - 1) := by
  induction bits generalizing k val with
  | nil =>
    have hlt := val.isLt
    simp only [ulongLoop, number, Words.sum_nil, Nat.mul_zero, Nat.add_zero]
    omega
  | cons b bits ih =>
    have hrest : ∀ c ∈ bits, c.Known := fun c hc => hb c (List.mem_cons_of_mem _ hc)
    have hnum : number (b :: bits) = b.digit + 2 * number bits := by
      simp only [number, Words.sum_cons, pow_one]
    have hpow : 2 ^ (k + 1) = 2 * 2 ^ k := by rw [pow_succ, Nat.mul_comm]
    rcases hb b (by simp) with rfl | rfl
    · rw [ulongLoop, if_neg (by simp), toNat_mask, ih hrest (k + 1) (by omega), hnum, hpow]
      congr 1
      rw [V.digit_v0]
      ring
    · rw [ulongLoop, if_pos rfl, hnum]
      by_cases hk : k < 64
      · rw [if_neg (mask_ne_zero hk), toNat_mask]
        have hval' := toNat_or_mask hk hval
        rw [ih hrest (k + 1) (by omega), hval', hpow]
        congr 1
        rw [V.digit_v1]
        ring
      · have hge : 2 ^ 64 ≤ 2 ^ k := Nat.pow_le_pow_right (by omega) (by omega)
        have hmul : 2 ^ k * 1 ≤ 2 ^ k * (1 + 2 * number bits) := Nat.mul_le_mul_left _ (by omega)
        rw [if_pos (mask_eq_zero (by omega)), mask_eq_zero (by omega), V.digit_v1,
          BitVec.toNat_not, Nat.min_eq_right (by omega)]
        rfl

/-- `as_ulong` saturates. -/
theorem toNat_asUlong {v : Verinum} (hdef : v.isDefined) :
    (asUlong v).toNat = min (number v.bits) (2 ^ 64 - 1) := by
  have hloop := toNat_ulongLoop ((isDefined_iff v).mp hdef) 0
    (show (0 : BitVec 64).toNat < 2 ^ 0 by decide)
  unfold asUlong
  by_cases h0 : v.len = 0
  · rw [if_pos h0, List.length_eq_zero_iff.mp h0]
    rfl
  · rw [if_neg h0, if_neg (by simp [hdef])]
    have hone : (1 : BitVec 64) = BitVec.ofNat 64 (2 ^ 0) := rfl
    rw [hone, hloop]
    congr 1
    rw [pow_zero, Nat.one_mul]
    exact Nat.zero_add _

/-- Bits that fit are added. -/
theorem toNat_setLoop {bits : List V} (hb : ∀ b ∈ bits, b.Known) (k : Nat) {val : BitVec 64}
    (hval : val.toNat < 2 ^ k) (hk : k + bits.length ≤ 64) :
    (setLoop bits (BitVec.ofNat 64 (2 ^ k)) val).toNat = val.toNat + 2 ^ k * number bits := by
  induction bits generalizing k val with
  | nil => simp [setLoop, number]
  | cons b bits ih =>
    rw [List.length_cons] at hk
    have hrest : ∀ c ∈ bits, c.Known := fun c hc => hb c (List.mem_cons_of_mem _ hc)
    have hnum : number (b :: bits) = b.digit + 2 * number bits := by
      simp only [number, Words.sum_cons, pow_one]
    have hpow : 2 ^ (k + 1) = 2 * 2 ^ k := by rw [pow_succ, Nat.mul_comm]
    rw [setLoop, toNat_mask, hnum]
    rcases hb b (by simp) with rfl | rfl
    · rw [if_neg (by simp), ih hrest (k + 1) (by omega) (by omega), hpow, V.digit_v0]
      ring
    · have hval' := toNat_or_mask (by omega) hval
      rw [if_pos rfl, ih hrest (k + 1) (by omega) (by omega), hval', hpow, V.digit_v1]
      ring

/-- Clearing bits of a negative number sets those of its complement. -/
theorem clearLoop_eq {bits : List V} (hb : ∀ b ∈ bits, b.Known) (mask val : BitVec 64) :
    clearLoop bits (~~~mask) (~~~val) = ~~~ (setLoop (bits.map V.not) mask val) := by
  induction bits generalizing mask val with
  | nil => rfl
  | cons b bits ih =>
    have hrest : ∀ c ∈ bits, c.Known := fun c hc => hb c (List.mem_cons_of_mem _ hc)
    have hmask : ((~~~mask) <<< 1) ||| (1 : BitVec 64) = ~~~ (mask <<< 1) := by
      apply BitVec.eq_of_getLsbD_eq
      intro i hi
      cases i with
      | zero => simp
      | succ i => simp [hi]
    have hval : ~~~val &&& ~~~mask = ~~~ (val ||| mask) := by
      rw [BitVec.not_or]
    rw [List.map_cons, clearLoop, setLoop, hmask]
    rcases hb b (by simp) with rfl | rfl
    · rw [if_pos rfl, if_pos (by decide), hval, ih hrest]
    · rw [if_neg (by simp), if_neg (by decide), ih hrest]

/-- What `as_long` keeps of an integer: the low bits and the sign. -/
def narrowed (z : Int) : Int := z % 2 ^ 63 - if z < 0 then 2 ^ 63 else 0

theorem narrowed_of_inRange {z : Int} (h : TwosComplement.InRange true 64 z) : narrowed z = z := by
  unfold narrowed
  simp only [TwosComplement.InRange, if_true] at h
  split_ifs <;> omega

theorem number_take {bits : List V} {k : Nat} (hk : k ≤ bits.length) :
    number (bits.take k) = number bits % 2 ^ k := by
  have hsplit := number_append (bits.take k) (bits.drop k)
  have hlt := number_lt (bits.take k)
  rw [List.length_take_of_le hk] at hsplit hlt
  rw [List.take_append_drop] at hsplit
  rw [hsplit, Nat.add_mul_mod_self_left, Nat.mod_eq_of_lt hlt]

private theorem toInt_of_small {x : BitVec 64} {n : Nat} (hx : x.toNat = n) (hn : n < 2 ^ 63) :
    x.toInt = n ∧ (~~~x).toInt = -n - 1 := by
  rw [BitVec.toInt_eq_toNat_cond, BitVec.toInt_eq_toNat_cond, BitVec.toNat_not, hx]
  constructor
  · rw [if_pos (by omega)]
  · rw [if_neg (by omega)]
    omega

/-- `as_long` keeps the low bits and the sign. -/
theorem toInt_asLong {v : Verinum} (hpos : 0 < v.len) (hdef : v.isDefined)
    (hsign : v.hasSign = true) : (asLong v).toInt = narrowed v.toInt := by
  have hknown := (isDefined_iff v).mp hdef
  have hbound := toInt_bounds hpos
  have hrange := toInt_inRange hpos
  have hint := toInt_eq hpos
  have hsb : v.signBit = v.get (v.len - 1) := by rw [signBit, if_pos hsign]
  have hone : (1 : BitVec 64) = BitVec.ofNat 64 (2 ^ 0) := rfl
  unfold asLong
  rw [if_neg hpos.ne', if_neg (by simp [hdef])]
  -- The bits that are read make up the number modulo the power of their count.
  have hread : ∀ top, top ≤ 63 → top ≤ v.len →
      (∀ b ∈ v.bits.take top, b.Known) ∧ number (v.bits.take top) = number v.bits % 2 ^ top ∧
        number (v.bits.take top) < 2 ^ 63 ∧ (v.bits.take top).length = top := by
    intro top h63 hle
    have hlt := number_lt (v.bits.take top)
    rw [List.length_take_of_le hle] at hlt
    exact ⟨fun b hb => hknown b (List.mem_of_mem_take hb), number_take hle,
      Nat.lt_of_lt_of_le hlt (Nat.pow_le_pow_right (by omega) h63), List.length_take_of_le hle⟩
  have htop : (if 63 < v.len then 63 else v.len) = min 63 v.len := by
    split_ifs <;> omega
  simp only [htop]
  obtain ⟨hk, hnum, hsmall, hlen⟩ := hread (min 63 v.len) (by omega) (by omega)
  have hnarrow : narrowed v.toInt =
      number (v.bits.take (min 63 v.len)) - (2 : Int) ^ (min 63 v.len) * v.signBit.digit := by
    by_cases hlong : 63 ≤ v.len
    · have hmod : v.toInt % 2 ^ 63 = number (v.bits.take (min 63 v.len)) := by
        obtain ⟨k, hk⟩ : ∃ k, v.len = 63 + k := ⟨v.len - 63, by omega⟩
        rw [hint, hnum, Nat.min_eq_left hlong, hk, pow_add, mul_assoc, Int.sub_mul_emod_self_left]
        push_cast
        rfl
      rw [narrowed, hmod, Nat.min_eq_left hlong]
      rcases known_signBit hknown with h0 | h1
      · rw [h0, if_neg (by have := (hbound.1 h0).1; omega)]
        simp
      · rw [h1, if_pos (hbound.2 h1).2]
        simp
    · have hfit : TwosComplement.InRange true 64 v.toInt := by
        rw [hsign] at hrange
        exact hrange.mono (by omega)
      rw [narrowed_of_inRange hfit, hint, Nat.min_eq_right (by omega),
        List.take_of_length_le (by exact Nat.le_refl _)]
  rw [hnarrow]
  rcases known_signBit hknown with h0 | h1
  · rw [if_neg (by rw [← hsb, h0]; simp), hone, (toInt_of_small (toNat_setLoop hk 0 (by decide)
      (by omega)) (by simpa using hsmall)).1, h0]
    simp
  · have hnot := number_map_not hk
    rw [hlen] at hnot
    have hset := toNat_setLoop hnot.1 0 (show (0 : BitVec 64).toNat < 2 ^ 0 by decide)
      (by rw [List.length_map]; omega)
    have hlt : number ((v.bits.take (min 63 v.len)).map V.not) < 2 ^ 63 := by
      have hpow := Nat.pow_le_pow_right (n := 2) (by omega) (Nat.min_le_left 63 v.len)
      omega
    rw [if_pos ⟨hsign, by rw [← hsb, h1]⟩, clearLoop_eq hk, hone,
      (toInt_of_small hset (by simpa using hlt)).2, h1]
    have hcast : (number ((v.bits.take (min 63 v.len)).map V.not) : Int) +
        number (v.bits.take (min 63 v.len)) + 1 = 2 ^ min 63 v.len := by exact_mod_cast hnot.2
    have hzero : (0 : BitVec 64).toNat = 0 := rfl
    simp only [hzero, pow_zero, Nat.one_mul, Nat.zero_add, V.digit_v1, Nat.cast_one, mul_one]
    linarith

/-! ## Writing -/

@[simp] theorem length_nativeBits (shift : BitVec 64 → BitVec 64) (n : Nat) (v : BitVec 64) :
    (nativeBits shift n v).length = n := by
  induction n generalizing v with
  | zero => rfl
  | succ n ih => simp [nativeBits, ih]

/-- A shift by one bit, whatever comes in at the top. -/
def Halves (shift : BitVec 64 → BitVec 64) : Prop :=
  ∀ x, (shift x).toNat % 2 ^ 63 = x.toNat / 2

theorem halves_ushiftRight : Halves (· >>> 1) := by
  intro x
  have hlt := x.isLt
  rw [BitVec.toNat_ushiftRight, Nat.shiftRight_eq_div_pow, pow_one]
  apply Nat.mod_eq_of_lt
  omega

theorem halves_sshiftRight : Halves (·.sshiftRight 1) := by
  intro x
  rw [← halves_ushiftRight x]
  apply Nat.eq_of_testBit_eq
  intro i
  rw [Nat.testBit_mod_two_pow, Nat.testBit_mod_two_pow, BitVec.testBit_toNat,
    BitVec.testBit_toNat, BitVec.getLsbD_sshiftRight, BitVec.getLsbD_ushiftRight]
  by_cases hi : i < 63
  · simp [hi, show 1 + i < 64 by omega, show ¬ 64 ≤ i by omega]
  · simp [hi]

private theorem lowBit_spec (v : BitVec 64) :
    (if v &&& 1 ≠ 0 then V.v1 else .v0).Known ∧
      (if v &&& 1 ≠ 0 then V.v1 else .v0).digit = v.toNat % 2 := by
  have hand : (v &&& 1).toNat = v.toNat % 2 := by
    rw [BitVec.toNat_and, show (1 : BitVec 64).toNat = 1 from rfl, Nat.and_one_is_mod]
  by_cases h0 : v &&& 1 = 0
  · rw [h0] at hand
    rw [if_neg (not_not.mpr h0), ← hand]
    exact ⟨Or.inl rfl, rfl⟩
  · have hne : v.toNat % 2 ≠ 0 := by
      intro h
      apply h0
      apply BitVec.eq_of_toNat_eq
      rw [hand, h]
      rfl
    rw [if_pos h0]
    refine ⟨Or.inr rfl, ?_⟩
    rw [V.digit_v1]
    omega

private theorem number_nativeBits_succ (shift : BitVec 64 → BitVec 64) (n : Nat) (v : BitVec 64) :
    number (nativeBits shift (n + 1) v) =
      (if v &&& 1 ≠ 0 then V.v1 else .v0).digit + 2 * number (nativeBits shift n (shift v)) := by
  simp only [nativeBits, number, Words.sum_cons, pow_one]

theorem known_nativeBits (shift : BitVec 64 → BitVec 64) (n : Nat) (v : BitVec 64) :
    ∀ b ∈ nativeBits shift n v, b.Known := by
  induction n generalizing v with
  | zero => simp [nativeBits]
  | succ n ih =>
    intro b hb
    rcases List.mem_cons.mp hb with rfl | hb
    · exact (lowBit_spec v).1
    · exact ih (shift v) b hb

/-- The bits written are the low bits of the native integer. -/
theorem nativeBits_spec {shift : BitVec 64 → BitVec 64} (hshift : Halves shift) {n : Nat}
    (hn : n ≤ 64) (v : BitVec 64) :
    (∀ b ∈ nativeBits shift n v, b.Known) ∧ number (nativeBits shift n v) = v.toNat % 2 ^ n := by
  refine ⟨known_nativeBits shift n v, ?_⟩
  induction n generalizing v with
  | zero => simp [nativeBits, number, Nat.mod_one]
  | succ n ih =>
    have hmod : (shift v).toNat % 2 ^ n = v.toNat / 2 % 2 ^ n := by
      rw [← hshift v, Nat.mod_mod_of_dvd _ (Nat.pow_dvd_pow 2 (by omega))]
    rw [number_nativeBits_succ, (lowBit_spec v).2, ih (by omega), hmod, pow_succ,
      Nat.mul_comm (2 ^ n), Nat.mod_mul]

/-- Zeros are shifted in from the top: beyond the native integer the bits written are zero. -/
theorem number_nativeBits_ushiftRight (n : Nat) (v : BitVec 64) :
    number (nativeBits (· >>> 1) n v) = v.toNat % 2 ^ n := by
  induction n generalizing v with
  | zero => simp [nativeBits, number, Nat.mod_one]
  | succ n ih =>
    rw [number_nativeBits_succ, (lowBit_spec v).2, ih, BitVec.toNat_ushiftRight,
      Nat.shiftRight_eq_div_pow, pow_one, pow_succ, Nat.mul_comm (2 ^ n), Nat.mod_mul]

/-! ## Dividing -/

/-- Native division, except for the quotient that does not fit. -/
theorem nativeSdiv_spec {l : BitVec 64} (r : BitVec 64) (hl : l.toInt ≠ -2 ^ 63) :
    (r.toInt = 0 → nativeSdiv l r = none) ∧
      (r.toInt ≠ 0 → ∃ v, nativeSdiv l r = some v ∧ v.toInt = l.toInt.tdiv r.toInt) := by
  have hmin : l ≠ BitVec.intMin 64 := by
    rintro rfl
    exact hl rfl
  have hzero : r = 0 ↔ r.toInt = 0 := by
    rw [← BitVec.toInt_inj]
    rfl
  unfold nativeSdiv
  rw [if_neg (fun h => hmin h.1)]
  constructor
  · intro h
    rw [if_pos (hzero.mpr h)]
  · intro h
    rw [if_neg (mt hzero.mp h)]
    exact ⟨_, rfl, BitVec.toInt_sdiv_of_ne_or_ne l r (Or.inl hmin)⟩

/-- The native remainder. -/
theorem nativeSrem_spec (l r : BitVec 64) :
    (r.toInt = 0 → nativeSrem l r = none) ∧
      (r.toInt ≠ 0 → ∃ v, nativeSrem l r = some v ∧ v.toInt = l.toInt.tmod r.toInt) := by
  have hzero : r = 0 ↔ r.toInt = 0 := by
    rw [← BitVec.toInt_inj]
    rfl
  unfold nativeSrem
  by_cases hover : l = BitVec.intMin 64 ∧ r = -1
  · rw [if_pos hover, hover.2, hover.1]
    exact ⟨fun h => absurd h (by decide), fun _ => ⟨0, rfl, rfl⟩⟩
  · rw [if_neg hover]
    constructor
    · intro h
      rw [if_pos (hzero.mpr h)]
    · intro h
      rw [if_neg (mt hzero.mp h)]
      exact ⟨_, rfl, BitVec.toInt_srem l r⟩

section Integers

variable {n : Nat} {a b : Int}

private theorem inRange_natAbs (hn : 0 < n) (h : TwosComplement.InRange true n a) :
    a.natAbs ≤ 2 ^ (n - 1) ∧ 2 ^ n = 2 * 2 ^ (n - 1) := by
  have hpow : 2 ^ n = 2 * 2 ^ (n - 1) := by
    rw [← pow_succ', Nat.sub_add_cancel hn]
  simp only [TwosComplement.InRange, if_true] at h
  have hcast : ((2 ^ (n - 1) : Nat) : Int) = 2 ^ (n - 1) := by push_cast; rfl
  exact ⟨by omega, hpow⟩

private theorem inRange_of_natAbs (h : a.natAbs < 2 ^ (n - 1)) :
    TwosComplement.InRange true n a := by
  have hcast : ((2 ^ (n - 1) : Nat) : Int) = 2 ^ (n - 1) := by push_cast; rfl
  simp only [TwosComplement.InRange, if_true]
  constructor <;> omega

/-- A signed quotient fits except for the smallest dividend by minus one. -/
theorem tdiv_inRange_iff (hn : 0 < n) (ha : TwosComplement.InRange true n a) (hb : b ≠ 0) :
    TwosComplement.InRange true n (a.tdiv b) ↔ ¬ (a = -2 ^ (n - 1) ∧ b = -1) := by
  obtain ⟨habs, hpow⟩ := inRange_natAbs hn ha
  by_cases h1 : b = 1
  · rw [h1, Int.tdiv_one]
    simp [ha]
  by_cases hm : b = -1
  · rw [hm, Int.tdiv_neg, Int.tdiv_one]
    simp only [TwosComplement.InRange, if_true] at ha ⊢
    constructor
    · rintro h ⟨rfl, -⟩
      omega
    · intro h
      have : a ≠ -2 ^ (n - 1) := fun heq => h ⟨heq, trivial⟩
      constructor <;> omega
  · have hquot : (a.tdiv b).natAbs < 2 ^ (n - 1) := by
      have hlt : a.natAbs / b.natAbs ≤ a.natAbs / 2 := Nat.div_le_div_left (by omega) (by omega)
      have hone := Nat.two_pow_pos (n - 1)
      have heq : (a.tdiv b).natAbs = a.natAbs / b.natAbs := Int.natAbs_tdiv a b
      omega
    exact ⟨fun _ h => hm h.2, fun _ => inRange_of_natAbs hquot⟩

/-- A signed remainder fits. -/
theorem tmod_inRange (ha : TwosComplement.InRange true n a) (b : Int) :
    TwosComplement.InRange true n (a.tmod b) := by
  have hle : a.natAbs % b.natAbs ≤ a.natAbs := Nat.mod_le _ _
  rw [TwosComplement.tmod_natAbs]
  simp only [TwosComplement.InRange, if_true] at ha ⊢
  split_ifs <;> constructor <;> omega

private theorem natAbs_of_not_inRange (hb : ¬ TwosComplement.InRange true 64 b) :
    2 ^ 63 ≤ b.natAbs ∧ (b.natAbs = 2 ^ 63 → narrowed b = 0) := by
  simp only [TwosComplement.InRange, if_true] at hb
  constructor
  · omega
  · intro h
    have hb' : b = 2 ^ 63 := by omega
    rw [hb']
    rfl

/-- When the native quotient is the quotient. -/
theorem tdiv_narrowed_iff (hn : 0 < n) (hn63 : n ≤ 63) (ha : TwosComplement.InRange true n a)
    (hb : b ≠ 0) (sized : Bool) :
    (narrowed b ≠ 0 ∧ a.tdiv (narrowed b) ≡ a.tdiv b [ZMOD 2 ^ n] ∧
        (sized = false → TwosComplement.InRange true n (a.tdiv b))) ↔
      (TwosComplement.InRange true 64 b ∨ a.natAbs < (narrowed b).natAbs) ∧
        ¬ (sized = false ∧ a = -2 ^ (n - 1) ∧ b = -1) := by
  obtain ⟨habs, hpow⟩ := inRange_natAbs hn ha
  by_cases hfit : TwosComplement.InRange true 64 b
  · rw [narrowed_of_inRange hfit, tdiv_inRange_iff hn ha hb]
    constructor
    · rintro ⟨-, -, h⟩
      exact ⟨Or.inl hfit, fun hbad => h hbad.1 hbad.2⟩
    · rintro ⟨-, h⟩
      exact ⟨hb, rfl, fun hs hbad => h ⟨hs, hbad⟩⟩
  · obtain ⟨hbig, -⟩ := natAbs_of_not_inRange hfit
    have h62 : 2 ^ (n - 1) ≤ 2 ^ 62 := Nat.pow_le_pow_right (by omega) (by omega)
    have hzero : a.tdiv b = 0 := by
      have hquot : (a.tdiv b).natAbs = a.natAbs / b.natAbs := Int.natAbs_tdiv a b
      rw [Nat.div_eq_of_lt (by omega)] at hquot
      omega
    have hm : b ≠ -1 := by omega
    have hquot : (a.tdiv (narrowed b)).natAbs = a.natAbs / (narrowed b).natAbs :=
      Int.natAbs_tdiv a _
    rw [hzero]
    constructor
    · rintro ⟨hne, hmod, -⟩
      refine ⟨Or.inr ?_, fun h => hm h.2.2⟩
      have hle : a.natAbs / (narrowed b).natAbs ≤ a.natAbs := Nat.div_le_self _ _
      have hcast : ((2 ^ n : Nat) : Int) = 2 ^ n := by push_cast; rfl
      have hlt : |a.tdiv (narrowed b)| < 2 ^ n := by
        rw [Int.abs_eq_natAbs, ← hcast]
        have := Nat.two_pow_pos (n - 1)
        omega
      have heq := Int.eq_zero_of_abs_lt_dvd (Int.modEq_zero_iff_dvd.mp hmod) hlt
      rw [heq, Int.natAbs_zero] at hquot
      exact (Nat.div_eq_zero_iff.mp hquot.symm).resolve_left (by omega)
    · rintro ⟨hfit' | hlt, -⟩
      · exact absurd hfit' hfit
      · have hq : a.tdiv (narrowed b) = 0 := by
          rw [Nat.div_eq_of_lt hlt] at hquot
          omega
        rw [hq]
        exact ⟨by omega, rfl, fun _ => TwosComplement.InRange.zero⟩

/-- When the native remainder is the remainder. -/
theorem tmod_narrowed_iff (hn : 0 < n) (hn64 : n ≤ 64) (ha : TwosComplement.InRange true n a)
    (hb : b ≠ 0) (sized : Bool) :
    (narrowed b ≠ 0 ∧ a.tmod (narrowed b) ≡ a.tmod b [ZMOD 2 ^ n] ∧
        (sized = false → TwosComplement.InRange true n (a.tmod b))) ↔
      TwosComplement.InRange true 64 b ∨ a.natAbs < (narrowed b).natAbs := by
  obtain ⟨habs, hpow⟩ := inRange_natAbs hn ha
  by_cases hfit : TwosComplement.InRange true 64 b
  · rw [narrowed_of_inRange hfit]
    exact ⟨fun _ => Or.inl hfit, fun _ => ⟨hb, rfl, fun _ => tmod_inRange ha b⟩⟩
  · obtain ⟨hbig, hedge⟩ := natAbs_of_not_inRange hfit
    have h63 : 2 ^ (n - 1) ≤ 2 ^ 63 := Nat.pow_le_pow_right (by omega) (by omega)
    have hsmall : narrowed b ≠ 0 → a.tmod b = a := by
      intro hne
      have hlt : a.natAbs < b.natAbs := by
        have : b.natAbs ≠ 2 ^ 63 := fun h => hne (hedge h)
        omega
      rw [TwosComplement.tmod_natAbs, Nat.mod_eq_of_lt hlt]
      split_ifs <;> omega
    constructor
    · rintro ⟨hne, hmod, -⟩
      right
      rw [hsmall hne] at hmod
      have hle : a.natAbs % (narrowed b).natAbs ≤ a.natAbs := Nat.mod_le _ _
      have hlt : |a - a.tmod (narrowed b)| < 2 ^ n := by
        have hcast : ((2 ^ n : Nat) : Int) = 2 ^ n := by push_cast; rfl
        rw [Int.abs_eq_natAbs, ← hcast, TwosComplement.tmod_natAbs]
        have := Nat.two_pow_pos (n - 1)
        split_ifs <;> omega
      have heq := Int.eq_zero_of_abs_lt_dvd hmod.dvd hlt
      have hrem : a.natAbs % (narrowed b).natAbs = a.natAbs := by
        have habs' := Int.natAbs_tmod a (narrowed b)
        rw [← habs']
        congr 1
        omega
      rw [← hrem]
      exact Nat.mod_lt _ (by omega)
    · rintro (hfit' | hlt)
      · exact absurd hfit' hfit
      · have hne : narrowed b ≠ 0 := by omega
        have hself : a.tmod (narrowed b) = a := by
          rw [TwosComplement.tmod_natAbs, Nat.mod_eq_of_lt hlt]
          split_ifs <;> omega
        rw [hsmall hne, hself]
        exact ⟨hne, rfl, fun _ => ha⟩

end Integers

end Icarus.Verinum
