import Icarus.Core.Loop
import Mathlib.Data.Nat.Bitwise
import Mathlib.Tactic.Linarith
import Mathlib.Tactic.Ring

/-!
# Average wait time

A total of two words is divided by a word, one bit of the quotient after the
other: bits are copied from the low into the high word until the divisor can be
subtracted.
-/

namespace Icarus.Vpi.Queue

open Icarus.Core

/-! ## The total -/

/-- `add_to_wait_time`; it fails where its assertion does. -/
def addToWaitTime (high low cTime : BitVec 64) : Option (BitVec 64 × BitVec 64) :=
  let carry : BitVec 64 := if BitVec.allOnes 64 - low < cTime then 1 else 0
  if carry = 0 ∨ high < BitVec.allOnes 64 then some (high + carry, low + cTime) else none

/-- The number of two words. -/
def wideNumber (high low : BitVec 64) : Nat := high.toNat * 2 ^ 64 + low.toNat

/-- A time is added if two words hold the sum. -/
theorem addToWaitTime_spec {high low cTime : BitVec 64}
    (h : wideNumber high low + cTime.toNat < 2 ^ 128) :
    ∃ sum, addToWaitTime high low cTime = some sum ∧
      wideNumber sum.1 sum.2 = wideNumber high low + cTime.toNat := by
  have hlow := low.isLt
  have htime := cTime.isLt
  have hroom : BitVec.allOnes 64 - low < cTime ↔ 2 ^ 64 ≤ low.toNat + cTime.toNat := by
    rw [BitVec.lt_def, BitVec.toNat_sub_of_le (by rw [BitVec.le_def, BitVec.toNat_allOnes]; omega),
      BitVec.toNat_allOnes]
    omega
  rw [wideNumber] at h
  rw [addToWaitTime]
  by_cases hcarry : BitVec.allOnes 64 - low < cTime
  · have hover := hroom.mp hcarry
    have hhigh : high.toNat + 1 < 2 ^ 64 := by omega
    have hmax : high < BitVec.allOnes 64 := by
      rw [BitVec.lt_def, BitVec.toNat_allOnes]
      omega
    rw [if_pos hcarry, if_pos (.inr hmax)]
    refine ⟨_, rfl, ?_⟩
    have hone : (1 : BitVec 64).toNat = 1 := rfl
    rw [wideNumber, wideNumber, BitVec.toNat_add, BitVec.toNat_add, hone]
    omega
  · have hfits : low.toNat + cTime.toNat < 2 ^ 64 := by
      by_contra hover
      exact hcarry (hroom.mpr (by omega))
    rw [if_neg hcarry, if_pos (.inl rfl)]
    refine ⟨_, rfl, ?_⟩
    have hzero : (0 : BitVec 64).toNat = 0 := rfl
    have hhigh := high.isLt
    rw [wideNumber, wideNumber, BitVec.toNat_add, BitVec.toNat_add, hzero]
    omega

/-! ## The division -/

/-- The variables of `calc_average_wait_time`. -/
structure Average where
  /-- `bit`: the place of the last bit copied. -/
  bit : Int
  /-- `result`. -/
  result : BitVec 64
  /-- `high`. -/
  high : BitVec 64
  /-- `low`. -/
  low : BitVec 64
  /-- `carry`: a bit went out of `high`. -/
  carry : Bool

/-- The body of the inner loop: a bit is copied from `low` to `high`. -/
def Average.copyBit (s : Average) : Average :=
  { s with
    carry := if s.high > BitVec.allOnes 64 >>> 1 then true else s.carry
    high := s.high <<< 1 ||| (if s.low &&& 0x8000000000000000 ≠ 0 then 1 else 0)
    low := s.low <<< 1
    bit := s.bit - 1 }

/-- The rest of the body: a valid bit is set, and the total subtracted. -/
def Average.placeBit (total : BitVec 64) (s : Average) : Average :=
  if 0 ≤ s.bit then
    { s with result := s.result ||| 1#64 <<< s.bit.toNat, high := s.high - total }
  else s

/-- The body of the outer loop. -/
def averageTurn (total : BitVec 64) (s : Average) : Option Average :=
  (Loop.whileLoop (fun s => 0 ≤ s.bit && s.high < total && !s.carry) (fun s => some s.copyBit) 67
    { s with carry := false }).map (Average.placeBit total)

/-- `calc_average_wait_time`; it fails where an assertion does. -/
def calcAverageWaitTime (high low total : BitVec 64) : Option (BitVec 64) :=
  if total = 0 then none
  else if high = 0 then some (low / total)
  else if total ≤ high then none
  else
    -- the loop has its condition at the end
    ((averageTurn total ⟨64, 0, high, low, false⟩).bind
      (Loop.whileLoop (fun s => 0 < s.bit) (averageTurn total) 66)).map Average.result

/-- So many bits are copied; the number is what is divided already, what is pending in `high`, and
what is left in `low`. -/
private structure Copied (total number k pending : Nat) (s : Average) : Prop where
  /-- The place of the last bit. -/
  bit : s.bit = 64 - (k : Int)
  /-- There are no more bits. -/
  le : k ≤ 64
  /-- The parts of the number. -/
  sum : number * 2 ^ k = s.result.toNat * total * 2 ^ k + pending * 2 ^ 64 + s.low.toNat
  /-- Zeros follow the bits that are left. -/
  low : 2 ^ k ∣ s.low.toNat
  /-- The places below the last bit are clear. -/
  result : 2 ^ (64 - k) ∣ s.result.toNat

section Division

variable {total : BitVec 64} {number k : Nat} {s : Average}

/-- All bits are copied. -/
private theorem Copied.quotient {pending : Nat} (h : Copied total.toNat number 64 pending s)
    (hlt : pending < total.toNat) : s.result.toNat = number / total.toNat := by
  have hlow := Nat.eq_zero_of_dvd_of_lt h.low s.low.isLt
  have hsum := h.sum
  rw [hlow, Nat.add_zero, ← Nat.add_mul] at hsum
  have heq := Nat.eq_of_mul_eq_mul_right (Nat.two_pow_pos 64) hsum
  rw [heq, Nat.mul_comm, Nat.mul_add_div (Nat.zero_lt_of_lt hlt), Nat.div_eq_of_lt hlt, Nat.add_zero]

/-- The highest bit of a word. -/
private theorem and_top_eq (x : BitVec 64) :
    (if x &&& 0x8000000000000000 ≠ 0 then (1 : BitVec 64) else 0).toNat = x.toNat / 2 ^ 63 := by
  have hlt := x.isLt
  have hand : (x &&& 0x8000000000000000).toNat = x.toNat / 2 ^ 63 * 2 ^ 63 := by
    have htop : (0x8000000000000000 : BitVec 64).toNat = 2 ^ 63 := rfl
    rw [BitVec.toNat_and, htop, Nat.and_two_pow, Nat.testBit_eq_decide_div_mod_eq]
    have hle : x.toNat / 2 ^ 63 ≤ 1 := by omega
    rcases Nat.le_one_iff_eq_zero_or_eq_one.mp hle with h | h <;> rw [h] <;> rfl
  have hzero : x &&& 0x8000000000000000 = 0 ↔ x.toNat / 2 ^ 63 = 0 := by
    rw [← BitVec.toNat_inj, hand, show (0 : BitVec 64).toNat = 0 from rfl]
    omega
  split_ifs with h
  · have hne : x.toNat / 2 ^ 63 ≠ 0 := fun h0 => h (hzero.mpr h0)
    have hone : (1 : BitVec 64).toNat = 1 := rfl
    omega
  · exact (hzero.mp (not_not.mp h)).symm

/-- A bit is copied; `carry` and `high` together have room for it. -/
private theorem copyBit_spec (h : s.carry = false) :
    s.copyBit.carry.toNat * 2 ^ 64 + s.copyBit.high.toNat =
        2 * s.high.toNat + s.low.toNat / 2 ^ 63 ∧
      s.copyBit.low.toNat = 2 * (s.low.toNat % 2 ^ 63) := by
  have hhigh := s.high.isLt
  have hlow := s.low.isLt
  obtain ⟨c, hc⟩ : ∃ c, c = (if s.low &&& 0x8000000000000000 ≠ 0 then (1 : BitVec 64) else 0) :=
    ⟨_, rfl⟩
  have hbit := and_top_eq s.low
  rw [← hc] at hbit
  have hor : (s.high <<< 1 ||| c).toNat = 2 * (s.high.toNat % 2 ^ 63) + s.low.toNat / 2 ^ 63 := by
    have hshift : s.high.toNat <<< 1 % 2 ^ 64 = 2 ^ 1 * (s.high.toNat % 2 ^ 63) := by
      rw [Nat.shiftLeft_eq]
      omega
    rw [BitVec.toNat_or, BitVec.toNat_shiftLeft, hshift, hbit,
      ← Nat.two_pow_add_eq_or_of_lt (by omega)]
  have hcarry : s.copyBit.carry = decide (2 ^ 63 ≤ s.high.toNat) := by
    have hmax : (BitVec.allOnes 64 >>> 1).toNat = 2 ^ 63 - 1 := rfl
    rw [Average.copyBit, h]
    dsimp only
    split_ifs with hgt <;> rw [gt_iff_lt, BitVec.lt_def, hmax] at hgt
    · exact (decide_eq_true (by omega)).symm
    · exact (decide_eq_false (by omega)).symm
  constructor
  · have hdef : s.copyBit.high = s.high <<< 1 ||| c := by rw [Average.copyBit, ← hc]
    rw [hcarry, hdef, hor]
    by_cases htop : 2 ^ 63 ≤ s.high.toNat
    · rw [decide_eq_true htop, Bool.toNat_true]
      omega
    · rw [decide_eq_false htop, Bool.toNat_false]
      omega
  · rw [Average.copyBit, BitVec.toNat_shiftLeft, Nat.shiftLeft_eq]
    omega

/-- As long as there are bits, one more is copied. -/
private theorem Copied.copyBit (hcarry : s.carry = false) (hk : k < 64)
    (h : Copied total.toNat number k s.high.toNat s) :
    Copied total.toNat number (k + 1) (s.copyBit.carry.toNat * 2 ^ 64 + s.copyBit.high.toNat)
      s.copyBit := by
  obtain ⟨hpending, hlow⟩ := copyBit_spec hcarry
  refine ⟨?_, hk, ?_, ?_, ?_⟩
  · have hdef : s.copyBit.bit = s.bit - 1 := rfl
    rw [hdef, h.bit]
    omega
  · have hsum := h.sum
    rw [hpending, hlow, pow_succ, ← Nat.mul_assoc, ← Nat.mul_assoc, hsum]
    have hdef : s.copyBit.result = s.result := rfl
    rw [hdef]
    omega
  · rw [hlow, pow_succ, Nat.mul_comm]
    exact Nat.mul_dvd_mul_left 2
      ((Nat.dvd_mod_iff (Nat.pow_dvd_pow 2 (by omega))).mpr h.low)
  · exact Nat.dvd_trans (Nat.pow_dvd_pow 2 (by omega)) h.result

/-- After the last bit nothing of the result changes. -/
private theorem Copied.copyBit_done (h : Copied total.toNat number 64 s.high.toNat s)
    (hlt : s.high < total) :
    s.copyBit.bit = -1 ∧ s.copyBit.result.toNat = number / total.toNat := by
  refine ⟨?_, h.quotient hlt⟩
  have hdef : s.copyBit.bit = s.bit - 1 := rfl
  rw [hdef, h.bit]
  omega

/-- A bit of the result is set where the total can be subtracted. -/
private theorem Copied.placeBit (hk : 0 < k)
    (h : Copied total.toNat number k (s.carry.toNat * 2 ^ 64 + s.high.toNat) s)
    (hclear : 2 ^ (65 - k) ∣ s.result.toNat)
    (hge : total.toNat ≤ s.carry.toNat * 2 ^ 64 + s.high.toNat)
    (hlt : s.carry.toNat * 2 ^ 64 + s.high.toNat < 2 * total.toNat) :
    Copied total.toNat number k (s.placeBit total).high.toNat (s.placeBit total) ∧
      (s.placeBit total).high < total := by
  have hle := h.le
  have hbit := h.bit
  obtain ⟨place, hplace⟩ : ∃ place, place = 64 - k := ⟨_, rfl⟩
  have hnext : 65 - k = place + 1 := by omega
  have hdef : s.placeBit total =
      { s with result := s.result ||| 1#64 <<< place, high := s.high - total } := by
    have hnat : s.bit.toNat = place := by omega
    rw [Average.placeBit, if_pos (by omega), hnat]
  rw [hnext] at hclear
  obtain ⟨q, hq⟩ := hclear
  have hresult : (s.result ||| 1#64 <<< place).toNat = s.result.toNat + 2 ^ place := by
    have hone : (1#64 <<< place).toNat = 2 ^ place := by
      rw [BitVec.toNat_shiftLeft, Nat.shiftLeft_eq, BitVec.toNat_ofNat]
      rw [Nat.mod_eq_of_lt (show 1 < 2 ^ 64 by omega), Nat.one_mul]
      exact Nat.mod_eq_of_lt (Nat.pow_lt_pow_right (by omega) (by omega))
    rw [BitVec.toNat_or, hone, hq, ← Nat.two_pow_add_eq_or_of_lt
      (Nat.pow_lt_pow_right (by omega) (Nat.lt_succ_self place))]
  have hhigh : (s.high - total).toNat =
      s.carry.toNat * 2 ^ 64 + s.high.toNat - total.toNat := by
    have h₁ := s.high.isLt
    have h₂ := total.isLt
    rw [BitVec.toNat_sub]
    cases hc : s.carry <;> rw [hc] at hge hlt <;>
      simp only [Bool.toNat_false, Bool.toNat_true] at hge hlt ⊢ <;> omega
  have hpow : 2 ^ place * 2 ^ k = 2 ^ 64 := by
    rw [← Nat.pow_add]
    congr 1
    omega
  rw [hdef]
  refine ⟨⟨hbit, hle, ?_, h.low, ?_⟩, ?_⟩
  · dsimp only
    have hsum := h.sum
    have hnew : (s.result.toNat + 2 ^ place) * total.toNat * 2 ^ k =
        s.result.toNat * total.toNat * 2 ^ k + total.toNat * 2 ^ 64 := by
      rw [← hpow]
      ring
    rw [hresult, hhigh, hnew, hsum]
    omega
  · dsimp only
    rw [hresult, ← hplace, hq, pow_succ, Nat.mul_assoc]
    exact Nat.dvd_add (Nat.dvd_mul_right _ _) (Nat.dvd_refl _)
  · rw [BitVec.lt_def]
    dsimp only
    rw [hhigh]
    omega

/-- The inner loop is left with a bit to be set, or after the last bit. -/
private def InnerInv (total : BitVec 64) (number start rank : Nat) (s : Average) : Prop :=
  (∃ k, start < k ∧ rank + k = 65 ∧
      Copied total.toNat number k (s.carry.toNat * 2 ^ 64 + s.high.toNat) s ∧
      s.carry.toNat * 2 ^ 64 + s.high.toNat < 2 * total.toNat ∧
      (total.toNat ≤ s.carry.toNat * 2 ^ 64 + s.high.toNat → 2 ^ (65 - k) ∣ s.result.toNat)) ∨
    rank = 0 ∧ s.bit = -1 ∧ s.result.toNat = number / total.toNat

/-- One turn of the inner loop. -/
private theorem InnerInv.step {start rank : Nat} (h : InnerInv total number start rank s)
    (hcond : (decide (0 ≤ s.bit) && decide (s.high < total) && !s.carry) = true) :
    ∃ t rank', some s.copyBit = some t ∧ rank' < rank ∧ InnerInv total number start rank' t := by
  simp only [Bool.and_eq_true, decide_eq_true_eq, Bool.not_eq_true'] at hcond
  obtain ⟨⟨hbit, hlt⟩, hcarry⟩ := hcond
  rcases h with ⟨k, hstart, hrank, hcopied, -, -⟩ | ⟨-, hdone, -⟩
  · rw [hcarry, Bool.toNat_false, Nat.zero_mul, Nat.zero_add] at hcopied
    have hle := hcopied.le
    rcases Nat.lt_or_eq_of_le hle with hk | rfl
    · have hnext := hcopied.copyBit hcarry hk
      obtain ⟨hpending, -⟩ := copyBit_spec hcarry
      refine ⟨_, rank - 1, rfl, by omega, .inl ⟨k + 1, by omega, by omega, hnext, ?_, fun _ => ?_⟩⟩
      · rw [BitVec.lt_def] at hlt
        have hlow := s.low.isLt
        rw [hpending]
        omega
      · rw [show 65 - (k + 1) = 64 - k by omega]
        exact hcopied.result
    · exact ⟨_, 0, rfl, by omega, .inr ⟨rfl, hcopied.copyBit_done hlt⟩⟩
  · omega

/-- The outer loop is at the end, or not all bits are copied. -/
private def OuterInv (total : BitVec 64) (number rank : Nat) (s : Average) : Prop :=
  (∃ k, rank + k = 64 ∧ Copied total.toNat number k s.high.toNat s ∧ s.high < total) ∨
    rank = 0 ∧ s.bit = -1 ∧ s.result.toNat = number / total.toNat

/-- One turn of the outer loop. -/
private theorem averageTurn_spec (hk : k < 64) (h : Copied total.toNat number k s.high.toNat s)
    (hlt : s.high < total) :
    ∃ t rank, averageTurn total s = some t ∧ rank < 64 - k ∧ OuterInv total number rank t := by
  obtain ⟨start, hstart⟩ : ∃ start, start = { s with carry := false } := ⟨_, rfl⟩
  have hcopied : Copied total.toNat number k start.high.toNat start := by
    rw [hstart]
    exact ⟨h.bit, h.le, h.sum, h.low, h.result⟩
  have hcarry : start.carry = false := by rw [hstart]
  have hhigh : start.high < total := by rwa [hstart]
  have hbit : 0 ≤ start.bit := by
    rw [hcopied.bit]
    omega
  -- at least one bit is copied
  have hfirst : InnerInv total number k (64 - k) start.copyBit := by
    obtain ⟨hpending, -⟩ := copyBit_spec hcarry
    refine .inl ⟨k + 1, by omega, by omega, hcopied.copyBit hcarry hk, ?_, fun _ => ?_⟩
    · rw [BitVec.lt_def] at hhigh
      have hlow := start.low.isLt
      rw [hpending]
      omega
    · rw [show 65 - (k + 1) = 64 - k by omega]
      exact hcopied.result
  obtain ⟨t, rank, hrun, hinv, hdone⟩ := Loop.whileLoop_total (InnerInv total number k)
    (fun rank s => InnerInv.step) hfirst (show 64 - k < 66 by omega)
  have hturn : averageTurn total s = some (t.placeBit total) := by
    rw [averageTurn, ← hstart, Loop.whileLoop, hcarry, decide_eq_true hbit, decide_eq_true hhigh]
    exact congrArg (Option.map (Average.placeBit total)) hrun
  rcases hinv with ⟨k', hk', hrank, hcopied', hlt', hclear⟩ | ⟨-, hbit', hresult⟩
  · have hge : total.toNat ≤ t.carry.toNat * 2 ^ 64 + t.high.toNat := by
      by_contra hless
      have hle := hcopied'.le
      have hbit' := hcopied'.bit
      have hbelow : t.high < total := by
        rw [BitVec.lt_def]
        omega
      have htotal := total.isLt
      have hnone : t.carry = false := by
        cases hc : t.carry with
        | false => rfl
        | true =>
          rw [hc, Bool.toNat_true] at hless
          omega
      rw [decide_eq_true (show 0 ≤ t.bit by omega), decide_eq_true hbelow, hnone] at hdone
      exact absurd hdone (by decide)
    have hle := hcopied'.le
    exact ⟨_, 64 - k', hturn, by omega, .inl ⟨k', by omega,
      hcopied'.placeBit (by omega) (hclear hge) hge hlt'⟩⟩
  · have hsame : t.placeBit total = t := by rw [Average.placeBit, if_neg (by omega)]
    exact ⟨_, 0, hturn, by omega, .inr ⟨rfl, hsame.symm ▸ ⟨hbit', hresult⟩⟩⟩

/-- The average is the total divided by the number of items, for every total and every number of
items above its high word. -/
theorem calcAverageWaitTime_eq {high low total : BitVec 64} (hlt : high < total) :
    ∃ result, calcAverageWaitTime high low total = some result ∧
      result.toNat = wideNumber high low / total.toNat := by
  rw [calcAverageWaitTime]
  have hne : total ≠ 0 := by
    rintro rfl
    exact Nat.not_lt_zero _ (BitVec.lt_def.mp hlt)
  rw [if_neg hne]
  by_cases hzero : high = 0
  · rw [if_pos hzero]
    refine ⟨_, rfl, ?_⟩
    rw [BitVec.toNat_udiv, wideNumber, hzero, show (0 : BitVec 64).toNat = 0 from rfl, Nat.zero_mul,
      Nat.zero_add]
  · rw [if_neg hzero, if_neg (BitVec.not_le.mpr hlt)]
    have hstart : Copied total.toNat (wideNumber high low) 0 high.toNat ⟨64, 0, high, low, false⟩ := by
      refine ⟨rfl, by omega, ?_, one_dvd _, Nat.dvd_zero _⟩
      rw [wideNumber, pow_zero, Nat.mul_one, show (0 : BitVec 64).toNat = 0 from rfl, Nat.zero_mul,
        Nat.zero_mul, Nat.zero_add]
    obtain ⟨s, rank, hturn, hrank, hinv⟩ :=
      averageTurn_spec (s := ⟨64, 0, high, low, false⟩) (by omega) hstart hlt
    have hround : ∀ rank (s : Average), OuterInv total (wideNumber high low) rank s →
        decide (0 < s.bit) = true → ∃ t rank', averageTurn total s = some t ∧ rank' < rank ∧
          OuterInv total (wideNumber high low) rank' t := by
      rintro rank s (⟨k, hrank, hcopied, hhigh⟩ | ⟨-, hbit, -⟩) hcond
      · have hbit := hcopied.bit
        have hpos := of_decide_eq_true hcond
        obtain ⟨t, rank', hrun, hlt', hinv'⟩ := averageTurn_spec (by omega) hcopied hhigh
        exact ⟨t, rank', hrun, by omega, hinv'⟩
      · rw [hbit] at hcond
        exact absurd hcond (by decide)
    obtain ⟨t, rank', hrun, hend, hdone⟩ := Loop.whileLoop_total _ hround hinv
      (show rank < 66 by omega)
    refine ⟨t.result, by rw [hturn, Option.bind_some, hrun, Option.map_some], ?_⟩
    rcases hend with ⟨k, -, hcopied, hhigh⟩ | ⟨-, -, hresult⟩
    · have hbit := hcopied.bit
      have hle := hcopied.le
      have hlast : ¬ 0 < t.bit := of_decide_eq_false hdone
      obtain rfl : k = 64 := by omega
      exact hcopied.quotient hhigh
    · exact hresult

end Division

end Icarus.Vpi.Queue
