import Icarus.Core.LongDivision
import Icarus.Vvp.Thread.Wide
import Icarus.Vvp.Vector2.Basic

/-!
# Wide division

`divide_bits` divides word by word. The trial digit comes from the top word of
the divisor and the two words of the dividend above it; it is reduced modulo the
size of a word, its multiple of the divisor modulo the size of the array, and
only a difference that turned negative is corrected.
-/

namespace Icarus.Vvp

open Icarus.Core

/-- The arrays of `divide_bits`. -/
structure DivideBits where
  /-- `ap`: what is left of the dividend. -/
  ap : List (BitVec 64)
  /-- `result`. -/
  result : List (BitVec 64)

/-- The variables of the loop that adds the divisor back. -/
structure AddBack where
  /-- `cur_res`. -/
  curRes : BitVec 64
  /-- `ap` from `cur_ptr` on. -/
  window : List (BitVec 64)
  /-- `carry`. -/
  carry : BitVec 64

/-- The loop of `divide_bits` that finds the top word of the divisor. -/
def topWord (bp : List (BitVec 64)) : Nat → Nat
  | 0 => 0
  | btop + 1 => if bp.getD (btop + 1) 0 = 0 then topWord bp btop else btop + 1

/-- The body of the loop that adds the divisor back. -/
def addBackStep (bp : List (BitVec 64)) (r : AddBack) : AddBack :=
  let sum := Words.pass (fun x c => addWithCarry x.1 x.2 c) (r.window.zip bp) 0
  { curRes := r.curRes - 1, window := sum.1, carry := sum.2 }

/-- The end of the body of the main loop: `cur_res` is tried, and corrected. -/
def subtractDigit (bp : List (BitVec 64)) (words curPtr : Nat) (s : DivideBits)
    (curRes : BitVec 64) : Option DivideBits :=
  let diff := multiplyArrayImm (bp.take (words - curPtr)) curRes
  let sub := Words.pass (fun x c => addWithCarry x.1 (~~~ x.2) c) ((s.ap.drop curPtr).zip diff) 1
  let r : AddBack := ⟨curRes, sub.1, sub.2⟩
  (if r.carry &&& 1 = 0 then
    Loop.whileLoop (fun r => r.carry = 0) (fun r => some (addBackStep bp r)) (2 ^ (64 * words))
      (addBackStep bp r)
  else some r).map fun r =>
    { ap := s.ap.take curPtr ++ r.window, result := s.result.set curPtr r.curRes }

/-- The body of the main loop. -/
def divideDigit (bp : List (BitVec 64)) (words btop curPtr : Nat) (s : DivideBits) :
    Option DivideBits :=
  let low := s.ap.getD (curPtr + btop) 0
  let b := bp.getD btop 0
  if low ≥ b then
    let high := if curPtr + btop + 1 < words then s.ap.getD (curPtr + btop + 1) 0 else 0
    (divide2words low b high).bind (subtractDigit bp words curPtr s)
  else if curPtr + btop + 1 ≥ words then some s
  else if s.ap.getD (curPtr + btop + 1) 0 = 0 then some s
  else
    (divide2words low b (s.ap.getD (curPtr + btop + 1) 0)).bind (subtractDigit bp words curPtr s)

/-- The main loop. -/
def divideLoop (bp : List (BitVec 64)) (words btop : Nat) : Nat → DivideBits → Option DivideBits
  | 0, s => some s
  | cur + 1, s => (divideDigit bp words btop cur s).bind (divideLoop bp words btop cur)

/-- `divide_bits`; the inner `none` is the null pointer for a division by zero. -/
def divideBits (ap bp : List (BitVec 64)) (wid : Nat) : Option (Option DivideBits) :=
  let words := wordCount wid
  let btop := topWord bp (words - 1)
  if btop = 0 ∧ bp.getD 0 0 = 0 then some none
  else (divideLoop bp words btop (words - btop) ⟨ap, List.replicate words 0⟩).map some

/-! ## The trial digit -/

/-- The position of the top word of a number. -/
def topOf (b : Nat) : Nat := b.log2 / 64

/-- The digit that is tried for a window of the dividend. -/
def trialDigit (b window : Nat) : Nat :=
  window / 2 ^ (64 * topOf b) % 2 ^ 128 / (b / 2 ^ (64 * topOf b)) % 2 ^ 64

/-- At every position the trial digit is not too small, and its multiple fits in the array. -/
def DigitsFit (words a b : Nat) : Prop :=
  ∀ pos < words - topOf b, LongDivision.Fits (2 ^ (64 * (words - pos))) b
    (LongDivision.windowAt (2 ^ 64) b a pos)
    (trialDigit b (LongDivision.windowAt (2 ^ 64) b a pos))

instance (words a b : Nat) : Decidable (DigitsFit words a b) :=
  inferInstanceAs (Decidable (∀ pos < words - topOf b, LongDivision.Fits _ _ _ _))

theorem topOf_spec {b : Nat} (hb : b ≠ 0) :
    2 ^ (64 * topOf b) ≤ b ∧ b < 2 ^ (64 * (topOf b + 1)) := by
  obtain ⟨hlow, hhigh⟩ := (Nat.log2_eq_iff hb).mp rfl
  constructor
  · exact Nat.le_trans (Nat.pow_le_pow_right (by omega) (by unfold topOf; omega)) hlow
  · exact Nat.lt_of_lt_of_le hhigh (Nat.pow_le_pow_right (by omega) (by unfold topOf; omega))

theorem topOf_eq {b k : Nat} (hlow : 2 ^ (64 * k) ≤ b) (hhigh : b < 2 ^ (64 * (k + 1))) :
    topOf b = k := by
  have hpos := Nat.two_pow_pos (64 * k)
  obtain ⟨hlow', hhigh'⟩ := topOf_spec (b := b) (by omega)
  have h₁ := (Nat.pow_lt_pow_iff_right (by omega)).mp (Nat.lt_of_le_of_lt hlow hhigh')
  have h₂ := (Nat.pow_lt_pow_iff_right (by omega)).mp (Nat.lt_of_le_of_lt hlow' hhigh)
  omega

/-- The scan finds the top word. -/
theorem topWord_spec (bp : List (BitVec 64)) (n : Nat) :
    topWord bp n ≤ n ∧ Words.value (bp.take (n + 1)) = Words.value (bp.take (topWord bp n + 1)) ∧
      (topWord bp n = 0 ∨ bp.getD (topWord bp n) 0 ≠ 0) := by
  induction n with
  | zero => exact ⟨Nat.le_refl _, rfl, .inl rfl⟩
  | succ n ih =>
    rw [topWord]
    split_ifs with hzero
    · obtain ⟨hle, hvalue, htop⟩ := ih
      refine ⟨by omega, ?_, htop⟩
      rw [Words.value_take_succ, hzero, hvalue]
      simp
    · exact ⟨Nat.le_refl _, rfl, .inr hzero⟩

/-- The top word and its position, for an array of words. -/
theorem topWord_eq {bp : List (BitVec 64)} (hpos : 0 < bp.length) :
    (topWord bp (bp.length - 1) = 0 ∧ bp.getD 0 0 = 0 ↔ Words.value bp = 0) ∧
      (Words.value bp ≠ 0 → topWord bp (bp.length - 1) = topOf (Words.value bp) ∧
        topOf (Words.value bp) < bp.length ∧ bp.getD (topOf (Words.value bp)) 0 ≠ 0 ∧
        (bp.getD (topOf (Words.value bp)) 0).toNat =
          Words.value bp / 2 ^ (64 * topOf (Words.value bp))) := by
  obtain ⟨hle, hvalue, htop⟩ := topWord_spec bp (bp.length - 1)
  rw [Nat.sub_add_cancel hpos, List.take_length, Words.value_take_succ] at hvalue
  have hlow := Words.value_lt (bp.take (topWord bp (bp.length - 1)))
  rw [List.length_take_of_le (by omega)] at hlow
  obtain ⟨k, hk⟩ : ∃ k, k = topWord bp (bp.length - 1) := ⟨_, rfl⟩
  rw [← hk] at hle hvalue htop hlow ⊢
  have hword := (bp.getD k 0).isLt
  have hne : bp.getD k 0 ≠ 0 ↔ (bp.getD k 0).toNat ≠ 0 :=
    not_congr ⟨fun h => by rw [h]; rfl, fun h => BitVec.eq_of_toNat_eq h⟩
  have hzero : k = 0 ∧ bp.getD 0 0 = 0 ↔ Words.value bp = 0 := by
    constructor
    · rintro ⟨rfl, h0⟩
      rw [hvalue, h0]
      simp
    · intro h0
      rw [hvalue] at h0
      have hw : (bp.getD k 0).toNat = 0 := by
        by_contra hw
        have := Nat.mul_pos (Nat.two_pow_pos (64 * k)) (Nat.pos_of_ne_zero hw)
        omega
      rcases htop with hk0 | hne'
      · rw [hk0] at hw
        exact ⟨hk0, BitVec.eq_of_toNat_eq hw⟩
      · exact absurd hw (hne.mp hne')
  refine ⟨hzero, fun hv => ?_⟩
  have hw : (bp.getD k 0).toNat ≠ 0 := by
    rcases htop with hk0 | hne'
    · intro h
      rw [hk0] at h
      exact hv (hzero.mp ⟨hk0, BitVec.eq_of_toNat_eq h⟩)
    · exact hne.mp hne'
  have htopOf : topOf (Words.value bp) = k := by
    apply topOf_eq
    · have := Nat.le_mul_of_pos_right (2 ^ (64 * k)) (Nat.pos_of_ne_zero hw)
      omega
    · have h := Words.value_lt (bp.take (k + 1))
      rw [List.length_take_of_le (by omega), Words.value_take_succ] at h
      rwa [hvalue]
  rw [htopOf]
  refine ⟨rfl, by omega, hne.mpr hw, ?_⟩
  rw [hvalue, Nat.add_mul_div_left _ _ (Nat.two_pow_pos _), Nat.div_eq_of_lt hlow, Nat.zero_add]

/-! ## One digit -/

/-- A difference in two's complement; the carry is clear if it is negative. -/
theorem value_subtract {xs ys : List (BitVec 64)} (hlen : xs.length = ys.length) :
    ∃ sub, Words.pass (fun x c => addWithCarry x.1 (~~~ x.2) c) (xs.zip ys) 1 = sub ∧
      sub.1.length = xs.length ∧ sub.2.toNat ≤ 1 ∧
      Words.value sub.1 + 2 ^ (64 * xs.length) * sub.2.toNat + Words.value ys =
        Words.value xs + 2 ^ (64 * xs.length) := by
  have hmap : Words.pass (fun x c => addWithCarry x.1 (~~~ x.2) c) (xs.zip ys) 1 =
      Words.pass (fun x c => addWithCarry x.1 x.2 c) (xs.zip (ys.map (~~~ ·))) 1 := by
    rw [List.zip_map_right, Words.pass_map]
    rfl
  have hlen' : xs.length = (ys.map (~~~ ·)).length := by rw [List.length_map, hlen]
  obtain ⟨hcarry, hsum⟩ := value_addWithCarry hlen' (show (1 : BitVec 64).toNat ≤ 1 by decide)
  have hnot := Words.value_map_not ys
  rw [← hlen] at hnot
  rw [← hmap] at hcarry hsum
  refine ⟨_, rfl, ?_, hcarry, ?_⟩
  · rw [Words.length_pass, List.length_zip, hlen, Nat.min_self]
  · rw [hsum, ← hnot]
    have hone : (1 : BitVec 64).toNat = 1 := rfl
    omega

theorem and_one_eq_zero {carry : BitVec 64} (hc : carry.toNat ≤ 1) :
    carry &&& 1 = 0 ↔ carry.toNat = 0 := by
  rcases Nat.le_one_iff_eq_zero_or_eq_one.mp hc with h | h
  · rw [BitVec.eq_of_toNat_eq (h.trans (show 0 = (0 : BitVec 64).toNat from rfl))]
    decide
  · rw [BitVec.eq_of_toNat_eq (h.trans (show 1 = (1 : BitVec 64).toNat from rfl))]
    decide

section Digit

variable {bp : List (BitVec 64)} {curRes : BitVec 64} {window : Nat}

/-- The divisor has been added back so many times, and was needed each time. -/
private structure AddedBack (bp : List (BitVec 64)) (len divisor window : Nat) (curRes : BitVec 64)
    (rank : Nat) (r : AddBack) : Prop where
  /-- The array keeps its length. -/
  length : r.window.length = len
  /-- The carry is a bit. -/
  carry : r.carry.toNat ≤ 1
  /-- How many times. -/
  times : ∃ back, 0 < back ∧
    Words.value r.window + 2 ^ (64 * len) * r.carry.toNat +
        divisor * curRes.toNat % 2 ^ (64 * len) = window + back * divisor + 2 ^ (64 * len) ∧
    window + back * divisor < divisor * curRes.toNat % 2 ^ (64 * len) + divisor ∧
    r.curRes = BitVec.ofNat 64 (curRes.toNat - back) ∧
    rank = divisor * curRes.toNat % 2 ^ (64 * len) - (window + back * divisor)

/-- One more time. -/
theorem addBackStep_spec {len divisor : Nat} (hbp : len ≤ bp.length)
    (hdivisor : Words.value (bp.take len) = divisor) {r : AddBack} (hlen : r.window.length = len) :
    (addBackStep bp r).window.length = len ∧ (addBackStep bp r).carry.toNat ≤ 1 ∧
      Words.value (addBackStep bp r).window + 2 ^ (64 * len) * (addBackStep bp r).carry.toNat =
        Words.value r.window + divisor ∧ (addBackStep bp r).curRes = r.curRes - 1 := by
  have htake : (bp.take len).length = len := List.length_take_of_le hbp
  have hzip : r.window.zip bp = r.window.zip (bp.take len) := by
    have hmin := @List.zip_eq_zip_take_min _ _ r.window bp
    rwa [hlen, Nat.min_eq_left hbp, List.take_of_length_le hlen.le] at hmin
  obtain ⟨hcarry, hsum⟩ := value_addWithCarry (hlen.trans htake.symm)
    (show (0 : BitVec 64).toNat ≤ 1 by decide)
  rw [← hzip, hlen, hdivisor] at hsum
  rw [← hzip] at hcarry
  refine ⟨?_, hcarry, hsum, rfl⟩
  rw [addBackStep]
  dsimp only
  rw [Words.length_pass, hzip, List.length_zip, hlen, htake, Nat.min_self]

private theorem ofNat_sub_one {n : Nat} (hn : 0 < n) (hlt : n < 2 ^ 64) :
    BitVec.ofNat 64 n - 1 = BitVec.ofNat 64 (n - 1) := by
  have hone : (1 : BitVec 64).toNat = 1 := rfl
  have hn' : (BitVec.ofNat 64 n).toNat = n := by
    rw [BitVec.toNat_ofNat, Nat.mod_eq_of_lt hlt]
  apply BitVec.eq_of_toNat_eq
  rw [BitVec.toNat_sub_of_le (BitVec.le_def.mpr (by omega)), hn', hone, BitVec.toNat_ofNat,
    Nat.mod_eq_of_lt (by omega)]

private theorem AddedBack.step {len divisor rank : Nat} (hbp : len ≤ bp.length)
    (hdivisor : Words.value (bp.take len) = divisor) (hpos : 0 < divisor) {r : AddBack}
    (h : AddedBack bp len divisor window curRes rank r) (hcarry : r.carry = 0) :
    ∃ rank' < rank, AddedBack bp len divisor window curRes rank' (addBackStep bp r) := by
  obtain ⟨back, hback, hvalue, hlt, hres, hrank⟩ := h.times
  obtain ⟨hlen', hcarry', hvalue', hres'⟩ := addBackStep_spec hbp hdivisor h.length
  have hbound := Words.value_lt r.window
  have hzero : r.carry.toNat = 0 := by rw [hcarry]; rfl
  rw [h.length] at hbound
  rw [hzero, Nat.mul_zero, Nat.add_zero] at hvalue
  have hmore : back < curRes.toNat := by
    by_contra hnot
    have hmul := Nat.mul_le_mul_left divisor (Nat.not_lt.mp hnot)
    have hmod := Nat.mod_le (divisor * curRes.toNat) (2 ^ (64 * len))
    rw [Nat.mul_comm divisor back] at hmul
    omega
  have hsucc : (back + 1) * divisor = back * divisor + divisor := Nat.succ_mul _ _
  have hword := curRes.isLt
  refine ⟨_, ?_, hlen', hcarry', back + 1, by omega, ?_, ?_, ?_, rfl⟩
  · omega
  · omega
  · omega
  · rw [hres', hres, ofNat_sub_one (by omega) (by omega), Nat.sub_sub]

/-- The first time. -/
private theorem AddedBack.first {len divisor : Nat} (hbp : len ≤ bp.length)
    (hdivisor : Words.value (bp.take len) = divisor) {sub : List (BitVec 64) × BitVec 64}
    (hlen : sub.1.length = len) (hvalue : Words.value sub.1 +
      divisor * curRes.toNat % 2 ^ (64 * len) = window + 2 ^ (64 * len)) :
    ∃ rank, rank < 2 ^ (64 * len) ∧ AddedBack bp len divisor window curRes rank
      (addBackStep bp ⟨curRes, sub.1, sub.2⟩) := by
  obtain ⟨hlen', hcarry', hvalue', hres'⟩ :=
    @addBackStep_spec bp len divisor hbp hdivisor ⟨curRes, sub.1, sub.2⟩ hlen
  have hbound := Words.value_lt sub.1
  rw [hlen] at hbound
  have hmod := Nat.mod_lt (divisor * curRes.toNat) (Nat.two_pow_pos (64 * len))
  have htrial : 0 < curRes.toNat := by
    by_contra h0
    rw [Nat.eq_zero_of_not_pos h0, Nat.mul_zero, Nat.zero_mod] at hvalue
    omega
  have hword := curRes.isLt
  dsimp only at hvalue' hres'
  refine ⟨divisor * curRes.toNat % 2 ^ (64 * len) - (window + 1 * divisor), by omega, hlen',
    hcarry', 1, Nat.one_pos, by omega, by omega, ?_, rfl⟩
  rw [hres', ← ofNat_sub_one htrial hword, BitVec.ofNat_toNat, BitVec.setWidth_eq]

/-- The end of the body of the main loop tries the digit. -/
private theorem subtractDigit_spec {words curPtr divisor : Nat} {s : DivideBits}
    (hap : s.ap.length = words) (hbp : bp.length = words) (hcur : curPtr < words)
    (hdivisor : Words.value (bp.take (words - curPtr)) = divisor) (hpos : 0 < divisor)
    (curRes : BitVec 64) :
    ∃ part, part.length = words - curPtr ∧
      Words.value part = (LongDivision.tryDigit (2 ^ (64 * (words - curPtr))) divisor
        (Words.value (s.ap.drop curPtr)) curRes.toNat).1 ∧
      subtractDigit bp words curPtr s curRes = some
        { ap := s.ap.take curPtr ++ part
          result := s.result.set curPtr (BitVec.ofNat 64 (LongDivision.tryDigit
            (2 ^ (64 * (words - curPtr))) divisor (Words.value (s.ap.drop curPtr))
              curRes.toNat).2) } := by
  obtain ⟨len, hlen⟩ : ∃ len, len = words - curPtr := ⟨_, rfl⟩
  obtain ⟨window, hwindow⟩ : ∃ window, window = Words.value (s.ap.drop curPtr) := ⟨_, rfl⟩
  rw [← hlen, ← hwindow]
  rw [← hlen] at hdivisor
  have hdrop : (s.ap.drop curPtr).length = len := by rw [List.length_drop, hap, hlen]
  have htake : (bp.take len).length = len := List.length_take_of_le (by omega)
  obtain ⟨hdlen, hdiff⟩ := multiplyArrayImm_spec (bp.take len) curRes
  rw [htake] at hdlen hdiff
  rw [hdivisor] at hdiff
  obtain ⟨sub, hsub, hsublen, hcarry, hvalue⟩ := value_subtract (hdrop.trans hdlen.symm)
  rw [hdrop] at hsublen hvalue
  rw [hdiff, ← hwindow] at hvalue
  have hslt := Words.value_lt sub.1
  rw [hsublen] at hslt
  have hrun : subtractDigit bp words curPtr s curRes =
      (if sub.2 &&& 1 = 0 then
        Loop.whileLoop (fun r => r.carry = 0) (fun r => some (addBackStep bp r)) (2 ^ (64 * words))
          (addBackStep bp ⟨curRes, sub.1, sub.2⟩)
      else some ⟨curRes, sub.1, sub.2⟩).map fun r =>
        { ap := s.ap.take curPtr ++ r.window, result := s.result.set curPtr r.curRes } := by
    rw [subtractDigit, ← hlen, hsub]
  rw [hrun, LongDivision.tryDigit]
  by_cases hneg : sub.2.toNat = 0
  · -- the difference is negative
    rw [if_pos ((and_one_eq_zero hcarry).mpr hneg)]
    rw [hneg, Nat.mul_zero, Nat.add_zero] at hvalue
    obtain ⟨rank, hrank, hfirst⟩ := AddedBack.first (by omega) hdivisor hsublen hvalue
    have hround : ∀ rank (r : AddBack), AddedBack bp len divisor window curRes rank r →
        decide (r.carry = 0) = true → ∃ t rank', some (addBackStep bp r) = some t ∧
          rank' < rank ∧ AddedBack bp len divisor window curRes rank' t := by
      intro rank r hr hcond
      obtain ⟨rank', hlt, hnext⟩ := hr.step (by omega) hdivisor hpos (of_decide_eq_true hcond)
      exact ⟨_, rank', rfl, hlt, hnext⟩
    have hfuel : rank < 2 ^ (64 * words) :=
      Nat.lt_of_lt_of_le hrank (Nat.pow_le_pow_right (by omega) (by omega))
    obtain ⟨r, rank', hloop, hr, hdone⟩ := Loop.whileLoop_total _ hround hfirst hfuel
    obtain ⟨back, hback, hrvalue, hrlt, hrres, -⟩ := hr.times
    have hone : r.carry.toNat = 1 := by
      have hne : r.carry.toNat ≠ 0 := fun h0 => of_decide_eq_false hdone (BitVec.eq_of_toNat_eq h0)
      have hle := hr.carry
      omega
    rw [hone, Nat.mul_one] at hrvalue
    have hadd := LongDivision.addBacks_eq (2 ^ (64 * len)) window curRes.toNat hpos
      (show _ ≤ window + back * divisor by omega) hrlt
    refine ⟨r.window, hr.length, ?_, ?_⟩
    · rw [hadd]
      dsimp only
      omega
    · rw [hloop, Option.map_some, hadd, hrres]
  · have hone : sub.2.toNat = 1 := by omega
    rw [if_neg fun h => hneg ((and_one_eq_zero hcarry).mp h), Option.map_some]
    rw [hone, Nat.mul_one] at hvalue
    have hadd : LongDivision.addBacks (2 ^ (64 * len)) divisor window curRes.toNat = 0 := by
      rw [LongDivision.addBacks, Nat.sub_eq_zero_of_le (by omega), Nat.zero_add]
      exact Nat.div_eq_of_lt (by omega)
    refine ⟨sub.1, hsublen, ?_, ?_⟩
    · rw [hadd]
      dsimp only
      omega
    · rw [hadd, Nat.sub_zero, BitVec.ofNat_toNat, BitVec.setWidth_eq]

/-- Two words of an array. -/
private theorem value_two_words (xs : List (BitVec 64)) (k : Nat) :
    Words.value xs / 2 ^ (64 * k) % 2 ^ 128 =
      (xs.getD (k + 1) 0).toNat * 2 ^ 64 + (xs.getD k 0).toNat := by
  have htake := Words.value_take (xs.drop k) 2
  rw [Words.value_drop] at htake
  rw [show (2 : Nat) ^ 128 = 2 ^ (64 * 2) from rfl, ← htake, Words.value_take_succ,
    Words.value_take_succ]
  have hget : ∀ i, (xs.drop k).getD i 0 = xs.getD (k + i) 0 := by
    intro i
    rw [List.getD_eq_getElem?_getD, List.getElem?_drop, List.getD_eq_getElem?_getD]
  rw [hget, hget, List.take_zero, Words.value_nil]
  simp only [Nat.mul_zero, Nat.pow_zero, Nat.one_mul, Nat.zero_add, Nat.add_zero, Nat.mul_one]
  omega

private theorem getD_of_ge {xs : List (BitVec 64)} {k : Nat} (hk : xs.length ≤ k) :
    xs.getD k 0 = 0 := by
  rw [List.getD_eq_getElem?_getD, List.getElem?_eq_none hk, Option.getD_none]

private theorem set_zero {xs : List (BitVec 64)} {k : Nat} (h : xs.getD k 0 = 0) :
    xs.set k 0 = xs := by
  by_cases hk : k < xs.length
  · rw [List.getD_eq_getElem?_getD, List.getElem?_eq_getElem hk, Option.getD_some] at h
    rw [← h, List.set_getElem_self]
  · exact List.set_eq_of_length_le (by omega)

/-- The trial digit, from the words that the code reads. -/
theorem trialDigit_words (hpos : 0 < bp.length) (hne : Words.value bp ≠ 0) (ap : List (BitVec 64))
    (curPtr : Nat) :
    trialDigit (Words.value bp) (Words.value ap / 2 ^ (64 * curPtr)) =
      ((ap.getD (curPtr + topOf (Words.value bp) + 1) 0).toNat * 2 ^ 64 +
          (ap.getD (curPtr + topOf (Words.value bp)) 0).toNat) /
        (bp.getD (topOf (Words.value bp)) 0).toNat % 2 ^ 64 := by
  obtain ⟨-, hword⟩ := topWord_eq hpos
  obtain ⟨-, -, -, hbtop⟩ := hword hne
  rw [trialDigit, Nat.div_div_eq_div_mul, ← Nat.pow_add, ← Nat.mul_add, value_two_words, hbtop]

/-- The body of the main loop tries the trial digit. -/
theorem divideDigit_spec {words curPtr : Nat} {s : DivideBits}
    (hap : s.ap.length = words) (hbp : bp.length = words) (hne : Words.value bp ≠ 0)
    (hcur : curPtr + topOf (Words.value bp) < words) (hlen : s.result.length = words)
    (hzero : s.result.getD curPtr 0 = 0) :
    ∃ d s', d = LongDivision.tryDigit (2 ^ (64 * (words - curPtr))) (Words.value bp)
        (Words.value s.ap / 2 ^ (64 * curPtr))
        (trialDigit (Words.value bp) (Words.value s.ap / 2 ^ (64 * curPtr))) ∧
      divideDigit bp words (topOf (Words.value bp)) curPtr s = some s' ∧
      s'.ap.length = words ∧
      Words.value s'.ap = d.1 * 2 ^ (64 * curPtr) + Words.value s.ap % 2 ^ (64 * curPtr) ∧
      s'.result = s.result.set curPtr (BitVec.ofNat 64 d.2) := by
  obtain ⟨top, htop⟩ : ∃ top, top = topOf (Words.value bp) := ⟨_, rfl⟩
  obtain ⟨-, hword⟩ := @topWord_eq bp (by omega)
  obtain ⟨-, htoplt, hbne, -⟩ := hword hne
  rw [← htop] at hcur htoplt hbne ⊢
  obtain ⟨hlow, hhigh⟩ := topOf_spec hne
  rw [← htop] at hlow hhigh
  have htrial := trialDigit_words (by omega) hne s.ap curPtr
  rw [← htop] at htrial
  have hdivisor : Words.value (bp.take (words - curPtr)) = Words.value bp := by
    rw [Words.value_take]
    exact Nat.mod_eq_of_lt (Nat.lt_of_lt_of_le hhigh (Nat.pow_le_pow_right (by omega) (by omega)))
  have hsub : ∀ curRes, divide2words (s.ap.getD (curPtr + top) 0) (bp.getD top 0)
        (s.ap.getD (curPtr + top + 1) 0) = some curRes →
      ∃ d s', d = LongDivision.tryDigit (2 ^ (64 * (words - curPtr))) (Words.value bp)
          (Words.value s.ap / 2 ^ (64 * curPtr))
          (trialDigit (Words.value bp) (Words.value s.ap / 2 ^ (64 * curPtr))) ∧
        subtractDigit bp words curPtr s curRes = some s' ∧ s'.ap.length = words ∧
        Words.value s'.ap = d.1 * 2 ^ (64 * curPtr) + Words.value s.ap % 2 ^ (64 * curPtr) ∧
        s'.result = s.result.set curPtr (BitVec.ofNat 64 d.2) := by
    intro curRes hres
    rw [divide2words_eq hbne, Option.some_inj] at hres
    have hnat : curRes.toNat =
        trialDigit (Words.value bp) (Words.value s.ap / 2 ^ (64 * curPtr)) := by
      rw [← hres, BitVec.toNat_ofNat, htrial]
    obtain ⟨part, hplen, hpart, hrun⟩ := subtractDigit_spec hap hbp (by omega) hdivisor
      (Nat.pos_of_ne_zero hne) curRes
    rw [Words.value_drop, hnat] at hpart hrun
    refine ⟨_, _, rfl, hrun, ?_, ?_, rfl⟩
    · rw [List.length_append, List.length_take_of_le (by omega), hplen]
      omega
    · rw [Words.value_append, List.length_take_of_le (by omega), hpart, Words.value_take, Nat.add_comm,
        Nat.mul_comm]
  have hskip : (s.ap.getD (curPtr + top) 0).toNat < (bp.getD top 0).toNat →
      s.ap.getD (curPtr + top + 1) 0 = 0 →
      ∃ d, d = LongDivision.tryDigit (2 ^ (64 * (words - curPtr))) (Words.value bp)
          (Words.value s.ap / 2 ^ (64 * curPtr))
          (trialDigit (Words.value bp) (Words.value s.ap / 2 ^ (64 * curPtr))) ∧
        Words.value s.ap = d.1 * 2 ^ (64 * curPtr) + Words.value s.ap % 2 ^ (64 * curPtr) ∧
        s.result = s.result.set curPtr (BitVec.ofNat 64 d.2) := by
    intro hlt hzero'
    refine ⟨_, rfl, ?_, ?_⟩
    all_goals
      rw [htrial, hzero', show (0 : BitVec 64).toNat = 0 from rfl, Nat.zero_mul, Nat.zero_add,
        Nat.div_eq_of_lt hlt, Nat.zero_mod, LongDivision.tryDigit, LongDivision.addBacks,
        Nat.mul_zero, Nat.zero_mod, Nat.zero_sub, Nat.zero_add,
        Nat.div_eq_of_lt (Nat.sub_lt (Nat.pos_of_ne_zero hne) Nat.one_pos)]
      dsimp only
    · rw [Nat.zero_mul, Nat.add_zero, Nat.sub_zero, Nat.mul_comm, Nat.add_comm, Nat.mod_add_div]
    · rw [Nat.zero_sub]
      exact (set_zero hzero).symm
  have hhighword : (if curPtr + top + 1 < words then s.ap.getD (curPtr + top + 1) 0 else 0) =
      s.ap.getD (curPtr + top + 1) 0 := by
    split_ifs with hlt
    · rfl
    · exact (getD_of_ge (by omega)).symm
  have hcall := divide2words_eq hbne (s.ap.getD (curPtr + top) 0) (s.ap.getD (curPtr + top + 1) 0)
  rw [divideDigit, hhighword]
  dsimp only
  split_ifs with hge hout hnone
  · obtain ⟨d, s', hd, hrun, hrest⟩ := hsub _ hcall
    exact ⟨d, s', hd, by rw [hcall, Option.bind_some, hrun], hrest⟩
  · obtain ⟨d, hd, hvalue, hresult⟩ := hskip (by rwa [ge_iff_le, BitVec.not_le] at hge)
      (getD_of_ge (by omega))
    exact ⟨d, s, hd, rfl, hap, hvalue, hresult⟩
  · obtain ⟨d, hd, hvalue, hresult⟩ := hskip (by rwa [ge_iff_le, BitVec.not_le] at hge) hnone
    exact ⟨d, s, hd, rfl, hap, hvalue, hresult⟩
  · obtain ⟨d, s', hd, hrun, hrest⟩ := hsub _ hcall
    exact ⟨d, s', hd, by rw [hcall, Option.bind_some, hrun], hrest⟩

end Digit

/-! ## All digits -/

/-- Quotient and rest as the loop over numbers finds them. -/
def longDivide (words a b : Nat) : Nat × Nat :=
  LongDivision.divide (2 ^ 64) b (fun pos => 2 ^ (64 * (words - pos))) (fun _ => trialDigit b)
    (words - topOf b) a

theorem trialDigit_lt (b window : Nat) : trialDigit b window < 2 ^ 64 :=
  Nat.mod_lt _ (Nat.two_pow_pos 64)

/-- The main loop is the loop over numbers. -/
private theorem divideLoop_spec {bp : List (BitVec 64)} {words : Nat} (hbp : bp.length = words)
    (hne : Words.value bp ≠ 0) (cur : Nat) {s : DivideBits} (hap : s.ap.length = words)
    (hcur : cur + topOf (Words.value bp) ≤ words) (hlen : s.result.length = words)
    (hzero : ∀ i < cur, s.result.getD i 0 = 0) :
    ∃ s' r, r = LongDivision.divide (2 ^ 64) (Words.value bp) (fun pos => 2 ^ (64 * (words - pos)))
        (fun _ => trialDigit (Words.value bp)) cur (Words.value s.ap) ∧
      divideLoop bp words (topOf (Words.value bp)) cur s = some s' ∧ s'.ap.length = words ∧
      s'.result.length = words ∧ Words.value s'.ap = r.1 ∧
      Words.value s'.result = Words.value s.result + r.2 := by
  induction cur generalizing s with
  | zero => exact ⟨s, _, rfl, rfl, hap, hlen, rfl, rfl⟩
  | succ pos ih =>
    obtain ⟨d, s₁, hd, hrun, hap₁, hvalue₁, hresult₁⟩ := divideDigit_spec hap hbp hne (by omega) hlen
      (hzero pos (Nat.lt_succ_self pos))
    have hlen₁ : s₁.result.length = words := by rw [hresult₁, List.length_set, hlen]
    have hzero₁ : ∀ i < pos, s₁.result.getD i 0 = 0 := by
      intro i hi
      rw [hresult₁, List.getD_eq_getElem?_getD, List.getElem?_set_ne (by omega),
        ← List.getD_eq_getElem?_getD]
      exact hzero i (by omega)
    obtain ⟨s', r, hr, hloop, hap', hlen', hvalue', hresult'⟩ := ih hap₁ (by omega) hlen₁ hzero₁
    have hdlt : d.2 < 2 ^ 64 := by
      rw [hd, LongDivision.tryDigit]
      exact Nat.lt_of_le_of_lt (Nat.sub_le _ _) (trialDigit_lt _ _)
    have hset := Words.value_set s.result (show pos < s.result.length by omega) (BitVec.ofNat 64 d.2)
    rw [hzero pos (Nat.lt_succ_self pos), ← hresult₁, BitVec.toNat_ofNat, Nat.mod_eq_of_lt hdlt,
      show (0 : BitVec 64).toNat = 0 from rfl, Nat.mul_zero, Nat.add_zero] at hset
    refine ⟨s', _, rfl, by rw [divideLoop, hrun, Option.bind_some, hloop], hap', hlen', ?_, ?_⟩
    · rw [LongDivision.divide, ← pow_mul, ← hd, ← hvalue₁, ← hr, hvalue']
    · rw [LongDivision.divide, ← pow_mul, ← hd, ← hvalue₁, ← hr, hresult', hset, Nat.mul_comm d.2]
      dsimp only
      omega

/-- `divide_bits` returns the null pointer for a division by zero, and otherwise what the loop over
numbers finds. -/
theorem divideBits_spec {ap bp : List (BitVec 64)} {wid : Nat} (hap : ap.length = wordCount wid)
    (hbp : bp.length = wordCount wid) (hwid : 0 < wid) :
    (Words.value bp = 0 → divideBits ap bp wid = some none) ∧
      (Words.value bp ≠ 0 → ∃ s, divideBits ap bp wid = some (some s) ∧
        s.ap.length = wordCount wid ∧ s.result.length = wordCount wid ∧
        (Words.value s.ap, Words.value s.result) =
          longDivide (wordCount wid) (Words.value ap) (Words.value bp)) := by
  have hpos : 0 < bp.length := by
    rw [hbp, wordCount]
    omega
  obtain ⟨hzero, htop⟩ := topWord_eq hpos
  rw [hbp] at hzero htop
  constructor
  · intro h0
    rw [divideBits, if_pos (hzero.mpr h0)]
  · intro hne
    obtain ⟨hword, hlt, -⟩ := htop hne
    obtain ⟨s, r, hr, hloop, haplen, hlen, hvalue, hresult⟩ := divideLoop_spec hbp hne
      (wordCount wid - topOf (Words.value bp))
      (s := ⟨ap, List.replicate (wordCount wid) 0⟩) hap (by omega) (List.length_replicate ..)
      (fun i hi => by
        rw [List.getD_eq_getElem?_getD, List.getElem?_replicate]
        split_ifs <;> rfl)
    refine ⟨s, ?_, haplen, hlen, ?_⟩
    · rw [divideBits, if_neg fun h => hne (hzero.mp h), hword, hloop, Option.map_some]
    · rw [Words.value_replicate_zero, Nat.zero_add] at hresult
      rw [hvalue, hresult, hr]
      rfl

end Icarus.Vvp
