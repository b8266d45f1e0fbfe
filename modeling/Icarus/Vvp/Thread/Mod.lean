import Icarus.Vvp.Thread.Divide

/-!
# The remainder opcodes

`%mod` and `%mod/s` take the remainder of a word or less natively. What is wider
is divided bit by bit: the divisor is subtracted from a window that moves down
the dividend, where the window is not smaller.
-/

namespace Icarus.Vvp

open Icarus.Core

/-! ## Bit by bit -/

/-- The bits of a vector, as `do_verylong_mod` reads them. -/
def bitsOf (v : Vector4) : List (BitVec 1) := v.map fun b => if b = .one then 1 else 0

/-- One bit of a negation, with its carry. -/
def negateBit (b : BitVec 1) (carry : Nat) : BitVec 1 × Nat :=
  let sum := (1 - b).toNat + carry
  (BitVec.ofNat 1 sum, if sum / 2 ≠ 0 then 1 else 0)

/-- The bits of an operand or of the result, negated if it is negative. -/
def negateBits (isNeg : Bool) (bits : List (BitVec 1)) : List (BitVec 1) :=
  if isNeg then (Words.pass negateBit bits 1).1 else bits

/-- The loops that find `mxa` and `mxz`. -/
def topIndex (found : Nat → Bool) : Nat → Int
  | 0 => -1
  | i + 1 => if found i then i else topIndex found i

/-- The body of the loop of `do_verylong_mod`. -/
def subtractWindow (a : List (BitVec 1)) (copylen current : Nat) (z : List (BitVec 1)) :
    List (BitVec 1) :=
  let t := Words.pass (fun x carry =>
    let temp := x.1.toNat + x.2.toNat + carry
    (BitVec.ofNat 1 temp, temp / 2)) (((z.drop current).take copylen).zip (a.take copylen)) 1
  if t.2 ≠ 0 then z.take current ++ t.1 ++ z.drop (current + copylen) else z

/-- The loop of `do_verylong_mod`, from the window before `current` down. -/
def modLoop (a : List (BitVec 1)) (copylen : Nat) : Nat → List (BitVec 1) → List (BitVec 1)
  | 0, z => z
  | current + 1, z => modLoop a copylen current (subtractWindow a copylen current z)

/-- The end of `do_verylong_mod`, at `tally`. -/
def tally (len : Nat) (outIsNeg : Bool) (z : List (BitVec 1)) : Vector4 :=
  (negateBits outIsNeg (z.take len)).map fun b => if b ≠ 0 then .one else .zero

/-- `do_verylong_mod`. -/
def doVerylongMod (vala valb : Vector4) (leftIsNeg rightIsNeg : Bool) : Vector4 :=
  let len := vala.length
  if vala.hasXz || valb.hasXz then xVec len
  else
    let z := negateBits leftIsNeg (bitsOf vala) ++ [0]
    let a := (negateBits rightIsNeg (bitsOf valb)).map (1 - ·) ++ [1]
    let mxa := topIndex (fun i => a.getD i 0 = 0) len
    let mxz := topIndex (fun i => z.getD i 0 ≠ 0) len
    if mxa > mxz ∨ mxa = -1 then
      if mxa = -1 then xVec len else tally len leftIsNeg z
    else tally len leftIsNeg (modLoop a (mxa + 2).toNat (mxz - mxa + 1).toNat z)

/-! ## Natively -/

/-- The bits of a native result. -/
def wordBits (wid : Nat) (lv : BitVec 64) : Vector4 :=
  (List.range wid).map fun idx => if lv.getLsbD idx then .one else .zero

/-- The sign extension of a native operand. -/
def extendWord (wid : Nat) (lv : BitVec 64) : BitVec 64 :=
  if wid < 64 then
    if lv &&& ((1 : BitVec 64) <<< (wid - 1)) ≠ 0 then lv ||| BitVec.allOnes 64 <<< wid else lv
  else lv

/-- The vector that `of_MOD` leaves. -/
def modVec4 (vala valb : Vector4) : Option Vector4 :=
  let wid := vala.length
  if wid ≤ 64 then
    if vala.hasXz || valb.hasXz then some (xVec wid)
    else
      let lv := BitVec.ofNat 64 vala.toNat
      let rv := BitVec.ofNat 64 valb.toNat
      if rv = 0 then some (xVec wid) else some (wordBits wid (lv % rv))
  else some (doVerylongMod vala valb false false)

/-- `of_MOD`. -/
def ofMod : List Vector4 → Option (List Vector4) := binaryOp modVec4

/-- The vector that `of_MOD_S` leaves. -/
def modSVec4 (vala valb : Vector4) : Option Vector4 :=
  let wid := vala.length
  if wid ≤ 64 then
    if vala.hasXz || valb.hasXz then some (xVec wid)
    else
      let lv := BitVec.ofNat 64 vala.toNat
      let rv := BitVec.ofNat 64 valb.toNat
      if rv = 0 then some (xVec wid)
      else if lv = BitVec.intMin 64 ∧ rv = -1 then some (List.replicate wid .zero)
      else some (wordBits wid ((extendWord wid lv).srem (extendWord wid rv)))
  else
    let leftIsNeg := decide (vala[wid - 1]? = some .one)
    let rightIsNeg := decide (valb[wid - 1]? = some .one)
    some (doVerylongMod vala valb leftIsNeg rightIsNeg)

/-- `of_MOD_S`. -/
def ofModS : List Vector4 → Option (List Vector4) := binaryOp modSVec4

/-! ## Bits and numbers -/

theorem value_bitsOf (v : Vector4) : Words.value (bitsOf v) = v.toNat := by
  induction v with
  | nil => rfl
  | cons b v ih =>
    rw [bitsOf, List.map_cons, Words.value_cons, Vector4.toNat, ← ih]
    split_ifs <;> rfl

@[simp] theorem length_bitsOf (v : Vector4) : (bitsOf v).length = v.length := List.length_map _

@[simp] theorem length_negateBits (isNeg : Bool) (bits : List (BitVec 1)) :
    (negateBits isNeg bits).length = bits.length := by
  rw [negateBits]
  split_ifs
  · exact Words.length_pass _ _ _
  · rfl

private theorem one_sub (b : BitVec 1) : 1 - b = ~~~ b := by
  revert b
  decide

/-- Bits negated in two's complement. -/
theorem value_negateBits (isNeg : Bool) (bits : List (BitVec 1)) :
    Words.value (negateBits isNeg bits) =
      if isNeg then (2 ^ bits.length - Words.value bits) % 2 ^ bits.length
      else Words.value bits := by
  cases isNeg with
  | false => rfl
  | true =>
    have hpass := Words.value_pass_mod (w := 1) (f := negateBit) (F := fun b => (~~~ b).toNat)
      (C := id) (P := fun carry => carry ≤ 1) (fun b carry hc => by
        have hb := (~~~ b).isLt
        rw [negateBit, one_sub]
        dsimp only [id]
        rw [BitVec.toNat_ofNat]
        split_ifs <;> omega) bits (s := 1) (Nat.le_refl 1)
    have hnot := Words.value_map_not bits
    rw [Words.value, Words.sum_map, Nat.one_mul] at hnot
    rw [negateBits, if_pos rfl, if_pos rfl, hpass, Nat.one_mul]
    congr 1
    have hsame : Words.sum 1 (BitVec.toNat ∘ fun b : BitVec 1 => ~~~ b) bits =
        Words.sum 1 (fun b : BitVec 1 => (~~~ b).toNat) bits := rfl
    rw [hsame] at hnot
    change _ + 1 = _
    omega

/-- The scan finds the top bit, if there is one. -/
theorem topIndex_spec (bits : List (BitVec 1)) (len : Nat) :
    (topIndex (fun i => bits.getD i 0 ≠ 0) len = -1 ∧ Words.value (bits.take len) = 0) ∨
      ∃ top < len, topIndex (fun i => bits.getD i 0 ≠ 0) len = top ∧
        2 ^ top ≤ Words.value (bits.take len) ∧ Words.value (bits.take len) < 2 ^ (top + 1) := by
  induction len with
  | zero => exact .inl ⟨rfl, rfl⟩
  | succ i ih =>
    have hlow := Words.value_lt (bits.take i)
    have hlen : 2 ^ (1 * (bits.take i).length) ≤ 2 ^ i :=
      Nat.pow_le_pow_right (by omega) (by rw [List.length_take]; omega)
    rw [topIndex, Words.value_take_succ, Nat.one_mul]
    by_cases hbit : bits.getD i 0 = 0
    · rw [if_neg (by simpa using hbit), hbit, show (0 : BitVec 1).toNat = 0 from rfl, Nat.mul_zero,
        Nat.add_zero]
      rcases ih with hnone | ⟨top, hlt, htop⟩
      · exact .inl hnone
      · exact .inr ⟨top, Nat.lt_succ_of_lt hlt, htop⟩
    · have hone : (bits.getD i 0).toNat = 1 := by
        have hlt := (bits.getD i 0).isLt
        have hne : (bits.getD i 0).toNat ≠ 0 := fun h => hbit (BitVec.eq_of_toNat_eq h)
        omega
      have hpow : 2 ^ (i + 1) = 2 ^ i * 2 := pow_succ 2 i
      rw [if_pos (by simpa using hbit), hone, Nat.mul_one]
      exact .inr ⟨i, Nat.lt_succ_self i, rfl, by omega, by omega⟩

private theorem topIndex_congr {f g : Nat → Bool} {len : Nat} (h : ∀ i < len, f i = g i) :
    topIndex f len = topIndex g len := by
  induction len with
  | zero => rfl
  | succ i ih =>
    rw [topIndex, topIndex, h i (Nat.lt_succ_self i), ih fun j hj => h j (by omega)]

/-! ## The window -/

section Window

variable {b : List (BitVec 1)} {copylen len : Nat} (hblen : b.length = len)
  (hcopy : copylen ≤ len + 1) (hfit : Words.value b < 2 ^ copylen)
include hblen hcopy hfit

/-- The array `a` is the complement of the divisor. -/
private theorem value_complement :
    ((b.map (1 - ·) ++ [(1 : BitVec 1)]).take copylen).length = copylen ∧
      Words.value ((b.map (1 - ·) ++ [(1 : BitVec 1)]).take copylen) + Words.value b + 1 =
        2 ^ copylen := by
  have hmap : b.map (1 - ·) ++ [(1 : BitVec 1)] = (b ++ [0]).map (~~~ ·) := by
    rw [List.map_append]
    congr 1
    exact List.map_congr_left fun x _ => one_sub x
  have hlength : ((b ++ [(0 : BitVec 1)]).take copylen).length = copylen :=
    List.length_take_of_le (by rw [List.length_append, hblen]; exact hcopy)
  have hvalue : Words.value ((b ++ [(0 : BitVec 1)]).take copylen) = Words.value b := by
    rw [Words.value_take, Words.value_append, Words.value_cons, Words.value_nil, Nat.one_mul,
      Nat.one_mul, show (0 : BitVec 1).toNat = 0 from rfl, Nat.mul_zero, Nat.add_zero,
      Nat.mul_zero, Nat.add_zero]
    exact Nat.mod_eq_of_lt hfit
  have hnot := Words.value_map_not ((b ++ [(0 : BitVec 1)]).take copylen)
  rw [hlength, hvalue, Nat.one_mul] at hnot
  rw [hmap, ← List.map_take]
  exact ⟨by rw [List.length_map, hlength], hnot⟩

/-- The divisor is subtracted from the window where that is not smaller. -/
private theorem subtractWindow_spec {z : List (BitVec 1)} {current : Nat}
    (hzlen : z.length = len + 1) (hwindow : current + copylen ≤ len + 1)
    (hhigh : Words.value z / 2 ^ current < 2 ^ copylen) :
    (subtractWindow (b.map (1 - ·) ++ [1]) copylen current z).length = len + 1 ∧
      Words.value (subtractWindow (b.map (1 - ·) ++ [1]) copylen current z) =
        if Words.value b ≤ Words.value z / 2 ^ current then
          Words.value z - Words.value b * 2 ^ current
        else Words.value z := by
  obtain ⟨halen, hsum⟩ := value_complement hblen hcopy hfit
  obtain ⟨a, ha⟩ : ∃ a, a = (b.map (1 - ·) ++ [(1 : BitVec 1)]).take copylen := ⟨_, rfl⟩
  obtain ⟨w, hw⟩ : ∃ w, w = (z.drop current).take copylen := ⟨_, rfl⟩
  rw [← ha] at halen hsum
  have hwlen : w.length = copylen := by
    rw [hw, List.length_take_of_le]
    rw [List.length_drop, hzlen]
    omega
  have hwvalue : Words.value w = Words.value z / 2 ^ current := by
    rw [hw, Words.value_take, Words.value_drop, Nat.one_mul, Nat.one_mul]
    exact Nat.mod_eq_of_lt hhigh
  obtain ⟨t, ht⟩ : ∃ t, t = Words.pass (fun x carry =>
      let temp := x.1.toNat + x.2.toNat + carry
      (BitVec.ofNat 1 temp, temp / 2)) (w.zip a) 1 := ⟨_, rfl⟩
  have hdef : subtractWindow (b.map (1 - ·) ++ [1]) copylen current z =
      if t.2 ≠ 0 then z.take current ++ t.1 ++ z.drop (current + copylen) else z := by
    rw [subtractWindow, ← ha, ← hw, ← ht]
  have htlen : t.1.length = copylen := by
    rw [ht, Words.length_pass, List.length_zip, hwlen, halen, Nat.min_self]
  have hpass := Words.sum_pass (w := 1) (D := BitVec.toNat) (C := id)
    (F := fun x : BitVec 1 × BitVec 1 => x.1.toNat + x.2.toNat) (P := fun carry => carry ≤ 1)
    (f := fun x carry =>
      let temp := x.1.toNat + x.2.toNat + carry
      (BitVec.ofNat 1 temp, temp / 2))
    (fun x (_ : x ∈ w.zip a) carry hc => by
      have h₁ := x.1.isLt
      have h₂ := x.2.isLt
      dsimp only [id]
      rw [BitVec.toNat_ofNat]
      omega) (s := 1) (Nat.le_refl 1)
  rw [← ht, Words.sum_add, Words.sum_zip_fst _ w a (hwlen.trans halen.symm),
    Words.sum_zip_snd _ w a (hwlen.trans halen.symm), List.length_zip, hwlen, halen, Nat.min_self,
    Nat.one_mul] at hpass
  obtain ⟨hcarry, hvalue⟩ := hpass
  change Words.value t.1 + 2 ^ copylen * t.2 = Words.value w + Words.value a + 1 at hvalue
  have htlt := Words.value_lt t.1
  rw [htlen, Nat.one_mul] at htlt
  rw [hdef, ← hwvalue]
  have hcases : t.2 = 0 ∨ t.2 = 1 := by omega
  rcases hcases with hnone | hsome
  · rw [hnone, Nat.mul_zero] at hvalue
    rw [if_neg (by simpa using hnone), if_neg (by omega)]
    exact ⟨hzlen, rfl⟩
  · rw [hsome, Nat.mul_one] at hvalue
    have hle : Words.value b ≤ Words.value w := by omega
    rw [if_pos (by simp [hsome]), if_pos hle]
    have htake : (z.take current).length = current := List.length_take_of_le (by omega)
    have hnone : Words.value (z.drop (current + copylen)) = 0 := by
      rw [Words.value_drop, Nat.one_mul, Nat.pow_add, ← Nat.div_div_eq_div_mul]
      exact Nat.div_eq_of_lt hhigh
    have hlow : Words.value (z.take current) + 2 ^ current * Words.value w = Words.value z := by
      rw [Words.value_take, hwvalue, Nat.one_mul]
      exact Nat.mod_add_div _ _
    have hdiff : Words.value t.1 = Words.value w - Words.value b := by omega
    refine ⟨?_, ?_⟩
    · simp only [List.length_append, htake, htlen, List.length_drop, hzlen]
      omega
    · rw [Words.value_append, Words.value_append, hnone, Nat.mul_zero, Nat.add_zero, htake,
        Nat.one_mul, hdiff, Nat.mul_sub, ← hlow, Nat.mul_comm (Words.value b)]
      have hmul := Nat.mul_le_mul_left (2 ^ current) hle
      omega

/-- The loop leaves the remainder. -/
private theorem modLoop_spec (hroom : 2 * Words.value b ≤ 2 ^ copylen)
    (current : Nat) {z : List (BitVec 1)} (hzlen : z.length = len + 1)
    (hwindow : current + copylen ≤ len + 2)
    (hz : Words.value z < Words.value b * 2 ^ current) :
    (modLoop (b.map (1 - ·) ++ [1]) copylen current z).length = len + 1 ∧
      Words.value (modLoop (b.map (1 - ·) ++ [1]) copylen current z) =
        Words.value z % Words.value b := by
  induction current generalizing z with
  | zero =>
    rw [Nat.pow_zero, Nat.mul_one] at hz
    exact ⟨hzlen, (Nat.mod_eq_of_lt hz).symm⟩
  | succ current ih =>
    have hpow := Nat.two_pow_pos current
    have hhigh : Words.value z / 2 ^ current < 2 ^ copylen := by
      rw [Nat.div_lt_iff_lt_mul hpow]
      calc Words.value z < Words.value b * 2 ^ (current + 1) := hz
        _ = 2 * Words.value b * 2 ^ current := by ring
        _ ≤ 2 ^ copylen * 2 ^ current := Nat.mul_le_mul_right _ hroom
    obtain ⟨hlen, hvalue⟩ := subtractWindow_spec hblen hcopy hfit hzlen
      (show current + copylen ≤ len + 1 by omega) hhigh
    have hdouble : Words.value b * 2 ^ (current + 1) = 2 * (Words.value b * 2 ^ current) := by ring
    rw [modLoop]
    by_cases hle : Words.value b ≤ Words.value z / 2 ^ current
    · rw [if_pos hle] at hvalue
      have hmul := (Nat.le_div_iff_mul_le hpow).mp hle
      obtain ⟨hlen', hvalue'⟩ := ih hlen (by omega) (by omega)
      refine ⟨hlen', ?_⟩
      rw [hvalue', hvalue, Nat.sub_mul_mod hmul]
    · rw [if_neg hle] at hvalue
      have hlt := (Nat.div_lt_iff_lt_mul hpow).mp (Nat.not_le.mp hle)
      obtain ⟨hlen', hvalue'⟩ := ih hlen (by omega) (by omega)
      exact ⟨hlen', by rw [hvalue', hvalue]⟩

end Window

/-! ## The remainder -/

/-- Bits as a vector. -/
private theorem map_bits (bits : List (BitVec 1)) :
    (bits.map fun b => if b ≠ 0 then Bit4.one else .zero) =
      Vector4.ofNat bits.length (Words.value bits) := by
  apply List.ext_getElem?
  intro i
  rw [Vector4.getElem?_ofNat, List.getElem?_map, Words.testBit_value Nat.one_pos, Nat.div_one,
    Nat.mod_one]
  by_cases hi : i < bits.length
  · have hbit : ∀ b : BitVec 1, b ≠ 0 ↔ b.getLsbD 0 = true := by decide
    rw [List.getElem?_eq_getElem hi, if_pos hi, List.getD_eq_getElem?_getD,
      List.getElem?_eq_getElem hi, Option.map_some, Option.getD_some]
    simp only [hbit]
  · rw [List.getElem?_eq_none (by omega), if_neg hi, Option.map_none]

/-- A negated number, modulo the power of the width. -/
private theorem ofNat_negate {wid n : Nat} (hn : n ≤ 2 ^ wid) (negate : Bool) :
    Vector4.ofNat wid (if negate then (2 ^ wid - n) % 2 ^ wid else n) =
      Vector4.ofInt wid (if negate then -(n : Int) else n) := by
  cases negate with
  | false => exact (Vector4.ofInt_natCast wid n).symm
  | true =>
    refine (Vector4.ofNat_eq_iff.mpr ?_).trans (Vector4.ofInt_neg_natCast hn).symm
    exact Nat.mod_mod _ _

private theorem tally_eq {len : Nat} {z : List (BitVec 1)} (hlen : z.length = len + 1)
    (hlt : Words.value z < 2 ^ len) (outIsNeg : Bool) :
    tally len outIsNeg z =
      Vector4.ofInt len (if outIsNeg then -(Words.value z : Int) else Words.value z) := by
  have htake : (z.take len).length = len := List.length_take_of_le (by omega)
  have hvalue : Words.value (z.take len) = Words.value z := by
    rw [Words.value_take, Nat.one_mul]
    exact Nat.mod_eq_of_lt hlt
  rw [tally, map_bits, length_negateBits, value_negateBits, htake, hvalue, ofNat_negate hlt.le]

section Known

variable {a b : Vector4} (ha : a.hasXz = false) (hb : b.hasXz = false)
  (hlen : a.length = b.length)
include ha hb hlen

/-- `do_verylong_mod` leaves the remainder of the magnitudes, with the sign of the dividend. -/
theorem doVerylongMod_known (leftIsNeg rightIsNeg : Bool) {m n : Nat}
    (hm : Words.value (negateBits leftIsNeg (bitsOf a)) = m)
    (hn : Words.value (negateBits rightIsNeg (bitsOf b)) = n) :
    doVerylongMod a b leftIsNeg rightIsNeg = if n = 0 then xVec a.length
      else Vector4.ofInt a.length (if leftIsNeg then -((m % n : Nat) : Int) else (m % n : Nat)) := by
  obtain ⟨xs, hxs⟩ : ∃ xs, xs = negateBits leftIsNeg (bitsOf a) := ⟨_, rfl⟩
  obtain ⟨ys, hys⟩ : ∃ ys, ys = negateBits rightIsNeg (bitsOf b) := ⟨_, rfl⟩
  have hxlen : xs.length = a.length := by rw [hxs, length_negateBits, length_bitsOf]
  have hylen : ys.length = a.length := by rw [hys, length_negateBits, length_bitsOf, hlen]
  rw [← hxs] at hm
  rw [← hys] at hn
  have hzlen : (xs ++ [(0 : BitVec 1)]).length = a.length + 1 := by
    rw [List.length_append, hxlen, List.length_singleton]
  have hz : Words.value (xs ++ [(0 : BitVec 1)]) = m := by
    rw [Words.value_append, Words.value_cons, Words.value_nil, show (0 : BitVec 1).toNat = 0 from rfl,
      Nat.mul_zero, Nat.add_zero, Nat.mul_zero, Nat.add_zero, hm]
  have hmlt := Words.value_lt xs
  rw [hm, hxlen, Nat.one_mul] at hmlt
  -- `mxa` is the top bit of the divisor, `mxz` that of the dividend
  have hmxa : topIndex (fun i => (ys.map (1 - ·) ++ [(1 : BitVec 1)]).getD i 0 = 0) a.length =
      topIndex (fun i => ys.getD i 0 ≠ 0) a.length := by
    apply topIndex_congr
    intro i hi
    have hbit : ∀ y : BitVec 1, 1 - y = 0 ↔ y ≠ 0 := by decide
    rw [List.getD_append _ _ _ _ (by rw [List.length_map, hylen]; exact hi),
      List.getD_eq_getElem?_getD, List.getElem?_map, List.getElem?_eq_getElem (by omega),
      Option.map_some, Option.getD_some, List.getD_eq_getElem?_getD,
      List.getElem?_eq_getElem (by omega), Option.getD_some]
    simp only [hbit]
  have hmxz : topIndex (fun i => (xs ++ [(0 : BitVec 1)]).getD i 0 ≠ 0) a.length =
      topIndex (fun i => xs.getD i 0 ≠ 0) a.length := by
    apply topIndex_congr
    intro i hi
    rw [List.getD_append _ _ _ _ (by omega)]
  have hdef : doVerylongMod a b leftIsNeg rightIsNeg =
      if topIndex (fun i => ys.getD i 0 ≠ 0) a.length >
          topIndex (fun i => xs.getD i 0 ≠ 0) a.length ∨
          topIndex (fun i => ys.getD i 0 ≠ 0) a.length = -1 then
        if topIndex (fun i => ys.getD i 0 ≠ 0) a.length = -1 then xVec a.length
        else tally a.length leftIsNeg (xs ++ [0])
      else tally a.length leftIsNeg (modLoop (ys.map (1 - ·) ++ [1])
        (topIndex (fun i => ys.getD i 0 ≠ 0) a.length + 2).toNat
        (topIndex (fun i => xs.getD i 0 ≠ 0) a.length -
          topIndex (fun i => ys.getD i 0 ≠ 0) a.length + 1).toNat (xs ++ [0])) := by
    rw [doVerylongMod, ha, hb, ← hxs, ← hys]
    rw [Bool.or_self, if_neg Bool.false_ne_true]
    dsimp only
    rw [hmxa, hmxz]
  rw [hdef]
  have hxtop := topIndex_spec xs a.length
  have hytop := topIndex_spec ys a.length
  rw [List.take_of_length_le hxlen.le, hm] at hxtop
  rw [List.take_of_length_le hylen.le, hn] at hytop
  rcases hytop with ⟨hynone, hn0⟩ | ⟨ytop, hylt, hyeq, hylow, hyhigh⟩
  · rw [hynone, if_pos (.inr rfl), if_pos rfl, if_pos hn0]
  · have hnpos : n ≠ 0 := by
      have := Nat.two_pow_pos ytop
      omega
    rw [hyeq, if_neg hnpos]
    have hyne : ¬ (ytop : Int) = -1 := by omega
    simp only [hyne, or_false, if_false]
    have hleave : m < n → tally a.length leftIsNeg (xs ++ [0]) = Vector4.ofInt a.length
        (if leftIsNeg then -((m % n : Nat) : Int) else (m % n : Nat)) := by
      intro hlt
      rw [tally_eq hzlen (by rw [hz]; exact hmlt), hz, Nat.mod_eq_of_lt hlt]
    rcases hxtop with ⟨hxnone, hm0⟩ | ⟨xtop, hxlt, hxeq, hxlow, hxhigh⟩
    · rw [hxnone, if_pos (by omega)]
      exact hleave (by omega)
    · rw [hxeq]
      by_cases hgt : (ytop : Int) > xtop
      · rw [if_pos hgt]
        apply hleave
        have hpow : 2 ^ (xtop + 1) ≤ 2 ^ ytop := Nat.pow_le_pow_right (by omega) (by omega)
        omega
      · have hcopy : ((ytop : Int) + 2).toNat = ytop + 2 := by omega
        have hcurrent : ((xtop : Int) - ytop + 1).toNat = xtop - ytop + 1 := by omega
        have hpow : 2 ^ (ytop + 2) = 2 * 2 ^ (ytop + 1) := pow_succ' 2 (ytop + 1)
        obtain ⟨hrlen, hr⟩ := @modLoop_spec ys (ytop + 2) a.length hylen (by omega)
          (by omega) (by omega) (xtop - ytop + 1) _ hzlen (by omega) (by
            rw [hz, hn]
            calc m < 2 ^ (xtop + 1) := hxhigh
              _ = 2 ^ ytop * 2 ^ (xtop - ytop + 1) := by
                rw [← Nat.pow_add]
                congr 1
                omega
              _ ≤ n * 2 ^ (xtop - ytop + 1) := Nat.mul_le_mul_right _ hylow)
        rw [hz, hn] at hr
        rw [if_neg hgt, hcopy, hcurrent, tally_eq hrlen (by
          rw [hr]
          exact Nat.lt_of_le_of_lt (Nat.mod_le m n) hmlt), hr]

end Known

/-! ## The opcodes -/

theorem wordBits_eq (wid : Nat) (lv : BitVec 64) : wordBits wid lv = Vector4.ofNat wid lv.toNat := by
  rw [wordBits, Vector4.ofNat]
  exact List.map_congr_left fun idx _ => by rw [BitVec.testBit_toNat]

/-- An operand of a word or less. -/
private theorem toNat_word {v : Vector4} (hword : v.length ≤ 64) :
    (BitVec.ofNat 64 v.toNat).toNat = v.toNat := by
  rw [BitVec.toNat_ofNat]
  exact Nat.mod_eq_of_lt
    (Nat.lt_of_lt_of_le v.toNat_lt (Nat.pow_le_pow_right (by omega) hword))

private theorem word_eq_zero {v : Vector4} (hword : v.length ≤ 64) :
    BitVec.ofNat 64 v.toNat = 0 ↔ v.toNat = 0 := by
  constructor
  · intro h
    rw [← toNat_word hword, h]
    rfl
  · intro h
    rw [h]
    rfl

/-- The sign extension of an operand is its integer. -/
theorem toInt_extendWord {v : Vector4} (hpos : 0 < v.length) (hword : v.length ≤ 64) :
    (extendWord v.length (BitVec.ofNat 64 v.toNat)).toInt = v.toInt := by
  have hlt := v.toNat_lt
  have hnat := toNat_word hword
  have htop := Vector4.testBit_top hpos
  have hpow : 2 ^ v.length = 2 * 2 ^ (v.length - 1) := by
    rw [← Nat.pow_succ', Nat.succ_eq_add_one, Nat.sub_add_cancel hpos]
  have hbit : BitVec.ofNat 64 v.toNat &&& ((1 : BitVec 64) <<< (v.length - 1)) ≠ 0 ↔
      v.toNat.testBit (v.length - 1) = true := by
    rw [Words.and_bit_ne_zero _ (by omega), ← BitVec.testBit_toNat, hnat]
  have hle : 2 ^ v.length ≤ 2 ^ 64 := Nat.pow_le_pow_right (by omega) hword
  rw [extendWord]
  split_ifs with hshort hneg
  · rw [hbit] at hneg
    have hand : BitVec.ofNat 64 v.toNat &&& BitVec.allOnes 64 <<< v.length = 0#64 := by
      apply BitVec.eq_of_getLsbD_eq
      intro j hj
      rw [BitVec.getLsbD_and, ← BitVec.testBit_toNat, hnat, BitVec.getLsbD_shiftLeft,
        BitVec.getLsbD_zero, Bool.and_eq_false_imp]
      intro h
      have hbelow : j < v.length := by
        by_contra hge
        rw [Nat.testBit_lt_two_pow (Nat.lt_of_lt_of_le hlt
          (Nat.pow_le_pow_right (by omega) (Nat.not_lt.mp hge)))] at h
        cases h
      simp [hbelow]
    have hor : (BitVec.ofNat 64 v.toNat ||| BitVec.allOnes 64 <<< v.length).toNat =
        v.toNat + (2 ^ 64 - 2 ^ v.length) := by
      rw [← BitVec.add_eq_or_of_and_eq_zero _ _ hand, BitVec.toNat_add_of_and_eq_zero hand, hnat,
        Words.toNat_high hword]
    rw [hneg, eq_comm, decide_eq_true_eq] at htop
    have hle' : 2 ^ v.length ≤ 2 ^ 63 := Nat.pow_le_pow_right (by omega) (by omega)
    rw [BitVec.toInt_eq_toNat_cond, hor, Vector4.toInt_of_top hneg]
    split_ifs with hhalf <;> push_cast <;> omega
  · rw [hbit, Bool.not_eq_true] at hneg
    rw [hneg, eq_comm, decide_eq_false_iff_not] at htop
    rw [BitVec.toInt_eq_toNat_cond, hnat, Vector4.toInt_of_not_top hneg, if_pos (by omega)]
  · have hfull : v.length = 64 := by omega
    rw [BitVec.toInt_eq_toNat_cond, hnat]
    rw [hfull] at hlt hpow htop
    cases hneg : v.toNat.testBit 63
    · rw [hneg, eq_comm, decide_eq_false_iff_not] at htop
      rw [Vector4.toInt_of_not_top (by rw [hfull]; exact hneg), if_pos (by omega)]
    · rw [hneg, eq_comm, decide_eq_true_eq] at htop
      rw [Vector4.toInt_of_top (by rw [hfull]; exact hneg), if_neg (by omega), hfull]
      omega

/-- The bits of a magnitude. -/
private theorem value_magnitude (v : Vector4) :
    Words.value (negateBits (decide (v[v.length - 1]? = some .one)) (bitsOf v)) =
      v.toInt.natAbs := by
  have hlt := v.toNat_lt
  rw [value_negateBits, length_bitsOf, value_bitsOf, ← Vector4.testBit_toNat]
  cases htop : v.toNat.testBit (v.length - 1)
  · rw [Vector4.toInt_of_not_top htop]
    rfl
  · have hge := Nat.ge_two_pow_of_testBit htop
    have hpow := Nat.two_pow_pos (v.length - 1)
    rw [if_pos rfl, Vector4.toInt_of_top htop, Int.natAbs_neg, Int.natAbs_natCast]
    exact Nat.mod_eq_of_lt (by omega)

/-- Operands with X or Z bits leave X bits. -/
theorem modVec4_unknown {a b : Vector4} (h : a.hasXz = true ∨ b.hasXz = true) :
    modVec4 a b = some (xVec a.length) ∧ modSVec4 a b = some (xVec a.length) := by
  have hor : (a.hasXz || b.hasXz) = true := (Bool.or_eq_true _ _).mpr h
  rw [modVec4, modSVec4, hor]
  dsimp only [doVerylongMod]
  rw [hor]
  simp only [if_true, ite_self, and_self]

section Opcodes

variable {a b : Vector4} (ha : a.hasXz = false) (hb : b.hasXz = false)
  (hlen : a.length = b.length) (hpos : 0 < a.length)
include ha hb hlen

/-- `%mod` leaves the remainder, or X bits. -/
theorem modVec4_known : modVec4 a b = some (if b.toNat = 0 then xVec a.length
    else Vector4.ofNat a.length (a.toNat % b.toNat)) := by
  rw [modVec4]
  dsimp only
  by_cases hword : a.length ≤ 64
  · have hword' : b.length ≤ 64 := hlen ▸ hword
    rw [if_pos hword, ha, hb, Bool.or_self, if_neg Bool.false_ne_true]
    by_cases hzero : b.toNat = 0
    · rw [if_pos ((word_eq_zero hword').mpr hzero), if_pos hzero]
    · rw [if_neg (mt (word_eq_zero hword').mp hzero), if_neg hzero, wordBits_eq, BitVec.toNat_umod,
        toNat_word hword, toNat_word hword']
  · have hmod := doVerylongMod_known ha hb hlen false false (value_bitsOf a) (value_bitsOf b)
    rw [if_neg hword, hmod, if_neg Bool.false_ne_true, Vector4.ofInt_natCast]

include hpos

/-- `%mod/s` leaves the remainder with the sign of the dividend, or X bits. -/
theorem modSVec4_known : modSVec4 a b = some (if b.toNat = 0 then xVec a.length
    else Vector4.ofInt a.length (a.toInt.tmod b.toInt)) := by
  have hpos' : 0 < b.length := hlen ▸ hpos
  rw [modSVec4]
  dsimp only
  by_cases hword : a.length ≤ 64
  · have hword' : b.length ≤ 64 := hlen ▸ hword
    rw [if_pos hword, ha, hb, Bool.or_self, if_neg Bool.false_ne_true]
    by_cases hzero : b.toNat = 0
    · rw [if_pos ((word_eq_zero hword').mpr hzero), if_pos hzero]
    · rw [if_neg (mt (word_eq_zero hword').mp hzero), if_neg hzero]
      have hx := toInt_extendWord hpos hword
      have hy := toInt_extendWord hpos' hword'
      split_ifs with hmin
      · obtain ⟨hlv, hrv⟩ := hmin
        have hfull : a.length = 64 := by
          have hlt := a.toNat_lt
          rw [← toNat_word hword, hlv] at hlt
          have hgt := (Nat.pow_lt_pow_iff_right (a := 2) (n := 63) (by omega)).mp hlt
          omega
        rw [hlv, hfull] at hx
        rw [hrv, ← hlen, hfull] at hy
        have hmin : a.toInt = -2 ^ 63 := hx.symm
        have hone : b.toInt = -1 := hy.symm
        rw [hmin, hone, hfull]
        rfl
      · rw [wordBits_eq, ofNat_word hword, BitVec.toInt_srem, hx, hlen, hy]
  · have hdivisor : Words.value (negateBits (decide (b[a.length - 1]? = some .one)) (bitsOf b)) =
        b.toInt.natAbs := by
      rw [hlen]
      exact value_magnitude b
    have hmod := doVerylongMod_known ha hb hlen _ _ (value_magnitude a) hdivisor
    have hint : b.toInt.natAbs = 0 ↔ b.toNat = 0 := Int.natAbs_eq_zero.trans Vector4.toInt_eq_zero
    rw [if_neg hword, hmod, TwosComplement.tmod_natAbs]
    simp only [hint, Vector4.toInt_neg_iff, Vector4.testBit_toNat]

end Opcodes

/-- A product with the sign of the dividend. -/
private theorem signed_mul (a b : Int) (q : Nat) :
    (if xor (decide (a < 0)) (decide (b < 0)) then -(q : Int) else q) * b =
      if a < 0 then -((q * b.natAbs : Nat) : Int) else (q * b.natAbs : Nat) := by
  rcases Int.lt_or_le a 0 with ha | ha <;> rcases Int.lt_or_le b 0 with hb | hb
  · rw [if_neg (by simp [ha, hb]), if_pos ha, Nat.cast_mul, show (b.natAbs : Int) = -b by omega]
    ring
  · rw [if_pos (by simp [ha, hb.not_gt]), if_pos ha, Nat.cast_mul,
      show (b.natAbs : Int) = b by omega]
    ring
  · rw [if_pos (by simp [ha.not_gt, hb]), if_neg ha.not_gt, Nat.cast_mul,
      show (b.natAbs : Int) = -b by omega]
    ring
  · rw [if_neg (by simp [ha.not_gt, hb.not_gt]), if_neg ha.not_gt, Nat.cast_mul,
      show (b.natAbs : Int) = b by omega]

/-- Quotient and remainder of magnitudes make up the signed dividend as they make up its
magnitude. -/
private theorem signed_sum_modEq_iff {wid : Nat} (a b : Int) (q : Nat) :
    (if xor (decide (a < 0)) (decide (b < 0)) then -(q : Int) else q) * b + a.tmod b ≡ a
        [ZMOD 2 ^ wid] ↔
      q * b.natAbs ≡ a.natAbs / b.natAbs * b.natAbs [MOD 2 ^ wid] := by
  have hsum : a = (if xor (decide (a < 0)) (decide (b < 0)) then
      -((a.natAbs / b.natAbs : Nat) : Int) else (a.natAbs / b.natAbs : Nat)) * b + a.tmod b := by
    rw [← TwosComplement.tdiv_natAbs, Int.mul_comm, Int.mul_tdiv_add_tmod]
  have hcast : ∀ m n : Nat, (m : Int) ≡ n [ZMOD 2 ^ wid] ↔ m ≡ n [MOD 2 ^ wid] := by
    intro m n
    rw [← Int.natCast_modEq_iff]
    push_cast
    rfl
  have hcancel : (if xor (decide (a < 0)) (decide (b < 0)) then -(q : Int) else q) * b +
        a.tmod b ≡ a [ZMOD 2 ^ wid] ↔
      (if xor (decide (a < 0)) (decide (b < 0)) then -(q : Int) else q) * b ≡
        (if xor (decide (a < 0)) (decide (b < 0)) then
          -((a.natAbs / b.natAbs : Nat) : Int) else (a.natAbs / b.natAbs : Nat)) * b
        [ZMOD 2 ^ wid] := by
    constructor
    · intro h
      exact Int.ModEq.add_right_cancel' (a.tmod b) (h.trans (by rw [← hsum]))
    · intro h
      exact (h.add_right (a.tmod b)).trans (by rw [← hsum])
  rw [hcancel, signed_mul, signed_mul]
  split_ifs with ha
  · exact Int.neg_modEq_neg.trans (hcast _ _)
  · exact hcast _ _

/-- `%mod` and `%mod/s` leave the remainder, or X bits where there is none; with the quotient that
`%div` and `%div/s` leave it makes up the dividend exactly if the trial digits fit. -/
theorem mod_correct_iff (a b : Vector4) (stack : List Vector4) (hlen : a.length = b.length)
    (hpos : 0 < a.length) :
    (a.hasXz = true ∨ b.hasXz = true ∨ b.toNat = 0 →
      ofMod (b :: a :: stack) = some (xVec a.length :: stack) ∧
        ofModS (b :: a :: stack) = some (xVec a.length :: stack)) ∧
    (a.hasXz = false → b.hasXz = false → b.toNat ≠ 0 →
      ofMod (b :: a :: stack) = some (Vector4.ofNat a.length (a.toNat % b.toNat) :: stack) ∧
      ofModS (b :: a :: stack) =
        some (Vector4.ofInt a.length (a.toInt.tmod b.toInt) :: stack) ∧
      (∃ q r, ofDiv (b :: a :: stack) = some (q :: stack) ∧
        ofMod (b :: a :: stack) = some (r :: stack) ∧
        (q.toNat * b.toNat + r.toNat ≡ a.toNat [MOD 2 ^ a.length] ↔
          DigitsFit (wordCount a.length) a.toNat b.toNat)) ∧
      ∃ q r, ofDivS (b :: a :: stack) = some (q :: stack) ∧
        ofModS (b :: a :: stack) = some (r :: stack) ∧
        (q.toInt * b.toInt + r.toInt ≡ a.toInt [ZMOD 2 ^ a.length] ↔
          DigitsFit (wordCount a.length) a.toInt.natAbs b.toInt.natAbs)) := by
  have hrun : ∀ {op : Vector4 → Vector4 → Option Vector4} {v : Vector4}, op a b = some v →
      binaryOp op (b :: a :: stack) = some (v :: stack) := by
    intro op v hop
    rw [binaryOp, if_pos hlen, hop, Option.map_some]
  refine ⟨fun hx => ?_, fun ha hb hzero => ?_⟩
  · by_cases hxz : a.hasXz = true ∨ b.hasXz = true
    · obtain ⟨hmod, hmodS⟩ := modVec4_unknown hxz
      exact ⟨hrun hmod, hrun hmodS⟩
    · obtain ⟨ha, hb⟩ := not_or.mp hxz
      have hzero : b.toNat = 0 := (hx.resolve_left ha).resolve_left hb
      have hmod := modVec4_known (Bool.eq_false_iff.mpr ha) (Bool.eq_false_iff.mpr hb) hlen
      have hmodS := modSVec4_known (Bool.eq_false_iff.mpr ha) (Bool.eq_false_iff.mpr hb) hlen hpos
      rw [if_pos hzero] at hmod hmodS
      exact ⟨hrun hmod, hrun hmodS⟩
  · have hmod := modVec4_known ha hb hlen
    have hmodS := modSVec4_known ha hb hlen hpos
    have hdiv := divVec4_known ha hb hlen hpos
    have hdivS := divSVec4_known ha hb hlen hpos
    rw [if_neg hzero] at hmod hmodS hdiv hdivS
    have hint := Int.natAbs_ne_zero.mpr (mt Vector4.toInt_eq_zero.mp hzero)
    have hdividend := Vector4.natAbs_toInt_lt hpos
    have hdivisor := Vector4.natAbs_toInt_lt (hlen ▸ hpos)
    rw [← hlen] at hdivisor
    have hle : 2 ^ a.length ≤ 2 ^ (64 * wordCount a.length) :=
      Nat.pow_le_pow_right (by omega) (le_wordCount _)
    have hb' := b.toNat_lt
    rw [← hlen] at hb'
    refine ⟨hrun hmod, hrun hmodS, ⟨_, _, hrun hdiv, hrun hmod, ?_⟩,
      ⟨_, _, hrun hdivS, hrun hmodS, ?_⟩⟩
    · rw [Vector4.toNat_ofNat, Vector4.toNat_ofNat,
        Nat.mod_eq_of_lt (longDivide_lt_two_pow hpos a.toNat_lt hzero),
        Nat.mod_eq_of_lt (Nat.lt_of_le_of_lt (Nat.mod_le _ _) a.toNat_lt),
        ← longDivide_mul_modEq_iff (le_wordCount _) a.toNat_lt hzero
          (topOf_lt hzero (by omega))]
      have hsum := Nat.div_add_mod' a.toNat b.toNat
      constructor
      · intro h
        exact Nat.ModEq.add_right_cancel' _ (h.trans (by rw [hsum]))
      · intro h
        exact (h.add_right _).trans (by rw [hsum])
    · have hq := Vector4.toInt_ofInt_modEq a.length
        (if xor (decide (a.toInt < 0)) (decide (b.toInt < 0)) then
          -((longDivide (wordCount a.length) a.toInt.natAbs b.toInt.natAbs).2 : Int)
        else (longDivide (wordCount a.length) a.toInt.natAbs b.toInt.natAbs).2)
      have hr := Vector4.toInt_ofInt_modEq a.length (a.toInt.tmod b.toInt)
      rw [← longDivide_mul_modEq_iff (le_wordCount _) hdividend hint (topOf_lt hint (by omega)),
        ← signed_sum_modEq_iff]
      have hboth := (hq.mul_right b.toInt).add hr
      exact ⟨fun h => hboth.symm.trans h, fun h => hboth.trans h⟩

/-- Seven and minus seven by two, in four bits. -/
theorem mod_correct_iff_example :
    ofMod [[.zero, .one, .zero, .zero], [.one, .one, .one, .zero]] = some [Vector4.ofNat 4 1] ∧
      ofModS [[.zero, .one, .zero, .zero], [.one, .zero, .zero, .one]] =
        some [Vector4.ofInt 4 (-1)] :=
  ⟨((mod_correct_iff [.one, .one, .one, .zero] [.zero, .one, .zero, .zero] [] rfl
      (by decide)).2 rfl rfl (by decide)).1,
    ((mod_correct_iff [.one, .zero, .zero, .one] [.zero, .one, .zero, .zero] [] rfl
      (by decide)).2 rfl rfl (by decide)).2.1⟩

/-- The quotient of a power of two that is lost does not make up the dividend. -/
theorem div_mod_loses_dividend :
    ofDiv [Vector4.ofNat 192 (2 ^ 65 - 1), Vector4.ofNat 192 (2 ^ 128)] =
        some [Vector4.ofNat 192 0] ∧
      ofMod [Vector4.ofNat 192 (2 ^ 65 - 1), Vector4.ofNat 192 (2 ^ 128)] =
        some [Vector4.ofNat 192 (2 ^ 63)] ∧
      ¬ 0 * (2 ^ 65 - 1) + 2 ^ 63 ≡ 2 ^ 128 [MOD 2 ^ 192] := by
  have hsmall : (longDivide 3 (2 ^ 128) (2 ^ 65 - 1)).2 = 0 := by decide +kernel
  refine ⟨?_, ?_, by norm_num [Nat.ModEq]⟩
  · rw [ofDiv_ofNat (by norm_num) (by norm_num) (by norm_num) (by norm_num)]
    exact congrArg (fun n => some [Vector4.ofNat 192 n]) hsmall
  · have hmod := modVec4_known (Vector4.hasXz_ofNat 192 (2 ^ 128))
      (Vector4.hasXz_ofNat 192 (2 ^ 65 - 1)) (by simp)
    rw [Vector4.toNat_ofNat, Vector4.toNat_ofNat, Vector4.length_ofNat, if_neg (by norm_num),
      show 2 ^ 128 % 2 ^ 192 % ((2 ^ 65 - 1) % 2 ^ 192) = 2 ^ 63 by norm_num] at hmod
    rw [ofMod, binaryOp, if_pos (by simp), hmod, Option.map_some]

end Icarus.Vvp
