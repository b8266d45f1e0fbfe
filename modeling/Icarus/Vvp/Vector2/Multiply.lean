import Icarus.Core.BinaryPower
import Icarus.Vvp.Vector2.Basic

/-!
# Products and powers of two-state vectors

Schoolbook multiplication of words, from four products of half words, and the power by squaring
that takes its exponent apart.
-/

namespace Icarus.Vvp

open Icarus.Core
open Vector2 (addCarry toNat_addCarry)

/-- `multiply_long`: the low and the high word of a product. -/
def multiplyLong (a b : BitVec 64) : BitVec 64 × BitVec 64 :=
  let wordMask := ((1 : BitVec 64) <<< 32) - 1
  let aLow := a &&& wordMask
  let aHigh := (a >>> 32) &&& wordMask
  let bLow := b &&& wordMask
  let bHigh := (b >>> 32) &&& wordMask
  let res0 := aLow * bLow
  let res1 := res0 >>> 32
  let res0 := res0 &&& wordMask
  let res1 := res1 + aHigh * bLow
  let res2 := res1 >>> 32
  let res1 := res1 &&& wordMask
  let res1 := res1 + aLow * bHigh
  let res2 := res2 + res1 >>> 32
  let res3 := res2 >>> 32
  let res1 := res1 &&& wordMask
  let res2 := res2 &&& wordMask
  let res2 := res2 + aHigh * bHigh
  let res3 := res3 + res2 >>> 32
  let res2 := res2 &&& wordMask
  ((res1 <<< 32) ||| res0, (res3 <<< 32) ||| res2)

/-- The inner loop of `operator *`: a product of two words added from word `k` up. -/
def addProduct (r : List (BitVec 64)) (k : Nat) (product : BitVec 64 × BitVec 64) :
    List (BitVec 64) :=
  r.take k ++ (Words.pass (fun x carry => addCarry x.1 x.2 carry)
    ((r.drop k).zip (product.1 :: product.2 :: List.replicate r.length 0)) 0).1

/-- The loop of `operator *` over the words of the left operand, before word `adx`. -/
def mulRow (a : List (BitVec 64)) (tmpb : BitVec 64) (bdx : Nat) (r : List (BitVec 64)) :
    Nat → List (BitVec 64)
  | 0 => r
  | adx + 1 =>
    let r := mulRow a tmpb bdx r adx
    let tmpa := a.getD adx 0
    if tmpa = 0 then r else addProduct r (adx + bdx) (multiplyLong tmpa tmpb)

/-- The loop of `operator *` over the words of the right operand, before word `bdx`. -/
def mulRows (a b : List (BitVec 64)) (words : Nat) : Nat → List (BitVec 64)
  | 0 => List.replicate words 0
  | bdx + 1 =>
    let r := mulRows a b words bdx
    let tmpb := b.getD bdx 0
    if tmpb = 0 then r else mulRow a tmpb bdx r words

/-! ## Words -/

/-- Half of a word is below the mask. -/
private theorem toNat_low (a : BitVec 64) :
    (a &&& (((1 : BitVec 64) <<< 32) - 1)).toNat = a.toNat % 2 ^ 32 := by
  have hmask : ((1 : BitVec 64) <<< 32) - (1 : BitVec 64) = BitVec.allOnes 64 >>> (64 - 32) := by decide
  rw [hmask]
  exact Words.toNat_and_low a (by decide)

private theorem toNat_join (high low : BitVec 64) (hh : high.toNat < 2 ^ 32)
    (hl : low.toNat < 2 ^ 32) : ((high <<< 32) ||| low).toNat = high.toNat * 2 ^ 32 + low.toNat := by
  rw [BitVec.toNat_or, BitVec.toNat_shiftLeft, Nat.shiftLeft_eq,
    Nat.mod_eq_of_lt (by omega), ← Nat.shiftLeft_eq, ← Nat.shiftLeft_add_eq_or_of_lt hl]

private theorem toNat_shr (x : BitVec 64) : (x >>> 32).toNat = x.toNat / 2 ^ 32 := by
  rw [BitVec.toNat_ushiftRight, Nat.shiftRight_eq_div_pow]

/-- The product of half words. -/
private theorem toNat_mul_half {x y : BitVec 64} (hx : x.toNat < 2 ^ 32) (hy : y.toNat < 2 ^ 32) :
    (x * y).toNat = x.toNat * y.toNat ∧ x.toNat * y.toNat ≤ (2 ^ 32 - 1) * (2 ^ 32 - 1) := by
  have hle : x.toNat * y.toNat ≤ (2 ^ 32 - 1) * (2 ^ 32 - 1) :=
    Nat.mul_le_mul (Nat.le_sub_one_of_lt hx) (Nat.le_sub_one_of_lt hy)
  refine ⟨?_, hle⟩
  rw [BitVec.toNat_mul]
  exact Nat.mod_eq_of_lt (by omega)

/-- The product of two words, in two words. -/
theorem toNat_multiplyLong (a b : BitVec 64) :
    (multiplyLong a b).1.toNat + 2 ^ 64 * (multiplyLong a b).2.toNat = a.toNat * b.toNat := by
  have ha := a.isLt
  have hb := b.isLt
  have haL := toNat_low a
  have hbL := toNat_low b
  have haH : ((a >>> 32) &&& (((1 : BitVec 64) <<< 32) - 1)).toNat = a.toNat / 2 ^ 32 := by
    rw [toNat_low, toNat_shr]
    exact Nat.mod_eq_of_lt (by omega)
  have hbH : ((b >>> 32) &&& (((1 : BitVec 64) <<< 32) - 1)).toNat = b.toNat / 2 ^ 32 := by
    rw [toNat_low, toNat_shr]
    exact Nat.mod_eq_of_lt (by omega)
  have hsplit : a.toNat * b.toNat = a.toNat % 2 ^ 32 * (b.toNat % 2 ^ 32) +
      2 ^ 32 * (a.toNat / 2 ^ 32 * (b.toNat % 2 ^ 32) + a.toNat % 2 ^ 32 * (b.toNat / 2 ^ 32)) +
      2 ^ 64 * (a.toNat / 2 ^ 32 * (b.toNat / 2 ^ 32)) := by
    conv_lhs => rw [← Nat.mod_add_div a.toNat (2 ^ 32), ← Nat.mod_add_div b.toNat (2 ^ 32)]
    ring
  rw [hsplit, ← haL, ← hbL, ← haH, ← hbH]
  have hlow : ∀ x : BitVec 64, (x &&& (((1 : BitVec 64) <<< 32) - 1)).toNat < 2 ^ 32 := by
    intro x
    rw [toNat_low]
    exact Nat.mod_lt _ (by norm_num)
  unfold multiplyLong
  dsimp only
  have haL' := hlow a
  have hbL' := hlow b
  have haH' := hlow (a >>> 32)
  have hbH' := hlow (b >>> 32)
  generalize a &&& (((1 : BitVec 64) <<< 32) - 1) = aL at *
  generalize b &&& (((1 : BitVec 64) <<< 32) - 1) = bL at *
  generalize (a >>> 32) &&& (((1 : BitVec 64) <<< 32) - 1) = aH at *
  generalize (b >>> 32) &&& (((1 : BitVec 64) <<< 32) - 1) = bH at *
  obtain ⟨hp00, hle00⟩ := toNat_mul_half haL' hbL'
  obtain ⟨hp10, hle10⟩ := toNat_mul_half haH' hbL'
  obtain ⟨hp01, hle01⟩ := toNat_mul_half haL' hbH'
  obtain ⟨hp11, hle11⟩ := toNat_mul_half haH' hbH'
  rw [← hp00, ← hp10, ← hp01, ← hp11] at *
  generalize aL * bL = p00 at *
  generalize aH * bL = p10 at *
  generalize aL * bH = p01 at *
  generalize aH * bH = p11 at *
  have hsum1 : (p00 >>> 32 + p10).toNat = p00.toNat / 2 ^ 32 + p10.toNat := by
    rw [BitVec.toNat_add, toNat_shr]
    exact Nat.mod_eq_of_lt (by omega)
  generalize p00 >>> 32 + p10 = t1 at *
  have hsum2 : ((t1 &&& (((1 : BitVec 64) <<< 32) - 1)) + p01).toNat =
      t1.toNat % 2 ^ 32 + p01.toNat := by
    rw [BitVec.toNat_add, toNat_low]
    exact Nat.mod_eq_of_lt (by omega)
  generalize (t1 &&& (((1 : BitVec 64) <<< 32) - 1)) + p01 = t2 at *
  have hsum3 : (t1 >>> 32 + t2 >>> 32).toNat = t1.toNat / 2 ^ 32 + t2.toNat / 2 ^ 32 := by
    rw [BitVec.toNat_add, toNat_shr, toNat_shr]
    exact Nat.mod_eq_of_lt (by omega)
  generalize t1 >>> 32 + t2 >>> 32 = t3 at *
  have hsum4 : ((t3 &&& (((1 : BitVec 64) <<< 32) - 1)) + p11).toNat =
      t3.toNat % 2 ^ 32 + p11.toNat := by
    rw [BitVec.toNat_add, toNat_low]
    exact Nat.mod_eq_of_lt (by omega)
  generalize (t3 &&& (((1 : BitVec 64) <<< 32) - 1)) + p11 = t4 at *
  have hsum5 : (t3 >>> 32 + t4 >>> 32).toNat = t3.toNat / 2 ^ 32 + t4.toNat / 2 ^ 32 := by
    rw [BitVec.toNat_add, toNat_shr, toNat_shr]
    exact Nat.mod_eq_of_lt (by omega)
  generalize t3 >>> 32 + t4 >>> 32 = t5 at *
  rw [toNat_join _ _ (hlow t2) (hlow p00), toNat_join _ _ (by omega) (hlow t4), toNat_low,
    toNat_low, toNat_low]
  omega

/-! ## The product -/

/-- A product of two words is added at its place. -/
theorem addProduct_spec (r : List (BitVec 64)) (k : Nat) (product : BitVec 64 × BitVec 64) :
    (addProduct r k product).length = r.length ∧
      Words.value (addProduct r k product) ≡ Words.value r +
        2 ^ (64 * k) * (product.1.toNat + 2 ^ 64 * product.2.toNat) [MOD 2 ^ (64 * r.length)] := by
  have hlong : (r.drop k).length ≤
      (product.1 :: product.2 :: List.replicate r.length (0 : BitVec 64)).length := by
    rw [List.length_drop, List.length_cons, List.length_cons, List.length_replicate]
    omega
  have hlen : ((r.drop k).zip (product.1 :: product.2 ::
      List.replicate r.length (0 : BitVec 64))).length = r.length - k := by
    rw [List.length_zip, List.length_drop, Nat.min_eq_left]
    rwa [List.length_drop] at hlong
  constructor
  · rw [addProduct, List.length_append, Words.length_pass, hlen, List.length_take]
    omega
  · by_cases hk : k ≤ r.length
    · have hlast : Words.value (product.1 :: product.2 ::
          List.replicate r.length (0 : BitVec 64)) =
          product.1.toNat + 2 ^ 64 * product.2.toNat := by
        rw [Words.value_cons, Words.value_cons, Words.value_replicate_zero, Nat.mul_zero,
          Nat.add_zero]
      have hstep : ∀ (x : BitVec 64 × BitVec 64) (s : BitVec 64), True →
          True ∧ (addCarry x.1 x.2 s).1.toNat + 2 ^ 64 * (addCarry x.1 x.2 s).2.toNat =
            (x.1.toNat + x.2.toNat) + s.toNat :=
        fun x s _ => ⟨trivial, toNat_addCarry x.1 x.2 s⟩
      have hpass := Words.value_pass_mod hstep ((r.drop k).zip (product.1 :: product.2 ::
        List.replicate r.length (0 : BitVec 64))) (s := 0) trivial
      rw [hlen, show (0 : BitVec 64).toNat = 0 from rfl, Nat.add_zero] at hpass
      rw [addProduct, Words.value_append, List.length_take_of_le hk, hpass]
      have hzip := @List.zip_eq_zip_take_min _ _ (r.drop k) (product.1 :: product.2 ::
        List.replicate r.length (0 : BitVec 64))
      rw [Nat.min_eq_left hlong, List.take_length] at hzip
      have htake : (r.drop k).length = ((product.1 :: product.2 ::
          List.replicate r.length (0 : BitVec 64)).take (r.drop k).length).length := by
        rw [List.length_take, Nat.min_eq_left hlong]
      rw [hzip, Words.sum_add, Words.sum_zip_fst _ _ _ htake, Words.sum_zip_snd _ _ _ htake]
      have hvalue : Words.sum 64 BitVec.toNat ((product.1 :: product.2 ::
          List.replicate r.length (0 : BitVec 64)).take (r.drop k).length) =
          (product.1.toNat + 2 ^ 64 * product.2.toNat) % 2 ^ (64 * (r.length - k)) := by
        rw [← hlast, List.length_drop]
        exact Words.value_take _ _
      have hwhole : Words.value r = Words.value (r.take k) + 2 ^ (64 * k) * Words.value (r.drop k) := by
        conv_lhs => rw [← List.take_append_drop k r]
        rw [Words.value_append, List.length_take_of_le hk]
      have hpow : 2 ^ (64 * r.length) = 2 ^ (64 * k) * 2 ^ (64 * (r.length - k)) := by
        rw [← Nat.pow_add]
        congr 1
        omega
      rw [hvalue, hwhole, hpow, Nat.add_assoc (Words.value (r.take k)), ← Nat.mul_add]
      refine Nat.ModEq.add_left _ (Nat.ModEq.mul_left' _ ?_)
      refine (Nat.mod_modEq _ _).trans ?_
      exact (Nat.mod_modEq _ _).add_left _
    · have hdrop : r.drop k = [] := List.drop_of_length_le (Nat.le_of_not_le hk)
      rw [addProduct, hdrop, List.zip_nil_left, Words.pass_nil, List.append_nil,
        List.take_of_length_le (Nat.le_of_not_le hk)]
      have hdvd : 2 ^ (64 * r.length) ∣
          2 ^ (64 * k) * (product.1.toNat + 2 ^ 64 * product.2.toNat) :=
        Dvd.dvd.mul_right (Nat.pow_dvd_pow 2 (by omega)) _
      exact (Nat.ModEq.add_left (Words.value r) ((Nat.modEq_zero_iff_dvd.mpr hdvd))).symm

/-- The words of the left operand, times one word of the right one. -/
theorem mulRow_spec (a : List (BitVec 64)) (tmpb : BitVec 64) (bdx : Nat)
    (r : List (BitVec 64)) (k : Nat) :
    (mulRow a tmpb bdx r k).length = r.length ∧
      Words.value (mulRow a tmpb bdx r k) ≡ Words.value r +
        2 ^ (64 * bdx) * (Words.value (a.take k) * tmpb.toNat) [MOD 2 ^ (64 * r.length)] := by
  induction k with
  | zero =>
    rw [List.take_zero, Words.value_nil, Nat.zero_mul, Nat.mul_zero, Nat.add_zero]
    exact ⟨rfl, rfl⟩
  | succ adx ih =>
    obtain ⟨hlen, hmod⟩ := ih
    have hnext : Words.value r + 2 ^ (64 * bdx) * (Words.value (a.take (adx + 1)) * tmpb.toNat) =
        Words.value r + 2 ^ (64 * bdx) * (Words.value (a.take adx) * tmpb.toNat) +
          2 ^ (64 * (adx + bdx)) * ((a.getD adx 0).toNat * tmpb.toNat) := by
      rw [Words.value_take_succ, Nat.mul_add, Nat.pow_add]
      ring
    rw [mulRow, hnext]
    split_ifs with h0
    · rw [h0, show (0 : BitVec 64).toNat = 0 from rfl, Nat.zero_mul, Nat.mul_zero, Nat.add_zero]
      exact ⟨hlen, hmod⟩
    · obtain ⟨hlen', hmod'⟩ := addProduct_spec (mulRow a tmpb bdx r adx) (adx + bdx)
        (multiplyLong (a.getD adx 0) tmpb)
      rw [toNat_multiplyLong, hlen] at hmod'
      exact ⟨hlen'.trans hlen, hmod'.trans (hmod.add_right _)⟩

/-- The product of the words. -/
theorem mulRows_spec (a b : List (BitVec 64)) {words : Nat} (ha : a.length = words) (k : Nat) :
    (mulRows a b words k).length = words ∧
      Words.value (mulRows a b words k) ≡ Words.value a * Words.value (b.take k)
        [MOD 2 ^ (64 * words)] := by
  induction k with
  | zero =>
    rw [List.take_zero, Words.value_nil, Nat.mul_zero, mulRows, Words.value_replicate_zero]
    exact ⟨List.length_replicate, rfl⟩
  | succ bdx ih =>
    obtain ⟨hlen, hmod⟩ := ih
    have hnext : Words.value a * Words.value (b.take (bdx + 1)) =
        Words.value a * Words.value (b.take bdx) +
          2 ^ (64 * bdx) * (Words.value a * (b.getD bdx 0).toNat) := by
      rw [Words.value_take_succ]
      ring
    rw [mulRows, hnext]
    split_ifs with h0
    · rw [h0, show (0 : BitVec 64).toNat = 0 from rfl, Nat.mul_zero, Nat.mul_zero, Nat.add_zero]
      exact ⟨hlen, hmod⟩
    · obtain ⟨hlen', hmod'⟩ := mulRow_spec a (b.getD bdx 0) bdx (mulRows a b words bdx) words
      rw [hlen, List.take_of_length_le ha.le] at hmod'
      exact ⟨hlen'.trans hlen, hmod'.trans (hmod.add_right _)⟩

namespace Vector2

/-- `operator *`; the widths agree by assertion. -/
def mul (a b : Vector2) : Option Vector2 :=
  if a.wid = b.wid then
    some (ofWords a.wid (mulRows a.vec b.vec (wordCount a.wid) (wordCount a.wid))
      (mulRows_spec a.vec b.vec a.length_vec _).1)
  else none

/-- `set_bit`; the index is in the vector by assertion. -/
def setBit (v : Vector2) (idx : Nat) (bit : Bool) : Option Vector2 :=
  if idx < v.wid then
    let word := v.vec.getD (idx / 64) 0
    let mask := (1 : BitVec 64) <<< (idx % 64)
    some (ofWords v.wid (v.vec.set (idx / 64) (if bit then word ||| mask else word &&& ~~~ mask))
      (by rw [List.length_set, v.length_vec]))
  else none

/-- `pow`, with so many turns. -/
def powTurns : Nat → Vector2 → Vector2 → Option Vector2
  | 0, _, _ => none
  | turns + 1, x, y =>
    if y.eq (ofLong 0 1) then some (ofLong 1 x.wid)
    else if y.value 0 then do
      let y ← y.setBit 0 false
      let z ← powTurns turns x y
      x.mul z
    else do
      let z ← powTurns turns x (y.shr 1)
      z.mul z

/-- `pow`, with the turns that its exponent takes. -/
def pow (x y : Vector2) : Option Vector2 := powTurns (2 * y.wid + 2) x y

theorem mul_eq {a b : Vector2} (hw : a.wid = b.wid) :
    ∃ r, mul a b = some r ∧ r.wid = a.wid ∧ r.toNat = a.toNat * b.toNat % 2 ^ a.wid := by
  refine ⟨_, if_pos hw, rfl, ?_⟩
  obtain ⟨-, hmod⟩ := mulRows_spec a.vec b.vec a.length_vec (wordCount a.wid)
  have hb : b.vec.length = wordCount a.wid := by rw [b.length_vec, hw]
  rw [List.take_of_length_le hb.le] at hmod
  rw [toNat_ofWords]
  refine Nat.ModEq.of_dvd (Nat.pow_dvd_pow 2 ?_) hmod
  exact le_wordCount a.wid

/-- Clearing the lowest bit of a word. -/
private theorem toNat_clear (word : BitVec 64) :
    (word &&& ~~~ ((1 : BitVec 64) <<< 0)).toNat + word.toNat % 2 = word.toNat := by
  have hhalf : (word &&& ~~~ ((1 : BitVec 64) <<< 0)) = (word >>> 1) <<< 1 := by
    apply BitVec.eq_of_getLsbD_eq
    intro i hi
    cases i with
    | zero => simp
    | succ i =>
      simp only [BitVec.getLsbD_and, BitVec.getLsbD_not, BitVec.getLsbD_shiftLeft,
        BitVec.getLsbD_ushiftRight]
      simp [hi, Nat.add_comm]
  have hlt := word.isLt
  rw [hhalf, BitVec.toNat_shiftLeft, BitVec.toNat_ushiftRight, Nat.shiftRight_eq_div_pow,
    Nat.shiftLeft_eq]
  omega

/-- Clearing the lowest bit of an odd number subtracts one. -/
theorem setBit_zero_eq {v : Vector2} (hpos : 0 < v.wid) (hodd : v.toNat % 2 = 1) :
    ∃ r, setBit v 0 false = some r ∧ r.wid = v.wid ∧ r.toNat = v.toNat - 1 := by
  refine ⟨_, if_pos hpos, rfl, ?_⟩
  have hlen : 0 < v.vec.length := by
    have hcount := v.length_vec
    unfold wordCount at hcount
    omega
  obtain ⟨word, words, hvec⟩ := List.exists_cons_of_length_pos hlen
  have hvalue : v.toNat = word.toNat + 2 ^ 64 * Words.value words := by
    rw [toNat, hvec, Words.value_cons]
  have hclear := toNat_clear word
  have hlt := v.toNat_lt
  rw [toNat_ofWords]
  have hnew : Words.value (v.vec.set (0 / 64) (if false = true then v.vec.getD (0 / 64) 0 |||
      (1 : BitVec 64) <<< (0 % 64) else v.vec.getD (0 / 64) 0 &&& ~~~ ((1 : BitVec 64) <<< (0 % 64)))) =
      v.toNat - 1 := by
    rw [hvec]
    have hodd' : word.toNat % 2 = 1 := by omega
    have hword : (word &&& ~~~ ((1 : BitVec 64) <<< 0)).toNat + 1 = word.toNat := by omega
    show Words.value ((word &&& ~~~ ((1 : BitVec 64) <<< 0)) :: words) = _
    rw [Words.value_cons]
    omega
  exact hnew ▸ Nat.mod_eq_of_lt (by omega)

/-- The power by squaring. -/
theorem powTurns_eq {x : Vector2} (hx : 0 < x.wid) (turns n : Nat)
    (h : BinaryPower.steps n ≤ turns) : ∀ y : Vector2, 0 < y.wid → y.toNat = n →
      ∃ r, powTurns turns x y = some r ∧ r.wid = x.wid ∧ r.toNat = x.toNat ^ n % 2 ^ x.wid := by
  have hone : ∀ k, 0 < k → (ofLong 1 k).toNat = 1 % 2 ^ k := fun k _ => toNat_ofLong 1 k
  have hzero : (ofLong 0 1).toNat = 0 := toNat_ofLong 0 1
  refine BinaryPower.induction (P := fun turns n => ∀ y : Vector2, 0 < y.wid → y.toNat = n →
    ∃ r, powTurns turns x y = some r ∧ r.wid = x.wid ∧ r.toNat = x.toNat ^ n % 2 ^ x.wid)
    ?_ ?_ ?_ turns n h
  · intro turns y hy hn
    refine ⟨ofLong 1 x.wid, ?_, ?_, ?_⟩
    · rw [powTurns, eq_eq, hzero, hn, decide_eq_true rfl, if_pos rfl]
    · exact wid_ofLong 1 x.wid
    · rw [hone _ hx, pow_zero]
  · intro turns n hodd ih y hy hn
    obtain ⟨y', hy', hwid', hnat'⟩ := setBit_zero_eq hy (hn ▸ hodd)
    obtain ⟨z, hz, hzwid, hznat⟩ := ih y' (hwid' ▸ hy) (hnat'.trans (by rw [hn]))
    obtain ⟨r, hr, hrwid, hrnat⟩ := mul_eq hzwid.symm
    refine ⟨r, ?_, hrwid, ?_⟩
    · have hne : y.eq (ofLong 0 1) = false := by
        rw [eq_eq, hzero, hn, decide_eq_false_iff_not]
        omega
      have hbit : y.value 0 = true := by
        rw [value_eq, hn, Nat.testBit_zero, hodd, decide_eq_true rfl]
      rw [powTurns, hne, if_neg Bool.false_ne_true, hbit, if_pos rfl, hy', Option.bind_eq_bind,
        Option.bind_some, hz, Option.bind_some, hr]
    · rw [hrnat, hznat, BinaryPower.pow_odd _ hodd, Nat.mul_mod_mod]
  · intro turns n hpos heven ih y hy hn
    have hhalf : (y.shr 1).toNat = n / 2 := by rw [toNat_shr, hn, pow_one]
    obtain ⟨z, hz, hzwid, hznat⟩ := ih (y.shr 1) (by rwa [wid_shr]) hhalf
    obtain ⟨r, hr, hrwid, hrnat⟩ := mul_eq (rfl : z.wid = z.wid)
    refine ⟨r, ?_, hrwid.trans hzwid, ?_⟩
    · have hne : y.eq (ofLong 0 1) = false := by
        rw [eq_eq, hzero, hn, decide_eq_false_iff_not]
        omega
      have hbit : y.value 0 = false := by
        rw [value_eq, hn, Nat.testBit_zero, heven]
        rfl
      rw [powTurns, hne, if_neg Bool.false_ne_true, hbit, if_neg Bool.false_ne_true,
        Option.bind_eq_bind, hz, Option.bind_some, hr]
    · rw [hrnat, hznat, hzwid, BinaryPower.pow_even _ heven, ← Nat.mul_mod]

/-- The power modulo the power of the width. -/
theorem pow_eq {x y : Vector2} (hx : 0 < x.wid) (hy : 0 < y.wid) :
    ∃ r, pow x y = some r ∧ r.wid = x.wid ∧ r.toNat = x.toNat ^ y.toNat % 2 ^ x.wid :=
  powTurns_eq hx _ _ (BinaryPower.steps_le y.toNat_lt) y hy rfl

end Vector2

end Icarus.Vvp
