import Icarus.Core.Moves
import Icarus.Core.Words
import Icarus.Vvp.Bits

/-!
# Two-state vectors

`vvp_vector2_t`: an unsigned number of a fixed width in an array of machine
words, the bits above the width clear. A vector of width zero is NaN. Every
operation works on the words; its meaning is a fact about the number. An
assertion that fails is `none`.
-/

namespace Icarus.Vvp

open Icarus.Core

/-- The number of words for a width. -/
def wordCount (wid : Nat) : Nat := (wid + 63) / 64

/-- `clear_unused_bits_`. -/
def clearUnusedBits (wid : Nat) (vec : List (BitVec 64)) : List (BitVec 64) :=
  if wid % 64 = 0 then vec
  else
    let words := wordCount wid
    vec.set (words - 1)
      (vec.getD (words - 1) 0 &&& (BitVec.allOnes 64 >>> (64 - wid % 64)))

theorem le_wordCount (wid : Nat) : wid ≤ 64 * wordCount wid := by
  unfold wordCount
  omega

/-- The words of a width hold at least the numbers of that width. -/
theorem two_pow_wordCount (wid : Nat) :
    2 ^ (64 * wordCount wid) = 2 ^ wid * 2 ^ (64 * wordCount wid - wid) := by
  rw [← Nat.pow_add, Nat.add_sub_cancel' (le_wordCount wid)]

theorem mod_two_pow_wordCount (n wid : Nat) :
    n % 2 ^ (64 * wordCount wid) % 2 ^ wid = n % 2 ^ wid := by
  rw [two_pow_wordCount, Nat.mod_mul_right_mod]

@[simp] theorem length_clearUnusedBits (wid : Nat) (vec : List (BitVec 64)) :
    (clearUnusedBits wid vec).length = vec.length := by
  unfold clearUnusedBits
  split_ifs <;> simp

/-- Clearing the unused bits leaves the number modulo the power of the width. -/
theorem value_clearUnusedBits {wid : Nat} {vec : List (BitVec 64)}
    (h : vec.length = wordCount wid) :
    Words.value (clearUnusedBits wid vec) = Words.value vec % 2 ^ wid := by
  unfold clearUnusedBits
  split_ifs with htail
  · have hlt := Words.value_lt vec
    rw [h, show 64 * wordCount wid = wid by unfold wordCount; omega] at hlt
    exact (Nat.mod_eq_of_lt hlt).symm
  · have hpos : 0 < wordCount wid := by
      unfold wordCount
      omega
    obtain ⟨ys, x, rfl⟩ : ∃ ys x, vec = ys ++ [x] := by
      rcases List.eq_nil_or_concat vec with rfl | ⟨ys, x, rfl⟩
      · simp at h
        omega
      · exact ⟨ys, x, by simp⟩
    have hlen : ys.length = wordCount wid - 1 := by
      simp only [List.length_append, List.length_singleton] at h
      omega
    have hmask := Words.toNat_and_low x (show wid % 64 ≤ 64 by omega)
    have hwid : 2 ^ wid = 2 ^ (64 * ys.length) * 2 ^ (wid % 64) := by
      rw [← Nat.pow_add]
      congr 1
      unfold wordCount at hlen
      omega
    simp only [← hlen, List.set_append_right _ _ (Nat.le_refl _), Nat.sub_self, List.set_cons_zero, List.getD_append_right _ _ _ _ (Nat.le_refl _),
      List.getD_cons_zero, Words.value_append, Words.value_cons, Words.value_nil, hmask,
      Nat.mul_zero, Nat.add_zero]
    rw [hwid, Nat.mod_mul, Nat.add_mul_mod_self_left, Nat.mod_eq_of_lt (Words.value_lt ys),
      Nat.add_mul_div_left _ _ (Nat.two_pow_pos _), Nat.div_eq_of_lt (Words.value_lt ys),
      Nat.zero_add]

/-- `vvp_vector2_t`. -/
structure Vector2 where
  /-- `wid_`. -/
  wid : Nat
  /-- `vec_`. -/
  vec : List (BitVec 64)
  /-- The array has the words of the width. -/
  length_vec : vec.length = wordCount wid
  /-- The unused bits are clear. -/
  value_lt : Words.value vec < 2 ^ wid

namespace Vector2

/-- The number. -/
def toNat (v : Vector2) : Nat := Words.value v.vec

theorem toNat_lt (v : Vector2) : v.toNat < 2 ^ v.wid := v.value_lt

/-- Words with the unused bits cleared. -/
def ofWords (wid : Nat) (vec : List (BitVec 64)) (h : vec.length = wordCount wid) : Vector2 where
  wid := wid
  vec := clearUnusedBits wid vec
  length_vec := by rw [length_clearUnusedBits, h]
  value_lt := by
    rw [value_clearUnusedBits h]
    exact Nat.mod_lt _ (Nat.two_pow_pos _)

@[simp] theorem wid_ofWords (wid : Nat) (vec : List (BitVec 64)) (h : vec.length = wordCount wid) :
    (ofWords wid vec h).wid = wid := rfl

theorem toNat_ofWords (wid : Nat) (vec : List (BitVec 64)) (h : vec.length = wordCount wid) :
    (ofWords wid vec h).toNat = Words.value vec % 2 ^ wid := value_clearUnusedBits h

/-! ## Constructors -/

/-- The default constructor: NaN. -/
def nan : Vector2 := ⟨0, [], rfl, Nat.one_pos⟩

/-- The constructor from a native long and a width. -/
def ofLong (v : BitVec 64) (wid : Nat) : Vector2 :=
  if h : wordCount wid = 0 then ⟨wid, [], h.symm, Nat.two_pow_pos wid⟩
  else
    ofWords wid (v :: List.replicate (wordCount wid - 1) 0) (by
      simp only [List.length_cons, List.length_replicate]
      omega)

/-- The constructor from a vector and a new size. -/
def resize (that : Vector2) (newsize : Nat) : Vector2 :=
  ofWords newsize ((List.range (wordCount newsize)).map fun idx =>
    if idx < wordCount that.wid then that.vec.getD idx 0 else 0) (by simp)

/-- The words of a four-state vector, `subarray(0, size(), true)`. -/
def subarray (that : Vector4) : List (BitVec 64) :=
  (List.range (wordCount that.length)).map fun idx =>
    BitVec.ofNat 64 (Vector4.toNat ((that.drop (64 * idx)).take 64))

/-- The constructor from a four-state vector. -/
def ofVector4 (that : Vector4) (enableNaN : Bool) : Vector2 :=
  if enableNaN && that.hasXz then nan
  else ofWords that.length (subarray that) (by simp [subarray])

/-! ## Shifts -/

/-- The words of `operator <<=` for a shift below the width. -/
def shiftWordsUp (shift : Nat) (vec : List (BitVec 64)) : List (BitVec 64) :=
  let words := vec.length
  let wshift := shift / 64
  let oshift := shift % 64
  let vec :=
    if wshift > 0 then Moves.fill 0 (Moves.moveUp wshift vec (words - wshift)) 0 wshift
    else vec
  if oshift ≠ 0 then (Words.pass (Words.stepUp oshift) vec 0).1 else vec

/-- The words of `operator >>=` for a shift below the width. -/
def shiftWordsDown (shift : Nat) (vec : List (BitVec 64)) : List (BitVec 64) :=
  let words := vec.length
  let wshift := shift / 64
  let oshift := shift % 64
  let vec :=
    if wshift > 0 then
      Moves.fill 0 (Moves.moveDown wshift vec (words - wshift)) (words - wshift) words
    else vec
  if oshift > 0 then (Words.passDown (Words.stepDown oshift) vec 0).1 else vec

@[simp] theorem length_shiftWordsUp (shift : Nat) (vec : List (BitVec 64)) :
    (shiftWordsUp shift vec).length = vec.length := by
  simp only [shiftWordsUp]
  split_ifs <;> simp

@[simp] theorem length_shiftWordsDown (shift : Nat) (vec : List (BitVec 64)) :
    (shiftWordsDown shift vec).length = vec.length := by
  simp only [shiftWordsDown]
  split_ifs <;> simp

/-- Word shift and bit shift together multiply. -/
theorem value_shiftWordsUp {shift : Nat} {vec : List (BitVec 64)} (h : shift / 64 ≤ vec.length) :
    Words.value (shiftWordsUp shift vec) =
      Words.value vec * 2 ^ shift % 2 ^ (64 * vec.length) := by
  have hword : (if shift / 64 > 0 then
        Moves.fill 0 (Moves.moveUp (shift / 64) vec (vec.length - shift / 64)) 0 (shift / 64)
      else vec) =
      List.replicate (shift / 64) 0 ++ vec.take (vec.length - shift / 64) := by
    split_ifs with hpos
    · exact Moves.fill_moveUp 0 h
    · simp [Nat.eq_zero_of_not_pos hpos]
  have hpow : 2 ^ shift = 2 ^ (64 * (shift / 64)) * 2 ^ (shift % 64) := by
    rw [← Nat.pow_add, Nat.div_add_mod]
  have hlen : (List.replicate (shift / 64) (0 : BitVec 64) ++
      vec.take (vec.length - shift / 64)).length = vec.length := by
    simp only [List.length_append, List.length_replicate, List.length_take]
    omega
  have hval : Words.value (shiftWordsUp shift vec) =
      Words.value vec * 2 ^ (64 * (shift / 64)) % 2 ^ (64 * vec.length) * 2 ^ (shift % 64) %
        2 ^ (64 * vec.length) := by
    simp only [shiftWordsUp, hword]
    split_ifs with ho
    · rw [Words.value_pass_stepUp (by omega), hlen, Words.value_shiftUp _ h]
    · rw [Words.value_shiftUp _ h, not_ne_iff.mp ho, Nat.pow_zero, Nat.mul_one, Nat.mod_mod]
  rw [hval, Nat.mod_mul_mod, hpow, Nat.mul_assoc]

/-- Word shift and bit shift together divide. -/
theorem value_shiftWordsDown {shift : Nat} {vec : List (BitVec 64)}
    (h : shift / 64 ≤ vec.length) :
    Words.value (shiftWordsDown shift vec) = Words.value vec / 2 ^ shift := by
  have hword : (if shift / 64 > 0 then
        Moves.fill 0 (Moves.moveDown (shift / 64) vec (vec.length - shift / 64))
          (vec.length - shift / 64) vec.length
      else vec) = vec.drop (shift / 64) ++ List.replicate (shift / 64) 0 := by
    split_ifs with hpos
    · exact Moves.fill_moveDown 0 h
    · simp [Nat.eq_zero_of_not_pos hpos]
  have hpow : 2 ^ shift = 2 ^ (64 * (shift / 64)) * 2 ^ (shift % 64) := by
    rw [← Nat.pow_add, Nat.div_add_mod]
  simp only [shiftWordsDown, hword]
  rw [hpow, ← Nat.div_div_eq_div_mul, ← Words.value_shiftDown]
  split_ifs with ho
  · exact (Words.value_passDown_stepDown (by omega) _).1
  · rw [Nat.eq_zero_of_not_pos ho, Nat.pow_zero, Nat.div_one]

/-- `operator <<=`. -/
def shl (v : Vector2) (shift : Nat) : Vector2 :=
  if v.wid = 0 then v
  else if shift ≥ v.wid then
    ofWords v.wid (Moves.fill 0 v.vec 0 (wordCount v.wid)) (by simp [v.length_vec])
  else ofWords v.wid (shiftWordsUp shift v.vec) (by simp [v.length_vec])

/-- `operator >>=`. -/
def shr (v : Vector2) (shift : Nat) : Vector2 :=
  if v.wid = 0 then v
  else if shift ≥ v.wid then
    ofWords v.wid (Moves.fill 0 v.vec 0 (wordCount v.wid)) (by simp [v.length_vec])
  else ofWords v.wid (shiftWordsDown shift v.vec) (by simp [v.length_vec])

/-! ## Sums -/

/-- `add_carry`. -/
def addCarry (a b carry : BitVec 64) : BitVec 64 × BitVec 64 :=
  let out := carry
  let carry := 0
  let carry := if BitVec.allOnes 64 - out < a then carry + 1 else carry
  let out := out + a
  let carry := if BitVec.allOnes 64 - out < b then carry + 1 else carry
  let out := out + b
  (out, carry)

/-- The overflow test of one addition. -/
private theorem toNat_add_overflow (out a : BitVec 64) :
    (out + a).toNat + 2 ^ 64 * (if BitVec.allOnes 64 - out < a then 1 else 0) =
      out.toNat + a.toNat := by
  have hout := out.isLt
  have ha := a.isLt
  have hsub : (BitVec.allOnes 64 - out).toNat = 2 ^ 64 - 1 - out.toNat := by
    rw [BitVec.toNat_sub, BitVec.toNat_allOnes]
    omega
  split_ifs with h <;> rw [BitVec.lt_def, hsub] at h <;> rw [BitVec.toNat_add] <;> omega

/-- The sum of two words and a carry, in two words. -/
theorem toNat_addCarry (a b carry : BitVec 64) :
    (addCarry a b carry).1.toNat + 2 ^ 64 * (addCarry a b carry).2.toNat =
      a.toNat + b.toNat + carry.toNat := by
  have h₁ := toNat_add_overflow carry a
  have h₂ := toNat_add_overflow (carry + a) b
  have hcount : (addCarry a b carry).2.toNat =
      (if BitVec.allOnes 64 - carry < a then 1 else 0) +
        (if BitVec.allOnes 64 - (carry + a) < b then 1 else 0) := by
    simp only [addCarry]
    split_ifs <;> rfl
  have hout : (addCarry a b carry).1 = carry + a + b := rfl
  rw [hcount, hout, Nat.mul_add]
  omega

/-- `operator +=`; the widths agree by assertion. -/
def addAssign (v that : Vector2) : Option Vector2 :=
  if h : v.wid = that.wid then
    some (if v.wid = 0 then v
      else ofWords v.wid
        (Words.pass (fun x carry => addCarry x.1 x.2 carry) (v.vec.zip that.vec) 0).1
        (by simp [v.length_vec, that.length_vec, h]))
  else none

/-- `operator -=`; the widths agree by assertion. -/
def subAssign (v that : Vector2) : Option Vector2 :=
  if h : v.wid = that.wid then
    some (if v.wid = 0 then v
      else ofWords v.wid
        (Words.pass (fun x carry => addCarry x.1 (~~~ x.2) carry) (v.vec.zip that.vec) 1).1
        (by simp [v.length_vec, that.length_vec, h]))
  else none

/-- Unary `operator -`. -/
def neg (that : Vector2) : Option Vector2 :=
  if that.wid = 0 then some that
  else
    addAssign (ofWords that.wid (that.vec.map (~~~ ·)) (by simp [that.length_vec]))
      (ofLong 1 that.wid)

/-! ## Bits and comparisons -/

/-- `value`. -/
def value (v : Vector2) (idx : Nat) : Bool :=
  if idx ≥ v.wid then false
  else v.vec.getD (idx / 64) 0 &&& ((1 : BitVec 64) <<< (idx % 64)) ≠ 0

/-- `is_NaN`. -/
def isNaN (v : Vector2) : Bool := v.wid = 0

/-- `is_zero`. -/
def isZero (v : Vector2) : Bool := v.vec.all fun x => x = 0

/-- The loop of the comparisons from the top word down, with the results for the first pair of
words that differ and for equal vectors. -/
def compare (greater less equal : Bool) (a b : Vector2) : Nat → Bool
  | 0 => equal
  | idx + 1 =>
    let aw := if idx < wordCount a.wid then a.vec.getD idx 0 else 0
    let bw := if idx < wordCount b.wid then b.vec.getD idx 0 else 0
    if aw > bw then greater
    else if aw < bw then less
    else compare greater less equal a b idx

/-- `operator >`. -/
def gt (a b : Vector2) : Bool :=
  compare true false false a b (max (wordCount a.wid) (wordCount b.wid))

/-- `operator >=`. -/
def ge (a b : Vector2) : Bool :=
  compare true false true a b (max (wordCount a.wid) (wordCount b.wid))

/-- `operator <`. -/
def lt (a b : Vector2) : Bool :=
  compare false true false a b (max (wordCount a.wid) (wordCount b.wid))

/-- `operator <=`; the widths agree by assertion. -/
def le (a b : Vector2) : Option Bool :=
  if a.wid = b.wid then some (compare false true true a b (wordCount a.wid)) else none

/-- `operator ==`. -/
def eq (a b : Vector2) : Bool :=
  compare false false true a b (max (wordCount a.wid) (wordCount b.wid))

/-- `vector2_to_vector4`. -/
def toVector4 (that : Vector2) (wid : Nat) : Vector4 :=
  (List.range wid).map fun idx => if that.value idx then .one else .zero

/-! ## What the operations compute -/

theorem toNat_ofLong (v : BitVec 64) (wid : Nat) : (ofLong v wid).toNat = v.toNat % 2 ^ wid := by
  unfold ofLong
  split_ifs with h
  · have hw : wid = 0 := by
      have := le_wordCount wid
      omega
    simp [toNat, hw, Nat.mod_one]
  · rw [toNat_ofWords, Words.value_cons, Words.value_replicate_zero, Nat.mul_zero, Nat.add_zero]

@[simp] theorem wid_ofLong (v : BitVec 64) (wid : Nat) : (ofLong v wid).wid = wid := by
  unfold ofLong
  split_ifs <;> rfl

@[simp] theorem wid_resize (that : Vector2) (newsize : Nat) :
    (resize that newsize).wid = newsize := rfl

theorem toNat_resize (that : Vector2) (newsize : Nat) :
    (resize that newsize).toNat = that.toNat % 2 ^ newsize := by
  have hvec : Words.value ((List.range (wordCount newsize)).map fun idx =>
      if idx < wordCount that.wid then that.vec.getD idx 0 else 0) =
      that.toNat % 2 ^ (64 * wordCount newsize) := by
    apply Nat.eq_of_testBit_eq
    intro i
    rw [Nat.testBit_mod_two_pow, toNat, Words.testBit_value (by omega),
      Words.testBit_value (by omega)]
    by_cases hi : i < 64 * wordCount newsize
    · have hdiv : i / 64 < wordCount newsize := by omega
      simp only [List.getD_eq_getElem?_getD, List.getElem?_map, List.getElem?_range hdiv,
        Option.map_some, Option.getD_some, hi, decide_true, Bool.true_and]
      split_ifs with hlt
      · rfl
      · rw [List.getElem?_eq_none (by rw [that.length_vec]; omega)]
        rfl
    · have hdiv : ¬ i / 64 < wordCount newsize := by omega
      rw [List.getD_eq_getElem?_getD, List.getElem?_eq_none (by simpa using hdiv)]
      simp [hi]
  rw [resize, toNat_ofWords, hvec, mod_two_pow_wordCount]

@[simp] theorem wid_shl (v : Vector2) (shift : Nat) : (v.shl shift).wid = v.wid := by
  unfold shl
  split_ifs <;> rfl

@[simp] theorem wid_shr (v : Vector2) (shift : Nat) : (v.shr shift).wid = v.wid := by
  unfold shr
  split_ifs <;> rfl

private theorem value_fill_zero (v : Vector2) :
    Words.value (Moves.fill 0 v.vec 0 (wordCount v.wid)) = 0 := by
  rw [Words.value_eq_zero]
  intro x hx
  obtain ⟨i, hi, rfl⟩ := List.getElem_of_mem hx
  have hget := Moves.getElem?_fill (0 : BitVec 64) v.vec 0 (wordCount v.wid) i
  rw [Moves.length_fill, v.length_vec] at hi
  rw [if_pos (by rw [v.length_vec]; omega), List.getElem?_eq_some_iff] at hget
  exact hget.2

theorem toNat_shl (v : Vector2) (shift : Nat) :
    (v.shl shift).toNat = v.toNat * 2 ^ shift % 2 ^ v.wid := by
  unfold shl
  split_ifs with h0 hge
  · have hlt := v.toNat_lt
    rw [h0] at hlt ⊢
    rw [Nat.pow_zero, Nat.mod_one]
    omega
  · rw [toNat_ofWords, value_fill_zero, Nat.zero_mod]
    have hpow : 2 ^ shift = 2 ^ v.wid * 2 ^ (shift - v.wid) := by
      rw [← Nat.pow_add, Nat.add_sub_cancel' hge]
    rw [hpow, Nat.mul_left_comm, Nat.mul_mod_right]
  · have hle : shift / 64 ≤ v.vec.length := by
      rw [v.length_vec]
      unfold wordCount
      omega
    rw [toNat_ofWords, value_shiftWordsUp hle, v.length_vec, mod_two_pow_wordCount]
    rfl

theorem toNat_shr (v : Vector2) (shift : Nat) : (v.shr shift).toNat = v.toNat / 2 ^ shift := by
  have hlt := v.toNat_lt
  unfold shr
  split_ifs with h0 hge
  · rw [h0, Nat.pow_zero] at hlt
    rw [show v.toNat = 0 by omega, Nat.zero_div]
  · rw [toNat_ofWords, value_fill_zero, Nat.zero_mod]
    have hpow : 2 ^ v.wid ≤ 2 ^ shift := Nat.pow_le_pow_right (by omega) hge
    exact (Nat.div_eq_of_lt (by omega)).symm
  · have hle : shift / 64 ≤ v.vec.length := by
      rw [v.length_vec]
      unfold wordCount
      omega
    rw [toNat_ofWords, value_shiftWordsDown hle]
    exact Nat.mod_eq_of_lt (Nat.lt_of_le_of_lt (Nat.div_le_self _ _) hlt)

/-- Words summed with a carry, the unused bits cleared. -/
private theorem value_pass_add {n : Nat} {xs : List (BitVec 64 × BitVec 64)} {carry : BitVec 64}
    {F : BitVec 64 × BitVec 64 → Nat} {f : BitVec 64 × BitVec 64 → BitVec 64}
    (hn : xs.length = n) (hF : ∀ x, F x = x.1.toNat + (f x).toNat) :
    Words.value (Words.pass (fun x carry => addCarry x.1 (f x) carry) xs carry).1 =
      (Words.sum 64 F xs + carry.toNat) % 2 ^ (64 * n) := by
  have hstep : ∀ (x : BitVec 64 × BitVec 64) (s : BitVec 64), True →
      True ∧ (addCarry x.1 (f x) s).1.toNat + 2 ^ 64 * (addCarry x.1 (f x) s).2.toNat =
        F x + s.toNat := by
    intro x s _
    exact ⟨trivial, by rw [toNat_addCarry, hF]⟩
  rw [Words.value_pass_mod hstep xs trivial, hn]

/-- Vectors of one width are added. -/
theorem addAssign_eq {v that : Vector2} (hw : v.wid = that.wid) :
    ∃ r, addAssign v that = some r ∧ r.wid = v.wid ∧
      r.toNat = (v.toNat + that.toNat) % 2 ^ v.wid := by
  have hv := v.toNat_lt
  have ht := that.toNat_lt
  refine ⟨_, dif_pos hw, ?_, ?_⟩
  · split_ifs <;> rfl
  · split_ifs with h0
    · rw [h0] at hv ⊢
      rw [← hw, h0] at ht
      rw [Nat.pow_zero] at hv ht ⊢
      omega
    · have hlen : v.vec.length = that.vec.length := by rw [v.length_vec, that.length_vec, hw]
      have hzip : (v.vec.zip that.vec).length = wordCount v.wid := by
        rw [List.length_zip, ← hlen, Nat.min_self, v.length_vec]
      rw [toNat_ofWords, value_pass_add hzip (fun _ => rfl),
        mod_two_pow_wordCount, Words.sum_add, Words.sum_zip_fst _ _ _ hlen,
        Words.sum_zip_snd _ _ _ hlen]
      rfl

/-- Vectors of one width are subtracted. -/
theorem subAssign_eq {v that : Vector2} (hw : v.wid = that.wid) :
    ∃ r, subAssign v that = some r ∧ r.wid = v.wid ∧
      r.toNat = (v.toNat + (2 ^ v.wid - that.toNat)) % 2 ^ v.wid := by
  have hv := v.toNat_lt
  have ht := that.toNat_lt
  refine ⟨_, dif_pos hw, ?_, ?_⟩
  · split_ifs <;> rfl
  · split_ifs with h0
    · rw [h0] at hv ⊢
      rw [← hw, h0] at ht
      rw [Nat.pow_zero] at hv ht ⊢
      omega
    · have hlen : v.vec.length = that.vec.length := by rw [v.length_vec, that.length_vec, hw]
      have hzip : (v.vec.zip that.vec).length = wordCount v.wid := by
        rw [List.length_zip, ← hlen, Nat.min_self, v.length_vec]
      have hnot := Words.value_map_not that.vec
      have hsum : Words.sum 64 (fun x : BitVec 64 => (~~~ x).toNat) that.vec =
          Words.value (that.vec.map (~~~ ·)) := (Words.sum_map BitVec.toNat (~~~ ·) _).symm
      rw [toNat_ofWords, value_pass_add hzip (fun _ => rfl), mod_two_pow_wordCount,
        Words.sum_add, Words.sum_zip_fst _ _ _ hlen,
        Words.sum_zip_snd (fun x : BitVec 64 => (~~~ x).toNat) _ _ hlen, hsum]
      rw [that.length_vec, ← hw, two_pow_wordCount] at hnot
      obtain ⟨q, hq⟩ : ∃ q, 2 ^ (64 * wordCount v.wid - v.wid) = q + 1 :=
        ⟨_, (Nat.succ_pred_eq_of_pos (Nat.two_pow_pos _)).symm⟩
      rw [hq, Nat.mul_succ] at hnot
      rw [← hw] at ht
      have hone : (1 : BitVec 64).toNat = 1 := rfl
      have hthat : Words.value that.vec = that.toNat := rfl
      have hself : Words.sum 64 BitVec.toNat v.vec = v.toNat := rfl
      rw [hone, hself, ← Nat.add_mul_mod_self_left (v.toNat + (2 ^ v.wid - that.toNat)) (2 ^ v.wid) q]
      congr 1
      omega

/-- Negation is modulo the power of the width. -/
theorem neg_eq (that : Vector2) :
    ∃ r, neg that = some r ∧ r.wid = that.wid ∧
      r.toNat = (2 ^ that.wid - that.toNat) % 2 ^ that.wid := by
  have hlt := that.toNat_lt
  unfold neg
  split_ifs with h0
  · refine ⟨that, rfl, rfl, ?_⟩
    rw [h0, Nat.pow_zero] at hlt ⊢
    omega
  · have hlen : (that.vec.map (~~~ ·)).length = wordCount that.wid := by simp [that.length_vec]
    have hsame : (ofWords that.wid (that.vec.map (~~~ ·)) hlen).wid = (ofLong 1 that.wid).wid := by
      simp
    obtain ⟨r, hr, hwid, hnat⟩ := addAssign_eq hsame
    refine ⟨r, hr, hwid, ?_⟩
    have hnot := Words.value_map_not that.vec
    rw [that.length_vec, two_pow_wordCount] at hnot
    obtain ⟨q, hq⟩ : ∃ q, 2 ^ (64 * wordCount that.wid - that.wid) = q + 1 :=
      ⟨_, (Nat.succ_pred_eq_of_pos (Nat.two_pow_pos _)).symm⟩
    have hthat : Words.value that.vec = that.toNat := rfl
    have hone : (1 : BitVec 64).toNat = 1 := rfl
    rw [hq, Nat.mul_succ, hthat] at hnot
    rw [hnat, toNat_ofWords, toNat_ofLong, wid_ofWords, ← Nat.add_mod, hone,
      ← Nat.add_mul_mod_self_left (2 ^ that.wid - that.toNat) (2 ^ that.wid) q]
    congr 1
    omega

private theorem add_mul_lt {p a b x y : Nat} (hb : b < p) (hxy : y < x) :
    b + p * y < a + p * x := by
  have hmul := Nat.mul_le_mul_left p (Nat.succ_le_of_lt hxy)
  rw [Nat.mul_succ] at hmul
  omega

/-- The comparison loop compares the numbers in the words it has yet to visit. -/
private theorem compare_take (greater less equal : Bool) (a b : Vector2) (k : Nat) :
    compare greater less equal a b k =
      if Words.value (b.vec.take k) < Words.value (a.vec.take k) then greater
      else if Words.value (a.vec.take k) < Words.value (b.vec.take k) then less
      else equal := by
  have hread : ∀ (v : Vector2) (k : Nat),
      (if k < wordCount v.wid then v.vec.getD k 0 else 0) = v.vec.getD k 0 := by
    intro v k
    split_ifs with hk
    · rfl
    · rw [List.getD_eq_getElem?_getD, List.getElem?_eq_none (by rw [v.length_vec]; omega)]
      rfl
  induction k with
  | zero => simp [compare]
  | succ k ih =>
    have ha : Words.value (a.vec.take k) < 2 ^ (64 * k) := by
      rw [Words.value_take]
      exact Nat.mod_lt _ (Nat.two_pow_pos _)
    have hb : Words.value (b.vec.take k) < 2 ^ (64 * k) := by
      rw [Words.value_take]
      exact Nat.mod_lt _ (Nat.two_pow_pos _)
    simp only [compare, hread, ih, Words.value_take_succ, gt_iff_lt, BitVec.lt_def]
    generalize Words.value (a.vec.take k) = x at *
    generalize Words.value (b.vec.take k) = y at *
    generalize (a.vec.getD k 0).toNat = aw
    generalize (b.vec.getD k 0).toNat = bw
    rcases lt_trichotomy aw bw with hlt | rfl | hgt
    · have h : x + 2 ^ (64 * k) * aw < y + 2 ^ (64 * k) * bw := add_mul_lt ha hlt
      rw [if_neg (by omega), if_pos hlt, if_neg (by omega), if_pos (by omega)]
    · rw [if_neg (by omega), if_neg (by omega)]
      simp only [Nat.add_lt_add_iff_right]
    · have h : y + 2 ^ (64 * k) * bw < x + 2 ^ (64 * k) * aw := add_mul_lt hb hgt
      rw [if_pos hgt, if_pos (by omega)]

/-- The comparisons compare the numbers. -/
private theorem compare_eq (greater less equal : Bool) (a b : Vector2) {k : Nat}
    (ha : wordCount a.wid ≤ k) (hb : wordCount b.wid ≤ k) :
    compare greater less equal a b k =
      if b.toNat < a.toNat then greater else if a.toNat < b.toNat then less else equal := by
  rw [← a.length_vec] at ha
  rw [← b.length_vec] at hb
  rw [compare_take, List.take_of_length_le ha, List.take_of_length_le hb]
  rfl

theorem gt_eq (a b : Vector2) : gt a b = decide (b.toNat < a.toNat) := by
  rw [gt, compare_eq _ _ _ _ _ (Nat.le_max_left _ _) (Nat.le_max_right _ _)]
  split_ifs <;> simp <;> omega

theorem ge_eq (a b : Vector2) : ge a b = decide (b.toNat ≤ a.toNat) := by
  rw [ge, compare_eq _ _ _ _ _ (Nat.le_max_left _ _) (Nat.le_max_right _ _)]
  split_ifs <;> simp <;> omega

theorem lt_eq (a b : Vector2) : lt a b = decide (a.toNat < b.toNat) := by
  rw [lt, compare_eq _ _ _ _ _ (Nat.le_max_left _ _) (Nat.le_max_right _ _)]
  split_ifs <;> simp <;> omega

theorem le_eq {a b : Vector2} (hw : a.wid = b.wid) :
    le a b = some (decide (a.toNat ≤ b.toNat)) := by
  rw [le, if_pos hw, compare_eq _ _ _ _ _ (Nat.le_refl _) (by rw [hw])]
  split_ifs <;> simp <;> omega

theorem eq_eq (a b : Vector2) : eq a b = decide (a.toNat = b.toNat) := by
  rw [eq, compare_eq _ _ _ _ _ (Nat.le_max_left _ _) (Nat.le_max_right _ _)]
  split_ifs <;> simp <;> omega

/-- A bit of the vector is a bit of the number. -/
theorem value_eq (v : Vector2) (idx : Nat) : v.value idx = v.toNat.testBit idx := by
  unfold value
  split_ifs with h
  · have hpow : 2 ^ v.wid ≤ 2 ^ idx := Nat.pow_le_pow_right (by omega) h
    rw [Nat.testBit_eq_false_of_lt (Nat.lt_of_lt_of_le v.toNat_lt hpow)]
  · rw [toNat, Words.testBit_value (by omega)]
    apply Bool.eq_iff_iff.mpr
    rw [decide_eq_true_iff]
    exact Words.and_bit_ne_zero _ (by omega)

theorem isZero_eq (v : Vector2) : v.isZero = decide (v.toNat = 0) := by
  apply Bool.eq_iff_iff.mpr
  rw [isZero, List.all_eq_true, decide_eq_true_iff, toNat, Words.value_eq_zero]
  simp only [decide_eq_true_eq]

@[simp] theorem toVector4_eq (v : Vector2) (wid : Nat) :
    v.toVector4 wid = Vector4.ofNat wid v.toNat := by
  simp only [toVector4, Vector4.ofNat, value_eq]

/-- The words of a four-state vector hold its number. -/
theorem value_subarray (that : Vector4) : Words.value (subarray that) = that.toNat := by
  apply Nat.eq_of_testBit_eq
  intro i
  rw [Words.testBit_value (by omega), Vector4.testBit_toNat, subarray, List.getD_eq_getElem?_getD,
    List.getElem?_map]
  by_cases hi : i / 64 < wordCount that.length
  · have hlt : i % 64 < 64 := Nat.mod_lt _ (by omega)
    rw [List.getElem?_range hi, Option.map_some, Option.getD_some, BitVec.getLsbD_ofNat,
      Vector4.testBit_toNat, List.getElem?_take_of_lt hlt, List.getElem?_drop, Nat.div_add_mod]
    simp [hlt]
  · have hle : that.length ≤ i := by
      unfold wordCount at hi
      omega
    rw [List.getElem?_eq_none (by simpa using hi), List.getElem?_eq_none hle]
    simp

/-- A vector without X and Z bits is its number. -/
theorem ofVector4_eq {that : Vector4} (h : that.hasXz = false) (enableNaN : Bool) :
    (ofVector4 that enableNaN).wid = that.length ∧
      (ofVector4 that enableNaN).toNat = that.toNat := by
  simp only [ofVector4, h, Bool.and_false, Bool.false_eq_true, if_false]
  refine ⟨rfl, ?_⟩
  rw [toNat_ofWords, value_subarray, Nat.mod_eq_of_lt that.toNat_lt]

end Vector2

end Icarus.Vvp
