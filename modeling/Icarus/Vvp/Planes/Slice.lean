import Icarus.Core.ReadBits
import Icarus.Vvp.Planes.Copy

/-!
# Parts of a vector, and vectors resized

`subvalue` reads a part of a vector, with X bits past the end, and `resize` keeps the low bits and
fills the others with a pad bit. Both do the same to the two planes.
-/

namespace Icarus.Vvp

open Icarus.Core

/-! ## Bits of the planes -/

/-- The bit of the first plane. -/
def Bit4.abit : Bit4 → Bool
  | .zero => false
  | .one => true
  | .x => true
  | .z => false

/-- The bit of the second plane. -/
def Bit4.bbit : Bit4 → Bool
  | .zero => false
  | .one => false
  | .x => true
  | .z => true

@[simp] theorem bitOf_abit_bbit (bit : Bit4) : bitOf bit.abit bit.bbit = bit := by
  cases bit <;> rfl

/-- `WORD_0_ABITS` and the other words of equal bits. -/
def padWord (bit : Bool) : BitVec 64 := if bit then BitVec.allOnes 64 else 0

theorem getLsbD_padWord (bit : Bool) {i : Nat} (hi : i < 64) : (padWord bit).getLsbD i = bit := by
  cases bit
  · exact BitVec.getLsbD_zero
  · rw [padWord, if_pos rfl, BitVec.getLsbD_allOnes, decide_eq_true hi]

theorem planeBit_eq (plane : List (BitVec 64)) (idx : Nat) :
    planeBit plane idx = (plane.getD (idx / 64) 0).getLsbD (idx % 64) := rfl

/-- Two words next to each other, shifted up. -/
theorem getLsbD_funnel {s : Nat} (hs : s < 64) (x y : BitVec 64) {i : Nat} (hi : i < 64) :
    ((x <<< s) ||| (y >>> (64 - s))).getLsbD i =
      if i < s then y.getLsbD (64 - s + i) else x.getLsbD (i - s) := by
  rw [BitVec.getLsbD_or, BitVec.getLsbD_shiftLeft, BitVec.getLsbD_ushiftRight, decide_eq_true hi]
  split_ifs with h
  · rw [decide_eq_true h, Bool.not_true, Bool.and_false, Bool.false_and, Bool.false_or]
  · rw [decide_eq_false h, BitVec.getLsbD_of_ge y _ (by omega), Bool.not_false, Bool.and_true,
      Bool.true_and, Bool.or_false]

/-! ## Reading a part -/

/-- The words of a part that does not start at a word, from the word `ptr` of the source on. -/
def subWords (that : List (BitVec 64)) (off wid : Nat) (ptr trans : Nat) : List (BitVec 64) :=
  if trans < wid then
    let low := (that.getD ptr 0 &&& ~~~ lowMask off) >>> off
    let trans := trans + (64 - off)
    if trans ≥ wid then [low]
    else
      (low ||| ((that.getD (ptr + 1) 0 &&& lowMask off) <<< (64 - off))) ::
        subWords that off wid (ptr + 1) (trans + off)
  else []
termination_by wid - trans

/-- A part that the source has, of either plane of a vector of a size. -/
def subPlane (size adr wid : Nat) (that : List (BitVec 64)) : List (BitVec 64) :=
  if wid > 64 then
    let ptr := adr / 64
    let off := adr % 64
    if off = 0 then (List.range (wordCount wid)).map fun idx => that.getD (ptr + idx) 0
    else subWords that off wid ptr 0
  else if size > 64 then
    let ptr := adr / 64
    let off := adr % 64
    let trans := if 64 - off > wid then wid else 64 - off
    if trans = 64 then [that.getD ptr 0]
    else
      let lmask := lowMask trans <<< off
      let low := (that.getD ptr 0 &&& lmask) >>> off
      if trans < wid then
        let hmask := lowMask (wid - trans)
        [low ||| ((that.getD (ptr + 1) 0 &&& hmask) <<< trans)]
      else [low]
  else if wid = 64 then [that.getD 0 0]
  else
    let mask := lowMask wid <<< adr
    [(that.getD 0 0 &&& mask) >>> adr]

theorem length_subWords (that : List (BitVec 64)) {off : Nat} (hoff : off < 64)
    (wid ptr trans : Nat) : (subWords that off wid ptr trans).length = wordCount (wid - trans) := by
  induction ptr, trans using subWords.induct that off wid with
  | case1 ptr trans hlt trans' hge =>
    rw [subWords, if_pos hlt]
    dsimp only
    rw [if_pos hge, List.length_singleton, wordCount]
    omega
  | case2 ptr trans hlt trans' hge ih =>
    rw [subWords, if_pos hlt]
    dsimp only
    rw [if_neg hge, List.length_cons, ih, wordCount, wordCount]
    omega
  | case3 ptr trans hge =>
    rw [subWords, if_neg hge, List.length_nil, wordCount]
    omega

theorem length_subPlane (size adr wid : Nat) (that : List (BitVec 64)) :
    (subPlane size adr wid that).length = planeWords wid := by
  have hoff : adr % 64 < 64 := Nat.mod_lt adr (by omega)
  unfold subPlane planeWords
  dsimp only
  split_ifs with hwid hzero
  all_goals first | omega | skip
  · rw [List.length_map, List.length_range]
  · rw [length_subWords that hoff, Nat.sub_zero]
  all_goals rfl

/-- Bits from within a word on. -/
theorem planeBit_straddle (plane : List (BitVec 64)) (wdx : Nat) {off i : Nat} (hoff : off < 64)
    (hi : i < 64) :
    planeBit plane (64 * wdx + off + i) =
      if off + i < 64 then (plane.getD wdx 0).getLsbD (off + i)
      else (plane.getD (wdx + 1) 0).getLsbD (off + i - 64) := by
  split_ifs with h
  · rw [Nat.add_assoc, planeBit_word _ _ h]
  · rw [show 64 * wdx + off + i = 64 * (wdx + 1) + (off + i - 64) by omega,
      planeBit_word _ _ (by omega)]

/-- The high bits of a word, shifted down. -/
private theorem getLsbD_high {off : Nat} (hoff : off < 64) (x : BitVec 64) (i : Nat) :
    ((x &&& ~~~ lowMask off) >>> off).getLsbD i = x.getLsbD (off + i) := by
  rw [BitVec.getLsbD_ushiftRight, BitVec.getLsbD_and, BitVec.getLsbD_not, getLsbD_lowMask hoff,
    decide_eq_false (by omega : ¬ off + i < off), Bool.not_false, Bool.and_true]
  by_cases h : off + i < 64
  · rw [decide_eq_true h, Bool.and_true]
  · rw [BitVec.getLsbD_of_ge x _ (by omega), Bool.false_and]

/-- The low bits of a word, shifted up. -/
theorem getLsbD_masked_shiftLeft {n s : Nat} (hn : n < 64) (x : BitVec 64) {i : Nat}
    (hi : i < 64) :
    ((x &&& lowMask n) <<< s).getLsbD i =
      (decide (s ≤ i) && (decide (i - s < n) && x.getLsbD (i - s))) := by
  rw [BitVec.getLsbD_shiftLeft, BitVec.getLsbD_and, getLsbD_lowMask hn, decide_eq_true hi,
    Bool.true_and, Bool.and_comm (x.getLsbD _), ← decide_not, decide_eq_decide.mpr Nat.not_lt]

theorem getLsbD_lowMask_shiftLeft {n s i : Nat} (hn : n < 64) (hi : i < 64) :
    (lowMask n <<< s).getLsbD i = decide (s ≤ i ∧ i < s + n) := by
  rw [BitVec.getLsbD_shiftLeft, getLsbD_lowMask hn, decide_eq_true hi, Bool.true_and, ← decide_not,
    ← Bool.decide_and]
  exact decide_eq_decide.mpr (by omega)

/-- A word of a part. -/
theorem getLsbD_subWords {that : List (BitVec 64)} {off wid : Nat} (hoff : off < 64)
    (ptr trans : Nat) {i : Nat} (hi : i < 64) : ∀ j, trans + 64 * j + i < wid →
      ((subWords that off wid ptr trans).getD j 0).getLsbD i =
        planeBit that (64 * (ptr + j) + off + i) := by
  induction ptr, trans using subWords.induct that off wid with
  | case1 ptr trans hlt trans' hge =>
    intro j hidx
    rw [subWords, if_pos hlt]
    dsimp only
    obtain rfl : j = 0 := by omega
    rw [if_pos hge, List.getD_cons_zero, getLsbD_high hoff, Nat.add_zero,
      planeBit_straddle _ _ hoff hi, if_pos (by omega)]
  | case2 ptr trans hlt trans' hge ih =>
    intro j hidx
    rw [subWords, if_pos hlt]
    dsimp only
    rw [if_neg hge]
    cases j with
    | zero =>
      rw [List.getD_cons_zero, BitVec.getLsbD_or, getLsbD_high hoff,
        getLsbD_masked_shiftLeft hoff _ hi, Nat.add_zero, planeBit_straddle _ _ hoff hi]
      split_ifs with hin
      · rw [decide_eq_false (by omega), Bool.false_and, Bool.or_false]
        rfl
      · rw [BitVec.getLsbD_of_ge _ _ (by omega), decide_eq_true (by omega),
          decide_eq_true (by omega), Bool.true_and, Bool.true_and, Bool.false_or]
        congr 1
        omega
    | succ j =>
      rw [List.getD_cons_succ, ih j (by omega)]
      congr 1
      omega
  | case3 ptr trans hge =>
    intro j hidx
    omega

/-- A part of at most one word, of a source of several. -/
private theorem getLsbD_subWord (x y : BitVec 64) {off wid trans idx : Nat} (hoff : off < 64)
    (hwid : wid ≤ 64) (hidx : idx < wid) (htrans : trans = min wid (64 - off)) :
    ((if trans = 64 then [x]
      else if trans < wid then
        [((x &&& lowMask trans <<< off) >>> off) ||| ((y &&& lowMask (wid - trans)) <<< trans)]
      else [(x &&& lowMask trans <<< off) >>> off]).getD 0 0).getLsbD idx =
      if off + idx < 64 then x.getLsbD (off + idx) else y.getLsbD (off + idx - 64) := by
  by_cases hfull : trans = 64
  · rw [if_pos hfull, if_pos (by omega), List.getD_cons_zero, show off + idx = idx by omega]
  · have hlow : ((x &&& lowMask trans <<< off) >>> off).getLsbD idx =
        (x.getLsbD (off + idx) && decide (idx < trans)) := by
      rw [BitVec.getLsbD_ushiftRight, BitVec.getLsbD_and]
      by_cases hin : off + idx < 64
      · rw [getLsbD_lowMask_shiftLeft (by omega) hin]
        congr 1
        exact decide_eq_decide.mpr (by omega)
      · rw [BitVec.getLsbD_of_ge x _ (by omega), Bool.false_and, Bool.false_and]
    rw [if_neg hfull]
    by_cases hnext : trans < wid
    · rw [if_pos hnext, List.getD_cons_zero, BitVec.getLsbD_or, hlow,
        getLsbD_masked_shiftLeft (by omega) _ (by omega)]
      by_cases hin : off + idx < 64
      · rw [if_pos hin, decide_eq_true (by omega : idx < trans), Bool.and_true,
          decide_eq_false (by omega : ¬ trans ≤ idx), Bool.false_and, Bool.or_false]
      · rw [if_neg hin, BitVec.getLsbD_of_ge x _ (by omega), Bool.false_and, Bool.false_or,
          decide_eq_true (by omega : trans ≤ idx),
          decide_eq_true (by omega : idx - trans < wid - trans), Bool.true_and, Bool.true_and]
        congr 1
        omega
    · rw [if_neg hnext, List.getD_cons_zero, hlow, if_pos (by omega),
        decide_eq_true (by omega : idx < trans), Bool.and_true]

/-- The bits of a part that the source has. -/
theorem planeBit_subPlane {size adr wid idx : Nat} (that : List (BitVec 64))
    (hpart : adr + wid ≤ size) (hidx : idx < wid) :
    planeBit (subPlane size adr wid that) idx = planeBit that (adr + idx) := by
  have hoff : adr % 64 < 64 := Nat.mod_lt adr (by omega)
  have hadr : 64 * (adr / 64) + adr % 64 = adr := Nat.div_add_mod adr 64
  have hi : idx % 64 < 64 := Nat.mod_lt idx (by omega)
  unfold subPlane
  dsimp only
  by_cases hlong : wid > 64
  · rw [if_pos hlong]
    by_cases hzero : adr % 64 = 0
    · have hlt : idx / 64 < wordCount wid := by
        rw [wordCount]
        omega
      rw [if_pos hzero, planeBit_eq, List.getD_eq_getElem?_getD, List.getElem?_map,
        List.getElem?_range hlt, Option.map_some, Option.getD_some, ← planeBit_word _ _ hi]
      congr 1
      omega
    · rw [if_neg hzero, planeBit_eq, getLsbD_subWords hoff _ _ hi _ (by omega)]
      congr 1
      omega
  · have hdiv : idx / 64 = 0 := by omega
    have hmod : idx % 64 = idx := by omega
    rw [if_neg hlong, planeBit_eq, hdiv, hmod]
    by_cases hsize : size > 64
    · have hbit := @planeBit_straddle that (adr / 64) _ idx hoff (by omega)
      rw [hadr] at hbit
      rw [if_pos hsize, hbit]
      generalize htrans : (if 64 - adr % 64 > wid then wid else 64 - adr % 64) = trans
      have hmin : trans = min wid (64 - adr % 64) := by
        rw [← htrans]
        split_ifs <;> omega
      exact getLsbD_subWord _ _ hoff (by omega) hidx hmin
    · have hin : adr + idx < 64 := by omega
      rw [if_neg hsize, planeBit_first _ hin]
      split_ifs with hfull
      · rw [List.getD_cons_zero, show adr + idx = idx by omega]
      · rw [List.getD_cons_zero, BitVec.getLsbD_ushiftRight, BitVec.getLsbD_and,
          getLsbD_lowMask_shiftLeft (by omega) (by omega), decide_eq_true (by omega), Bool.and_true]

namespace Planes

variable {v that : Planes}

/-- `set_bit`. -/
def setBit4 (v : Planes) (idx : Nat) (val : Bit4) : Planes :=
  let mask := (1 : BitVec 64) <<< (idx % 64)
  let wdx := if v.size > 64 then idx / 64 else 0
  match val with
  | .zero => (v.setA wdx (v.aword wdx &&& ~~~ mask)).setB wdx (v.bword wdx &&& ~~~ mask)
  | .one => (v.setA wdx (v.aword wdx ||| mask)).setB wdx (v.bword wdx &&& ~~~ mask)
  | .x => (v.setA wdx (v.aword wdx ||| mask)).setB wdx (v.bword wdx ||| mask)
  | .z => (v.setA wdx (v.aword wdx &&& ~~~ mask)).setB wdx (v.bword wdx ||| mask)

/-- A vector of one bit value. -/
def allocateBits (size : Nat) (bit : Bit4) : Planes :=
  allocateWords size (padWord bit.abit) (padWord bit.bbit)

/-- The constructor of a part, and `subvalue`. -/
def subvalue (that : Planes) (adr wid : Nat) : Planes :=
  if wid = 0 ∨ adr ≥ that.size then allocateBits wid .x
  else if wid > that.size - adr then
    let useWid := that.size - adr
    (List.range useWid).foldl (fun v idx => v.setBit4 idx (that.value (adr + idx)))
      (allocateBits wid .x)
  else
    { size := wid
      abits := subPlane that.size adr wid that.abits
      bbits := subPlane that.size adr wid that.bbits
      length_abits := length_subPlane _ _ _ _
      length_bbits := length_subPlane _ _ _ _ }

/-- A vector by its bits. -/
theorem toVector4_eq {l : Vector4} (hlen : l.length = v.size)
    (h : ∀ idx < v.size, l[idx]? = some (v.value idx)) : v.toVector4 = l := by
  apply List.ext_getElem?
  intro idx
  rw [getElem?_toVector4]
  split_ifs with hidx
  · exact (h idx hidx).symm
  · exact (List.getElem?_eq_none (by omega)).symm

theorem value_allocateBits {size idx : Nat} (bit : Bit4) (hidx : idx < size) :
    (allocateBits size bit).value idx = bit := by
  have hres : idx < (allocateBits size bit).size := hidx
  have hwords := le_planeWords size
  have hi : idx % 64 < 64 := Nat.mod_lt idx (by omega)
  rw [value_of_lt hres, allocateBits, allocateWords]
  dsimp only
  rw [planeBit_replicate (by omega), planeBit_replicate (by omega), getLsbD_padWord _ hi,
    getLsbD_padWord _ hi, bitOf_abit_bbit]

/-- A bit of a word set or cleared. -/
private theorem getLsbD_assign (word : BitVec 64) (bit : Bool) {idx i : Nat} (hi : i < 64) :
    (if bit then word ||| (1 : BitVec 64) <<< (idx % 64)
      else word &&& ~~~ ((1 : BitVec 64) <<< (idx % 64))).getLsbD i =
      if i = idx % 64 then bit else word.getLsbD i := by
  cases bit
  · rw [if_neg Bool.false_ne_true, BitVec.getLsbD_and, BitVec.getLsbD_not,
      getLsbD_one_shiftLeft, decide_eq_true hi, Bool.true_and, Bool.true_and]
    split_ifs with h
    · rw [decide_eq_true h, Bool.not_true, Bool.and_false]
    · rw [decide_eq_false h, Bool.not_false, Bool.and_true]
  · rw [if_pos rfl, BitVec.getLsbD_or, getLsbD_one_shiftLeft, decide_eq_true hi, Bool.true_and]
    split_ifs with h
    · rw [decide_eq_true h, Bool.or_true]
    · rw [decide_eq_false h, Bool.or_false]

@[simp] theorem size_setBit4 (idx : Nat) (val : Bit4) : (v.setBit4 idx val).size = v.size := by
  cases val <;> rfl

/-- The bit that is set, and the others. -/
theorem value_setBit4 {idx j : Nat} (hidx : idx < v.size) (val : Bit4) (hj : j < v.size) :
    (v.setBit4 idx val).value j = if j = idx then val else v.value j := by
  have hi : j % 64 < 64 := Nat.mod_lt j (by omega)
  have hwdx : (if v.size > 64 then idx / 64 else 0) = idx / 64 := by
    split_ifs <;> omega
  have hform : v.setBit4 idx val =
      (v.setA (idx / 64) (if val.abit then v.aword (idx / 64) ||| (1 : BitVec 64) <<< (idx % 64)
        else v.aword (idx / 64) &&& ~~~ ((1 : BitVec 64) <<< (idx % 64)))).setB (idx / 64)
      (if val.bbit then v.bword (idx / 64) ||| (1 : BitVec 64) <<< (idx % 64)
        else v.bword (idx / 64) &&& ~~~ ((1 : BitVec 64) <<< (idx % 64))) := by
    unfold setBit4
    rw [hwdx]
    cases val <;> rfl
  have hres : j < (v.setBit4 idx val).size := by rwa [size_setBit4]
  rw [value_of_lt hres, value_of_lt hj, hform, setA, setB]
  dsimp only
  rw [planeBit_set (v.length_abits ▸ div_lt_planeWords hidx),
    planeBit_set (v.length_bbits ▸ div_lt_planeWords hidx), getLsbD_assign _ _ hi,
    getLsbD_assign _ _ hi]
  by_cases heq : j = idx
  · subst heq
    rw [if_pos rfl, if_pos rfl, if_pos rfl, if_pos rfl, if_pos rfl, bitOf_abit_bbit]
  · rw [if_neg heq]
    by_cases hw : j / 64 = idx / 64
    · have hne : ¬ j % 64 = idx % 64 := by omega
      rw [if_pos hw, if_pos hw, if_neg hne, if_neg hne, planeBit, planeBit, hw]
      rfl
    · rw [if_neg hw, if_neg hw]

/-- The loop over the bits that the source has. -/
private theorem subBits_spec (that : Planes) {adr wid n : Nat} (hn : n ≤ wid) :
    ((List.range n).foldl (fun v idx => v.setBit4 idx (that.value (adr + idx)))
      (allocateBits wid .x)).size = wid ∧
    ∀ idx < wid, ((List.range n).foldl (fun v idx => v.setBit4 idx (that.value (adr + idx)))
      (allocateBits wid .x)).value idx = if idx < n then that.value (adr + idx) else .x := by
  induction n with
  | zero =>
    refine ⟨rfl, fun idx hidx => ?_⟩
    rw [if_neg (Nat.not_lt_zero idx)]
    exact value_allocateBits .x hidx
  | succ n ih =>
    obtain ⟨hsize, hvalue⟩ := ih (by omega)
    rw [List.range_succ, List.foldl_append, List.foldl_cons, List.foldl_nil]
    refine ⟨(size_setBit4 _ _).trans hsize, fun idx hidx => ?_⟩
    rw [value_setBit4 (by omega) _ (by omega), hvalue idx hidx]
    by_cases heq : idx = n
    · rw [if_pos heq, if_pos (by omega), heq]
    · rw [if_neg heq]
      by_cases hlt : idx < n
      · rw [if_pos hlt, if_pos (by omega)]
      · rw [if_neg hlt, if_neg (by omega)]

/-- The bits of a part, X past the end. -/
theorem value_subvalue (that : Planes) (adr wid : Nat) :
    (that.subvalue adr wid).size = wid ∧
      ∀ idx < wid, (that.subvalue adr wid).value idx = that.value (adr + idx) := by
  unfold subvalue
  dsimp only
  split_ifs with hfar hedge
  · refine ⟨rfl, fun idx hidx => ?_⟩
    rw [value_allocateBits .x hidx, value_of_ge (by omega)]
  · obtain ⟨hsize, hvalue⟩ := @subBits_spec that adr wid (that.size - adr) (by omega)
    refine ⟨hsize, fun idx hidx => ?_⟩
    rw [hvalue idx hidx]
    split_ifs with hin
    · rfl
    · rw [value_of_ge (by omega)]
  · refine ⟨rfl, fun idx hidx => ?_⟩
    refine (value_of_lt hidx).trans ?_
    rw [planeBit_subPlane _ (by omega) hidx, planeBit_subPlane _ (by omega) hidx,
      value_of_lt (by omega)]

/-- `subvalue` gives the bits of the part. -/
theorem toVector4_subvalue (that : Planes) (adr wid : Nat) :
    (that.subvalue adr wid).toVector4 = Vector4.subvalue that.toVector4 adr wid := by
  obtain ⟨hsize, hvalue⟩ := value_subvalue that adr wid
  refine toVector4_eq (by rw [Vector4.length_subvalue, hsize]) fun idx hidx => ?_
  rw [hsize] at hidx
  rw [Vector4.getElem?_subvalue _ _ hidx, hvalue idx hidx, getElem?_toVector4]
  split_ifs with hin
  · rfl
  · rw [Option.getD_none, value_of_ge (by omega)]

end Planes

/-! ## A new size -/

/-- The bits of a word from `fill` on assigned from the pad word. -/
def fillWord (wdx fill : Nat) (pad : BitVec 64) (plane : List (BitVec 64)) : List (BitVec 64) :=
  let plane := plane.set wdx (plane.getD wdx 0 &&& ~~~ (BitVec.allOnes 64 <<< fill))
  plane.set wdx (plane.getD wdx 0 ||| pad <<< fill)

/-- Words assigned from `base` on. -/
def padWords (word : BitVec 64) (base : Nat) : Nat → List (BitVec 64) → List (BitVec 64)
  | 0, plane => plane
  | n + 1, plane => (padWords word base n plane).set (base + n) word

/-- What `resize` does to either plane. -/
def resizePlane (size newsize : Nat) (pad : BitVec 64) (plane : List (BitVec 64)) :
    List (BitVec 64) :=
  let cnt := wordCount size
  if newsize > 64 then
    let newcnt := wordCount newsize
    if newcnt = cnt then
      if newsize > size then
        if size % 64 ≠ 0 then fillWord (cnt - 1) (size % 64) pad plane else plane
      else plane
    else
      -- The block is not initialised; all its words are assigned here.
      let newbits := List.replicate newcnt (0 : BitVec 64)
      let newbits :=
        if cnt > 1 then copyWords plane (if cnt > newcnt then newcnt else cnt) newbits
        else newbits.set 0 (plane.getD 0 0)
      if newsize > size then
        let newbits :=
          if size % 64 ≠ 0 then fillWord (cnt - 1) (size % 64) pad newbits else newbits
        padWords pad cnt (newcnt - cnt) newbits
      else newbits
  else
    let val := [plane.getD 0 0]
    if newsize > size then fillWord 0 size pad val else val

@[simp] theorem length_fillWord (wdx fill : Nat) (pad : BitVec 64) (plane : List (BitVec 64)) :
    (fillWord wdx fill pad plane).length = plane.length := by
  rw [fillWord, List.length_set, List.length_set]

@[simp] theorem length_padWords (word : BitVec 64) (base n : Nat) (plane : List (BitVec 64)) :
    (padWords word base n plane).length = plane.length := by
  induction n with
  | zero => rfl
  | succ n ih => rw [padWords, List.length_set, ih]

/-- The words of a longer vector are not fewer. -/
theorem wordCount_le {size newsize : Nat} (h : size ≤ newsize) :
    wordCount size ≤ wordCount newsize := by
  unfold wordCount
  omega

theorem two_le_wordCount {size : Nat} : 2 ≤ wordCount size ↔ 64 < size := by
  unfold wordCount
  omega

theorem length_resizePlane {size newsize : Nat} {plane : List (BitVec 64)} (pad : BitVec 64)
    (hlen : plane.length = planeWords size) :
    (resizePlane size newsize pad plane).length = planeWords newsize := by
  unfold resizePlane
  dsimp only
  by_cases hlong : newsize > 64
  · rw [if_pos hlong, planeWords_of_long hlong]
    by_cases hsame : wordCount newsize = wordCount size
    · have hsize : 64 < size := two_le_wordCount.mp (hsame ▸ two_le_wordCount.mpr hlong)
      rw [planeWords_of_long hsize] at hlen
      rw [if_pos hsame, hsame]
      split_ifs
      · rw [length_fillWord, hlen]
      · exact hlen
      · exact hlen
    · rw [if_neg hsame]
      split_ifs <;> simp
  · rw [if_neg hlong, planeWords_of_short (by omega)]
    split_ifs
    · rw [length_fillWord, List.length_singleton]
    · rfl

theorem planeBit_fillWord {plane : List (BitVec 64)} {wdx fill : Nat} (h : wdx < plane.length)
    (bit : Bool) (idx : Nat) :
    planeBit (fillWord wdx fill (padWord bit) plane) idx =
      if idx / 64 = wdx ∧ fill ≤ idx % 64 then bit else planeBit plane idx := by
  have hi : idx % 64 < 64 := Nat.mod_lt idx (by omega)
  have hword : (plane.set wdx (plane.getD wdx 0 &&& ~~~ (BitVec.allOnes 64 <<< fill))).getD wdx 0 =
      plane.getD wdx 0 &&& ~~~ (BitVec.allOnes 64 <<< fill) := by
    rw [List.getD_eq_getElem?_getD, List.getElem?_set_self h, Option.getD_some]
  rw [fillWord, hword, List.set_set, planeBit_set h]
  by_cases hw : idx / 64 = wdx
  · rw [if_pos hw, BitVec.getLsbD_or, BitVec.getLsbD_and, getLsbD_not_allOnes_shiftLeft,
      BitVec.getLsbD_shiftLeft, decide_eq_true hi, Bool.and_true, Bool.true_and]
    by_cases hin : fill ≤ idx % 64
    · rw [if_pos ⟨hw, hin⟩, decide_eq_false (by omega), Bool.and_false, Bool.false_or,
        Bool.not_false, Bool.true_and, getLsbD_padWord _ (by omega)]
    · rw [if_neg fun h => hin h.2, decide_eq_true (by omega), Bool.and_true, Bool.not_true,
        Bool.false_and, Bool.or_false, planeBit, hw]
  · rw [if_neg hw, if_neg fun h => hw h.1]

theorem planeBit_padWords {plane : List (BitVec 64)} {base n : Nat} (h : base + n ≤ plane.length)
    (bit : Bool) (idx : Nat) :
    planeBit (padWords (padWord bit) base n plane) idx =
      if base ≤ idx / 64 ∧ idx / 64 < base + n then bit else planeBit plane idx := by
  induction n with
  | zero => rw [padWords, if_neg (by omega)]
  | succ n ih =>
    rw [padWords, planeBit_set (by rw [length_padWords]; omega), ih (by omega)]
    by_cases hw : idx / 64 = base + n
    · rw [if_pos hw, if_pos (by omega), getLsbD_padWord _ (Nat.mod_lt idx (by omega))]
    · rw [if_neg hw]
      by_cases hin : base ≤ idx / 64 ∧ idx / 64 < base + n
      · rw [if_pos hin, if_pos (by omega)]
      · rw [if_neg hin, if_neg (by omega)]

/-- The words of a block that is copied to. -/
private theorem planeBit_newbits {size newcnt idx : Nat} (plane : List (BitVec 64))
    (hnew : 0 < newcnt) (hidx : idx < 64 * newcnt) (hsize : idx < size) :
    planeBit (if wordCount size > 1 then
        copyWords plane (if wordCount size > newcnt then newcnt else wordCount size)
          (List.replicate newcnt 0)
      else (List.replicate newcnt 0).set 0 (plane.getD 0 0)) idx = planeBit plane idx := by
  have hle := le_wordCount size
  by_cases hmany : wordCount size > 1
  · have hmin : (if wordCount size > newcnt then newcnt else wordCount size) =
        min newcnt (wordCount size) := by
      split_ifs <;> omega
    rw [if_pos hmany, hmin, planeBit_copyWords (by rw [List.length_replicate]; omega),
      if_pos (by omega)]
  · rw [if_neg hmany, planeBit_set (by rw [List.length_replicate]; omega), if_pos (by omega),
      planeBit_eq, Nat.div_eq_of_lt (by omega)]

/-- The last word of the old size, after the bits above the size are filled. -/
private theorem planeBit_filled {size idx : Nat} {plane : List (BitVec 64)} (bit : Bool)
    (hlen : wordCount size ≤ plane.length) (hidx : idx < 64 * wordCount size) :
    planeBit (if size % 64 ≠ 0 then fillWord (wordCount size - 1) (size % 64) (padWord bit) plane
      else plane) idx = if idx < size then planeBit plane idx else bit := by
  have hcount : wordCount size = (size + 63) / 64 := rfl
  split_ifs with hfill hin hin
  · rw [planeBit_fillWord (by omega), if_neg (by omega)]
  · rw [planeBit_fillWord (by omega), if_pos (by omega)]
  · rfl
  · omega

/-- Low bits are kept, and the others are filled. -/
theorem planeBit_resizePlane {size newsize idx : Nat} {plane : List (BitVec 64)} (bit : Bool)
    (hlen : plane.length = planeWords size) (hidx : idx < newsize) :
    planeBit (resizePlane size newsize (padWord bit) plane) idx =
      if idx < size then planeBit plane idx else bit := by
  have hle := le_wordCount newsize
  have hcount := le_wordCount size
  unfold resizePlane
  dsimp only
  by_cases hlong : newsize > 64
  · rw [if_pos hlong]
    by_cases hsame : wordCount newsize = wordCount size
    · have hsize : 64 < size := two_le_wordCount.mp (hsame ▸ two_le_wordCount.mpr hlong)
      rw [planeWords_of_long hsize] at hlen
      rw [if_pos hsame]
      by_cases hmore : newsize > size
      · rw [if_pos hmore, planeBit_filled bit hlen.ge (by omega)]
      · rw [if_neg hmore, if_pos (by omega)]
    · rw [if_neg hsame]
      by_cases hmore : newsize > size
      · have hlt : wordCount size < wordCount newsize :=
          lt_of_le_of_ne (wordCount_le hmore.le) (Ne.symm hsame)
        rw [if_pos hmore, planeBit_padWords (by split_ifs <;> simp <;> omega)]
        by_cases hhigh : wordCount size ≤ idx / 64
        · rw [if_pos (by omega), if_neg (by omega)]
        · rw [if_neg (by omega), planeBit_filled bit (by split_ifs <;> simp <;> omega) (by omega)]
          by_cases hin : idx < size
          · rw [if_pos hin, if_pos hin, planeBit_newbits plane (by omega) (by omega) hin]
          · rw [if_neg hin, if_neg hin]
      · rw [if_neg hmore, if_pos (by omega : idx < size),
          planeBit_newbits plane (by omega) (by omega) (by omega)]
  · have hfirst : planeBit [plane.getD 0 0] idx = planeBit plane idx := by
      rw [planeBit_first _ (by omega), planeBit_first _ (by omega), List.getD_cons_zero]
    rw [if_neg hlong]
    by_cases hmore : newsize > size
    · rw [if_pos hmore, planeBit_fillWord (by rw [List.length_singleton]; omega), hfirst]
      by_cases hin : idx < size
      · rw [if_pos hin, if_neg (by omega)]
      · rw [if_neg hin, if_pos (by omega)]
    · rw [if_neg hmore, if_pos (by omega : idx < size), hfirst]

namespace Planes

/-- `resize`. -/
def resize (v : Planes) (newsize : Nat) (padBit : Bit4) : Planes :=
  if v.size = newsize then v
  else
    { size := newsize
      abits := resizePlane v.size newsize (padWord padBit.abit) v.abits
      bbits := resizePlane v.size newsize (padWord padBit.bbit) v.bbits
      length_abits := length_resizePlane _ v.length_abits
      length_bbits := length_resizePlane _ v.length_bbits }

variable {v : Planes}

@[simp] theorem size_resize (newsize : Nat) (padBit : Bit4) :
    (v.resize newsize padBit).size = newsize := by
  unfold resize
  split_ifs with h
  · exact h
  · rfl

theorem value_resize {newsize idx : Nat} (padBit : Bit4) (hidx : idx < newsize) :
    (v.resize newsize padBit).value idx = if idx < v.size then v.value idx else padBit := by
  unfold resize
  split_ifs with hsame hin hin
  · rfl
  · omega
  · refine (value_of_lt hidx).trans ?_
    rw [planeBit_resizePlane _ v.length_abits hidx, planeBit_resizePlane _ v.length_bbits hidx,
      if_pos hin, if_pos hin, value_of_lt hin]
  · refine (value_of_lt hidx).trans ?_
    rw [planeBit_resizePlane _ v.length_abits hidx, planeBit_resizePlane _ v.length_bbits hidx,
      if_neg hin, if_neg hin, bitOf_abit_bbit]

/-- `resize` keeps the low bits and fills the others with the pad bit. -/
theorem toVector4_resize (v : Planes) (newsize : Nat) (padBit : Bit4) :
    (v.resize newsize padBit).toVector4 = Vector4.resize v.toVector4 newsize padBit := by
  refine toVector4_eq (by rw [Vector4.length_resize, size_resize]) fun idx hidx => ?_
  rw [size_resize] at hidx
  rw [Vector4.getElem?_resize _ hidx, value_resize padBit hidx, getElem?_toVector4]
  split_ifs <;> rfl

end Planes

end Icarus.Vvp
