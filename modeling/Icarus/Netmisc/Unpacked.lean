import Icarus.Netmisc.Collapse

/-!
# Unpacked arrays

A net with unpacked dimensions has a pin for each element. The pins are counted
in 32 bits, and the element with given indices has the pin of its canonical
address: the indices are counted from the lower bound of their dimension,
whichever side that is on.
-/

namespace Icarus.Netmisc

open Icarus.Core.MixedRadix

/-- `calculate_count`. -/
def calculateCount (unpacked : List Netrange) : Option Nat := do
  let sum ← netrangeWidth unpacked 1
  return if 2 ^ 32 - 1 ≤ sum then 0 else sum

/-- A `NetNet` that was built with unpacked dimensions. -/
structure UnpackedNet where
  /-- `unpacked_dims_`. -/
  dims : List Netrange
  /-- `npins_`. -/
  pinCount : Nat
  /-- It is an array. -/
  dims_ne : dims ≠ []
  /-- The pins are counted when it is built. -/
  count_eq : calculateCount dims = some pinCount
  /-- Dimensions without pins are refused. -/
  pinCount_ne : pinCount ≠ 0

/-- `make_strides`. -/
def makeStrides : List Netrange → Option (List Int)
  | [] => none
  | [_] => some [1]
  | _ :: next :: dims => do
    let stride ← makeStrides (next :: dims)
    let width ← next.width
    let tmp ← long (wrap width * stride.headD 0)
    return tmp :: stride

/-- The loop of `normalize_variable_unpacked` over constant indices; `some none` is no expression. -/
def normalizeUnpackedLoop : List Netrange → List Int → List Int → Int → Option (Option Int)
  | _, _, [], canonicalAddr => some (some canonicalAddr)
  | r :: dims, stride :: strides, cur :: indices, canonicalAddr =>
    if !r.defined then none
    else do
      let tmp ← long (if r.lsb ≤ r.msb then cur - r.lsb else cur - r.msb)
      let width ← r.width
      if tmp < 0 ∨ wrap width ≤ tmp then return none
      else do
        let product ← long (tmp * stride)
        let canonicalAddr ← long (canonicalAddr + product)
        normalizeUnpackedLoop dims strides indices canonicalAddr
  | _, _, _, _ => none

/-- `normalize_variable_unpacked` for constant indices. -/
def normalizeUnpacked (dims : List Netrange) (indices : List Int) : Option (Option Int) := do
  let stride ← makeStrides dims
  normalizeUnpackedLoop dims stride indices 0

/-! ## Positions -/

namespace Netrange

/-- The index at a position of the declaration, from left to right. -/
def indexAt (r : Netrange) (p : Nat) : Int := if r.msb < r.lsb then r.msb + p else r.msb - p

/-- The place of an index from the lower bound on. -/
def offset (r : Netrange) (i : Int) : Nat := (i - min r.msb r.lsb).toNat

/-- The place of a position. -/
def offsetAt (r : Netrange) (p : Nat) : Nat := r.offset (r.indexAt p)

variable {r : Netrange} {p : Nat}

theorem offsetAt_eq (hp : p < r.count) :
    r.offsetAt p = if r.msb < r.lsb then p else r.count - 1 - p := by
  unfold count at hp
  rw [offsetAt, offset, indexAt, count]
  split_ifs <;> omega

theorem offsetAt_lt (hp : p < r.count) : r.offsetAt p < r.count := by
  rw [offsetAt_eq hp]
  split_ifs <;> omega

/-- The other way round is the same. -/
theorem offsetAt_offsetAt (hp : p < r.count) : r.offsetAt (r.offsetAt p) = p := by
  rw [offsetAt_eq (offsetAt_lt hp), offsetAt_eq hp]
  split_ifs <;> omega

end Netrange

/-- The indices at the positions of a tuple. -/
def indicesAt (dims : List Netrange) (p : List Nat) : List Int := List.zipWith Netrange.indexAt dims p

/-- The places of the positions of a tuple. -/
def offsetsAt (dims : List Netrange) (p : List Nat) : List Nat :=
  List.zipWith Netrange.offsetAt dims p

/-- The canonical address of the element at a position. -/
def pinAt (dims : List Netrange) (p : List Nat) : Nat := address (counts dims) (offsetsAt dims p)

variable {r : Netrange} {dims : List Netrange} {p q : List Nat}

theorem digits_offsetsAt (h : Digits p (counts dims)) : Digits (offsetsAt dims p) (counts dims) := by
  induction dims generalizing p with
  | nil => exact .nil
  | cons r dims ih =>
    obtain - | ⟨hd, htl⟩ := h
    exact .cons (Netrange.offsetAt_lt hd) (ih htl)

theorem offsetsAt_offsetsAt (h : Digits p (counts dims)) : offsetsAt dims (offsetsAt dims p) = p := by
  induction dims generalizing p with
  | nil =>
    cases h
    rfl
  | cons r dims ih =>
    obtain - | ⟨hd, htl⟩ := h
    exact congrArg₂ List.cons (Netrange.offsetAt_offsetAt hd) (ih htl)

theorem pinAt_cons (d : Nat) :
    pinAt (r :: dims) (d :: p) = r.offsetAt d * (counts dims).prod + pinAt dims p := rfl

theorem pinAt_lt (h : Digits p (counts dims)) : pinAt dims p < (counts dims).prod :=
  address_lt (digits_offsetsAt h)

/-- Different positions have different addresses. -/
theorem pinAt_inj (hp : Digits p (counts dims)) (hq : Digits q (counts dims))
    (h : pinAt dims p = pinAt dims q) : p = q := by
  rw [← offsetsAt_offsetsAt hp, ← offsetsAt_offsetsAt hq,
    address_inj (digits_offsetsAt hp) (digits_offsetsAt hq) h]

/-- Every address is that of a position. -/
theorem exists_pinAt {z : Nat} (hz : z < (counts dims).prod) :
    ∃ p, Digits p (counts dims) ∧ pinAt dims p = z := by
  obtain ⟨ds, hds, haddr⟩ := exists_digits hz
  exact ⟨offsetsAt dims ds, digits_offsetsAt hds, by rw [pinAt, offsetsAt_offsetsAt hds, haddr]⟩

/-! ## Strides -/

/-- The numbers of elements that an index of each dimension steps over. -/
def strideList : List Netrange → List Int
  | [] => []
  | _ :: dims => (counts dims).prod :: strideList dims

/-- All dimensions have a width. -/
def Declared (dims : List Netrange) : Prop := ∀ r ∈ dims, r.defined = true ∧ r.count < 2 ^ 63

theorem Declared.tail (h : Declared (r :: dims)) : Declared dims :=
  fun r' hr' => h r' (List.mem_cons_of_mem _ hr')

theorem Declared.width_eq (h : Declared (r :: dims)) : r.width = some r.count :=
  Netrange.width_eq (h r List.mem_cons_self).1 (h r List.mem_cons_self).2

theorem counts_prod_le : (counts dims).prod ≤ (counts (r :: dims)).prod := by
  rw [counts_prod_cons]
  exact Nat.le_mul_of_pos_left _ Netrange.count_pos

theorem makeStrides_eq (hdims : Declared dims) (hne : dims ≠ [])
    (hlt : (counts dims).prod < 2 ^ 63) : makeStrides dims = some (strideList dims) := by
  induction dims with
  | nil => exact absurd rfl hne
  | cons r dims ih =>
    cases dims with
    | nil => rfl
    | cons next dims =>
      have hnext : (counts (next :: dims)).prod < 2 ^ 63 := lt_of_le_of_lt counts_prod_le hlt
      have hcount := (hdims.tail next List.mem_cons_self).2
      have hwidth : wrap next.count = next.count := wrap_of_lt (by omega) (by omega)
      have hlong := long_natCast hnext
      rw [counts_prod_cons, Nat.cast_mul] at hlong
      rw [makeStrides, ih hdims.tail (List.cons_ne_nil _ _) hnext, hdims.tail.width_eq,
        Option.bind_eq_bind, Option.bind_some, Option.bind_eq_bind, Option.bind_some, hwidth,
        strideList, List.headD_cons, hlong, Option.bind_eq_bind, Option.bind_some, strideList,
        strideList, counts_prod_cons, Nat.cast_mul]
      rfl

/-- The addresses are those that constant indices are normalized to. -/
theorem normalizeUnpackedLoop_eq (hdims : Declared dims) (hp : Digits p (counts dims)) {acc : Nat}
    (hlt : acc + (counts dims).prod ≤ 2 ^ 63) :
    normalizeUnpackedLoop dims (strideList dims) (indicesAt dims p) acc =
      some (some ((acc + pinAt dims p : Nat) : Int)) := by
  induction dims generalizing p acc with
  | nil =>
    cases hp
    rfl
  | cons r dims ih =>
    obtain - | @⟨d, -, p, -, hd, htl⟩ := hp
    obtain ⟨hdefined, hcount⟩ := hdims r List.mem_cons_self
    have hoff := Netrange.offsetAt_lt hd
    -- the block that the index begins is a part of what is left
    have hblock : (r.offsetAt d + 1) * (counts dims).prod ≤ (counts (r :: dims)).prod := by
      rw [counts_prod_cons]
      exact Nat.mul_le_mul_right _ hoff
    rw [Nat.add_mul, Nat.one_mul] at hblock
    have hpos : 0 < (counts dims).prod := counts_prod_pos
    have htmp : (if r.lsb ≤ r.msb then r.indexAt d - r.lsb else r.indexAt d - r.msb) =
        (r.offsetAt d : Int) := by
      unfold Netrange.count at hd
      rw [Netrange.offsetAt, Netrange.offset, Netrange.indexAt]
      split_ifs <;> omega
    have hwidth : wrap r.count = r.count := wrap_of_lt (by omega) (by omega)
    have hin : ¬ ((r.offsetAt d : Int) < 0 ∨ wrap r.count ≤ (r.offsetAt d : Int)) := by
      rw [hwidth]
      omega
    have hstep : r.offsetAt d * (counts dims).prod < 2 ^ 63 := by omega
    have hnext : acc + r.offsetAt d * (counts dims).prod < 2 ^ 63 := by omega
    have hoffset : r.offsetAt d < 2 ^ 63 := hoff.trans hcount
    have hproduct := long_natCast hstep
    have hsum := long_natCast hnext
    rw [Nat.cast_mul] at hproduct
    rw [Nat.cast_add, Nat.cast_mul] at hsum
    rw [indicesAt, List.zipWith_cons_cons, strideList, normalizeUnpackedLoop, hdefined,
      Bool.not_true, if_neg Bool.false_ne_true, htmp, long_natCast hoffset, hdims.width_eq,
      Option.bind_eq_bind, Option.bind_some, Option.bind_eq_bind, Option.bind_some, if_neg hin,
      hproduct, Option.bind_some, hsum, Option.bind_some, pinAt_cons, ← Nat.add_assoc]
    exact_mod_cast ih hdims.tail htl (by omega)

/-- The element at a position has the pin that its indices are normalized to. -/
theorem normalizeUnpacked_indicesAt (hdims : Declared dims) (hne : dims ≠ [])
    (hp : Digits p (counts dims)) (hlt : (counts dims).prod < 2 ^ 63) :
    normalizeUnpacked dims (indicesAt dims p) = some (some (pinAt dims p : Int)) := by
  have hle : 0 + (counts dims).prod ≤ 2 ^ 63 := by omega
  have hloop := normalizeUnpackedLoop_eq hdims hp hle
  rw [Nat.zero_add] at hloop
  rw [normalizeUnpacked, makeStrides_eq hdims hne hlt]
  exact hloop

/-! ## Pins -/

/-- Dimensions that are counted have widths, and the count is the product in 32 bits. -/
theorem declared_of_netrangeWidth {wid n : Nat} (h : netrangeWidth dims wid = some n) (hn : n ≠ 0) :
    Declared dims ∧ n = wid * (counts dims).prod % 2 ^ 32 := by
  induction dims generalizing wid with
  | nil =>
    refine ⟨fun r hr => absurd hr List.not_mem_nil, ?_⟩
    rw [counts, List.map_nil, List.prod_nil, Nat.mul_one]
    exact (Option.some.inj h).symm
  | cons r dims ih =>
    rw [netrangeWidth, List.foldlM_cons, Option.bind_eq_bind, Option.bind_assoc] at h
    obtain ⟨w, hw, h⟩ := Option.bind_eq_some_iff.mp h
    have hrest : netrangeWidth dims (wid * w) = some n := by
      rw [netrangeWidth, Nat.mul_mod]
      exact h
    obtain ⟨hdeclared, hvalue⟩ := ih hrest
    by_cases hdefined : r.defined = true
    · have hcount := Netrange.count_lt_of_width hdefined hw
      have hweq : w = r.count := Option.some.inj (hw.symm.trans (Netrange.width_eq hdefined hcount))
      refine ⟨List.forall_mem_cons.mpr ⟨⟨hdefined, hcount⟩, hdeclared⟩, ?_⟩
      rw [hvalue, hweq, counts_prod_cons, Nat.mul_assoc]
    · have hzero : w = 0 := by
        rw [Netrange.width, Bool.eq_false_iff.mpr hdefined, Bool.not_false, if_pos rfl] at hw
        exact (Option.some.inj hw).symm
      rw [hvalue, hzero, Nat.mul_zero, Nat.zero_mul, Nat.zero_mod] at hn
      exact absurd rfl hn

namespace UnpackedNet

variable (net : UnpackedNet)

theorem spec : Declared net.dims ∧ net.pinCount = (counts net.dims).prod % 2 ^ 32 := by
  obtain ⟨sum, hsum, hcount⟩ := Option.bind_eq_some_iff.mp net.count_eq
  have hcount : (if 2 ^ 32 - 1 ≤ sum then 0 else sum) = net.pinCount := Option.some.inj hcount
  have hne := net.pinCount_ne
  rw [← hcount] at hne ⊢
  split_ifs at hne ⊢ with hmax
  · exact absurd rfl hne
  · rw [← Nat.one_mul (counts net.dims).prod]
    exact declared_of_netrangeWidth hsum hne

theorem declared : Declared net.dims := net.spec.1

/-- There are as many pins as elements, unless the count does not fit. -/
theorem pinCount_eq (h : (counts net.dims).prod < 2 ^ 32) :
    net.pinCount = (counts net.dims).prod := by
  rw [net.spec.2, Nat.mod_eq_of_lt h]

theorem pinCount_lt : net.pinCount < 2 ^ 32 := by
  rw [net.spec.2]
  exact Nat.mod_lt _ (by norm_num)

end UnpackedNet

end Icarus.Netmisc
