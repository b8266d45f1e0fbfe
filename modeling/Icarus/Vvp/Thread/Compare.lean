import Icarus.Vvp.Planes.Test
import Icarus.Vvp.Thread.Index

/-!
# Comparisons

The compare opcodes set the flags for `==`, `<` and `===` from two vectors of one width, and the
comparators of nets send one bit. Each has its own loop: over the bits upward or downward, or over
the words.
-/

namespace Icarus.Vvp

open Icarus.Core

/-- `bit4_is_xz`. -/
def Bit4.isXz (b : Bit4) : Bool := b = .x ∨ b = .z

/-- The operator `~` of a bit. -/
def Bit4.not : Bit4 → Bit4
  | .zero => .one
  | .one => .zero
  | .x => .x
  | .z => .x

/-- A condition as a bit. -/
def bitIf (p : Prop) [Decidable p] : Bit4 := if p then .one else .zero

/-- The `flags` of a thread. -/
abbrev ThreadFlags := Fin 512 → Bit4

/-- What the compare opcodes read and write of a thread. -/
structure CmpThread where
  /-- `flags`. -/
  flags : ThreadFlags
  /-- `stack_vec4_`, the top first. -/
  stackVec4 : List Planes

/-- The operands of the immediate forms in `vvp_code_s`. -/
structure ImmCode where
  /-- `number`. -/
  number : BitVec 32
  /-- `bit_idx[0]`. -/
  bitIdx0 : BitVec 32
  /-- `bit_idx[1]`. -/
  bitIdx1 : BitVec 32

/-- The constant of an immediate form. -/
def ImmCode.operand (cp : ImmCode) : Planes :=
  Planes.ofWords cp.number.toNat (cp.bitIdx0.setWidth 64) (cp.bitIdx1.setWidth 64)

/-! ## The opcodes -/

/-- `eq` after a bit of the loop. -/
def eqBit (eq lv rv : Bit4) : Bit4 :=
  let eq := if eq = .one ∧ (lv.isXz || rv.isXz) then .x else eq
  let eq := if lv = .zero ∧ rv = .one then .zero else eq
  if lv = .one ∧ rv = .zero then .zero else eq

/-- The loop over the bits of `do_CMPE` and `of_CMPU_the_hard_way`: `eq` and `eeq`. -/
def eqBits (lval rval : Planes) (eq eeq : Bit4) : List Nat → Bit4 × Bit4
  | [] => (eq, eeq)
  | idx :: rest =>
    let lv := lval.value idx
    let rv := rval.value idx
    let eeq := if lv ≠ rv then .zero else eeq
    let eq := eqBit eq lv rv
    if eq = .zero then (eq, eeq) else eqBits lval rval eq eeq rest

/-- The scan for the first difference from the top of the low bits down, the bit of the left
operand there. -/
def scanDown (lval rval : Planes) : Nat → Option Bit4
  | 0 => none
  | n + 1 => if lval.value n = rval.value n then scanDown lval rval n else some (lval.value n)

/-- The loop over the words of `do_CMPU`: `eq` and `lt`. -/
def cmpWords (larray rarray : List (BitVec 64)) (words : Nat) : Bit4 × Bit4 :=
  (List.range words).foldl
    (fun r wdx =>
      if larray.getD wdx 0 = rarray.getD wdx 0 then r
      else (.zero, if larray.getD wdx 0 < rarray.getD wdx 0 then .one else .zero))
    (.one, .zero)

/-- The flags with `eq`, `lt` and `eeq`. -/
def ThreadFlags.set (flags : ThreadFlags) (eq lt eeq : Bit4) : ThreadFlags :=
  Function.update (Function.update (Function.update flags 4 eq) 5 lt) 6 eeq

/-- `do_CMPE`. -/
def doCmpE (flags : ThreadFlags) (lval rval : Planes) : Option ThreadFlags :=
  if rval.size = lval.size then
    if lval.hasXz || rval.hasXz then
      let (eq, eeq) := eqBits lval rval .one .one (List.range lval.size)
      some (Function.update (Function.update flags 4 eq) 6 eeq)
    else
      let eq := bitIf (lval.eeq rval)
      some (Function.update (Function.update flags 4 eq) 6 eq)
  else none

/-- The end of `do_CMPS`, for operands of one sign. -/
def cmpSameSign (flags : ThreadFlags) (wid : Nat) (lval rval : Planes) : ThreadFlags :=
  if wid ≤ 64 then
    let la := lval.aword 0 &&& transMask wid
    let ra := rval.aword 0 &&& transMask wid
    flags.set (bitIf (la = ra)) (bitIf (la < ra)) (bitIf (la = ra))
  else
    match scanDown lval rval (wid - 1) with
    | some lv => flags.set .zero (bitIf (lv = .zero)) .zero
    | none => flags.set .one .zero .one

/-- `do_CMPS`. -/
def doCmpS (flags : ThreadFlags) (lval rval : Planes) : Option ThreadFlags :=
  if rval.size = lval.size then
    if lval.hasXz || rval.hasXz then some (flags.set .x .x (bitIf (lval.eeq rval)))
    else
      let wid := lval.size
      let sig1 := lval.value (wid - 1)
      let sig2 := rval.value (wid - 1)
      if sig1 = .one ∧ sig2 = .zero then some (flags.set .zero .one .zero)
      else if sig1 = .zero ∧ sig2 = .one then some (flags.set .zero .zero .zero)
      else some (cmpSameSign flags wid lval rval)
  else none

/-- `of_CMPU_the_hard_way`. -/
def cmpUTheHardWay (flags : ThreadFlags) (wid : Nat) (lval rval : Planes) : ThreadFlags :=
  let (eq, eeq) := eqBits lval rval .one .one (List.range wid)
  flags.set eq .x eeq

/-- `do_CMPU`. -/
def doCmpU (flags : ThreadFlags) (lval rval : Planes) : Option ThreadFlags :=
  if rval.size = lval.size then
    let wid := lval.size
    match lval.subarray 0 wid false with
    | none => some (cmpUTheHardWay flags wid lval rval)
    | some larray =>
      match rval.subarray 0 wid false with
      | none => some (cmpUTheHardWay flags wid lval rval)
      | some rarray =>
        let (eq, lt) := cmpWords larray rarray (wordCount wid)
        some (flags.set eq lt eq)
  else none

/-- The flags of a comparison for `!=`. -/
def ThreadFlags.invert (flags : ThreadFlags) : ThreadFlags :=
  Function.update (Function.update flags 4 (flags 4).not) 6 (flags 6).not

/-- A comparison of the two vectors on top of the stack. -/
def cmpStack (op : ThreadFlags → Planes → Planes → Option ThreadFlags) (thr : CmpThread) :
    Option CmpThread :=
  match thr.stackVec4 with
  | rval :: lval :: rest => (op thr.flags lval rval).map fun flags => ⟨flags, rest⟩
  | _ => none

/-- A comparison of the vector on top of the stack with a constant. -/
def cmpImmediate (op : ThreadFlags → Planes → Planes → Option ThreadFlags) (thr : CmpThread)
    (cp : ImmCode) : Option CmpThread :=
  match thr.stackVec4 with
  | lval :: rest => (op thr.flags lval cp.operand).map fun flags => ⟨flags, rest⟩
  | [] => none

/-- `do_CMPE` and the flags inverted. -/
def doCmpNe (flags : ThreadFlags) (lval rval : Planes) : Option ThreadFlags :=
  (doCmpE flags lval rval).map ThreadFlags.invert

/-- `of_CMPE`. -/
def ofCmpE : CmpThread → Option CmpThread := cmpStack doCmpE

/-- `of_CMPNE`. -/
def ofCmpNe : CmpThread → Option CmpThread := cmpStack doCmpNe

/-- `of_CMPS`. -/
def ofCmpS : CmpThread → Option CmpThread := cmpStack doCmpS

/-- `of_CMPU`. -/
def ofCmpU : CmpThread → Option CmpThread := cmpStack doCmpU

/-- `of_CMPIE`. -/
def ofCmpIE : CmpThread → ImmCode → Option CmpThread := cmpImmediate doCmpE

/-- `of_CMPINE`. -/
def ofCmpINe : CmpThread → ImmCode → Option CmpThread := cmpImmediate doCmpNe

/-- `of_CMPIS`. -/
def ofCmpIS : CmpThread → ImmCode → Option CmpThread := cmpImmediate doCmpS

/-- `of_CMPIU`. -/
def ofCmpIU : CmpThread → ImmCode → Option CmpThread := cmpImmediate doCmpU

/-! ## The comparators of nets -/

/-- The loop of `vvp_cmp_eq::recv_vec4` over the bits, with the result so far. -/
def cmpEqBits (opA opB : Planes) (res : Bit4) : List Nat → Bit4
  | [] => res
  | idx :: rest =>
    let a := opA.value idx
    let b := opB.value idx
    if a.isXz || b.isXz then cmpEqBits opA opB .x rest
    else if a ≠ b then .zero
    else cmpEqBits opA opB res rest

/-- `vvp_cmp_eq::recv_vec4`: the bit that is sent for the operands; nothing where the sizes differ
and the assertion fails. -/
def cmpEq (opA opB : Planes) : Option Bit4 :=
  if opA.size = opB.size then some (cmpEqBits opA opB .one (List.range opA.size)) else none

/-- `compare_gtge`. -/
def compareGtge (lef rig : Planes) (outIfEqual : Bit4) : Bit4 :=
  let minSize := if rig.size < lef.size then rig.size else lef.size
  if minSize = 0 then .x
  else if lef.hasXz then .x
  else if rig.hasXz then .x
  else if (List.range' rig.size (lef.size - rig.size)).any fun idx => lef.value idx = .one then .one
  else if (List.range' lef.size (rig.size - lef.size)).any fun idx => rig.value idx = .one then .zero
  else
    match scanDown lef rig minSize with
    | some lv => if lv = .one then .one else .zero
    | none => outIfEqual

/-- `compare_gtge_signed`; nothing where its assertion fails. -/
def compareGtgeSigned (a b : Planes) (outIfEqual : Bit4) : Option Bit4 :=
  if a.size = b.size then
    let signIdx := a.size - 1
    let aSign := a.value signIdx
    let bSign := b.value signIdx
    if aSign.isXz then some .x
    else if bSign.isXz then some .x
    else if aSign = bSign then some (compareGtge a b outIfEqual)
    else if a.hasXz then some .x
    else if b.hasXz then some .x
    else if aSign = .zero then some .one
    else some .zero
  else none

/-! ## The relations that are meant -/

/-- At some position the vectors have two different known bits. -/
def Differ (a b : Vector4) : Prop :=
  ∃ i : Nat, (a[i]? = some Bit4.zero ∧ b[i]? = some Bit4.one) ∨
    (a[i]? = some Bit4.one ∧ b[i]? = some Bit4.zero)

/-- There is an X or Z bit. -/
def Unknown (a b : Vector4) : Prop := a.hasXz = true ∨ b.hasXz = true

/-- The equality `==`: of the integers without X and Z bits; with them 0 where two known bits
differ and X otherwise. -/
structure EqRight (a b : Vector4) (eq : Bit4) : Prop where
  /-- Without X and Z bits. -/
  known : ¬ Unknown a b → eq = bitIf (a.toNat = b.toNat)
  /-- Two known bits differ. -/
  differ : Unknown a b → Differ a b → eq = .zero
  /-- No known bits differ. -/
  alike : Unknown a b → ¬ Differ a b → eq = .x

/-- The flags of `%cmp/u`, and of `%cmp/s` with signed integers: what is said of `==` with X and Z
bits holds of the unsigned form. -/
structure Compared (signedFlag : Bool) (a b : Vector4) (eq lt eeq : Bit4) : Prop where
  /-- Without X and Z bits `eq` compares the integers. -/
  eq_known : ¬ Unknown a b → eq = bitIf (intValue signedFlag a = intValue signedFlag b)
  /-- Without X and Z bits `lt` compares the integers. -/
  lt_known : ¬ Unknown a b → lt = bitIf (intValue signedFlag a < intValue signedFlag b)
  /-- Without X and Z bits `eeq` compares the integers. -/
  eeq_known : ¬ Unknown a b → eeq = bitIf (intValue signedFlag a = intValue signedFlag b)
  /-- With X and Z bits `eq` is that of `==`. -/
  eq_unknown : signedFlag = false → Unknown a b → EqRight a b eq
  /-- With X and Z bits `lt` is X. -/
  lt_unknown : Unknown a b → lt = .x
  /-- With X and Z bits `eeq` compares the bits. -/
  eeq_unknown : Unknown a b → eeq = bitIf (a = b)

/-- A comparator for `>` or `>=` by its result for equal operands. -/
structure GtgeRight (signedFlag : Bool) (a b : Vector4) (outIfEqual res : Bit4) : Prop where
  /-- The left operand is greater. -/
  gt : ¬ Unknown a b → intValue signedFlag b < intValue signedFlag a → res = .one
  /-- The left operand is less. -/
  lt : ¬ Unknown a b → intValue signedFlag a < intValue signedFlag b → res = .zero
  /-- The operands are equal. -/
  eq : ¬ Unknown a b → intValue signedFlag a = intValue signedFlag b → res = outIfEqual
  /-- With X and Z bits the result is X. -/
  unknown : Unknown a b → res = .x

theorem Differ.ne {a b : Vector4} (h : Differ a b) : a ≠ b := by
  rintro rfl
  obtain ⟨i, ⟨h0, h1⟩ | ⟨h1, h0⟩⟩ := h <;> simp [h0] at h1

/-! ## The bits -/

section Bits

variable {lval rval : Planes}

/-- Two known bits that differ. -/
def knownDiffer (lv rv : Bit4) : Bool := (lv = .zero ∧ rv = .one) ∨ (lv = .one ∧ rv = .zero)

theorem eqBit_differ (eq : Bit4) {lv rv : Bit4} (h : knownDiffer lv rv = true) :
    eqBit eq lv rv = .zero ∧ lv ≠ rv := by
  rcases of_decide_eq_true h with ⟨rfl, rfl⟩ | ⟨rfl, rfl⟩ <;> exact ⟨rfl, by decide⟩

theorem eqBit_alike {eq lv rv : Bit4} (heq : eq = .one ∨ eq = .x) (h : knownDiffer lv rv = false) :
    eqBit eq lv rv = if eq = .x ∨ (lv.isXz || rv.isXz) then .x else .one := by
  have hone : ¬ (lv = .zero ∧ rv = .one) := fun h' => of_decide_eq_false h (.inl h')
  have hzero : ¬ (lv = .one ∧ rv = .zero) := fun h' => of_decide_eq_false h (.inr h')
  unfold eqBit
  dsimp only
  rw [if_neg hzero, if_neg hone]
  rcases heq with rfl | rfl
  · simp
  · simp

/-- The loop up to the first known difference; without one it has met X and Z bits, and
differences, or not. -/
theorem eqBits_eq (lval rval : Planes) (l : List Nat) {eq : Bit4} (eeq : Bit4)
    (heq : eq = .one ∨ eq = .x) :
    eqBits lval rval eq eeq l =
      if l.any fun idx => knownDiffer (lval.value idx) (rval.value idx) then (.zero, .zero)
      else (if eq = .x ∨ (l.any fun idx => (lval.value idx).isXz || (rval.value idx).isXz) then .x
          else .one,
        if l.any fun idx => lval.value idx ≠ rval.value idx then .zero else eeq) := by
  induction l generalizing eq eeq with
  | nil => rcases heq with rfl | rfl <;> rfl
  | cons idx rest ih =>
    rw [eqBits]
    simp only [List.any_cons]
    by_cases hdiffer : knownDiffer (lval.value idx) (rval.value idx) = true
    · obtain ⟨hbit, hne⟩ := eqBit_differ eq hdiffer
      rw [hbit, if_pos rfl, if_pos hne]
      exact (if_pos (by rw [hdiffer, Bool.true_or])).symm
    · rw [Bool.not_eq_true] at hdiffer
      have hbit := eqBit_alike heq hdiffer
      have hnext : eqBit eq (lval.value idx) (rval.value idx) = .one ∨
          eqBit eq (lval.value idx) (rval.value idx) = .x := by
        rw [hbit]
        split_ifs
        · exact .inr rfl
        · exact .inl rfl
      have hcond : eqBit eq (lval.value idx) (rval.value idx) = .x ↔
          eq = .x ∨ ((lval.value idx).isXz || (rval.value idx).isXz) = true := by
        rw [hbit]
        split_ifs with hx
        · exact iff_of_true rfl hx
        · exact iff_of_false (by decide) hx
      have hgo : eqBit eq (lval.value idx) (rval.value idx) ≠ .zero := by
        rcases hnext with h | h <;> rw [h] <;> decide
      rw [if_neg hgo, ih _ hnext]
      simp only [hdiffer, Bool.false_or, hcond, Bool.or_eq_true, or_assoc]
      by_cases hne : lval.value idx = rval.value idx
      · simp [hne]
      · simp [hne]

theorem knownDiffer_eq (a b : Bit4) :
    knownDiffer a b = (!(a.isXz || b.isXz) && decide (a ≠ b)) := by
  cases a <;> cases b <;> rfl

/-- The loop up to the first known difference again. -/
theorem cmpEqBits_eq (opA opB : Planes) (l : List Nat) (res : Bit4) :
    cmpEqBits opA opB res l =
      if l.any fun idx => knownDiffer (opA.value idx) (opB.value idx) then .zero
      else if l.any fun idx => (opA.value idx).isXz || (opB.value idx).isXz then .x
      else res := by
  induction l generalizing res with
  | nil => rfl
  | cons idx rest ih =>
    rw [cmpEqBits]
    simp only [List.any_cons]
    have hdiffer := knownDiffer_eq (opA.value idx) (opB.value idx)
    by_cases hxz : ((opA.value idx).isXz || (opB.value idx).isXz) = true
    · rw [hxz, Bool.not_true, Bool.false_and] at hdiffer
      rw [if_pos hxz, ih]
      simp only [hdiffer, hxz, Bool.false_or, Bool.true_or, if_true, ite_self]
    · rw [if_neg hxz]
      rw [Bool.not_eq_true] at hxz
      rw [hxz, Bool.not_false, Bool.true_and] at hdiffer
      by_cases hne : opA.value idx = opB.value idx
      · rw [decide_eq_false (not_not.mpr hne)] at hdiffer
        rw [if_neg (not_not.mpr hne), ih]
        simp only [hdiffer, hxz, Bool.false_or]
      · rw [decide_eq_true hne] at hdiffer
        rw [if_pos hne]
        exact (if_pos (by rw [hdiffer, Bool.true_or])).symm

theorem Vector4.hasXz_range (v : Planes) :
    v.toVector4.hasXz = (List.range v.size).any fun idx => (v.value idx).isXz := by
  rw [Planes.toVector4, Vector4.hasXz, List.any_map]
  rfl

variable (hsize : rval.size = lval.size)
include hsize

theorem unknown_iff : Unknown lval.toVector4 rval.toVector4 ↔
    ((List.range lval.size).any fun idx =>
      (lval.value idx).isXz || (rval.value idx).isXz) = true := by
  rw [Unknown, Vector4.hasXz_range, Vector4.hasXz_range, hsize]
  simp only [List.any_eq_true, Bool.or_eq_true]
  constructor
  · rintro (⟨idx, hidx, h⟩ | ⟨idx, hidx, h⟩)
    · exact ⟨idx, hidx, .inl h⟩
    · exact ⟨idx, hidx, .inr h⟩
  · rintro ⟨idx, hidx, h | h⟩
    · exact .inl ⟨idx, hidx, h⟩
    · exact .inr ⟨idx, hidx, h⟩

theorem differ_iff : Differ lval.toVector4 rval.toVector4 ↔
    ((List.range lval.size).any fun idx =>
      knownDiffer (lval.value idx) (rval.value idx)) = true := by
  simp only [Differ, Planes.getElem?_toVector4, hsize, List.any_eq_true, List.mem_range,
    knownDiffer, decide_eq_true_eq]
  refine exists_congr fun idx => ?_
  by_cases hidx : idx < lval.size
  · simp only [hidx, if_true, Option.some.injEq, true_and]
  · simp [hidx]

theorem toVector4_ne_iff : lval.toVector4 ≠ rval.toVector4 ↔
    ((List.range lval.size).any fun idx => lval.value idx ≠ rval.value idx) = true := by
  rw [Planes.toVector4, Planes.toVector4, hsize, Ne, List.map_inj_left, List.any_eq_true]
  push Not
  simp only [decide_eq_true_eq]

/-- Vectors without X and Z bits differ in known bits only. -/
theorem differ_iff_ne (hknown : ¬ Unknown lval.toVector4 rval.toVector4) :
    Differ lval.toVector4 rval.toVector4 ↔ lval.toVector4 ≠ rval.toVector4 := by
  refine ⟨Differ.ne, fun hne => (differ_iff hsize).mpr ?_⟩
  obtain ⟨idx, hidx, hbits⟩ := List.any_eq_true.mp ((toVector4_ne_iff hsize).mp hne)
  refine List.any_eq_true.mpr ⟨idx, hidx, ?_⟩
  have hxz : ¬ ((lval.value idx).isXz || (rval.value idx).isXz) = true := fun h =>
    hknown ((unknown_iff hsize).mpr (List.any_eq_true.mpr ⟨idx, hidx, h⟩))
  rw [Bool.not_eq_true] at hxz
  rw [knownDiffer_eq, hxz, hbits]
  rfl

/-- The loop over all bits where one of them is X or Z. -/
theorem eqBits_unknown (hunknown : Unknown lval.toVector4 rval.toVector4) :
    EqRight lval.toVector4 rval.toVector4
        (eqBits lval rval .one .one (List.range lval.size)).1 ∧
      (eqBits lval rval .one .one (List.range lval.size)).2 =
        bitIf (lval.toVector4 = rval.toVector4) := by
  rw [eqBits_eq lval rval _ .one (.inl rfl)]
  by_cases hdiffer : Differ lval.toVector4 rval.toVector4
  · have hne : lval.toVector4 ≠ rval.toVector4 := hdiffer.ne
    rw [if_pos ((differ_iff hsize).mp hdiffer)]
    exact ⟨⟨fun h => absurd hunknown h, fun _ _ => rfl, fun _ h => absurd hdiffer h⟩,
      (if_neg hne).symm⟩
  · rw [if_neg fun h => hdiffer ((differ_iff hsize).mpr h),
      if_pos (.inr ((unknown_iff hsize).mp hunknown))]
    refine ⟨⟨fun h => absurd hunknown h, fun _ h => absurd h hdiffer, fun _ _ => rfl⟩, ?_⟩
    by_cases hne : lval.toVector4 = rval.toVector4
    · rw [bitIf, if_pos hne, if_neg fun h => (toVector4_ne_iff hsize).mpr h hne]
    · rw [bitIf, if_neg hne, if_pos ((toVector4_ne_iff hsize).mp hne)]

end Bits

/-! ## The numbers -/

/-- The words of the arrays compared up to one of them. -/
theorem cmpWords_eq (larray rarray : List (BitVec 64)) (words : Nat) :
    cmpWords larray rarray words =
      (bitIf (Words.value (larray.take words) = Words.value (rarray.take words)),
        bitIf (Words.value (larray.take words) < Words.value (rarray.take words))) := by
  have hlt : ∀ (array : List (BitVec 64)) (k : Nat), Words.value (array.take k) < 2 ^ (64 * k) :=
    fun array k => by
      rw [Words.value_take]
      exact Nat.mod_lt _ (Nat.two_pow_pos _)
  induction words with
  | zero => simp [cmpWords, bitIf]
  | succ k ih =>
    have hl := hlt larray k
    have hr := hlt rarray k
    rw [cmpWords, List.range_succ, List.foldl_append, ← cmpWords, ih, List.foldl_cons,
      List.foldl_nil, Words.value_take_succ, Words.value_take_succ]
    simp only [bitIf, Words.add_mul_lt_iff hl hr, Words.add_mul_eq_iff hl hr, BitVec.toNat_inj,
      BitVec.lt_def]
    by_cases heq : larray.getD k 0 = rarray.getD k 0
    · simp only [heq, if_true, Nat.lt_irrefl, false_or, true_and]
    · simp only [heq, if_false, false_and, or_false]

theorem mod_two_pow_succ (x n : Nat) :
    x % 2 ^ (n + 1) = x % 2 ^ n + 2 ^ n * (x.testBit n).toNat := by
  rw [Nat.mod_pow_succ, Nat.toNat_testBit]

section Numbers

variable {lval rval : Planes} (hl : lval.toVector4.hasXz = false)
include hl

theorem value_known {idx : Nat} (hidx : idx < lval.size) :
    lval.value idx = if lval.toVector4.toNat.testBit idx then .one else .zero := by
  have hget := lval.getElem?_toVector4 idx
  rw [if_pos hidx] at hget
  rw [Vector4.testBit_toNat, hget]
  rcases Vector4.hasXz_eq_false.mp hl _ (List.mem_of_getElem? hget) with h | h <;> rw [h] <;> rfl

variable (hr : rval.toVector4.hasXz = false) (hsize : rval.size = lval.size)
include hr hsize

/-- The scan compares the low bits. -/
theorem scanDown_eq {n : Nat} (hn : n ≤ lval.size) :
    scanDown lval rval n =
      if lval.toVector4.toNat % 2 ^ n = rval.toVector4.toNat % 2 ^ n then none
      else some (if rval.toVector4.toNat % 2 ^ n < lval.toVector4.toNat % 2 ^ n then .one
        else .zero) := by
  induction n with
  | zero => simp [scanDown, Nat.mod_one]
  | succ n ih =>
    have hll := Nat.mod_lt lval.toVector4.toNat (Nat.two_pow_pos n)
    have hrl := Nat.mod_lt rval.toVector4.toNat (Nat.two_pow_pos n)
    rw [scanDown, ih (by omega), mod_two_pow_succ, mod_two_pow_succ, value_known hl (by omega),
      value_known hr (by omega)]
    simp only [Words.add_mul_lt_iff hrl hll, Words.add_mul_eq_iff hll hrl]
    cases lval.toVector4.toNat.testBit n <;> cases rval.toVector4.toNat.testBit n <;> simp

end Numbers

/-- Integers of one sign are compared by their bits. -/
theorem toInt_compare {a b : Vector4} (hlen : a.length = b.length)
    (htop : a.toNat.testBit (a.length - 1) = b.toNat.testBit (b.length - 1)) :
    (a.toInt < b.toInt ↔ a.toNat < b.toNat) ∧ (a.toInt = b.toInt ↔ a.toNat = b.toNat) := by
  unfold Vector4.toInt
  rw [htop, hlen]
  split_ifs <;> omega

/-- Of two signs the negative integer is less. -/
theorem toInt_lt_of_top {a b : Vector4} (ha : a.toNat.testBit (a.length - 1) = true)
    (hb : b.toNat.testBit (b.length - 1) = false) : a.toInt < b.toInt := by
  have hneg := a.toInt_neg_iff.mpr ha
  rw [Vector4.toInt_of_not_top hb]
  omega

/-- Vectors without X and Z bits are the same when their integers are. -/
theorem toNat_inj {a b : Vector4} (hlen : a.length = b.length) (h : ¬ Unknown a b) :
    a.toNat = b.toNat ↔ a = b := by
  obtain ⟨ha, hb⟩ := not_or.mp h
  constructor
  · intro heq
    rw [← Vector4.ofNat_toNat (Bool.eq_false_iff.mpr ha), heq, hlen,
      Vector4.ofNat_toNat (Bool.eq_false_iff.mpr hb)]
  · rintro rfl
    rfl

/-! ## The results -/

theorem bitIf_congr {p q : Prop} [Decidable p] [Decidable q] (h : p ↔ q) : bitIf p = bitIf q :=
  if_congr h rfl rfl

section Results

variable {lval rval : Planes}

theorem bitIf_eeq : bitIf (lval.eeq rval) = bitIf (lval.toVector4 = rval.toVector4) :=
  bitIf_congr (by rw [Planes.eeq_eq, decide_eq_true_iff])

theorem hasXz_or : (lval.hasXz || rval.hasXz) = true ↔
    Unknown lval.toVector4 rval.toVector4 := by
  rw [Bool.or_eq_true, Planes.hasXz_eq, Planes.hasXz_eq, Unknown]

theorem isXz_of_known {idx : Nat} (hl : lval.toVector4.hasXz = false) (hidx : idx < lval.size) :
    (lval.value idx).isXz = false := by
  rw [value_known hl hidx]
  cases lval.toVector4.toNat.testBit idx <;> rfl

/-- A word that holds a vector. -/
theorem toNat_held (hl : lval.toVector4.hasXz = false) (hshort : lval.size ≤ 64) :
    (lval.aword 0 &&& transMask lval.size).toNat = lval.toVector4.toNat := by
  apply Nat.eq_of_testBit_eq
  intro i
  rw [Planes.toNat_toVector4 hl, Nat.testBit_mod_two_pow, testBit_value, BitVec.testBit_toNat,
    BitVec.getLsbD_and, getLsbD_transMask hshort]
  by_cases hi : i < lval.size
  · rw [planeBit_first _ (by omega), Bool.and_comm]
    rfl
  · rw [decide_eq_false hi, Bool.and_false, Bool.false_and]

variable (hsize : rval.size = lval.size)
include hsize

theorem length_eq : lval.toVector4.length = rval.toVector4.length := by
  rw [Planes.length_toVector4, Planes.length_toVector4, hsize]

theorem doCmpE_right (flags : ThreadFlags) : ∃ flags', doCmpE flags lval rval = some flags' ∧
    EqRight lval.toVector4 rval.toVector4 (flags' 4) ∧
      flags' 6 = bitIf (lval.toVector4 = rval.toVector4) := by
  rw [doCmpE, if_pos hsize]
  by_cases hunknown : Unknown lval.toVector4 rval.toVector4
  · rw [if_pos (hasXz_or.mpr hunknown)]
    obtain ⟨heq, heeq⟩ := eqBits_unknown hsize hunknown
    exact ⟨_, rfl, heq, heeq⟩
  · rw [if_neg fun h => hunknown (hasXz_or.mp h)]
    refine ⟨_, rfl, ⟨fun _ => ?_, fun h => absurd h hunknown, fun h => absurd h hunknown⟩, ?_⟩
    · exact bitIf_eeq.trans (bitIf_congr (toNat_inj (length_eq hsize) hunknown).symm)
    · exact bitIf_eeq

theorem cmpSameSign_eq (flags : ThreadFlags) (hl : lval.toVector4.hasXz = false)
    (hr : rval.toVector4.hasXz = false)
    (htop : lval.toVector4.toNat.testBit (lval.size - 1) =
      rval.toVector4.toNat.testBit (lval.size - 1)) :
    cmpSameSign flags lval.size lval rval =
      flags.set (bitIf (lval.toVector4.toNat = rval.toVector4.toNat))
        (bitIf (lval.toVector4.toNat < rval.toVector4.toNat))
        (bitIf (lval.toVector4.toNat = rval.toVector4.toNat)) := by
  unfold cmpSameSign
  split_ifs with hshort
  · have hword := toNat_held hr (by omega)
    rw [hsize] at hword
    simp only [← BitVec.toNat_inj, BitVec.lt_def, toNat_held hl hshort, hword]
  · have hlt : ∀ {v : Planes}, v.size = lval.size → v.toVector4.toNat =
        v.toVector4.toNat % 2 ^ (lval.size - 1) +
          2 ^ (lval.size - 1) * (v.toVector4.toNat.testBit (lval.size - 1)).toNat := by
      intro v hv
      rw [← mod_two_pow_succ, Nat.mod_eq_of_lt]
      have h := v.toVector4.toNat_lt
      rwa [Planes.length_toVector4, hv, ← Nat.sub_add_cancel (show 1 ≤ lval.size by omega)] at h
    have hlow := hlt rfl
    have hrow := hlt hsize
    rw [htop] at hlow
    rw [scanDown_eq hl hr hsize (Nat.sub_le _ _)]
    by_cases heq : lval.toVector4.toNat % 2 ^ (lval.size - 1) =
        rval.toVector4.toNat % 2 ^ (lval.size - 1)
    · have hnat : lval.toVector4.toNat = rval.toVector4.toNat := by omega
      rw [if_pos heq, hnat, bitIf, if_pos rfl, bitIf, if_neg (Nat.lt_irrefl _)]
    · have hnat : lval.toVector4.toNat ≠ rval.toVector4.toNat := by omega
      rw [if_neg heq, bitIf, if_neg hnat]
      by_cases hless : rval.toVector4.toNat % 2 ^ (lval.size - 1) <
          lval.toVector4.toNat % 2 ^ (lval.size - 1)
      · rw [if_pos hless, bitIf, if_neg (by omega)]
        rfl
      · rw [if_neg hless, bitIf, if_pos (by omega)]
        rfl

theorem doCmpS_known (flags : ThreadFlags) (hknown : ¬ Unknown lval.toVector4 rval.toVector4) :
    doCmpS flags lval rval =
      some (flags.set (bitIf (lval.toVector4.toInt = rval.toVector4.toInt))
        (bitIf (lval.toVector4.toInt < rval.toVector4.toInt))
        (bitIf (lval.toVector4.toInt = rval.toVector4.toInt))) := by
  have hlen := length_eq hsize
  obtain ⟨hl, hr⟩ := not_or.mp hknown
  rw [Bool.not_eq_true] at hl hr
  have hll := lval.length_toVector4
  have hrl := rval.length_toVector4
  rw [doCmpS, if_pos hsize, if_neg fun h => hknown (hasXz_or.mp h)]
  dsimp only
  have hsame : ∀ top : Bool, lval.toVector4.toNat.testBit (lval.size - 1) = top →
      rval.toVector4.toNat.testBit (lval.size - 1) = top →
        cmpSameSign flags lval.size lval rval =
          flags.set (bitIf (lval.toVector4.toInt = rval.toVector4.toInt))
            (bitIf (lval.toVector4.toInt < rval.toVector4.toInt))
            (bitIf (lval.toVector4.toInt = rval.toVector4.toInt)) := fun top hlt hrt => by
    obtain ⟨hless, heq⟩ := toInt_compare hlen (by rw [hll, hrl, hsize, hlt, hrt])
    rw [cmpSameSign_eq hsize flags hl hr (hlt.trans hrt.symm), bitIf_congr hless, bitIf_congr heq]
  by_cases hpos : 0 < lval.size
  · rw [value_known hl (by omega), value_known hr (by omega)]
    cases hlt : lval.toVector4.toNat.testBit (lval.size - 1) <;>
      cases hrt : rval.toVector4.toNat.testBit (lval.size - 1)
    · exact congrArg some (hsame false hlt hrt)
    · have hless := toInt_lt_of_top (by rwa [hrl, hsize]) (by rwa [hll])
      rw [bitIf, if_neg hless.ne', bitIf, if_neg hless.le.not_gt]
      rfl
    · have hless := toInt_lt_of_top (by rwa [hll]) (by rwa [hrl, hsize])
      rw [bitIf, if_neg hless.ne, bitIf, if_pos hless]
      rfl
    · exact congrArg some (hsame true hlt hrt)
  · -- A vector of no bits has no sign bit, and its number is 0.
    have hzero : ∀ {v : Planes}, v.size = lval.size →
        v.toVector4.toNat.testBit (lval.size - 1) = false := fun {v} hv => by
      have hlt := v.toVector4.toNat_lt
      rw [Planes.length_toVector4, hv] at hlt
      exact Nat.testBit_lt_two_pow (Nat.lt_of_lt_of_le hlt (Nat.pow_le_pow_right (by omega) (by omega)))
    rw [Planes.value_of_ge (show lval.size ≤ lval.size - 1 by omega)]
    exact congrArg some (hsame false (hzero rfl) (hzero hsize))

theorem doCmpS_right (flags : ThreadFlags) : ∃ flags', doCmpS flags lval rval = some flags' ∧
    Compared true lval.toVector4 rval.toVector4 (flags' 4) (flags' 5) (flags' 6) := by
  by_cases hunknown : Unknown lval.toVector4 rval.toVector4
  · rw [doCmpS, if_pos hsize, if_pos (hasXz_or.mpr hunknown)]
    exact ⟨_, rfl, fun h => absurd hunknown h, fun h => absurd hunknown h,
      fun h => absurd hunknown h, fun h => absurd h (by decide), fun _ => rfl, fun _ => bitIf_eeq⟩
  · rw [doCmpS_known hsize flags hunknown]
    exact ⟨_, rfl, fun _ => rfl, fun _ => rfl, fun _ => rfl, fun _ h => absurd h hunknown,
      fun h => absurd h hunknown, fun h => absurd h hunknown⟩

theorem doCmpU_eq (flags : ThreadFlags) : doCmpU flags lval rval =
    if lval.toVector4.hasXz || rval.toVector4.hasXz then
      some (cmpUTheHardWay flags lval.size lval rval)
    else
      some (flags.set (bitIf (lval.toVector4.toNat = rval.toVector4.toNat))
        (bitIf (lval.toVector4.toNat < rval.toVector4.toNat))
        (bitIf (lval.toVector4.toNat = rval.toVector4.toNat))) := by
  have hlarray := lval.subarray_eq
  have hrarray := rval.subarray_eq
  rw [hsize] at hrarray
  have htake : ∀ v : Planes, v.size = lval.size →
      Words.value ((Vector2.subarray v.toVector4).take (wordCount lval.size)) =
        v.toVector4.toNat := fun v hv => by
    have hlen := length_subarray v.toVector4
    rw [Planes.length_toVector4, hv] at hlen
    rw [← hlen, List.take_length, Vector2.value_subarray]
  rw [doCmpU, if_pos hsize]
  dsimp only
  rw [hlarray, hrarray, subarray, subarray]
  cases hl : lval.toVector4.hasXz with
  | true => rfl
  | false =>
    cases hr : rval.toVector4.hasXz with
    | true => rfl
    | false =>
      have hwords := cmpWords_eq (Vector2.subarray lval.toVector4) (Vector2.subarray rval.toVector4)
        (wordCount lval.size)
      rw [htake lval rfl, htake rval hsize] at hwords
      rw [if_neg Bool.false_ne_true, if_neg Bool.false_ne_true]
      dsimp only
      rw [hwords]
      rfl

theorem doCmpU_right (flags : ThreadFlags) : ∃ flags', doCmpU flags lval rval = some flags' ∧
    Compared false lval.toVector4 rval.toVector4 (flags' 4) (flags' 5) (flags' 6) := by
  rw [doCmpU_eq hsize]
  by_cases hunknown : Unknown lval.toVector4 rval.toVector4
  · obtain ⟨heq, heeq⟩ := eqBits_unknown hsize hunknown
    rw [if_pos (Bool.or_eq_true _ _ ▸ hunknown)]
    exact ⟨_, rfl, fun h => absurd hunknown h, fun h => absurd hunknown h,
      fun h => absurd hunknown h, fun _ _ => heq, fun _ => rfl, fun _ => heeq⟩
  · rw [if_neg fun h => hunknown ((Bool.or_eq_true _ _).mp h)]
    refine ⟨_, rfl, fun _ => ?_, fun _ => ?_, fun _ => ?_, fun _ h => absurd h hunknown,
      fun h => absurd h hunknown, fun h => absurd h hunknown⟩
    · exact bitIf_congr Int.ofNat_inj.symm
    · exact bitIf_congr Int.ofNat_lt.symm
    · exact bitIf_congr Int.ofNat_inj.symm

theorem cmpEq_right : ∃ res, cmpEq lval rval = some res ∧
    EqRight lval.toVector4 rval.toVector4 res := by
  rw [cmpEq, if_pos hsize.symm, cmpEqBits_eq]
  refine ⟨_, rfl, fun hknown => ?_, fun _ hdiffer => ?_, fun hunknown hdiffer => ?_⟩
  · rw [bitIf_congr (toNat_inj (length_eq hsize) hknown)]
    by_cases heq : lval.toVector4 = rval.toVector4
    · have hdiffer : ¬ Differ lval.toVector4 rval.toVector4 := fun h => h.ne heq
      rw [bitIf, if_pos heq, if_neg fun h => hdiffer ((differ_iff hsize).mpr h),
        if_neg fun h => hknown ((unknown_iff hsize).mpr h)]
    · have hdiffer := (differ_iff_ne hsize hknown).mpr heq
      rw [bitIf, if_neg heq, if_pos ((differ_iff hsize).mp hdiffer)]
  · exact if_pos ((differ_iff hsize).mp hdiffer)
  · rw [if_neg fun h => hdiffer ((differ_iff hsize).mpr h), if_pos ((unknown_iff hsize).mp hunknown)]

/-- Where an operand has X or Z bits, `compare_gtge` is X. -/
theorem compareGtge_unknown (hunknown : Unknown lval.toVector4 rval.toVector4)
    (outIfEqual : Bit4) : compareGtge lval rval outIfEqual = .x := by
  unfold compareGtge
  dsimp only
  rw [Planes.hasXz_eq, Planes.hasXz_eq, hsize, if_neg (Nat.lt_irrefl _)]
  rcases hunknown with hl | hr
  · rw [if_pos hl, ite_self]
  · rw [if_pos hr, ite_self, ite_self]

/-- Without X and Z bits it compares the integers. -/
theorem compareGtge_known (hpos : 0 < lval.size)
    (hknown : ¬ Unknown lval.toVector4 rval.toVector4) (outIfEqual : Bit4) :
    compareGtge lval rval outIfEqual =
      if lval.toVector4.toNat = rval.toVector4.toNat then outIfEqual
      else bitIf (rval.toVector4.toNat < lval.toVector4.toNat) := by
  obtain ⟨hl, hr⟩ := not_or.mp hknown
  have hlow : ∀ {v : Planes}, v.size = lval.size →
      v.toVector4.toNat % 2 ^ lval.size = v.toVector4.toNat := fun {v} hv => by
    have hlt := v.toVector4.toNat_lt
    rw [Planes.length_toVector4, hv] at hlt
    exact Nat.mod_eq_of_lt hlt
  have hscan := scanDown_eq (Bool.eq_false_iff.mpr hl) (Bool.eq_false_iff.mpr hr) hsize le_rfl
  rw [hlow rfl, hlow hsize] at hscan
  unfold compareGtge
  dsimp only
  rw [Planes.hasXz_eq, Planes.hasXz_eq, hsize, if_neg (Nat.lt_irrefl _), if_neg (by omega),
    if_neg hl, if_neg hr, Nat.sub_self, hscan]
  simp only [List.range'_zero, List.any_nil, Bool.false_eq_true, if_false]
  by_cases heq : lval.toVector4.toNat = rval.toVector4.toNat
  · rw [if_pos heq, if_pos heq]
  · rw [if_neg heq, if_neg heq]
    by_cases hless : rval.toVector4.toNat < lval.toVector4.toNat
    · rw [if_pos hless, bitIf, if_pos hless]
      rfl
    · rw [if_neg hless, bitIf, if_neg hless]
      rfl

theorem compareGtge_right (hpos : 0 < lval.size) (outIfEqual : Bit4) :
    GtgeRight false lval.toVector4 rval.toVector4 outIfEqual
      (compareGtge lval rval outIfEqual) := by
  refine ⟨fun hknown hgt => ?_, fun hknown hlt => ?_, fun hknown heq => ?_, fun hunknown =>
    compareGtge_unknown hsize hunknown outIfEqual⟩
  · have hnat : rval.toVector4.toNat < lval.toVector4.toNat := Int.ofNat_lt.mp hgt
    rw [compareGtge_known hsize hpos hknown, if_neg hnat.ne', bitIf, if_pos hnat]
  · have hnat : lval.toVector4.toNat < rval.toVector4.toNat := Int.ofNat_lt.mp hlt
    rw [compareGtge_known hsize hpos hknown, if_neg hnat.ne, bitIf, if_neg hnat.le.not_gt]
  · have hnat : lval.toVector4.toNat = rval.toVector4.toNat := Int.ofNat_inj.mp heq
    rw [compareGtge_known hsize hpos hknown, if_pos hnat]

theorem compareGtgeSigned_unknown (hunknown : Unknown lval.toVector4 rval.toVector4)
    (outIfEqual : Bit4) : compareGtgeSigned lval rval outIfEqual = some .x := by
  rw [compareGtgeSigned, if_pos hsize.symm]
  dsimp only
  rw [compareGtge_unknown hsize hunknown, Planes.hasXz_eq, Planes.hasXz_eq]
  rcases hunknown with hl | hr
  · simp only [hl, if_true, ite_self]
  · simp only [hr, if_true, ite_self]

theorem compareGtgeSigned_right (hpos : 0 < lval.size) (outIfEqual : Bit4) :
    ∃ res, compareGtgeSigned lval rval outIfEqual = some res ∧
      GtgeRight true lval.toVector4 rval.toVector4 outIfEqual res := by
  by_cases hunknown : Unknown lval.toVector4 rval.toVector4
  · exact ⟨.x, compareGtgeSigned_unknown hsize hunknown outIfEqual, fun h => absurd hunknown h,
      fun h => absurd hunknown h, fun h => absurd hunknown h, fun _ => rfl⟩
  · have hnat := compareGtge_right hsize hpos outIfEqual
    obtain ⟨hl, hr⟩ := not_or.mp hunknown
    rw [Bool.not_eq_true] at hl hr
    have hlen := length_eq hsize
    have hll := lval.length_toVector4
    have hrl := rval.length_toVector4
    have hsame : lval.toVector4.toNat.testBit (lval.size - 1) =
        rval.toVector4.toNat.testBit (lval.size - 1) →
          GtgeRight true lval.toVector4 rval.toVector4 outIfEqual
            (compareGtge lval rval outIfEqual) := fun htop => by
      have hint := toInt_compare hlen (by rw [hll, hrl, hsize, htop])
      have hflip := toInt_compare hlen.symm (by rw [hll, hrl, hsize, htop])
      refine ⟨fun h hgt => hnat.gt h ?_, fun h hlt => hnat.lt h ?_, fun h heq => hnat.eq h ?_,
        fun h => absurd h hunknown⟩
      · exact Int.ofNat_lt.mpr (hflip.1.mp hgt)
      · exact Int.ofNat_lt.mpr (hint.1.mp hlt)
      · exact Int.ofNat_inj.mpr (hint.2.mp heq)
    rw [compareGtgeSigned, if_pos hsize.symm, Planes.hasXz_eq, Planes.hasXz_eq, hl, hr]
    dsimp only
    rw [isXz_of_known hl (by omega), isXz_of_known hr (by omega), value_known hl (by omega),
      value_known hr (by omega)]
    cases hlt : lval.toVector4.toNat.testBit (lval.size - 1) <;>
      cases hrt : rval.toVector4.toNat.testBit (lval.size - 1)
    · exact ⟨_, rfl, hsame (hlt.trans hrt.symm)⟩
    · have hless := toInt_lt_of_top (by rwa [hrl, hsize]) (by rwa [hll])
      exact ⟨.one, rfl, fun _ _ => rfl, fun _ h => absurd h hless.le.not_gt,
        fun _ h => absurd h hless.ne', fun h => absurd h hunknown⟩
    · have hless := toInt_lt_of_top (by rwa [hll]) (by rwa [hrl, hsize])
      exact ⟨.zero, rfl, fun _ h => absurd h hless.le.not_gt, fun _ _ => rfl,
        fun _ h => absurd h hless.ne, fun h => absurd h hunknown⟩
    · exact ⟨_, rfl, hsame (hlt.trans hrt.symm)⟩

end Results

/-! ## The opcodes and the comparators together -/

/-- The flags of `%cmp/e`. -/
def EqFlags (a b : Vector4) (flags : ThreadFlags) : Prop :=
  EqRight a b (flags 4) ∧ flags 6 = bitIf (a = b)

/-- The flags of `%cmp/ne`. -/
def NeFlags (a b : Vector4) (flags : ThreadFlags) : Prop :=
  (∃ eq, EqRight a b eq ∧ flags 4 = eq.not) ∧ flags 6 = bitIf (a ≠ b)

/-- The flags of `%cmp/s` and `%cmp/u`. -/
def CmpFlags (signedFlag : Bool) (a b : Vector4) (flags : ThreadFlags) : Prop :=
  Compared signedFlag a b (flags 4) (flags 5) (flags 6)

/-- An opcode that pops its operands and leaves flags. -/
def Leaves (op : CmpThread → Option CmpThread) (thr : CmpThread) (rest : List Planes)
    (P : ThreadFlags → Prop) : Prop :=
  ∃ flags, op thr = some ⟨flags, rest⟩ ∧ P flags

/-- The comparisons of two operands. The array that `%cmp/u` fills has no words for operands
without bits, and a word of it is written all the same. -/
structure ComparesRight (lval rval : Planes) : Prop where
  /-- `%cmp/e`. -/
  cmpE : ∀ flags rest, Leaves ofCmpE ⟨flags, rval :: lval :: rest⟩ rest
    (EqFlags lval.toVector4 rval.toVector4)
  /-- `%cmp/ne`. -/
  cmpNe : ∀ flags rest, Leaves ofCmpNe ⟨flags, rval :: lval :: rest⟩ rest
    (NeFlags lval.toVector4 rval.toVector4)
  /-- `%cmp/s`. -/
  cmpS : ∀ flags rest, Leaves ofCmpS ⟨flags, rval :: lval :: rest⟩ rest
    (CmpFlags true lval.toVector4 rval.toVector4)
  /-- `%cmp/u`. -/
  cmpU : 0 < lval.size → ∀ flags rest, Leaves ofCmpU ⟨flags, rval :: lval :: rest⟩ rest
    (CmpFlags false lval.toVector4 rval.toVector4)
  /-- `%cmpi/e`. -/
  cmpIE : ∀ cp : ImmCode, cp.operand.toVector4 = rval.toVector4 → ∀ flags rest,
    Leaves (ofCmpIE · cp) ⟨flags, lval :: rest⟩ rest (EqFlags lval.toVector4 rval.toVector4)
  /-- `%cmpi/ne`. -/
  cmpINe : ∀ cp : ImmCode, cp.operand.toVector4 = rval.toVector4 → ∀ flags rest,
    Leaves (ofCmpINe · cp) ⟨flags, lval :: rest⟩ rest (NeFlags lval.toVector4 rval.toVector4)
  /-- `%cmpi/s`. -/
  cmpIS : ∀ cp : ImmCode, cp.operand.toVector4 = rval.toVector4 → ∀ flags rest,
    Leaves (ofCmpIS · cp) ⟨flags, lval :: rest⟩ rest
      (CmpFlags true lval.toVector4 rval.toVector4)
  /-- `%cmpi/u`. -/
  cmpIU : 0 < lval.size → ∀ cp : ImmCode, cp.operand.toVector4 = rval.toVector4 → ∀ flags rest,
    Leaves (ofCmpIU · cp) ⟨flags, lval :: rest⟩ rest
      (CmpFlags false lval.toVector4 rval.toVector4)
  /-- `vvp_cmp_eq`. -/
  eq : ∃ res, cmpEq lval rval = some res ∧ EqRight lval.toVector4 rval.toVector4 res
  /-- `compare_gtge`. -/
  gtge : 0 < lval.size → ∀ outIfEqual,
    GtgeRight false lval.toVector4 rval.toVector4 outIfEqual (compareGtge lval rval outIfEqual)
  /-- `compare_gtge_signed`. -/
  gtgeSigned : 0 < lval.size → ∀ outIfEqual, ∃ res,
    compareGtgeSigned lval rval outIfEqual = some res ∧
      GtgeRight true lval.toVector4 rval.toVector4 outIfEqual res
  /-- Operands without bits are nil, read as X. -/
  nil : lval.size = 0 → ∀ outIfEqual, compareGtge lval rval outIfEqual = .x ∧
    compareGtgeSigned lval rval outIfEqual = some .x

theorem leaves_stack {op : ThreadFlags → Planes → Planes → Option ThreadFlags}
    {P : ThreadFlags → Prop} {lval rval : Planes} {flags : ThreadFlags} {rest : List Planes}
    (h : ∃ flags', op flags lval rval = some flags' ∧ P flags') :
    Leaves (cmpStack op) ⟨flags, rval :: lval :: rest⟩ rest P := by
  obtain ⟨flags', hop, hP⟩ := h
  exact ⟨flags', congrArg (Option.map fun flags => CmpThread.mk flags rest) hop, hP⟩

theorem leaves_immediate {op : ThreadFlags → Planes → Planes → Option ThreadFlags}
    {P : ThreadFlags → Prop} {lval : Planes} {cp : ImmCode} {flags : ThreadFlags}
    {rest : List Planes} (h : ∃ flags', op flags lval cp.operand = some flags' ∧ P flags') :
    Leaves (cmpImmediate op · cp) ⟨flags, lval :: rest⟩ rest P := by
  obtain ⟨flags', hop, hP⟩ := h
  exact ⟨flags', congrArg (Option.map fun flags => CmpThread.mk flags rest) hop, hP⟩

theorem doCmpNe_right {lval rval : Planes} (hsize : rval.size = lval.size) (flags : ThreadFlags) :
    ∃ flags', doCmpNe flags lval rval = some flags' ∧
      NeFlags lval.toVector4 rval.toVector4 flags' := by
  obtain ⟨flags', hop, heq, heeq⟩ := doCmpE_right hsize flags
  refine ⟨flags'.invert, by rw [doCmpNe, hop, Option.map_some], ⟨_, heq, rfl⟩, ?_⟩
  change (flags' 6).not = _
  rw [heeq]
  by_cases h : lval.toVector4 = rval.toVector4
  · rw [bitIf, if_pos h, bitIf, if_neg (not_not.mpr h)]
    rfl
  · rw [bitIf, if_neg h, bitIf, if_pos h]
    rfl

theorem size_operand {cp : ImmCode} {lval rval : Planes} (hsize : rval.size = lval.size)
    (hcp : cp.operand.toVector4 = rval.toVector4) : cp.operand.size = lval.size := by
  rw [← Planes.length_toVector4, hcp, Planes.length_toVector4, hsize]

/-- Operands of one size are compared right by every opcode, and by the comparators where they
have bits. -/
theorem compares_right (lval rval : Planes) (hsize : rval.size = lval.size) :
    ComparesRight lval rval where
  cmpE flags rest := leaves_stack (doCmpE_right hsize flags)
  cmpNe flags rest := leaves_stack (doCmpNe_right hsize flags)
  cmpS flags rest := leaves_stack (doCmpS_right hsize flags)
  cmpU _ flags rest := leaves_stack (doCmpU_right hsize flags)
  cmpIE cp hcp flags rest := by
    rw [← hcp]
    exact leaves_immediate (doCmpE_right (size_operand hsize hcp) flags)
  cmpINe cp hcp flags rest := by
    rw [← hcp]
    exact leaves_immediate (doCmpNe_right (size_operand hsize hcp) flags)
  cmpIS cp hcp flags rest := by
    rw [← hcp]
    exact leaves_immediate (doCmpS_right (size_operand hsize hcp) flags)
  cmpIU _ cp hcp flags rest := by
    rw [← hcp]
    exact leaves_immediate (doCmpU_right (size_operand hsize hcp) flags)
  eq := cmpEq_right hsize
  gtge hpos := compareGtge_right hsize hpos
  gtgeSigned hpos := compareGtgeSigned_right hsize hpos
  nil hnil outIfEqual := by
    have hgtge : compareGtge lval rval outIfEqual = .x := by
      unfold compareGtge
      dsimp only
      rw [hsize, if_neg (Nat.lt_irrefl _), if_pos hnil]
    refine ⟨hgtge, ?_⟩
    rw [compareGtgeSigned, if_pos hsize.symm]
    dsimp only
    rw [Planes.value_of_ge (show lval.size ≤ lval.size - 1 by omega)]
    rfl

/-- Two vectors of one bit. -/
theorem compares_right_bit : ComparesRight (Planes.ofWords 1 1 0) (Planes.ofWords 1 0 0) :=
  compares_right (Planes.ofWords 1 1 0) (Planes.ofWords 1 0 0) rfl

/-- For operands without bits the comparator for `>` sends X, where the integers are equal. -/
theorem not_gtge_nil : ¬ ∀ (lval rval : Planes) (outIfEqual : Bit4), rval.size = lval.size →
    GtgeRight false lval.toVector4 rval.toVector4 outIfEqual
      (compareGtge lval rval outIfEqual) := by
  intro h
  have hknown : ¬ Unknown (Planes.ofWords 0 0 0).toVector4 (Planes.ofWords 0 0 0).toVector4 :=
    not_or.mpr ⟨by decide, by decide⟩
  have hnil := (h (Planes.ofWords 0 0 0) (Planes.ofWords 0 0 0) .zero rfl).eq hknown rfl
  exact absurd hnil (by decide)

end Icarus.Vvp
