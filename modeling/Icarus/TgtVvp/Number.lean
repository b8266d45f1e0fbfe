import Icarus.Vvp.Planes.Concat

/-!
# Immediate operands

The instructions that put literals on the stack of vectors: two words with the
bit planes of a vector, and its width. The words are printed whole, and the
thread has 32 bits for each.
-/

namespace Icarus.TgtVvp

open Icarus.Vvp

/-- The instructions that push and join immediate vectors, with the operands that are printed. -/
inductive Instr
  /-- `%pushi/vec4`. -/
  | pushi (val0 valx : BitVec 64) (wid : Nat)
  /-- `%concati/vec4`. -/
  | concati (val0 valx : BitVec 64) (wid : Nat)
  /-- `%concat/vec4`. -/
  | concat
  deriving DecidableEq

/-- No operand needs more than 32 bits. -/
def Instr.Narrow : Instr → Prop
  | .pushi val0 valx wid => val0.toNat < 2 ^ 32 ∧ valx.toNat < 2 ^ 32 ∧ wid < 2 ^ 32
  | .concati val0 valx wid => val0.toNat < 2 ^ 32 ∧ valx.toNat < 2 ^ 32 ∧ wid < 2 ^ 32
  | .concat => True

/-- The vector of two operands as the thread has them in `bit_idx`. -/
def ofImmediate (val0 valx : BitVec 64) (wid : Nat) : Planes :=
  Planes.ofWords (wid % 2 ^ 32) ((val0.setWidth 32).setWidth 64) ((valx.setWidth 32).setWidth 64)

/-- `of_PUSHI_VEC4`, `of_CONCATI_VEC4` and `of_CONCAT_VEC4`; the top of the stack comes first. -/
def Instr.exec (undef : BitVec 64 → Nat → BitVec 64) : Instr → List Planes → Option (List Planes)
  | .pushi val0 valx wid, stack => some (ofImmediate val0 valx wid :: stack)
  | .concati val0 valx wid, msb :: stack =>
    (msb.concat undef (ofImmediate val0 valx wid)).map (· :: stack)
  | .concat, lsb :: msb :: stack => (msb.concat undef lsb).map (· :: stack)
  | _, _ => none

/-- The instructions of a list, one after the other. -/
def execAll (undef : BitVec 64 → Nat → BitVec 64) (code : List Instr) (stack : List Planes) :
    Option (List Planes) :=
  code.foldlM (fun stack instr => instr.exec undef stack) stack

/-! ## Instructions on lists of bits -/

/-- The bits of two operands. -/
def immediate (val0 valx : BitVec 64) (wid : Nat) : Vector4 :=
  (List.range (wid % 2 ^ 32)).map fun i =>
    bitOf ((val0.setWidth 32).getLsbD i) ((valx.setWidth 32).getLsbD i)

/-- An instruction on a stack of lists of bits. -/
def Instr.step : Instr → List Vector4 → Option (List Vector4)
  | .pushi val0 valx wid, stack => some (immediate val0 valx wid :: stack)
  | .concati val0 valx wid, msb :: stack => some ((immediate val0 valx wid ++ msb) :: stack)
  | .concat, lsb :: msb :: stack => some ((lsb ++ msb) :: stack)
  | _, _ => none

/-- A list of instructions on a stack of lists of bits. -/
def steps (code : List Instr) (stack : List Vector4) : Option (List Vector4) :=
  code.foldlM (fun stack instr => instr.step stack) stack

theorem steps_append (code more : List Instr) (stack : List Vector4) :
    steps (code ++ more) stack = (steps code stack).bind (steps more) := List.foldlM_append

@[simp] theorem steps_singleton (instr : Instr) (stack : List Vector4) :
    steps [instr] stack = instr.step stack := by
  rw [steps, List.foldlM_cons]
  cases instr.step stack <;> rfl

/-- The bits of the constructor from words. -/
theorem toVector4_ofWords (size : Nat) (aval bval : BitVec 64) :
    (Planes.ofWords size aval bval).toVector4 =
      (List.range size).map fun i => bitOf (aval.getLsbD i) (bval.getLsbD i) := by
  refine List.map_congr_left fun idx hidx => ?_
  have hlt : idx < size := List.mem_range.mp hidx
  obtain ⟨mask, hmask⟩ : ∃ mask, mask = if size < 64 then lowMask size else BitVec.allOnes 64 :=
    ⟨_, rfl⟩
  have hplane : ∀ word : BitVec 64,
      planeBit ((List.replicate (planeWords size) 0).set 0 (word &&& mask)) idx =
        word.getLsbD idx := by
    intro word
    rw [planeBit_set (by rw [List.length_replicate]; exact planeWords_pos size)]
    split_ifs with hfirst
    · have hshort : idx < 64 := by omega
      rw [Nat.mod_eq_of_lt hshort, BitVec.getLsbD_and, hmask]
      split_ifs with hsize
      · rw [getLsbD_lowMask hsize, decide_eq_true hlt, Bool.and_true]
      · rw [BitVec.getLsbD_allOnes, decide_eq_true hshort, Bool.and_true]
    · have hle := le_planeWords size
      rw [planeBit_replicate (by omega), BitVec.getLsbD_of_ge word idx (by omega)]
      simp
  rw [Planes.value_of_lt hlt]
  congr 1
  · rw [← hplane aval, hmask]
    rfl
  · rw [← hplane bval, hmask]
    rfl

theorem toVector4_ofImmediate (val0 valx : BitVec 64) (wid : Nat) :
    (ofImmediate val0 valx wid).toVector4 = immediate val0 valx wid := by
  rw [ofImmediate, toVector4_ofWords, immediate]
  refine List.map_congr_left fun i _ => ?_
  have hword : ∀ word : BitVec 64, ((word.setWidth 32).setWidth 64).getLsbD i =
      (word.setWidth 32).getLsbD i := by
    intro word
    rw [BitVec.getLsbD_setWidth]
    by_cases hi : i < 64
    · rw [decide_eq_true hi, Bool.true_and]
    · rw [BitVec.getLsbD_of_ge _ i (by omega), Bool.and_false]
  rw [hword, hword]

/-- The thread does with its vectors what is done with their bits. -/
theorem Instr.exec_eq (undef : BitVec 64 → Nat → BitVec 64) (instr : Instr) (stack : List Planes) :
    (instr.exec undef stack).map (List.map Planes.toVector4) =
      instr.step (stack.map Planes.toVector4) := by
  cases instr with
  | pushi val0 valx wid =>
    rw [exec, step, Option.map_some, List.map_cons, toVector4_ofImmediate]
  | concati val0 valx wid =>
    cases stack with
    | nil => rfl
    | cons msb stack =>
      obtain ⟨r, hr, hbits⟩ := Planes.toVector4_concat undef msb (ofImmediate val0 valx wid)
      rw [exec, hr, List.map_cons, step, ← toVector4_ofImmediate, ← hbits]
      rfl
  | concat =>
    match stack with
    | [] => rfl
    | [_] => rfl
    | lsb :: msb :: stack =>
      obtain ⟨r, hr, hbits⟩ := Planes.toVector4_concat undef msb lsb
      rw [exec, hr, List.map_cons, List.map_cons, step, ← hbits]
      rfl

/-- So does every list of instructions. -/
theorem execAll_eq (undef : BitVec 64 → Nat → BitVec 64) (code : List Instr)
    (stack : List Planes) :
    (execAll undef code stack).map (List.map Planes.toVector4) =
      steps code (stack.map Planes.toVector4) := by
  induction code generalizing stack with
  | nil => rfl
  | cons instr code ih =>
    rw [execAll, List.foldlM_cons, steps, List.foldlM_cons, ← instr.exec_eq undef]
    cases instr.exec undef stack with
    | none => rfl
    | some stack' => exact ih stack'

/-! ## Planes as numbers -/

/-- The bit of the first plane. -/
def aBit (b : Bit4) : Bool := b = .one ∨ b = .x

/-- The bit of the second plane. -/
def bBit (b : Bit4) : Bool := b = .x ∨ b = .z

/-- The number of a plane. -/
def planeNat (plane : Bit4 → Bool) : Vector4 → Nat
  | [] => 0
  | b :: v => 2 * planeNat plane v + (plane b).toNat

theorem bitOf_planes (b : Bit4) : bitOf (aBit b) (bBit b) = b := by
  cases b <;> rfl

theorem testBit_planeNat (plane : Bit4 → Bool) (v : Vector4) (i : Nat) :
    (planeNat plane v).testBit i = ((v[i]?).map plane).getD false := by
  induction v generalizing i with
  | nil => rw [planeNat, Nat.zero_testBit, List.getElem?_nil]; rfl
  | cons b v ih =>
    have hlt : (plane b).toNat < 2 := Bool.toNat_lt _
    cases i with
    | zero =>
      rw [planeNat, Nat.testBit_zero, Nat.mul_add_mod, Nat.mod_eq_of_lt hlt,
        List.getElem?_cons_zero, Option.map_some, Option.getD_some]
      cases plane b <;> rfl
    | succ i =>
      rw [planeNat, Nat.testBit_add_one, Nat.mul_add_div (by omega), Nat.div_eq_of_lt hlt,
        Nat.add_zero, ih, List.getElem?_cons_succ]

/-- The numbers of two planes together. -/
theorem planeNat_or (f g : Bit4 → Bool) (v : Vector4) :
    planeNat f v ||| planeNat g v = planeNat (fun b => f b || g b) v := by
  refine Nat.eq_of_testBit_eq fun i => ?_
  rw [Nat.testBit_or, testBit_planeNat, testBit_planeNat, testBit_planeNat]
  cases v[i]? <;> rfl

/-- A vector whose planes fit in 32 bits is that of its operands. -/
theorem immediate_eq {v : Vector4} {val0 valx : BitVec 64} (h0 : val0.toNat = planeNat aBit v)
    (hx : valx.toNat = planeNat bBit v) (h0lt : val0.toNat < 2 ^ 32) (hxlt : valx.toNat < 2 ^ 32)
    (hlen : v.length < 2 ^ 32) : immediate val0 valx v.length = v := by
  have hbit : ∀ (word : BitVec 64) (plane : Bit4 → Bool), word.toNat = planeNat plane v →
      word.toNat < 2 ^ 32 → ∀ i, (word.setWidth 32).getLsbD i = ((v[i]?).map plane).getD false := by
    intro word plane hword hlt i
    rw [← testBit_planeNat, ← hword, ← BitVec.testBit_toNat, BitVec.toNat_setWidth,
      Nat.mod_eq_of_lt hlt]
  refine List.ext_getElem? fun i => ?_
  rw [immediate, Nat.mod_eq_of_lt hlen, List.getElem?_map]
  by_cases hi : i < v.length
  · rw [List.getElem?_range hi, Option.map_some, hbit val0 aBit h0 h0lt, hbit valx bBit hx hxlt,
      List.getElem?_eq_getElem hi, Option.map_some, Option.map_some, Option.getD_some,
      Option.getD_some, bitOf_planes]
  · have hout : (List.range v.length)[i]? = none :=
      List.getElem?_eq_none (by rw [List.length_range]; omega)
    rw [hout, List.getElem?_eq_none (by omega), Option.map_none]

/-! ## Literal numbers

`draw_concat_number_vec4` reads the bits of a literal from the highest on, and
writes them out as soon as the operands are full. Leading zeros take no place, so
an instruction may have more bits than its operands. -/

/-- The variables of `draw_concat_number_vec4`, and what is written. -/
structure DrawNumber where
  /-- `val0`. -/
  val0 : BitVec 64
  /-- `valx`. -/
  valx : BitVec 64
  /-- `accum`. -/
  accum : Nat
  /-- `count_pushi`. -/
  countPushi : Nat
  /-- The instructions written. -/
  out : List Instr

/-- The first instruction pushes, the others append. -/
def DrawNumber.instr (countPushi : Nat) (val0 valx : BitVec 64) (accum : Nat) : Instr :=
  if countPushi ≠ 0 then .concati val0 valx accum else .pushi val0 valx accum

/-- The body of the loop for a bit; `accum` is a signed integer. -/
def DrawNumber.bit (s : DrawNumber) (b : Bit4) : Option DrawNumber :=
  let val0 := (s.val0 <<< 1) ||| (if aBit b then 1 else 0)
  let valx := (s.valx <<< 1) ||| (if bBit b then 1 else 0)
  if s.accum + 1 < 2 ^ 31 then
    let accum := s.accum + 1
    if (val0 ||| valx) &&& 0x80000000 ≠ 0 then
      some { val0 := 0, valx := 0, accum := 0, countPushi := s.countPushi + 1
             out := s.out ++ [instr s.countPushi val0 valx accum] }
    else some { s with val0 := val0, valx := valx, accum := accum }
  else none

/-- `draw_concat_number_vec4`. -/
def drawConcatNumber (bits : Vector4) (asConcati : Bool) : Option (List Instr) :=
  (bits.reverse.foldlM DrawNumber.bit ⟨0, 0, 0, if asConcati then 1 else 0, []⟩).map fun s =>
    if s.accum ≠ 0 then s.out ++ [DrawNumber.instr s.countPushi s.val0 s.valx s.accum] else s.out

/-- The bits counted from the first that is not 0. -/
def countBit (counted : Nat) (b : Bit4) : Nat :=
  if counted = 0 ∧ b = .zero then 0 else counted + 1

/-- A literal is cut, from its highest bit on, behind the 32nd bit counted from the first of a part
that is not 0; no part has as many bits as an integer counts. The numbers are the bits of the part so
far, and those counted. -/
def ShortParts : Nat → Nat → List Bit4 → Prop
  | _, _, [] => True
  | part, counted, b :: bits =>
    part + 1 < 2 ^ 31 ∧ if countBit counted b = 32 then ShortParts 0 0 bits
      else ShortParts (part + 1) (countBit counted b) bits

/-- Literals that an integer counts have short parts. -/
theorem shortParts_of_length {part counted : Nat} {bits : List Bit4}
    (h : part + bits.length < 2 ^ 31) : ShortParts part counted bits := by
  induction bits generalizing part counted with
  | nil => trivial
  | cons b bits ih =>
    rw [List.length_cons] at h
    refine ⟨by omega, ?_⟩
    split_ifs
    · exact ih (by omega)
    · exact ih (by omega)

/-! ## What is on the stack -/

/-- The bits that are not 0, as a number. -/
def setNat : Vector4 → Nat := planeNat fun b => aBit b || bBit b

/-- What was written leaves the bits above a part on the stack, and the operands have the part. -/
structure Drawn (start : List Vector4) (top : Vector4) (rest : List Vector4) (above part : Vector4)
    (counted : Nat) (s : DrawNumber) : Prop where
  /-- The instructions written. -/
  run : steps s.out start = some (if s.countPushi = 0 then start else (above ++ top) :: rest)
  /-- Nothing is written yet. -/
  first : s.countPushi = 0 → above = [] ∧ top = [] ∧ rest = start
  /-- The first plane. -/
  val0 : s.val0.toNat = planeNat aBit part
  /-- The second plane. -/
  valx : s.valx.toNat = planeNat bBit part
  /-- The number of bits. -/
  accum : s.accum = part.length
  /-- An integer holds it. -/
  length : part.length < 2 ^ 31
  /-- The bits from the first that is not 0. -/
  counted : counted < 32 ∧ setNat part < 2 ^ counted ∧ (counted ≠ 0 → 2 ^ (counted - 1) ≤ setNat part)
  /-- Operands of 32 bits. -/
  narrow : ∀ instr ∈ s.out, instr.Narrow

section Drawn

variable {start rest : List Vector4} {top above part : Vector4} {counted : Nat} {s : DrawNumber}

/-- A plane has no bits that the number of all does not have. -/
theorem planeNat_le_setNat (v : Vector4) :
    planeNat aBit v ≤ setNat v ∧ planeNat bBit v ≤ setNat v := by
  rw [setNat, ← planeNat_or]
  exact ⟨Nat.left_le_or, Nat.right_le_or⟩

/-- The operands are written out. -/
theorem Drawn.emit (h : Drawn start top rest above part counted s) {val0 valx : BitVec 64}
    {v : Vector4} (h0 : val0.toNat = planeNat aBit v) (hx : valx.toNat = planeNat bBit v)
    (hset : setNat v < 2 ^ 32) (hlen : v.length < 2 ^ 31) :
    steps (s.out ++ [DrawNumber.instr s.countPushi val0 valx v.length]) start =
        some ((v ++ above ++ top) :: rest) ∧
      ∀ instr ∈ s.out ++ [DrawNumber.instr s.countPushi val0 valx v.length], instr.Narrow := by
  obtain ⟨hle0, hlex⟩ := planeNat_le_setNat v
  have himm := immediate_eq h0 hx (by omega) (by omega) (by omega)
  constructor
  · rw [steps_append, h.run, Option.bind_some, steps_singleton, DrawNumber.instr]
    by_cases hcount : s.countPushi = 0
    · obtain ⟨rfl, rfl, rfl⟩ := h.first hcount
      rw [if_pos hcount, if_neg (not_not.mpr hcount), Instr.step, himm, List.append_nil,
        List.append_nil]
    · rw [if_neg hcount, if_pos hcount, Instr.step, himm, List.append_assoc]
  · intro instr hinstr
    rcases List.mem_append.mp hinstr with hin | hin
    · exact h.narrow instr hin
    · rw [List.mem_singleton.mp hin, DrawNumber.instr]
      split_ifs
      · exact ⟨by omega, by omega, by omega⟩
      · exact ⟨by omega, by omega, by omega⟩

/-- A bit shifted into a word. -/
private theorem toNat_shift_or {word : BitVec 64} {n : Nat} (hword : word.toNat = n)
    (hlt : n < 2 ^ 32) (b : Bool) :
    ((word <<< 1) ||| (if b then 1 else 0)).toNat = 2 * n + b.toNat := by
  have hbit : (if b then (1 : BitVec 64) else 0).toNat = b.toNat := by cases b <;> rfl
  have hshift : word.toNat <<< 1 % 2 ^ 64 = 2 ^ 1 * n := by
    rw [hword, Nat.shiftLeft_eq]
    omega
  rw [BitVec.toNat_or, BitVec.toNat_shiftLeft, hshift, hbit,
    ← Nat.two_pow_add_eq_or_of_lt (Bool.toNat_lt b)]

/-- The highest of 32 bits. -/
private theorem and_top_ne_zero {word : BitVec 64} (hlt : word.toNat < 2 ^ 32) :
    word &&& 0x80000000 ≠ 0 ↔ 2 ^ 31 ≤ word.toNat := by
  have htop : (0x80000000 : BitVec 64).toNat = 2 ^ 31 := rfl
  have hand : (word &&& 0x80000000).toNat = word.toNat / 2 ^ 31 * 2 ^ 31 := by
    rw [BitVec.toNat_and, htop, Nat.and_two_pow, Nat.testBit_eq_decide_div_mod_eq]
    have hle : word.toNat / 2 ^ 31 ≤ 1 := by omega
    rcases Nat.le_one_iff_eq_zero_or_eq_one.mp hle with h | h <;> rw [h] <;> rfl
  rw [Ne, ← BitVec.toNat_inj, hand, show (0 : BitVec 64).toNat = 0 from rfl]
  omega

/-- The number of the bits that are not 0, with one bit more. -/
private theorem setNat_cons {b : Bit4} {v : Vector4}
    (h : counted < 32 ∧ setNat v < 2 ^ counted ∧ (counted ≠ 0 → 2 ^ (counted - 1) ≤ setNat v)) :
    countBit counted b ≤ 32 ∧ setNat (b :: v) < 2 ^ countBit counted b ∧
      (countBit counted b ≠ 0 → 2 ^ (countBit counted b - 1) ≤ setNat (b :: v)) := by
  obtain ⟨hlt, hup, hlow⟩ := h
  have hcons : setNat (b :: v) = 2 * setNat v + (aBit b || bBit b).toNat := rfl
  have hbit : (aBit b || bBit b).toNat = if b = .zero then 0 else 1 := by cases b <;> rfl
  rw [hcons, hbit, countBit]
  by_cases hzero : counted = 0
  · subst hzero
    have hnone : setNat v = 0 := by
      rw [pow_zero] at hup
      omega
    rw [hnone]
    by_cases hb : b = .zero
    · simp [hb]
    · simp [hb]
  · rw [if_neg fun h => hzero h.1, pow_succ]
    have hprev := hlow hzero
    have hpow : 2 ^ counted = 2 * 2 ^ (counted - 1) := by
      rw [← pow_succ', Nat.sub_add_cancel (Nat.pos_of_ne_zero hzero)]
    rw [Nat.add_sub_cancel]
    refine ⟨by omega, ?_, fun _ => ?_⟩ <;> split_ifs <;> omega

/-- One bit is drawn, unless the part is too long. -/
theorem Drawn.bit (h : Drawn start top rest above part counted s) (b : Bit4) :
    (part.length + 1 < 2 ^ 31 → ∃ s', s.bit b = some s' ∧
      (countBit counted b = 32 → Drawn start top rest (b :: part ++ above) [] 0 s') ∧
      (countBit counted b ≠ 32 → Drawn start top rest above (b :: part) (countBit counted b) s')) ∧
    (¬ part.length + 1 < 2 ^ 31 → s.bit b = none) := by
  obtain ⟨hle, hup, hlow⟩ := setNat_cons (b := b) h.counted
  have hbound : setNat part < 2 ^ 32 := Nat.lt_of_lt_of_le h.counted.2.1
    (Nat.pow_le_pow_right (by omega) (Nat.le_of_lt h.counted.1))
  have hbound' : setNat (b :: part) < 2 ^ 32 :=
    Nat.lt_of_lt_of_le hup (Nat.pow_le_pow_right (by omega) hle)
  obtain ⟨hle0, hlex⟩ := planeNat_le_setNat part
  obtain ⟨val0, hval0⟩ : ∃ w, w = (s.val0 <<< 1) ||| (if aBit b then (1 : BitVec 64) else 0) :=
    ⟨_, rfl⟩
  obtain ⟨valx, hvalx⟩ : ∃ w, w = (s.valx <<< 1) ||| (if bBit b then (1 : BitVec 64) else 0) :=
    ⟨_, rfl⟩
  have h0 : val0.toNat = planeNat aBit (b :: part) :=
    hval0 ▸ toNat_shift_or h.val0 (by omega) (aBit b)
  have hx : valx.toNat = planeNat bBit (b :: part) :=
    hvalx ▸ toNat_shift_or h.valx (by omega) (bBit b)
  have hor : (val0 ||| valx).toNat = setNat (b :: part) := by
    rw [BitVec.toNat_or, h0, hx, planeNat_or]
    rfl
  have htop : (val0 ||| valx) &&& 0x80000000 ≠ 0 ↔ countBit counted b = 32 := by
    rw [and_top_ne_zero (hor ▸ hbound'), hor]
    constructor
    · intro hge
      by_contra hne
      have hsmall : 2 ^ countBit counted b ≤ 2 ^ 31 := Nat.pow_le_pow_right (by omega) (by omega)
      omega
    · intro heq
      have hge := hlow (by omega)
      rwa [heq] at hge
  rw [DrawNumber.bit, ← hval0, ← hvalx, h.accum]
  constructor
  · intro hlen
    dsimp only
    rw [if_pos hlen]
    by_cases hfull : countBit counted b = 32
    · rw [if_pos (htop.mpr hfull)]
      refine ⟨_, rfl, fun _ => ?_, fun hne => absurd hfull hne⟩
      obtain ⟨hrun, hnarrow⟩ := h.emit h0 hx hbound' hlen
      refine ⟨?_, fun hcount => absurd hcount (Nat.succ_ne_zero _), rfl, rfl, rfl, by simp,
        ⟨by omega, by simp [setNat, planeNat], fun hne => absurd rfl hne⟩, hnarrow⟩
      rw [if_neg (Nat.succ_ne_zero _)]
      exact hrun
    · rw [if_neg fun hset => hfull (htop.mp hset)]
      refine ⟨_, rfl, fun heq => absurd heq hfull, fun _ => ?_⟩
      exact ⟨h.run, h.first, h0, hx, rfl, hlen, ⟨by omega, hup, hlow⟩, h.narrow⟩
  · intro hlen
    exact if_neg hlen

/-- All bits are drawn, unless a part is too long. -/
theorem Drawn.bits (bits : List Bit4) (h : Drawn start top rest above part counted s) :
    (ShortParts part.length counted bits → ∃ s' above' part' counted',
      bits.foldlM DrawNumber.bit s = some s' ∧ Drawn start top rest above' part' counted' s' ∧
        part' ++ above' = bits.reverse ++ (part ++ above)) ∧
    (¬ ShortParts part.length counted bits → bits.foldlM DrawNumber.bit s = none) := by
  induction bits generalizing above part counted s with
  | nil =>
    exact ⟨fun _ => ⟨s, above, part, counted, rfl, h, rfl⟩, fun hnot => absurd trivial hnot⟩
  | cons b bits ih =>
    obtain ⟨hgo, hstop⟩ := h.bit b
    rw [List.foldlM_cons, ShortParts]
    by_cases hlen : part.length + 1 < 2 ^ 31
    · obtain ⟨s', hs', hflush, hkeep⟩ := hgo hlen
      rw [hs']
      change (_ → ∃ s'' above' part' counted', bits.foldlM DrawNumber.bit s' = some s'' ∧ _) ∧
        (_ → bits.foldlM DrawNumber.bit s' = none)
      rw [List.reverse_cons, List.append_assoc, List.singleton_append]
      by_cases hfull : countBit counted b = 32
      · rw [if_pos hfull]
        obtain ⟨hall, hnone⟩ := ih (hflush hfull)
        exact ⟨fun hshort => hall hshort.2, fun hnot => hnone fun hshort => hnot ⟨hlen, hshort⟩⟩
      · rw [if_neg hfull]
        obtain ⟨hall, hnone⟩ := ih (hkeep hfull)
        exact ⟨fun hshort => hall hshort.2, fun hnot => hnone fun hshort => hnot ⟨hlen, hshort⟩⟩
    · rw [hstop hlen]
      exact ⟨fun hshort => absurd hshort.1 hlen, fun _ => rfl⟩

end Drawn

/-! ## The literal -/

/-- A literal on a stack: appended below the top, or pushed. -/
def drawnStack (bits : Vector4) : Bool → List Vector4 → List Vector4
  | true, msb :: rest => (bits ++ msb) :: rest
  | _, stack => bits :: stack

/-- What is drawn leaves the bits on the stack, and no operand needs more than 32 bits. -/
def Draws (undef : BitVec 64 → Nat → BitVec 64) (code : List Instr) (bits : Vector4)
    (append : Bool) (stack : List Planes) : Prop :=
  (∃ stack', execAll undef code stack = some stack' ∧
    stack'.map Planes.toVector4 = drawnStack bits append (stack.map Planes.toVector4)) ∧
  ∀ instr ∈ code, instr.Narrow

/-- The execution on lists of bits is enough. -/
theorem draws_of_steps (undef : BitVec 64 → Nat → BitVec 64) {code : List Instr} {bits : Vector4}
    {append : Bool} {stack : List Planes}
    (hrun : steps code (stack.map Planes.toVector4) =
      some (drawnStack bits append (stack.map Planes.toVector4)))
    (hnarrow : ∀ instr ∈ code, instr.Narrow) : Draws undef code bits append stack := by
  rw [← execAll_eq undef] at hrun
  obtain ⟨stack', hexec, hbits⟩ := Option.map_eq_some_iff.mp hrun
  exact ⟨⟨stack', hexec, hbits⟩, hnarrow⟩

/-- A number is drawn exactly if no part of it is longer than an integer counts. -/
theorem drawConcatNumber_iff (undef : BitVec 64 → Nat → BitVec 64) {bits : Vector4}
    (hne : bits ≠ []) {asConcati : Bool} {stack : List Planes}
    (hstack : asConcati = true → stack ≠ []) :
    (∃ code, drawConcatNumber bits asConcati = some code ∧ Draws undef code bits asConcati stack) ↔
      ShortParts 0 0 bits.reverse := by
  obtain ⟨start, hstart⟩ : ∃ start, start = stack.map Planes.toVector4 := ⟨_, rfl⟩
  -- the vector that the literal is appended to, and what is below it
  obtain ⟨top, rest, hsplit⟩ : ∃ top rest,
      (asConcati = true → start = top :: rest) ∧ (asConcati = false → top = [] ∧ rest = start) := by
    cases asConcati with
    | true =>
      obtain ⟨msb, rest, hcons⟩ := List.exists_cons_of_ne_nil (hstack rfl)
      refine ⟨msb.toVector4, rest.map Planes.toVector4, fun _ => ?_, fun h => absurd h (by decide)⟩
      rw [hstart, hcons, List.map_cons]
    | false => exact ⟨[], start, fun h => absurd h (by decide), fun _ => ⟨rfl, rfl⟩⟩
  have hfirst : Drawn start top rest [] [] 0 ⟨0, 0, 0, if asConcati then 1 else 0, []⟩ := by
    refine ⟨?_, ?_, rfl, rfl, rfl, by simp, ⟨by omega, by simp [setNat, planeNat],
      fun h => absurd rfl h⟩, fun instr h => absurd h List.not_mem_nil⟩
    · cases asConcati with
      | true =>
        rw [hsplit.1 rfl]
        rfl
      | false => rfl
    · cases asConcati with
      | true => exact fun h => absurd h (by decide)
      | false => exact fun _ => ⟨rfl, hsplit.2 rfl⟩
  have hstackeq : (bits ++ top) :: rest = drawnStack bits asConcati start := by
    cases asConcati with
    | true =>
      rw [hsplit.1 rfl]
      rfl
    | false =>
      obtain ⟨htop, hrest⟩ := hsplit.2 rfl
      rw [htop, hrest, List.append_nil]
      rfl
  obtain ⟨hgo, hstop⟩ := hfirst.bits bits.reverse
  rw [List.length_nil, List.reverse_reverse, List.append_nil, List.append_nil] at hgo
  rw [List.length_nil] at hstop
  constructor
  · rintro ⟨code, hcode, -⟩
    by_contra hnot
    rw [drawConcatNumber, hstop hnot] at hcode
    exact absurd hcode (by simp)
  · intro hshort
    obtain ⟨s, above, part, counted, hrun, hdrawn, hbits⟩ := hgo hshort
    rw [drawConcatNumber, hrun]
    refine ⟨_, rfl, ?_⟩
    dsimp only
    by_cases hpart : s.accum = 0
    · have hnil : part = [] := List.eq_nil_of_length_eq_zero (hdrawn.accum ▸ hpart)
      have habove : above = bits := by rw [← hbits, hnil, List.nil_append]
      have hcount : s.countPushi ≠ 0 := by
        intro hzero
        exact hne (habove ▸ (hdrawn.first hzero).1)
      rw [if_neg (not_not.mpr hpart)]
      have hsteps := hdrawn.run
      rw [if_neg hcount, habove, hstackeq, hstart] at hsteps
      exact draws_of_steps undef hsteps hdrawn.narrow
    · have hset : setNat part < 2 ^ 32 := Nat.lt_of_lt_of_le hdrawn.counted.2.1
        (Nat.pow_le_pow_right (by omega) (Nat.le_of_lt hdrawn.counted.1))
      obtain ⟨hsteps, hnarrow⟩ := hdrawn.emit hdrawn.val0 hdrawn.valx hset hdrawn.length
      rw [if_pos hpart]
      rw [← hdrawn.accum] at hsteps hnarrow
      rw [hbits, hstackeq, hstart] at hsteps
      exact draws_of_steps undef hsteps hnarrow

end Icarus.TgtVvp
