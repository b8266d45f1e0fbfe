import Icarus.Vvp.Planes.Slice

/-!
# Strengths dropped

`reduce4` makes a `vvp_vector4_t` of a vector of scalars. Plain bits are decoded from the bytes
into the words; a byte that is not plain leaves the vector to a loop over the bits.
-/

namespace Icarus.Vvp

open Icarus.Core

/-- `vvp_vector8_t` as it is stored: the bytes of its scalars, in place (`val_`) up to eight, and
else in an array (`ptr_`). -/
structure ScalarBytes where
  /-- `size_`. -/
  size : Nat
  /-- `val_` or `ptr_`. -/
  bytes : List (BitVec 8)
  /-- A short vector has all of its bytes in place. -/
  length_bytes : bytes.length = if size ≤ 8 then 8 else size

/-- The scalar of a byte, `value_`. -/
def Scalar.ofByte (b : BitVec 8) : Scalar :=
  ⟨⟨b.getLsbD 7, (b.extractLsb' 4 3).toFin⟩, ⟨b.getLsbD 3, (b.extractLsb' 0 3).toFin⟩⟩

/-- `vvp_scalar_t::value` of a byte. -/
def byteValue (b : BitVec 8) : Bit4 :=
  if b &&& 0x77 = 0 then .z
  else if b &&& 0x88 = 0 then .zero
  else if b &&& 0x88 = 0x88 then .one
  else .x

/-- The halves of a byte are those of the scalar. -/
theorem byteValue_eq (b : BitVec 8) : byteValue b = (Scalar.ofByte b).value := by
  revert b
  decide

/-- The bit of a byte that the fast path decodes; nothing where the byte is HiZ or ambiguous. -/
def plainByte (b : BitVec 8) : Option Bool :=
  if b &&& 0x77 = 0 then none
  else if b &&& 0x88 = 0x88 then some true
  else if b &&& 0x88 ≠ 0 then none
  else some false

theorem byteValue_of_plainByte {b : BitVec 8} {bit : Bool} (h : plainByte b = some bit) :
    byteValue b = bitOf bit false := by
  unfold plainByte at h
  unfold byteValue
  split_ifs at h ⊢ with hhiz hone hzero
  · rw [hone] at hzero
    exact absurd hzero (by decide)
  · rw [← Option.some.inj h]
    rfl
  · rw [← Option.some.inj h]
    rfl

/-- The loop of the fast path over the bits of a word. -/
def plainWord (bytes : List (BitVec 8)) (ab : BitVec 64) : List Nat → Option (BitVec 64)
  | [] => some ab
  | idx :: rest =>
    match plainByte (bytes.getD idx 0) with
    | none => none
    | some bit => plainWord bytes (if bit then ab ||| (1 : BitVec 64) <<< idx else ab) rest

/-- The loop over the bits of several words; false where it gave up, with the words so far. -/
def plainWords (bytes : List (BitVec 8)) (plane : List (BitVec 64)) :
    List Nat → Bool × List (BitVec 64)
  | [] => (true, plane)
  | idx :: rest =>
    match plainByte (bytes.getD idx 0) with
    | none => (false, plane)
    | some bit =>
      plainWords bytes
        (if bit then plane.set (idx / 64) (plane.getD (idx / 64) 0 ||| (1 : BitVec 64) <<< (idx % 64))
        else plane) rest

theorem length_plainWords (bytes : List (BitVec 8)) (plane : List (BitVec 64)) (l : List Nat) :
    (plainWords bytes plane l).2.length = plane.length := by
  induction l generalizing plane with
  | nil => rfl
  | cons idx rest ih =>
    rw [plainWords]
    cases plainByte (bytes.getD idx 0) with
    | none => rfl
    | some bit =>
      cases bit with
      | false => exact ih plane
      | true => exact (ih _).trans List.length_set

/-- A bit of a plane that is set. -/
theorem planeBit_setOne {plane : List (BitVec 64)} {idx : Nat} (h : idx / 64 < plane.length)
    (j : Nat) :
    planeBit (plane.set (idx / 64) (plane.getD (idx / 64) 0 ||| (1 : BitVec 64) <<< (idx % 64))) j =
      (planeBit plane j || decide (j = idx)) := by
  have hi : j % 64 < 64 := Nat.mod_lt j (by omega)
  rw [planeBit_set h]
  by_cases hword : j / 64 = idx / 64
  · rw [if_pos hword, BitVec.getLsbD_or, getLsbD_one_shiftLeft, decide_eq_true hi, Bool.true_and,
      planeBit_eq, hword]
    congr 1
    exact decide_eq_decide.mpr (by omega)
  · rw [if_neg hword, decide_eq_false fun heq => hword (by rw [heq]), Bool.or_false]

/-- The loop over one word is the loop over several. -/
theorem plainWord_eq (bytes : List (BitVec 8)) (ab : BitVec 64) {l : List Nat}
    (hl : ∀ idx ∈ l, idx < 64) {word : BitVec 64} (h : plainWord bytes ab l = some word) :
    plainWords bytes [ab] l = (true, [word]) := by
  induction l generalizing ab with
  | nil => rw [plainWords, ← Option.some.inj h]
  | cons idx rest ih =>
    have hidx := hl idx List.mem_cons_self
    have hrest : ∀ i ∈ rest, i < 64 := fun i hi => hl i (List.mem_cons_of_mem idx hi)
    rw [plainWord] at h
    rw [plainWords]
    cases hbit : plainByte (bytes.getD idx 0) with
    | none =>
      rw [hbit] at h
      exact absurd h (Option.some_ne_none word).symm
    | some bit =>
      rw [hbit] at h
      rw [Nat.div_eq_of_lt hidx, Nat.mod_eq_of_lt hidx]
      cases bit with
      | false => exact ih ab hrest h
      | true => exact ih _ hrest h

/-- Where the loop does not give up, every byte was plain, and its bits are set in the plane. -/
theorem plainWords_spec (bytes : List (BitVec 8)) {plane result : List (BitVec 64)}
    {l : List Nat} (hl : ∀ idx ∈ l, idx / 64 < plane.length)
    (h : plainWords bytes plane l = (true, result)) (j : Nat) :
    (j ∈ l → ∃ bit, plainByte (bytes.getD j 0) = some bit) ∧
      planeBit result j = (planeBit plane j ||
        decide (j ∈ l ∧ plainByte (bytes.getD j 0) = some true)) := by
  induction l generalizing plane with
  | nil =>
    rw [plainWords, Prod.mk.injEq] at h
    rw [← h.2]
    exact ⟨fun hj => absurd hj List.not_mem_nil, by simp⟩
  | cons idx rest ih =>
    rw [plainWords] at h
    cases hbit : plainByte (bytes.getD idx 0) with
    | none =>
      rw [hbit] at h
      exact absurd (congrArg Prod.fst h) Bool.false_ne_true
    | some bit =>
      rw [hbit] at h
      have hidx := hl idx List.mem_cons_self
      have hrest : ∀ i ∈ rest, i / 64 < plane.length :=
        fun i hi => hl i (List.mem_cons_of_mem idx hi)
      cases bit with
      | false =>
        obtain ⟨hplain, hvalue⟩ := ih hrest h
        refine ⟨fun hj => ?_, ?_⟩
        · rcases List.mem_cons.mp hj with rfl | hj
          · exact ⟨false, hbit⟩
          · exact hplain hj
        · rw [hvalue]
          congr 1
          refine decide_eq_decide.mpr ⟨fun hj => ⟨List.mem_cons_of_mem idx hj.1, hj.2⟩, fun hj => ?_⟩
          rcases List.mem_cons.mp hj.1 with rfl | hmem
          · rw [hbit] at hj
            exact absurd (Option.some.inj hj.2) Bool.false_ne_true
          · exact ⟨hmem, hj.2⟩
      | true =>
        have hset : ∀ i ∈ rest, i / 64 < (plane.set (idx / 64)
            (plane.getD (idx / 64) 0 ||| (1 : BitVec 64) <<< (idx % 64))).length := by
          rw [List.length_set]
          exact hrest
        obtain ⟨hplain, hvalue⟩ := ih hset h
        refine ⟨fun hj => ?_, ?_⟩
        · rcases List.mem_cons.mp hj with rfl | hj
          · exact ⟨true, hbit⟩
          · exact hplain hj
        · rw [hvalue, planeBit_setOne hidx, Bool.or_assoc, ← Bool.decide_or]
          congr 1
          refine decide_eq_decide.mpr ⟨?_, fun hj => ?_⟩
          · rintro (rfl | hj)
            · exact ⟨List.mem_cons_self, hbit⟩
            · exact ⟨List.mem_cons_of_mem idx hj.1, hj.2⟩
          · rcases List.mem_cons.mp hj.1 with rfl | hmem
            · exact .inl rfl
            · exact .inr ⟨hmem, hj.2⟩

namespace ScalarBytes

variable {that : ScalarBytes} {out : Planes}

/-- `value`, of a bit that the vector has. -/
def value (that : ScalarBytes) (idx : Nat) : BitVec 8 := that.bytes.getD idx 0

/-- `reduce4_slow_`. -/
def reduce4Slow (that : ScalarBytes) : Planes :=
  (List.range that.size).foldl (fun out idx => out.setBit4 idx (byteValue (that.value idx)))
    (.allocateBits that.size .x)

/-- `reduce4_plain_`: whether it completed, with the vector as it is left; nothing where its
assertion about the size fails. -/
def reduce4Plain (that : ScalarBytes) (out : Planes) : Option (Bool × Planes) :=
  if hsize : out.size = that.size then
    if hlong : that.size ≤ 64 then
      match plainWord that.bytes 0 (List.range that.size) with
      | none => some (false, out)
      | some ab => some (true, (out.setA 0 ab).setB 0 0)
    else
      let words := wordCount that.size
      let loop := plainWords that.bytes (List.replicate words 0) (List.range that.size)
      some (loop.1,
        { size := out.size
          abits := loop.2
          bbits := List.replicate words 0
          length_abits := by
            rw [length_plainWords, List.length_replicate, hsize,
              planeWords_of_long (Nat.lt_of_not_le hlong)]
          length_bbits := by
            rw [List.length_replicate, hsize, planeWords_of_long (Nat.lt_of_not_le hlong)] })
  else none

/-- `reduce4`. -/
def reduce4 (that : ScalarBytes) : Option Planes :=
  (that.reduce4Plain (.allocateBits that.size .x)).map fun fast =>
    if fast.1 then fast.2 else that.reduce4Slow

/-- The slow loop sets every bit to the value of its scalar. -/
theorem reduce4Slow_spec (that : ScalarBytes) :
    that.reduce4Slow.size = that.size ∧
      ∀ idx < that.size, that.reduce4Slow.value idx = byteValue (that.value idx) := by
  have hloop : ∀ n ≤ that.size,
      ((List.range n).foldl (fun out idx => out.setBit4 idx (byteValue (that.value idx)))
        (Planes.allocateBits that.size .x)).size = that.size ∧
      ∀ idx < n, ((List.range n).foldl
        (fun out idx => out.setBit4 idx (byteValue (that.value idx)))
        (Planes.allocateBits that.size .x)).value idx = byteValue (that.value idx) := by
    intro n
    induction n with
    | zero => exact fun _ => ⟨rfl, fun idx hidx => absurd hidx (Nat.not_lt_zero idx)⟩
    | succ n ih =>
      intro hn
      obtain ⟨hsize, hvalue⟩ := ih (Nat.le_of_succ_le hn)
      rw [List.range_succ, List.foldl_append, List.foldl_cons, List.foldl_nil]
      refine ⟨(Planes.size_setBit4 _ _).trans hsize, fun idx hidx => ?_⟩
      rw [Planes.value_setBit4 (by omega) _ (by omega)]
      split_ifs with heq
      · rw [heq]
      · exact hvalue idx (by omega)
  exact hloop that.size (le_refl _)

/-- Planes of which the first has the plain bits, and the second is clear. -/
theorem value_of_plain {result : List (BitVec 64)} (hsize : out.size = that.size)
    (hlen : that.size ≤ 64 * (planeWords that.size))
    (hloop : plainWords that.bytes (List.replicate (planeWords that.size) 0)
      (List.range that.size) = (true, result))
    (ha : out.abits = result) (hb : out.bbits = List.replicate (planeWords that.size) 0) :
    ∀ idx < that.size, out.value idx = byteValue (that.value idx) := by
  intro idx hidx
  have hwords : ∀ i ∈ List.range that.size,
      i / 64 < (List.replicate (planeWords that.size) (0 : BitVec 64)).length := by
    intro i hi
    rw [List.length_replicate]
    have := List.mem_range.mp hi
    omega
  have hmem := List.mem_range.mpr hidx
  obtain ⟨hplain, hbits⟩ := plainWords_spec that.bytes hwords hloop idx
  obtain ⟨bit, hbit⟩ := hplain hmem
  have hclear : (0 : BitVec 64).getLsbD (idx % 64) = false := BitVec.getLsbD_zero
  rw [Planes.value_of_lt (by omega), ha, hb, hbits, planeBit_replicate (by omega), hclear,
    Bool.false_or, ScalarBytes.value, byteValue_of_plainByte hbit, hbit]
  congr 1
  cases bit with
  | false => exact decide_eq_false fun h => Bool.false_ne_true (Option.some.inj h.2)
  | true => exact decide_eq_true ⟨hmem, rfl⟩

private theorem set_of_length_one {plane : List (BitVec 64)} (h : plane.length = 1)
    (word : BitVec 64) : plane.set 0 word = [word] := by
  obtain ⟨old, rfl⟩ := List.length_eq_one_iff.mp h
  rfl

/-- The fast path gives every bit the value of its scalar where it completes. -/
theorem reduce4Plain_spec (that : ScalarBytes) (hsize : out.size = that.size) :
    ∃ fast, that.reduce4Plain out = some fast ∧ (fast.1 = true → fast.2.size = that.size ∧
      ∀ idx < that.size, fast.2.value idx = byteValue (that.value idx)) := by
  unfold reduce4Plain
  rw [dif_pos hsize]
  split_ifs with hshort
  · have hwords := planeWords_of_short hshort
    cases hword : plainWord that.bytes 0 (List.range that.size) with
    | none => exact ⟨_, rfl, fun h => absurd h Bool.false_ne_true⟩
    | some ab =>
      refine ⟨_, rfl, fun _ => ⟨hsize, ?_⟩⟩
      have hloop := plainWord_eq that.bytes 0
        (fun idx hidx => (List.mem_range.mp hidx).trans_le hshort) hword
      have hone : out.abits.length = 1 ∧ out.bbits.length = 1 := by
        rw [out.length_abits, out.length_bbits, hsize]
        exact ⟨hwords, hwords⟩
      rw [show [(0 : BitVec 64)] = List.replicate (planeWords that.size) 0 by rw [hwords]; rfl]
        at hloop
      refine value_of_plain hsize (le_planeWords _) hloop ?_ ?_
      · exact set_of_length_one hone.1 ab
      · rw [hwords]
        exact set_of_length_one hone.2 0
  · refine ⟨_, rfl, fun hok => ⟨hsize, ?_⟩⟩
    have hwords := planeWords_of_long (Nat.lt_of_not_le hshort)
    refine value_of_plain hsize (le_planeWords _) (Prod.ext ?_ rfl) ?_ ?_
    · rw [hwords]
      exact hok
    · rw [hwords]
    · rw [hwords]

/-- For every vector, the planes of `reduce4` have the bits of the slow loop, each of them the
value of its scalar, whether the fast path completes or gives up. -/
theorem reduce4_eq_slow (that : ScalarBytes) : ∃ out, that.reduce4 = some out ∧
    out.toVector4 = that.reduce4Slow.toVector4 ∧
    that.reduce4Slow.toVector4 =
      (List.range that.size).map fun idx => (Scalar.ofByte (that.value idx)).value := by
  obtain ⟨hslow, hvalue⟩ := that.reduce4Slow_spec
  obtain ⟨fast, hfast, hplain⟩ :=
    that.reduce4Plain_spec (show (Planes.allocateBits that.size .x).size = that.size from rfl)
  refine ⟨if fast.1 then fast.2 else that.reduce4Slow, by rw [reduce4, hfast]; rfl, ?_, ?_⟩
  · split_ifs with hok
    · obtain ⟨hsize, hbits⟩ := hplain hok
      refine Planes.toVector4_congr (hsize.trans hslow.symm) fun idx hidx => ?_
      rw [hslow] at hidx
      rw [hbits idx hidx, hvalue idx hidx]
    · rfl
  · rw [Planes.toVector4, hslow]
    refine List.map_congr_left fun idx hidx => ?_
    rw [hvalue idx (List.mem_range.mp hidx), byteValue_eq]

end ScalarBytes

end Icarus.Vvp
