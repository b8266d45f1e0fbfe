import Icarus.Vvp.Thread.Window

/-!
# Part selects

`%part/u` and `%part/s` take a part of a vector at a base from the stack, `%parti/u` and
`%parti/s` at a constant, and the loader fuses these with the load of a signal. All of them
calculate with a base of 32 bits.
-/

namespace Icarus.Vvp

/-- The operands of `%parti` in `vvp_code_s`. -/
structure PartiCode where
  /-- `number`, the width. -/
  number : BitVec 32
  /-- `bit_idx[0]`, the base. -/
  bitIdx0 : BitVec 32
  /-- `bit_idx[1]`, the width of the base. -/
  bitIdx1 : BitVec 32

/-- The operands of the fused opcode. -/
structure LoadPartiCode where
  /-- `bit_idx[0]`, the base with its sign extended. -/
  bitIdx0 : BitVec 32
  /-- `bit_idx[1]`, the width. -/
  bitIdx1 : BitVec 32

/-- The bits of a vector that are in the result from `vbase` on, the others X. -/
def putPart (undef : BitVec 64 → Nat → BitVec 64) (resWid : Nat) (vbase : Nat) (value : Planes)
    (base wid : BitVec 32) : Option Planes :=
  let wid := if (base + wid).toNat > value.size then BitVec.ofNat 32 value.size - base else wid
  ((Planes.allocateBits resWid .x).setVec undef vbase
    (value.subvalue base.toNat wid.toNat)).map Prod.fst

/-- The part at a base that was read; nothing where an addition overflows an `int` or an assertion
fails. -/
def selectPart (undef : BitVec 64 → Nat → BitVec 64) (value : Planes) (wid base : BitVec 32) :
    Option Planes :=
  let res := Planes.allocateBits wid.toNat .x
  if base.toInt ≥ (BitVec.ofNat 32 value.size).toInt then some res
  else if base.saddOverflow wid then none
  else if (base + wid).toInt ≤ 0 then some res
  else if base.toInt < 0 then
    let vbase := (-base.toInt).toNat
    putPart undef wid.toNat vbase value 0 (wid - BitVec.ofNat 32 vbase)
  else putPart undef wid.toNat 0 value base wid

/-- `of_PART_base`. -/
def ofPartBase (undef : BitVec 64 → Nat → BitVec 64) (signedFlag : Bool) (wid : BitVec 32) :
    List Planes → Option (List Planes)
  | base4 :: value :: rest =>
    match readInt signedFlag base4 with
    | none => some (Planes.allocateBits wid.toNat .x :: rest)
    | some base => (selectPart undef value wid base).map (· :: rest)
  | _ => none

/-- The base of `of_PARTI_base`; nothing where a shift by -1 is undefined. -/
def partiBase (signedFlag : Bool) (cp : PartiCode) : Option (BitVec 32) :=
  let base := cp.bitIdx0
  let bwid := cp.bitIdx1.toNat
  if signedFlag && bwid < 32 then
    if bwid = 0 then none
    else if base &&& ((1 : BitVec 32) <<< (bwid - 1)) ≠ 0 then
      some (base ||| (BitVec.allOnes 64 <<< bwid).setWidth 32)
    else some base
  else some base

/-- `of_PARTI_base`. -/
def ofPartiBase (undef : BitVec 64 → Nat → BitVec 64) (signedFlag : Bool) (cp : PartiCode) :
    List Planes → Option (List Planes)
  | value :: rest => do
    let useBase ← partiBase signedFlag cp
    let res ← selectPart undef value cp.number useBase
    return res :: rest
  | [] => none

/-- What the loader makes of a `%parti` after a `%load/vec4`. -/
def fuseParti (signedFlag : Bool) (cp : PartiCode) : Option LoadPartiCode :=
  if cp.number.toNat < 2 ^ 26 ∧ cp.bitIdx1.toNat < 64 then
    let base := cp.bitIdx0
    let bwid := cp.bitIdx1.toNat
    let base :=
      if signedFlag && bwid > 0 && bwid < 32 && base &&& ((1 : BitVec 32) <<< (bwid - 1)) ≠ 0 then
        base ||| (BitVec.allOnes 32 <<< bwid)
      else base
    some ⟨base, cp.number⟩
  else none

/-- `of_LOAD_PARTI_base` of a signal. -/
def ofLoadPartiBase (undef : BitVec 64 → Nat → BitVec 64) (sig : Planes) (cp : LoadPartiCode)
    (stack : List Planes) : Option (List Planes) :=
  let useBase := cp.bitIdx0
  let wid := cp.bitIdx1
  if useBase.toInt ≥ 0 then some (sig.subvalue useBase.toNat wid.toNat :: stack)
  else if useBase.saddOverflow wid then none
  else if (useBase + wid).toInt ≤ 0 then some (Planes.allocateBits wid.toNat .x :: stack)
  else
    let vbase := (-useBase.toInt).toNat
    (putPart undef wid.toNat vbase sig 0 (wid - BitVec.ofNat 32 vbase)).map (· :: stack)

/-! ## What is meant -/

/-- The end of the part overflows an `int`. -/
def Overflows (size wid : Nat) (base : Int) : Prop :=
  base < asInt size ∧ ¬ (-2 ^ 31 ≤ base + asInt wid ∧ base + asInt wid < 2 ^ 31)

/-- As `int`s the part begins past the vector, or it ends below. -/
def CutOff (size wid : Nat) (base : Int) : Prop := asInt size ≤ base ∨ base + asInt wid ≤ 0

/-- The part at the integer of the base, and X where that has X or Z bits. -/
def meantPart (signedFlag : Bool) (base4 value : Vector4) (wid : Nat) : Vector4 :=
  if base4.hasXz then xVec wid else value.window (intValue signedFlag base4) wid

/-- The base has no X and Z bits and its integer is in the range of an `int`. -/
def ExactBase (signedFlag : Bool) (base4 : Vector4) : Prop :=
  base4.hasXz = false ∧ asInt (intValue signedFlag base4) = intValue signedFlag base4

/-- The part that is meant is all X. -/
def MeantBlank (signedFlag : Bool) (base4 value : Vector4) (wid : Nat) : Prop :=
  base4.hasXz = true ∨ value.Blank (intValue signedFlag base4) wid

/-- The base in an `int` gives the part that is meant: without an overflow, either the base is
exact and the part is not cut off, or the part is all X, and so is the window at the `int` unless
it is cut off. -/
def PartReads (signedFlag : Bool) (base4 value : Vector4) (wid : Nat) : Prop :=
  ¬ Overflows value.length wid (asInt (intValue signedFlag base4)) ∧
    (ExactBase signedFlag base4 ∧
        ¬ CutOff value.length wid (asInt (intValue signedFlag base4)) ∨
      MeantBlank signedFlag base4 value wid ∧
        (CutOff value.length wid (asInt (intValue signedFlag base4)) ∨
          value.Blank (asInt (intValue signedFlag base4)) wid))

/-- The loader fuses a `%parti` of the base with the load of the signal. -/
def Fuses (base4 : Vector4) (wid : BitVec 32) : Prop :=
  wid.toNat < 2 ^ 26 ∧ base4.hasXz = false ∧ 0 < base4.length ∧ base4.length < 64 ∧
    base4.toNat < 2 ^ 32

/-- A stack with a vector on top. -/
def Pushes (stack : Option (List Planes)) (res : Vector4) (rest : List Planes) : Prop :=
  ∃ r : Planes, stack = some (r :: rest) ∧ r.toVector4 = res

/-- The constant of a `%parti` is the base. -/
structure PartiCode.Names (cp : PartiCode) (base4 : Vector4) : Prop where
  /-- The base has bits. -/
  pos : 0 < cp.bitIdx1.toNat
  /-- The constant has no more bits than the base. -/
  lt : cp.bitIdx0.toNat < 2 ^ cp.bitIdx1.toNat
  /-- The base is the constant. -/
  eq : base4 = Vector4.ofNat cp.bitIdx1.toNat cp.bitIdx0.toNat

/-- Every opcode gives the part that is meant. -/
structure PartRight (undef : BitVec 64 → Nat → BitVec 64) (signedFlag : Bool) (base4 value : Planes)
    (wid : BitVec 32) : Prop where
  /-- `%part`. -/
  part : ∀ rest, Pushes (ofPartBase undef signedFlag wid (base4 :: value :: rest))
    (meantPart signedFlag base4.toVector4 value.toVector4 wid.toNat) rest
  /-- `%parti`. -/
  parti : ∀ cp : PartiCode, cp.number = wid → cp.Names base4.toVector4 → ∀ rest,
    Pushes (ofPartiBase undef signedFlag cp (value :: rest))
      (meantPart signedFlag base4.toVector4 value.toVector4 wid.toNat) rest
  /-- `%load/vec4` and `%parti` in one. -/
  loadParti : ∀ cp : PartiCode, cp.number = wid → cp.Names base4.toVector4 →
    ∀ fused, fuseParti signedFlag cp = some fused → ∀ rest,
      Pushes (ofLoadPartiBase undef value fused rest)
        (meantPart signedFlag base4.toVector4 value.toVector4 wid.toNat) rest

/-! ## The part that is taken -/

section Select

variable (undef : BitVec 64 → Nat → BitVec 64) {value : Planes}

theorem bitAt_value {pos : Int} (h : 0 ≤ pos) :
    value.toVector4.bitAt pos = value.value pos.toNat := by
  rw [Vector4.bitAt, if_pos h, Planes.getElem?_toVector4]
  split_ifs with hin
  · rfl
  · rw [Option.getD_none, Planes.value_of_ge (by omega)]

/-- The bits that are put in place, X below them and X above. -/
theorem put_right {resWid vbase : Nat} (base : Int) {start n : Nat}
    (hvbase : vbase < resWid ∨ resWid = 0) (hn : vbase + n ≤ resWid)
    (hstart : (start : Int) = base + vbase)
    (hlow : 0 < vbase → start = 0)
    (hhigh : vbase + n < resWid → value.size ≤ start + n) :
    ∃ r : Planes, ((Planes.allocateBits resWid .x).setVec undef vbase
        (value.subvalue start n)).map Prod.fst = some r ∧
      r.toVector4 = value.toVector4.window base resWid := by
  obtain ⟨hsize, hvalue⟩ := Planes.value_subvalue value start n
  obtain ⟨r, changed, hr, hrsize, hbits, -⟩ := Planes.setVec_spec undef
    (show vbase + (value.subvalue start n).size ≤ (Planes.allocateBits resWid .x).size by
      rw [hsize]; exact hn)
    (fun h => by have := h.1; change resWid = 64 at this; omega)
  refine ⟨r, by rw [hr]; rfl, ?_⟩
  refine Planes.toVector4_eq (by rw [length_window, hrsize]; rfl) fun idx hidx => ?_
  have hres : idx < resWid := by rwa [hrsize] at hidx
  rw [getElem?_window _ _ hres, hbits idx (by exact hres), hsize, Option.some_inj]
  by_cases hin : vbase ≤ idx ∧ idx < vbase + n
  · rw [if_pos hin, hvalue _ (by omega), bitAt_value (by omega)]
    congr 1
    omega
  · rw [if_neg hin, Planes.value_allocateBits .x hres]
    rcases Nat.lt_or_ge idx vbase with hbelow | habove
    · exact bitAt_neg (by omega)
    · refine bitAt_ge ?_
      rw [Planes.length_toVector4]
      omega

theorem putPart_right (hsize : value.size < 2 ^ 32) {resWid vbase : Nat} (base : Int)
    {start n : BitVec 32} (hvbase : vbase < resWid ∨ resWid = 0) (hn : vbase + n.toNat = resWid)
    (hstart : (start.toNat : Int) = base + vbase) (hlow : 0 < vbase → start.toNat = 0)
    (hin : start.toNat ≤ value.size) :
    ∃ r : Planes, putPart undef resWid vbase value start n = some r ∧
      r.toVector4 = value.toVector4.window base resWid := by
  have hadd : (start + n).toNat = (start.toNat + n.toNat) % 2 ^ 32 := BitVec.toNat_add start n
  have hstartLt := start.isLt
  have hnLt := n.isLt
  have hrest : (BitVec.ofNat 32 value.size - start).toNat = value.size - start.toNat := by
    rw [BitVec.toNat_sub_of_le, BitVec.toNat_ofNat, Nat.mod_eq_of_lt hsize]
    rw [BitVec.le_def, BitVec.toNat_ofNat, Nat.mod_eq_of_lt hsize]
    exact hin
  unfold putPart
  dsimp only
  split_ifs with hover
  · rw [hrest]
    exact put_right undef base hvbase (by omega) hstart hlow (by omega)
  · exact put_right undef base hvbase (by omega) hstart hlow (by omega)

theorem toVector4_allocateBits_x (size : Nat) :
    (Planes.allocateBits size .x).toVector4 = xVec size := by
  refine List.eq_replicate_iff.mpr ⟨Planes.length_toVector4 _, fun b hb => ?_⟩
  obtain ⟨idx, hidx, rfl⟩ := List.mem_map.mp hb
  exact Planes.value_allocateBits .x (List.mem_range.mp hidx)

theorem saddOverflow_iff (x y : BitVec 32) : x.saddOverflow y = true ↔
    ¬ (-2 ^ 31 ≤ x.toInt + y.toInt ∧ x.toInt + y.toInt < 2 ^ 31) := by
  rw [BitVec.saddOverflow, Bool.or_eq_true, decide_eq_true_iff, decide_eq_true_iff]
  omega

/-- The width above a negative base. -/
theorem sub_negated {base wid : BitVec 32} (hneg : base.toInt < 0)
    (hwid : -base.toInt ≤ wid.toNat) :
    (wid - BitVec.ofNat 32 (-base.toInt).toNat).toNat = wid.toNat - (-base.toInt).toNat := by
  have hlow : -2 ^ 31 ≤ base.toInt := BitVec.le_toInt base
  have hnat : (BitVec.ofNat 32 (-base.toInt).toNat).toNat = (-base.toInt).toNat := by
    rw [BitVec.toNat_ofNat, Nat.mod_eq_of_lt (by omega)]
  rw [BitVec.toNat_sub_of_le (by rw [BitVec.le_def, hnat]; omega), hnat]

theorem putBelow_right (hsize : value.size < 2 ^ 32) {wid base : BitVec 32}
    (hneg : base.toInt < 0) (hwid : -base.toInt < wid.toNat) :
    ∃ r : Planes, putPart undef wid.toNat (-base.toInt).toNat value 0
        (wid - BitVec.ofNat 32 (-base.toInt).toNat) = some r ∧
      r.toVector4 = value.toVector4.window base.toInt wid.toNat := by
  have hrest := sub_negated hneg hwid.le
  have hzero : (0 : BitVec 32).toNat = 0 := rfl
  exact putPart_right undef hsize base.toInt (.inl (by omega)) (by omega) (by omega)
    (fun _ => hzero) (Nat.zero_le _)

/-- The part is that of the window at the base, or all X where it is cut off. -/
theorem selectPart_right (hsize : value.size < 2 ^ 32) (wid base : BitVec 32) :
    (Overflows value.size wid.toNat base.toInt → selectPart undef value wid base = none) ∧
    (¬ Overflows value.size wid.toNat base.toInt → ∃ r : Planes,
      selectPart undef value wid base = some r ∧
        (CutOff value.size wid.toNat base.toInt → r.toVector4 = xVec wid.toNat) ∧
        (¬ CutOff value.size wid.toNat base.toInt →
          r.toVector4 = value.toVector4.window base.toInt wid.toNat)) := by
  have hwid : asInt wid.toNat = wid.toInt := by
    rw [asInt, BitVec.ofInt_natCast, BitVec.ofNat_toNat, BitVec.setWidth_eq]
  have hsigned : (BitVec.ofNat 32 value.size).toInt = asInt value.size := rfl
  have hblank := toVector4_allocateBits_x wid.toNat
  have hsizeInt : asInt value.size ≤ value.size := by
    rw [asInt_natCast hsize]
    split_ifs <;> omega
  have hbase : 0 ≤ base.toInt → (base.toNat : Int) = base.toInt := fun h => by
    rw [BitVec.toInt_eq_toNat_cond] at h ⊢
    split_ifs at h ⊢ <;> omega
  have hbaseLow : -2 ^ 31 ≤ base.toInt := BitVec.le_toInt base
  have hwidInt : wid.toInt ≤ wid.toNat := by
    rw [BitVec.toInt_eq_toNat_cond]
    split_ifs <;> omega
  unfold Overflows CutOff selectPart
  dsimp only
  rw [hsigned, hwid]
  by_cases hend : base.toInt ≥ asInt value.size
  · rw [if_pos hend]
    refine ⟨fun h => absurd h.1 (by omega), fun _ => ⟨_, rfl, fun _ => hblank, fun h => ?_⟩⟩
    exact absurd (.inl hend) h
  · rw [if_neg hend]
    by_cases hover : base.saddOverflow wid = true
    · rw [if_pos hover]
      refine ⟨fun _ => rfl, fun h => absurd ⟨by omega, (saddOverflow_iff _ _).mp hover⟩ h⟩
    · rw [if_neg hover, BitVec.toInt_add_of_not_saddOverflow hover]
      refine ⟨fun h => absurd ((saddOverflow_iff _ _).mpr h.2) hover, fun _ => ?_⟩
      by_cases hcut : base.toInt + wid.toInt ≤ 0
      · rw [if_pos hcut]
        exact ⟨_, rfl, fun _ => hblank, fun h => absurd (.inr hcut) h⟩
      · rw [if_neg hcut]
        have hno : ¬ (asInt value.size ≤ base.toInt ∨ base.toInt + wid.toInt ≤ 0) := by omega
        by_cases hneg : base.toInt < 0
        · rw [if_pos hneg]
          obtain ⟨r, hr, hbits⟩ := putBelow_right undef hsize hneg
            (show -base.toInt < wid.toNat by omega)
          exact ⟨r, hr, fun h => absurd h hno, fun _ => hbits⟩
        · rw [if_neg hneg]
          obtain ⟨r, hr, hbits⟩ := @putPart_right undef value hsize wid.toNat 0 base.toInt base wid
            (by omega) (by omega) (by omega) (fun h => absurd h (by omega)) (by omega)
          exact ⟨r, hr, fun h => absurd h hno, fun _ => hbits⟩

end Select

/-! ## The part that is meant -/

section Meant

variable {signedFlag : Bool} {base4 value : Vector4} {wid : Nat}

theorem meantPart_eq_xVec_iff :
    meantPart signedFlag base4 value wid = xVec wid ↔ MeantBlank signedFlag base4 value wid := by
  rw [meantPart, MeantBlank]
  split_ifs with hxz
  · exact iff_of_true rfl (.inl hxz)
  · rw [window_eq_xVec_iff]
    exact (or_iff_right hxz).symm

/-- Only an exact base, or two windows without bits, give the part. -/
theorem meantPart_eq_window_iff (hlen : value.length < 2 ^ 32) :
    meantPart signedFlag base4 value wid =
        value.window (asInt (intValue signedFlag base4)) wid ↔
      ExactBase signedFlag base4 ∨ MeantBlank signedFlag base4 value wid ∧
        value.Blank (asInt (intValue signedFlag base4)) wid := by
  rw [meantPart, ExactBase, MeantBlank]
  split_ifs with hxz
  · have hnot : ¬ (base4.hasXz = false ∧
        asInt (intValue signedFlag base4) = intValue signedFlag base4) := fun h =>
      Bool.eq_false_iff.mp h.1 hxz
    rw [eq_comm, window_eq_xVec_iff, or_iff_right hnot, and_iff_right (.inl hxz)]
  · rcases asInt_far (intValue signedFlag base4) with hexact | hfar
    · rw [hexact]
      exact iff_of_true rfl (.inl ⟨Bool.eq_false_iff.mpr hxz, rfl⟩)
    · rw [window_eq_iff_of_far hlen (by omega), or_iff_right hxz, or_iff_right fun h => by omega]

end Meant

section Part

variable (undef : BitVec 64 → Nat → BitVec 64) {signedFlag : Bool} {base4 value : Planes}

theorem hasXz_of_lowXz {v : Vector4} (h : v.LowXz) : v.hasXz = true := by
  obtain ⟨b, hmem, hb⟩ := List.any_eq_true.mp h
  exact List.any_eq_true.mpr ⟨b, List.mem_of_mem_take hmem, hb⟩

/-- The part at the base in an `int` is the one that is meant. -/
theorem selectPart_iff (hsize : value.size < 2 ^ 32) (wid : BitVec 32) :
    (∃ r : Planes, selectPart undef value wid
        (BitVec.ofInt 32 (intValue signedFlag base4.toVector4)) = some r ∧
      r.toVector4 = meantPart signedFlag base4.toVector4 value.toVector4 wid.toNat) ↔
      PartReads signedFlag base4.toVector4 value.toVector4 wid.toNat := by
  have hlen : value.toVector4.length < 2 ^ 32 := by rwa [Planes.length_toVector4]
  obtain ⟨hover, hselect⟩ := selectPart_right undef hsize wid
    (BitVec.ofInt 32 (intValue signedFlag base4.toVector4))
  rw [PartReads, Planes.length_toVector4]
  by_cases h : Overflows value.size wid.toNat (asInt (intValue signedFlag base4.toVector4))
  · refine iff_of_false (fun hr => ?_) fun hreads => hreads.1 h
    obtain ⟨r, hr, -⟩ := hr
    rw [hover h] at hr
    exact absurd hr (Option.some_ne_none r).symm
  · obtain ⟨r, hr, hcut, hwindow⟩ := hselect h
    have hiff : (∃ r' : Planes, selectPart undef value wid
          (BitVec.ofInt 32 (intValue signedFlag base4.toVector4)) = some r' ∧
        r'.toVector4 = meantPart signedFlag base4.toVector4 value.toVector4 wid.toNat) ↔
        meantPart signedFlag base4.toVector4 value.toVector4 wid.toNat = r.toVector4 := by
      constructor
      · rintro ⟨r', hr', hbits⟩
        rw [← hbits, Option.some.inj (hr.symm.trans hr')]
      · exact fun hbits => ⟨r, hr, hbits.symm⟩
    rw [hiff, and_iff_right h]
    by_cases hcutOff : CutOff value.size wid.toNat (asInt (intValue signedFlag base4.toVector4))
    · rw [hcut hcutOff, meantPart_eq_xVec_iff]
      simp only [hcutOff, not_true, and_false, false_or, true_or, and_true]
    · rw [hwindow hcutOff]
      refine (meantPart_eq_window_iff hlen).trans ?_
      simp only [hcutOff, not_false_iff, and_true, false_or]

/-- `%part` gives the part where an X or Z bit is read, and where the base in an `int` does. -/
theorem pushes_part_iff (hsize : value.size < 2 ^ 32) (wid : BitVec 32) (rest : List Planes) :
    Pushes (ofPartBase undef signedFlag wid (base4 :: value :: rest))
        (meantPart signedFlag base4.toVector4 value.toVector4 wid.toNat) rest ↔
      base4.toVector4.LowXz ∨ PartReads signedFlag base4.toVector4 value.toVector4 wid.toNat := by
  rw [ofPartBase, readInt_eq, Pushes]
  by_cases hxz : base4.toVector4.LowXz
  · rw [if_pos hxz]
    refine iff_of_true ⟨_, rfl, ?_⟩ (.inl hxz)
    rw [meantPart, if_pos (hasXz_of_lowXz hxz), toVector4_allocateBits_x]
  · rw [if_neg hxz, or_iff_right hxz, ← selectPart_iff undef hsize]
    simp only [Option.map_eq_some_iff, List.cons.injEq, and_true, exists_eq_right]

end Part

/-! ## Constant bases -/

section Constant

variable {signedFlag : Bool} {base4 : Planes} {cp : PartiCode}

theorem valueBit_of_names (h : cp.Names base4.toVector4) (i : Nat) :
    base4.valueBit signedFlag i =
      if i < cp.bitIdx1.toNat then cp.bitIdx0.getLsbD i
      else signedFlag && cp.bitIdx0.getLsbD (cp.bitIdx1.toNat - 1) := by
  have hsize : base4.size = cp.bitIdx1.toNat := by
    rw [← Planes.length_toVector4, h.eq, Vector4.length_ofNat]
  have hbit : ∀ j < cp.bitIdx1.toNat, decide (base4.value j = .one) = cp.bitIdx0.getLsbD j :=
    fun j hj => by
      have hget := base4.getElem?_toVector4 j
      rw [if_pos (by omega), h.eq, Vector4.getElem?_ofNat, if_pos hj, Option.some_inj] at hget
      rw [← hget, ← BitVec.testBit_toNat]
      cases cp.bitIdx0.toNat.testBit j <;> rfl
  have hpos := h.pos
  rw [Planes.valueBit, hsize]
  split_ifs with hi
  · exact hbit i hi
  · rw [hbit _ (by omega)]

theorem getLsbD_of_names (h : cp.Names base4.toVector4) {i : Nat} (hi : cp.bitIdx1.toNat ≤ i) :
    cp.bitIdx0.getLsbD i = false := by
  have hpow : 2 ^ cp.bitIdx1.toNat ≤ 2 ^ i := Nat.pow_le_pow_right (by omega) hi
  rw [← BitVec.testBit_toNat, Nat.testBit_lt_two_pow (by have := h.lt; omega)]

theorem getLsbD_signFill {bwid i : Nat} (hi : i < 32) :
    ((BitVec.allOnes 64 <<< bwid).setWidth 32).getLsbD i = decide (bwid ≤ i) := by
  rw [BitVec.getLsbD_setWidth, BitVec.getLsbD_shiftLeft, BitVec.getLsbD_allOnes]
  by_cases hle : bwid ≤ i
  · simp [hi, hle, show i < 64 by omega, show i - bwid < 64 by omega]
  · simp [hi, hle, show i < bwid by omega]

/-- The constant in the opcode is the base in an `int`. -/
theorem partiBase_eq (h : cp.Names base4.toVector4) :
    partiBase signedFlag cp =
      some (BitVec.ofInt 32 (intValue signedFlag base4.toVector4)) := by
  have hpos := h.pos
  have hbits : ∀ x : BitVec 32, (∀ i < 32, x.getLsbD i = base4.valueBit signedFlag i) →
      x = BitVec.ofInt 32 (intValue signedFlag base4.toVector4) := fun x hx =>
    BitVec.eq_of_getLsbD_eq fun i hi => (hx i hi).trans
      (getLsbD_ofInt_intValue signedFlag base4 hi).symm
  unfold partiBase
  dsimp only
  split_ifs with hshort hnil htop
  · omega
  · -- The base is negative.
    rw [Bool.and_eq_true, decide_eq_true_iff] at hshort
    have hsign := (Core.Words.and_bit_ne_zero cp.bitIdx0
      (show cp.bitIdx1.toNat - 1 < 32 by omega)).mp htop
    refine congrArg some (hbits _ fun i hi => ?_)
    rw [BitVec.getLsbD_or, getLsbD_signFill hi, valueBit_of_names h]
    split_ifs with hlow
    · rw [decide_eq_false (by omega), Bool.or_false]
    · rw [decide_eq_true (by omega), Bool.or_true, hshort.1, hsign]
      rfl
  · rw [Bool.and_eq_true, decide_eq_true_iff] at hshort
    have hsign := mt (Core.Words.and_bit_ne_zero cp.bitIdx0
      (show cp.bitIdx1.toNat - 1 < 32 by omega)).mpr htop
    refine congrArg some (hbits _ fun i hi => ?_)
    rw [valueBit_of_names h]
    split_ifs with hlow
    · rfl
    · rw [getLsbD_of_names h (by omega), Bool.eq_false_iff.mpr hsign, Bool.and_false]
  · refine congrArg some (hbits _ fun i hi => ?_)
    rw [valueBit_of_names h]
    split_ifs with hlow
    · rfl
    · -- A base this short is unsigned.
      have hunsigned : signedFlag = false := by
        rw [Bool.and_eq_true, decide_eq_true_iff] at hshort
        exact Bool.eq_false_iff.mpr fun hs => hshort ⟨hs, by omega⟩
      rw [getLsbD_of_names h (by omega), hunsigned, Bool.false_and]

/-- The loader has the same base, for a width that is not too large. -/
theorem partiBase_of_fuse (hpos : 0 < cp.bitIdx1.toNat) {fused : LoadPartiCode}
    (h : fuseParti signedFlag cp = some fused) :
    partiBase signedFlag cp = some fused.bitIdx0 ∧ fused.bitIdx1 = cp.number ∧
      cp.number.toNat < 2 ^ 26 ∧ cp.bitIdx1.toNat < 64 := by
  unfold fuseParti at h
  dsimp only at h
  split_ifs at h with hlimit htop
  · cases h
    simp only [Bool.and_eq_true, decide_eq_true_iff] at htop
    refine ⟨?_, rfl, hlimit⟩
    unfold partiBase
    dsimp only
    rw [if_pos (by rw [Bool.and_eq_true, decide_eq_true_iff]; exact ⟨htop.1.1.1, htop.1.2⟩),
      if_neg (by omega), if_pos htop.2]
    congr 2
    apply BitVec.eq_of_getLsbD_eq
    intro i hi
    rw [getLsbD_signFill hi, BitVec.getLsbD_shiftLeft, BitVec.getLsbD_allOnes]
    by_cases hle : cp.bitIdx1.toNat ≤ i
    · simp [hi, hle, show i - cp.bitIdx1.toNat < 32 by omega]
    · simp [hi, hle, show i < cp.bitIdx1.toNat by omega]
  · cases h
    simp only [Bool.and_eq_true, decide_eq_true_iff, not_and, not_not] at htop
    refine ⟨?_, rfl, hlimit⟩
    unfold partiBase
    dsimp only
    split_ifs with hshort hnil hbit
    · omega
    · rw [Bool.and_eq_true, decide_eq_true_iff] at hshort
      exact absurd (htop ⟨⟨hshort.1, hpos⟩, hshort.2⟩) hbit
    · rfl
    · rfl

end Constant

/-! ## The fused opcode -/

section Load

variable (undef : BitVec 64 → Nat → BitVec 64) {signedFlag : Bool} {base4 value : Planes}

/-- The fused opcode gives the window at its base. -/
theorem pushes_loadParti (hsize : value.size < 2 ^ 32) {cp : LoadPartiCode}
    (hwid : cp.bitIdx1.toNat < 2 ^ 26) (rest : List Planes) :
    Pushes (ofLoadPartiBase undef value cp rest)
      (value.toVector4.window cp.bitIdx0.toInt cp.bitIdx1.toNat) rest := by
  have hbaseLow : -2 ^ 31 ≤ cp.bitIdx0.toInt := BitVec.le_toInt _
  have hwidInt : cp.bitIdx1.toInt = cp.bitIdx1.toNat := by
    rw [BitVec.toInt_eq_toNat_cond, if_pos (by omega)]
  unfold ofLoadPartiBase
  dsimp only
  by_cases hneg : cp.bitIdx0.toInt ≥ 0
  · have hbase : (cp.bitIdx0.toNat : Int) = cp.bitIdx0.toInt := by
      rw [BitVec.toInt_eq_toNat_cond] at hneg ⊢
      split_ifs at hneg ⊢ <;> omega
    obtain ⟨hpart, hvalue⟩ := Planes.value_subvalue value cp.bitIdx0.toNat cp.bitIdx1.toNat
    rw [if_pos hneg]
    refine ⟨_, rfl, Planes.toVector4_eq (by rw [length_window, hpart]) fun idx hidx => ?_⟩
    rw [hpart] at hidx
    rw [getElem?_window _ _ hidx, hvalue idx hidx, bitAt_value (by omega), ← hbase]
    congr 2
  · have hover : ¬ cp.bitIdx0.saddOverflow cp.bitIdx1 = true := fun h =>
      (saddOverflow_iff _ _).mp h ⟨by omega, by omega⟩
    rw [if_neg hneg, if_neg hover, BitVec.toInt_add_of_not_saddOverflow hover]
    by_cases hcut : cp.bitIdx0.toInt + cp.bitIdx1.toInt ≤ 0
    · rw [if_pos hcut]
      refine ⟨_, rfl, (toVector4_allocateBits_x _).trans ?_⟩
      exact (window_eq_xVec_iff.mpr fun idx hidx => bitAt_neg (by omega)).symm
    · rw [if_neg hcut]
      obtain ⟨r, hr, hbits⟩ := putBelow_right undef hsize (show cp.bitIdx0.toInt < 0 by omega)
        (show -cp.bitIdx0.toInt < cp.bitIdx1.toNat by omega)
      exact ⟨r, by rw [hr]; rfl, hbits⟩

end Load

/-! ## All opcodes -/

theorem Pushes.unique {stack : Option (List Planes)} {res res' : Vector4} {rest : List Planes}
    (h : Pushes stack res rest) (h' : Pushes stack res' rest) : res = res' := by
  obtain ⟨r, hr, rfl⟩ := h
  obtain ⟨r', hr', rfl⟩ := h'
  rw [(List.cons.inj (Option.some.inj (hr.symm.trans hr'))).1]

theorem PartiCode.Names.hasXz_eq {cp : PartiCode} {base4 : Vector4} (h : cp.Names base4) :
    base4.hasXz = false := by
  rw [h.eq, Vector4.hasXz_ofNat]

theorem fuses_of_names {signedFlag : Bool} {cp : PartiCode} {base4 : Vector4}
    {fused : LoadPartiCode} (h : cp.Names base4) (hfuse : fuseParti signedFlag cp = some fused) :
    Fuses base4 cp.number := by
  obtain ⟨-, -, hwid, hbwid⟩ := partiBase_of_fuse h.pos hfuse
  refine ⟨hwid, h.hasXz_eq, ?_⟩
  rw [h.eq, Vector4.length_ofNat, Vector4.toNat_ofNat, Nat.mod_eq_of_lt h.lt]
  exact ⟨h.pos, hbwid, cp.bitIdx0.isLt⟩

theorem exists_names (signedFlag : Bool) {base4 : Vector4} {wid : BitVec 32}
    (h : Fuses base4 wid) : ∃ cp : PartiCode, cp.number = wid ∧ cp.Names base4 ∧
      ∃ fused, fuseParti signedFlag cp = some fused := by
  obtain ⟨hwid, hknown, hpos, hshort, hlt⟩ := h
  have hlen : (BitVec.ofNat 32 base4.length).toNat = base4.length := by
    rw [BitVec.toNat_ofNat, Nat.mod_eq_of_lt (by omega)]
  have hnat : (BitVec.ofNat 32 base4.toNat).toNat = base4.toNat := by
    rw [BitVec.toNat_ofNat, Nat.mod_eq_of_lt hlt]
  refine ⟨⟨wid, BitVec.ofNat 32 base4.toNat, BitVec.ofNat 32 base4.length⟩, rfl, ⟨?_, ?_, ?_⟩, ?_⟩
  · exact hlen.symm ▸ hpos
  · rw [hlen, hnat]
    exact base4.toNat_lt
  · rw [hlen, hnat, Vector4.ofNat_toNat hknown]
  · exact ⟨_, if_pos ⟨hwid, hlen.symm ▸ hshort⟩⟩

/-- The part selects give the part that is meant exactly where an X or Z bit is read, or where the
base in an `int` gives it; the fused opcode does not cut a part off. -/
theorem part_right_iff (undef : BitVec 64 → Nat → BitVec 64) (signedFlag : Bool) (base4 : Planes)
    (value : {v : Planes // v.size < 2 ^ 32}) (wid : BitVec 32) :
    PartRight undef signedFlag base4 value.val wid ↔
      base4.toVector4.LowXz ∨
        PartReads signedFlag base4.toVector4 value.val.toVector4 wid.toNat ∧
          (Fuses base4.toVector4 wid → ExactBase signedFlag base4.toVector4 ∨
            value.val.toVector4.Blank (asInt (intValue signedFlag base4.toVector4))
              wid.toNat) := by
  have hlen : value.val.toVector4.length < 2 ^ 32 := by
    rw [Planes.length_toVector4]
    exact value.property
  have hload : ∀ cp : PartiCode, cp.number = wid → cp.Names base4.toVector4 → ∀ fused,
      fuseParti signedFlag cp = some fused → ∀ rest,
        Pushes (ofLoadPartiBase undef value.val fused rest) (value.val.toVector4.window
          (asInt (intValue signedFlag base4.toVector4)) wid.toNat) rest := by
    intro cp hcp hnames fused hfuse rest
    obtain ⟨hbase, hwid, hlimit, -⟩ := partiBase_of_fuse hnames.pos hfuse
    rw [partiBase_eq hnames, Option.some_inj] at hbase
    have h := pushes_loadParti undef value.property
      (show fused.bitIdx1.toNat < 2 ^ 26 by rwa [hwid]) rest
    rwa [← hbase, hwid, hcp] at h
  constructor
  · intro h
    rcases (pushes_part_iff undef value.property wid []).mp (h.part []) with hxz | hreads
    · exact .inl hxz
    · refine .inr ⟨hreads, fun hfuses => ?_⟩
      obtain ⟨cp, hcp, hnames, fused, hfuse⟩ := exists_names signedFlag hfuses
      have hmeant := (h.loadParti cp hcp hnames fused hfuse []).unique
        (hload cp hcp hnames fused hfuse [])
      exact ((meantPart_eq_window_iff hlen).mp hmeant).imp_right And.right
  · intro h
    refine ⟨fun rest => ?_, fun cp hcp hnames rest => ?_, fun cp hcp hnames fused hfuse rest => ?_⟩
    · exact (pushes_part_iff undef value.property wid rest).mpr (h.imp_right And.left)
    all_goals
      have hxz : ¬ base4.toVector4.LowXz := fun hxz =>
        Bool.eq_false_iff.mp hnames.hasXz_eq (hasXz_of_lowXz hxz)
      obtain ⟨hreads, hfused⟩ := h.resolve_left hxz
    · obtain ⟨r, hr, hbits⟩ := (selectPart_iff undef value.property wid).mpr hreads
      refine ⟨r, ?_, hbits⟩
      rw [ofPartiBase, partiBase_eq hnames, hcp]
      exact congrArg (Option.bind · fun res => some (res :: rest)) hr
    · have hcase : ExactBase signedFlag base4.toVector4 ∨
          MeantBlank signedFlag base4.toVector4 value.val.toVector4 wid.toNat ∧
            value.val.toVector4.Blank (asInt (intValue signedFlag base4.toVector4)) wid.toNat := by
        rcases hfused (hcp ▸ fuses_of_names hnames hfuse) with hexact | hblank
        · exact .inl hexact
        · exact hreads.2.imp And.left fun hmeant => ⟨hmeant.1, hblank⟩
      rw [(meantPart_eq_window_iff hlen).mpr hcase]
      exact hload cp hcp hnames fused hfuse rest

/-- For a base of 32 ones that is unsigned, the part of two bits is not all X: the base is
read as -1. -/
theorem not_part_right : ¬ ∃ undef : BitVec 64 → Nat → BitVec 64, PartRight undef false
    (Planes.ofWords 32 0xffffffff 0) (Planes.ofWords 1 1 0) 2 := by
  rintro ⟨undef, h⟩
  have hnat : intValue false (Planes.ofWords 32 0xffffffff 0).toVector4 = 4294967295 := by decide
  have hint : asInt 4294967295 = -1 := by decide
  have hbit : (Planes.ofWords 1 1 0).toVector4.bitAt 0 = .one := by decide
  rcases (pushes_part_iff undef (by decide) 2 []).mp (h.part []) with hxz | hreads
  · exact absurd hxz (by decide)
  · rw [PartReads, ExactBase, hnat, hint] at hreads
    rcases hreads.2 with hexact | hblank
    · exact absurd hexact.1.2 (by decide)
    · rcases hblank.2 with hcut | hblank
      · rcases hcut with hend | hend
        · exact absurd hend (by decide)
        · exact absurd hend (by decide)
      · have hone := hblank 1 (by decide)
        rw [show (-1 + ((1 : Nat) : Int)) = 0 by decide, hbit] at hone
        exact absurd hone (by decide)

end Icarus.Vvp
