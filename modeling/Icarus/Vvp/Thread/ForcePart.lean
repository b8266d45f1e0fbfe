import Icarus.Vvp.Signal.Downstream
import Icarus.Vvp.Thread.PartWrite

/-!
# Forcing a part

`%force/vec4/off` forces a part of a variable at a signed offset; its delayed
form leaves that to an event. Both clip the width of the mask to the target, but
neither clips the value itself or moves a base that is below zero.
-/

namespace Icarus.Vvp

open Variable

/-! ## The mask and the value -/

/-- `vvp_vector2_t::set_bit` to 1; nothing where its assertion fails. -/
def setMaskBit (mask : List Bool) (idx : BitVec 32) : Option (List Bool) :=
  if idx.toNat < mask.length then some (mask.set idx.toNat true) else none

/-- The mask of the bits to be forced, set one by one. -/
def partMask (vwid base wid : BitVec 32) : Option (List Bool) :=
  (List.range wid.toNat).foldlM (fun mask idx => setMaskBit mask (base + BitVec.ofNat 32 idx))
    (List.replicate vwid.toNat false)

/-- `vvp_vector4_t::set_vec`; nothing where its assertion fails, or where the sum in it wraps
around and the words to be written are past the end. -/
def setVecIn (v : Vector4) (adr : BitVec 32) (that : Vector4) : Option Vector4 :=
  if BitVec.ofNat 32 v.length < adr + BitVec.ofNat 32 that.length then none
  else if v.length < adr.toNat + that.length then none
  else some (v.setVec adr.toNat that)

/-- What both paths do with the clipped width; nothing where an assertion fails, the one of
`vvp_net_fil_t::force_mask` included. -/
def Variable.forcePart (s : Variable) (vwid base wid : BitVec 32) (value : Vector4) :
    Option Variable := do
  let mask ← partMask vwid base wid
  let tmp ← setVecIn s.vec4Value base value
  if s.forceMask ≠ [] ∧ s.forceMask.length ≠ mask.length then none
  else return s.forceVec4 tmp mask

/-! ## The two paths -/

/-- The width of the mask in `of_FORCE_VEC4_OFF`. -/
def clipForce (base : BitVec 64) (wid useSize : BitVec 32) : BitVec 32 :=
  if (useSize.setWidth 64).toInt < (base + wid.setWidth 64).toInt then
    (useSize.setWidth 64 - base).setWidth 32
  else wid

/-- `of_FORCE_VEC4_OFF`; the operand's size is the `filter_size` of the net. -/
def ofForceVec4Off (thr : Thread) (cp : PartCode) (s : Variable) : Option (Thread × Variable) := do
  let base := thr.words cp.bitIdx0
  let (val, thr) ← thr.popVec4
  let wid := BitVec.ofNat 32 val.1.length
  if thr.flags 4 = .one then return (thr, s)
  let useSize := cp.valueSize
  if (useSize.setWidth 64).toInt ≤ base.toInt then return (thr, s)
  if base.toInt < -(useSize.setWidth 64).toInt then return (thr, s)
  let s ← s.forcePart useSize (base.setWidth 32) (clipForce base wid useSize) val
  return (thr, s)

/-- `force_vector4_event_s`, with the delay it is scheduled with. -/
structure ForceEvent where
  /-- `base`. -/
  base : BitVec 32
  /-- `vwid`. -/
  vwid : BitVec 32
  /-- `val`. -/
  val : {v : Vector4 // v.length < 2 ^ 32}
  /-- The delay. -/
  delay : BitVec 64

/-- `of_FORCE_VEC4_OFF_D`. -/
def ofForceVec4OffD (thr : Thread) (cp : PartCode) : Option (Thread × Option ForceEvent) := do
  let base := thr.words cp.bitIdx0
  let delay := thr.words cp.bitIdx1
  let (val, thr) ← thr.popVec4
  if thr.flags 4 = .one then return (thr, none)
  let useSize := cp.valueSize
  if (useSize.setWidth 64).toInt ≤ base.toInt then return (thr, none)
  if base.toInt < -(useSize.setWidth 64).toInt then return (thr, none)
  return (thr, some ⟨base.setWidth 32, useSize, val, delay⟩)

/-- `force_vector4_event_s::run_run`. -/
def ForceEvent.runRun (ev : ForceEvent) (s : Variable) : Option Variable :=
  let wid := BitVec.ofNat 32 ev.val.1.length
  let wid := if ev.vwid < ev.base + wid then ev.vwid - ev.base else wid
  s.forcePart ev.vwid ev.base wid ev.val

/-! ## What is forced -/

/-- The bits of a value are forced, its first one at a signed offset; any other bit is forced
only if it was, and shows what it showed. -/
structure ForcedPart (s s' : Variable) (value : Vector4) (off : Int) : Prop where
  /-- The width is kept. -/
  length_eq : s'.bits4.length = s.bits4.length
  /-- The bits of the part are forced. -/
  forced : ∀ t < s.bits4.length, s'.testForceMask t =
    (s.testForceMask t || decide (off ≤ t ∧ t < off + value.length))
  /-- The bits of the part have the value. -/
  visible : ∀ t < s.bits4.length, s'.vec4Value[t]? =
    if off ≤ t ∧ t < off + value.length then value[(t - off).toNat]? else s.vec4Value[t]?

/-- A part with no bit inside the target changes nothing. -/
theorem forcedPart_self {s : Variable} {value : Vector4} {off : Int}
    (hout : (s.bits4.length : Int) ≤ off ∨ off + value.length ≤ 0) :
    ForcedPart s s value off where
  length_eq := rfl
  forced t ht := by rw [decide_eq_false (by omega), Bool.or_false]
  visible t ht := by rw [if_neg (by omega)]

/-- A part of no bits is nowhere. -/
theorem ForcedPart.of_nil {s s' : Variable} {value : Vector4} {off : Int}
    (h : ForcedPart s s' value off) (hnil : value.length = 0) (off' : Int) :
    ForcedPart s s' value off' where
  length_eq := h.length_eq
  forced t ht := by
    rw [h.forced t ht, decide_eq_false (by omega), decide_eq_false (by omega)]
  visible t ht := by
    rw [h.visible t ht, if_neg (by omega), if_neg (by omega)]

/-! ## Inside the target -/

private theorem setMaskBit_setRange (vwid base n : Nat) {idx : BitVec 32}
    (hidx : idx.toNat = base + n) (hin : base + n < vwid) :
    setMaskBit (setRange (List.replicate vwid false) base n true) idx =
      some (setRange (List.replicate vwid false) base (n + 1) true) := by
  rw [setMaskBit, if_pos, hidx, Option.some.injEq]
  · ext i b
    rw [List.getElem?_set]
    simp only [setRange, List.getElem?_mapIdx, List.length_mapIdx, List.length_replicate,
      List.getElem?_replicate]
    by_cases hi : i = base + n
    · simp [hi, hin]
    · have hiff : base ≤ i ∧ i < base + (n + 1) ↔ base ≤ i ∧ i < base + n := by omega
      simp only [hiff, if_neg (Ne.symm hi)]
  · rw [setRange, List.length_mapIdx, List.length_replicate]
    omega

/-- The mask of a part inside the target. -/
theorem partMask_eq {vwid base wid : BitVec 32} (hin : base.toNat + wid.toNat ≤ vwid.toNat) :
    partMask vwid base wid =
      some (setRange (List.replicate vwid.toNat false) base.toNat wid.toNat true) := by
  have hvwid := vwid.isLt
  rw [partMask]
  generalize wid.toNat = n at hin
  induction n with
  | zero =>
    rw [List.range_zero, List.foldlM_nil]
    congr 1
    ext i b
    rw [setRange, List.getElem?_mapIdx]
    simp [show ¬ (base.toNat ≤ i ∧ i < base.toNat) by omega]
  | succ n ih =>
    rw [List.range_succ, List.foldlM_append, ih (by omega), Option.bind_eq_bind, Option.bind_some,
      List.foldlM_cons, setMaskBit_setRange vwid.toNat base.toNat n _ (by omega)]
    · rfl
    · bv_omega

theorem setVecIn_eq_some {v that : Vector4} {adr : BitVec 32} (hv : v.length < 2 ^ 32)
    (hin : adr.toNat + that.length ≤ v.length) :
    setVecIn v adr that = some (v.setVec adr.toNat that) := by
  rw [setVecIn, if_neg, if_neg (by omega)]
  have hadr := BitVec.toNat_add adr (BitVec.ofNat 32 that.length)
  rw [BitVec.lt_def, hadr, BitVec.toNat_ofNat, BitVec.toNat_ofNat]
  omega

theorem setVecIn_eq_none {v that : Vector4} {adr : BitVec 32}
    (hout : v.length < adr.toNat + that.length) : setVecIn v adr that = none := by
  rw [setVecIn, if_pos hout, ite_self]

/-- A part force of the variable forces the part. -/
theorem Variable.ofForceVec4Off_forced {s s' : Variable} (hs : s.Fits) {value : Vector4}
    {base : Nat} (h : s.ofForceVec4Off value base = some s') : ForcedPart s s' value base := by
  rw [Variable.ofForceVec4Off] at h
  split_ifs at h with hout
  cases h
  have hmask : (setRange (List.replicate s.bits4.length false) base value.length true).length =
      s.bits4.length := by
    rw [setRange, List.length_mapIdx, List.length_replicate]
  have hval : (s.vec4Value.setVec base value).length = s.bits4.length := by
    rw [Vector4.length_setVec, length_vec4Value]
  have hbit : ∀ t < s.bits4.length,
      (setRange (List.replicate s.bits4.length false) base value.length true).getD t false =
        decide (base ≤ t ∧ t < base + value.length) := by
    intro t ht
    rw [getD_setRange _ _ _ _ (by rw [List.length_replicate]; exact ht)]
    by_cases hcover : base ≤ t ∧ t < base + value.length
    · rw [if_pos hcover, decide_eq_true hcover]
    · rw [if_neg hcover, decide_eq_false hcover, List.getD_eq_getElem?_getD,
        List.getElem?_replicate_of_lt ht, Option.getD_some]
  have hget : ∀ t < s.bits4.length, (s.vec4Value.setVec base value)[t]? =
      if base ≤ t ∧ t < base + value.length then value[t - base]? else s.vec4Value[t]? := by
    intro t ht
    rw [Vector4.getElem?_setVec, getElem?_vec4Value s ht, Option.map_some]
    by_cases hcover : base ≤ t ∧ t < base + value.length
    · rw [if_pos hcover, if_pos hcover.1, List.getElem?_eq_getElem (by omega), Option.getD_some]
    · rw [if_neg hcover]
      split_ifs with hle
      · rw [List.getElem?_eq_none (by omega), Option.getD_none]
      · rfl
  have hcover : ∀ t : Nat, ((base : Int) ≤ t ∧ (t : Int) < base + value.length) ↔
      base ≤ t ∧ t < base + value.length := by
    intro t
    omega
  refine ⟨rfl, fun t ht => ?_, fun t ht => ?_⟩
  · rw [testForceMask_forceVec4 hs hmask ht, hbit t ht, decide_eq_decide.mpr (hcover t)]
  · rw [vec4Value_forceVec4 hs hval hmask, hget t ht]
    · simp only [hcover, Int.toNat_sub]
    · intro i hi hfree
      rw [hbit i hi, decide_eq_false_iff_not] at hfree
      rw [List.getD_eq_getElem?_getD, hget i hi, if_neg hfree, getElem?_vec4Value s hi,
        Option.getD_some]

section Part

variable {s : Variable} {vwid base : BitVec 32} {value : Vector4}
  (hlen : s.bits4.length = vwid.toNat)
include hlen

/-- A part that starts or ends outside the target fails. -/
theorem Variable.forcePart_eq_none (hout : vwid.toNat < base.toNat + value.length)
    (wid : BitVec 32) : s.forcePart vwid base wid value = none := by
  rw [forcePart, setVecIn_eq_none (by rw [length_vec4Value, hlen]; exact hout)]
  cases partMask vwid base wid <;> rfl

/-- A part inside the target is forced as a part of the variable. -/
theorem Variable.forcePart_eq (hs : s.Fits) (hin : base.toNat + value.length ≤ vwid.toNat) :
    s.forcePart vwid base (BitVec.ofNat 32 value.length) value =
      s.ofForceVec4Off value base.toNat := by
  have hvwid := vwid.isLt
  have hwid : (BitVec.ofNat 32 value.length).toNat = value.length := by
    rw [BitVec.toNat_ofNat, Nat.mod_eq_of_lt (by omega)]
  rw [forcePart, partMask_eq (by rw [hwid]; exact hin), hwid,
    setVecIn_eq_some (by rw [length_vec4Value]; omega) (by rw [length_vec4Value]; omega),
    Variable.ofForceVec4Off, if_neg (by omega), hlen]
  simp only [Option.bind_eq_bind, Option.bind_some]
  rw [if_neg]
  · rfl
  · rintro ⟨hnil, hne⟩
    rw [setRange, List.length_mapIdx, List.length_replicate] at hne
    exact hne ((hs.forceMask_length.resolve_left hnil).trans hlen)

theorem Variable.forcePart_spec (hs : s.Fits) (hin : base.toNat + value.length ≤ vwid.toNat) :
    ∃ s', s.forcePart vwid base (BitVec.ofNat 32 value.length) value = some s' ∧
      ForcedPart s s' value base.toNat := by
  have hsome : s.ofForceVec4Off value base.toNat = some _ := if_neg (by omega)
  exact ⟨_, (Variable.forcePart_eq hlen hs hin).trans hsome, ofForceVec4Off_forced hs hsome⟩

end Part

/-! ## When both paths are right -/

/-- The paths force what they should: the one at once, and the other when its event runs,
whatever the variable then holds. -/
def ForcesPart (thr : Thread) (cp : PartCode) (value : Vector4)
    (rest : List {v : Vector4 // v.length < 2 ^ 32}) : Prop :=
  (∀ s : Variable, s.Fits → s.bits4.length = cp.valueSize.toNat →
    ∃ s', ofForceVec4Off thr cp s = some ({ thr with stackVec4 := rest }, s') ∧
      ForcedPart s s' value (thr.words cp.bitIdx0).toInt) ∧
  ∃ ev, ofForceVec4OffD thr cp = some ({ thr with stackVec4 := rest }, ev) ∧
    ∀ s : Variable, s.Fits → s.bits4.length = cp.valueSize.toNat →
      ∃ s', ev.elim (some s) (fun ev => ev.runRun s) = some s' ∧
        ForcedPart s s' value (thr.words cp.bitIdx0).toInt

/-- A part both paths are right about: one outside the target that they drop, one inside it,
or one of no bits whose base wraps around to an index of the target. -/
def PartForceable (width wid : Nat) (base : Int) : Prop :=
  width = 0 ∨ (width : Int) ≤ base ∨ (base < -width ∧ base + wid ≤ 0) ∨
    (0 ≤ base ∧ base + wid ≤ width) ∨ (base < 0 ∧ wid = 0 ∧ 2 ^ 32 + base ≤ width)

instance (width wid : Nat) (base : Int) : Decidable (PartForceable width wid base) :=
  inferInstanceAs (Decidable (_ ∨ _ ∨ (_ ∧ _) ∨ (_ ∧ _) ∨ (_ ∧ _ ∧ _)))

private theorem toInt_size (w : BitVec 32) : (w.setWidth 64).toInt = w.toNat := by
  have hw := w.isLt
  rw [BitVec.toInt_eq_toNat_of_lt] <;> bv_omega

/-- The event forces a part inside the target, and fails for any other. -/
theorem ForceEvent.runRun_spec (ev : ForceEvent) {s : Variable}
    (hlen : s.bits4.length = ev.vwid.toNat) :
    (s.Fits → ev.base.toNat + ev.val.1.length ≤ ev.vwid.toNat →
      ∃ s', ev.runRun s = some s' ∧ ForcedPart s s' ev.val ev.base.toNat) ∧
    (ev.vwid.toNat < ev.base.toNat + ev.val.1.length → ev.runRun s = none) := by
  have hvwid := ev.vwid.isLt
  constructor
  · intro hs hin
    have hclip : ¬ ev.vwid < ev.base + BitVec.ofNat 32 ev.val.1.length := by bv_omega
    rw [runRun, if_neg hclip]
    exact Variable.forcePart_spec hlen hs hin
  · intro hout
    rw [runRun]
    exact Variable.forcePart_eq_none hlen hout _

private theorem clipForce_eq {base : BitVec 64} {wid useSize : BitVec 32}
    (hlo : -(2 ^ 32) ≤ base.toInt) (hin : base.toInt + wid.toNat ≤ useSize.toNat) :
    clipForce base wid useSize = wid := by
  have hsize := toInt_size useSize
  have hbase := BitVec.toInt_eq_toNat_cond base
  have hsum := BitVec.toInt_eq_toNat_cond (base + wid.setWidth 64)
  rw [clipForce, if_neg]
  bv_omega

section Opcodes

variable {thr : Thread} {cp : PartCode} {val : {v : Vector4 // v.length < 2 ^ 32}}
  {rest : List {v : Vector4 // v.length < 2 ^ 32}} (hst : thr.stackVec4 = val :: rest)
  (hflag : thr.flags 4 ≠ .one)
include hst hflag

/-- A base that is out of the range the opcodes look at. -/
private theorem force_dropped (hout : (cp.valueSize.toNat : Int) ≤ (thr.words cp.bitIdx0).toInt ∨
    (thr.words cp.bitIdx0).toInt < -cp.valueSize.toNat) :
    (∀ s, ofForceVec4Off thr cp s = some ({ thr with stackVec4 := rest }, s)) ∧
      ofForceVec4OffD thr cp = some ({ thr with stackVec4 := rest }, none) := by
  have hsize := toInt_size cp.valueSize
  constructor
  · intro s
    rw [ofForceVec4Off, Thread.popVec4, hst]
    simp only [Option.bind_eq_bind, Option.bind_some, if_neg hflag]
    rcases hout with hout | hout
    · rw [if_pos (by omega)]
      rfl
    · rw [if_neg (by omega), if_pos (by omega)]
      rfl
  · rw [ofForceVec4OffD, Thread.popVec4, hst]
    simp only [Option.bind_eq_bind, Option.bind_some, if_neg hflag]
    rcases hout with hout | hout
    · rw [if_pos (by omega)]
      rfl
    · rw [if_neg (by omega), if_pos (by omega)]
      rfl

/-- A base in that range: what is forced at once, and what is scheduled. -/
private theorem force_live (hlo : -cp.valueSize.toNat ≤ (thr.words cp.bitIdx0).toInt)
    (hhi : (thr.words cp.bitIdx0).toInt < cp.valueSize.toNat) :
    (∀ s, ofForceVec4Off thr cp s =
      (s.forcePart cp.valueSize ((thr.words cp.bitIdx0).setWidth 32)
        (clipForce (thr.words cp.bitIdx0) (BitVec.ofNat 32 val.1.length) cp.valueSize) val).map
          fun s' => ({ thr with stackVec4 := rest }, s')) ∧
      ofForceVec4OffD thr cp = some ({ thr with stackVec4 := rest },
        some ⟨(thr.words cp.bitIdx0).setWidth 32, cp.valueSize, val, thr.words cp.bitIdx1⟩) := by
  have hsize := toInt_size cp.valueSize
  constructor
  · intro s
    rw [ofForceVec4Off, Thread.popVec4, hst]
    simp only [Option.bind_eq_bind, Option.bind_some, if_neg hflag]
    rw [if_neg (by omega), if_neg (by omega)]
    cases s.forcePart cp.valueSize ((thr.words cp.bitIdx0).setWidth 32)
      (clipForce (thr.words cp.bitIdx0) (BitVec.ofNat 32 val.1.length) cp.valueSize) val <;> rfl
  · rw [ofForceVec4OffD, Thread.popVec4, hst]
    simp only [Option.bind_eq_bind, Option.bind_some, if_neg hflag]
    rw [if_neg (by omega), if_neg (by omega)]
    rfl

/-- A part that is dropped is rightly so if it has no bit inside the target. -/
private theorem forcesPart_dropped_iff
    (hout : (cp.valueSize.toNat : Int) ≤ (thr.words cp.bitIdx0).toInt ∨
      (thr.words cp.bitIdx0).toInt < -cp.valueSize.toNat) :
    ForcesPart thr cp val rest ↔
      PartForceable cp.valueSize.toNat val.1.length (thr.words cp.bitIdx0).toInt := by
  obtain ⟨hnow, hdelay⟩ := force_dropped hst hflag hout
  have hbits : (init cp.valueSize.toNat .x).bits4.length = cp.valueSize.toNat :=
    List.length_replicate
  constructor
  · rintro ⟨h, -⟩
    obtain ⟨s', hs', hforced⟩ := h (init cp.valueSize.toNat .x) (init_fits _ _) hbits
    rw [hnow, Option.some.injEq, Prod.mk.injEq] at hs'
    obtain ⟨-, rfl⟩ := hs'
    by_cases hsize : cp.valueSize.toNat = 0
    · exact .inl hsize
    · -- no bit of a new variable is forced
      have hzero := hforced.forced 0 (by omega)
      have hfree : ¬ ((thr.words cp.bitIdx0).toInt ≤ (0 : Nat) ∧
          ((0 : Nat) : Int) < (thr.words cp.bitIdx0).toInt + val.1.length) := by
        simpa [testForceMask, init] using hzero
      unfold PartForceable
      omega
  · intro hright
    have hself : ∀ s : Variable, s.bits4.length = cp.valueSize.toNat →
        ForcedPart s s val (thr.words cp.bitIdx0).toInt := by
      intro s hlen
      unfold PartForceable at hright
      rcases hright with hzero | hright
      · exact ⟨rfl, fun t ht => by omega, fun t ht => by omega⟩
      · exact forcedPart_self (by omega)
    exact ⟨fun s _ hlen => ⟨s, hnow s, hself s hlen⟩,
      none, hdelay, fun s _ hlen => ⟨s, rfl, hself s hlen⟩⟩

/-- The bits that are forced start at the base as an index, and the base is to be that index. -/
private theorem forcesPart_live_iff (hlo : -cp.valueSize.toNat ≤ (thr.words cp.bitIdx0).toInt)
    (hhi : (thr.words cp.bitIdx0).toInt < cp.valueSize.toNat) :
    ForcesPart thr cp val rest ↔
      PartForceable cp.valueSize.toNat val.1.length (thr.words cp.bitIdx0).toInt := by
  obtain ⟨hnow, hdelay⟩ := force_live hst hflag hlo hhi
  have hval := val.2
  have hsize := cp.valueSize.isLt
  have hbase := BitVec.toInt_eq_toNat_cond (thr.words cp.bitIdx0)
  have hbits : (init cp.valueSize.toNat .x).bits4.length = cp.valueSize.toNat :=
    List.length_replicate
  generalize hidx : (thr.words cp.bitIdx0).setWidth 32 = idx at hnow hdelay
  have hwrap : (idx.toNat : Int) = (thr.words cp.bitIdx0).toInt ∨
      (idx.toNat : Int) = 2 ^ 32 + (thr.words cp.bitIdx0).toInt ∧
        (thr.words cp.bitIdx0).toInt < 0 := by
    bv_omega
  have hclip : idx.toNat + val.1.length ≤ cp.valueSize.toNat →
      clipForce (thr.words cp.bitIdx0) (BitVec.ofNat 32 val.1.length) cp.valueSize =
        BitVec.ofNat 32 val.1.length := by
    intro hfit
    have hwid : (BitVec.ofNat 32 val.1.length).toNat = val.1.length := by
      rw [BitVec.toNat_ofNat, Nat.mod_eq_of_lt hval]
    apply clipForce_eq <;> omega
  constructor
  · rintro ⟨h, -⟩
    obtain ⟨s', hs', hforced⟩ := h (init cp.valueSize.toNat .x) (init_fits _ _) hbits
    rw [hnow] at hs'
    by_cases hfit : idx.toNat + val.1.length ≤ cp.valueSize.toNat
    · obtain ⟨s'', hs'', hat⟩ := forcePart_spec hbits (init_fits _ _) hfit
      rw [hclip hfit, hs'', Option.map_some, Option.some.injEq, Prod.mk.injEq] at hs'
      obtain ⟨-, rfl⟩ := hs'
      by_cases hnil : val.1.length = 0
      · unfold PartForceable
        omega
      · -- the bit at the index is forced, so it has to be one of the part
        have hsame := (hat.forced idx.toNat (by omega)).symm.trans
          (hforced.forced idx.toNat (by omega))
        have hcover : (thr.words cp.bitIdx0).toInt ≤ (idx.toNat : Int) ∧
            (idx.toNat : Int) < (thr.words cp.bitIdx0).toInt + val.1.length := by
          rw [decide_eq_true ⟨le_refl _, by omega⟩] at hsame
          simpa [testForceMask, init] using hsame.symm
        unfold PartForceable
        omega
    · rw [forcePart_eq_none hbits (by omega)] at hs'
      cases hs'
  · intro hright
    have hfit : idx.toNat + val.1.length ≤ cp.valueSize.toNat := by
      unfold PartForceable at hright
      omega
    have hmove : ∀ {s s' : Variable}, ForcedPart s s' val.1 idx.toNat →
        ForcedPart s s' val.1 (thr.words cp.bitIdx0).toInt := by
      intro s s' hat
      rcases hwrap with hsame | ⟨-, hneg⟩
      · exact hsame ▸ hat
      · refine hat.of_nil ?_ _
        unfold PartForceable at hright
        omega
    constructor
    · intro s hs hlen
      obtain ⟨s', hs', hat⟩ := forcePart_spec hlen hs hfit
      exact ⟨s', by rw [hnow, hclip hfit, hs', Option.map_some], hmove hat⟩
    · refine ⟨_, hdelay, fun s hs hlen => ?_⟩
      obtain ⟨s', hs', hat⟩ := (ForceEvent.runRun_spec
        ⟨idx, cp.valueSize, val, thr.words cp.bitIdx1⟩ hlen).1 hs hfit
      exact ⟨s', hs', hmove hat⟩

end Opcodes

/-- Both forced-part paths are right exactly if the part is dropped and has no bit inside the
target, lies inside it, or has no bits and a base that wraps around to one. -/
theorem force_part_right_iff (thr : Thread) (cp : PartCode)
    (val : {v : Vector4 // v.length < 2 ^ 32}) (rest : List {v : Vector4 // v.length < 2 ^ 32})
    (hst : thr.stackVec4 = val :: rest) (hflag : thr.flags 4 ≠ .one) :
    ForcesPart thr cp val rest ↔
      PartForceable cp.valueSize.toNat val.1.length (thr.words cp.bitIdx0).toInt := by
  by_cases hout : (cp.valueSize.toNat : Int) ≤ (thr.words cp.bitIdx0).toInt ∨
      (thr.words cp.bitIdx0).toInt < -cp.valueSize.toNat
  · exact forcesPart_dropped_iff hst hflag hout
  · exact forcesPart_live_iff hst hflag (by omega) (by omega)

/-- A thread about to force a value, its index registers all equal. -/
private def forcing (off : BitVec 64) (val : {v : Vector4 // v.length < 2 ^ 32}) : Thread where
  words _ := off
  flags _ := .zero
  stackVec4 := [val]
  ecount := 0

/-- Two bits at offset 1 of a target of four. -/
theorem force_part_right_inside :
    ForcesPart (forcing 1 ⟨[.one, .zero], by decide⟩) ⟨4, 5, 4⟩ [.one, .zero] [] :=
  (force_part_right_iff _ ⟨4, 5, 4⟩ ⟨[.one, .zero], by decide⟩ [] rfl (by decide)).mpr (by decide)

/-- Two bits at offset 3 of a target of four: the value is not clipped. -/
theorem not_force_part_right :
    ¬ ∀ (thr : Thread) (cp : PartCode) (val : {v : Vector4 // v.length < 2 ^ 32})
      (rest : List {v : Vector4 // v.length < 2 ^ 32}), thr.stackVec4 = val :: rest →
      thr.flags 4 ≠ .one → ForcesPart thr cp val rest := by
  intro h
  obtain ⟨hnow, -⟩ := h (forcing 3 ⟨[.one, .zero], by decide⟩) ⟨4, 5, 4⟩
    ⟨[.one, .zero], by decide⟩ [] rfl (by decide)
  obtain ⟨s', hs', -⟩ := hnow (init 4 .x) (init_fits 4 .x) (by decide)
  exact absurd (Option.isSome_iff_exists.mpr ⟨_, hs'⟩) (by decide)

end Icarus.Vvp
