import Icarus.Vvp.Bits

/-!
# Part writes of a thread

The opcodes that write a part of a vector at a signed offset. An offset may put
the part below the target, across one of its ends or past it; what is outside is
to be cut off before the write is scheduled.
-/

namespace Icarus.Vvp

instance threadWordsNeZero : NeZero 16 := ⟨by decide⟩

instance threadFlagsNeZero : NeZero 512 := ⟨by decide⟩

/-- What the part-write opcodes read of `vthread_s`. -/
structure Thread where
  /-- `words`, read as `w_int` or as `w_uint`. -/
  words : Fin 16 → BitVec 64
  /-- `flags`. -/
  flags : Fin 512 → Bit4
  /-- `stack_vec4_`, the top first; a size is an `unsigned`. -/
  stackVec4 : List {v : Vector4 // v.length < 2 ^ 32}
  /-- `ecount`. -/
  ecount : BitVec 64

/-- The operands of a part write in `vvp_code_s`. -/
structure PartCode where
  /-- `bit_idx[0]`. -/
  bitIdx0 : Fin 16
  /-- `bit_idx[1]`. -/
  bitIdx1 : Fin 16
  /-- `value_size` of the signal, or `get_word_size` of the array. -/
  valueSize : BitVec 32

/-- When a write reaches its target. -/
inductive When
  | now
  | delay (del : BitVec 64)
  | event (ecount : BitVec 64)
  deriving DecidableEq

/-- A write on its way: `base`, `vwid` and `val` of `assign_vector4_event_s` and its kin. -/
structure PartStore where
  /-- The word of an array, nothing for a net. -/
  adr : Option (BitVec 32)
  /-- `base`. -/
  base : BitVec 32
  /-- `vwid`. -/
  vwid : BitVec 32
  /-- `val`. -/
  val : Vector4
  /-- The time of the write. -/
  time : When
  deriving DecidableEq

namespace PartStore

/-- The target after the write. -/
def deliver (s : PartStore) (bits : Vector4) : Vector4 := bits.setVec s.base.toNat s.val

/-- What the write puts into a bit of the target, if it writes it. -/
def bit (s : PartStore) (t : Nat) : Option Bit4 :=
  if s.base.toNat ≤ t then s.val[t - s.base.toNat]? else none

/-- A delivered write changes the bits it has, and no others. -/
theorem getElem?_deliver (s : PartStore) (bits : Vector4) (t : Nat) :
    (s.deliver bits)[t]? = bits[t]?.map fun b => (s.bit t).getD b := by
  rw [deliver, Vector4.getElem?_setVec, bit]
  split_ifs <;> rfl

end PartStore

namespace Thread

/-- `pop_vec4`. -/
def popVec4 (thr : Thread) : Option ({v : Vector4 // v.length < 2 ^ 32} × Thread) :=
  match thr.stackVec4 with
  | [] => none
  | v :: rest => some (v, { thr with stackVec4 := rest })

end Thread

/-- The end of `resize_rval_vec`: what is above the target cut off. -/
def clipAbove (val : Vector4) (sigWid base wid : BitVec 32) (off : BitVec 64) :
    Vector4 × BitVec 64 :=
  let wid :=
    if sigWid.setWidth 64 < off + wid.setWidth 64 then (sigWid.setWidth 64 - off).setWidth 32
    else wid
  (val.subvalue base.toNat wid.toNat, off)

/-- `resize_rval_vec`: the part of the value inside the target and its offset there. -/
def resizeRvalVec (val : Vector4) (off : BitVec 64) (sigWid : BitVec 32) :
    Option (Vector4 × BitVec 64) :=
  let wid := BitVec.ofNat 32 val.length
  if 0 ≤ off.toInt ∧ off + wid.setWidth 64 ≤ sigWid.setWidth 64 then some (val, off)
  else if 0 ≤ off.toInt then
    if sigWid.setWidth 64 ≤ off then none else some (clipAbove val sigWid 0 wid off)
  else if wid.setWidth 64 ≤ -off then none
  else some (clipAbove val sigWid ((-off).setWidth 32) (wid + off.setWidth 32) 0)

/-- `of_ASSIGN_VEC4_OFF_D`. -/
def ofAssignVec4OffD (thr : Thread) (cp : PartCode) : Option (Thread × Option PartStore) := do
  let (val, thr) ← thr.popVec4
  let off := thr.words cp.bitIdx0
  let del := thr.words cp.bitIdx1
  if thr.flags 4 = .one then return (thr, none)
  match resizeRvalVec val off cp.valueSize with
  | none => return (thr, none)
  | some (val, off) => return (thr, some ⟨none, off.setWidth 32, cp.valueSize, val, .delay del⟩)

/-- `of_ASSIGN_VEC4_OFF_E`. -/
def ofAssignVec4OffE (thr : Thread) (cp : PartCode) : Option (Thread × Option PartStore) := do
  let (val, thr) ← thr.popVec4
  let off := thr.words cp.bitIdx0
  if thr.flags 4 = .one then return (thr, none)
  match resizeRvalVec val off cp.valueSize with
  | none => return (thr, none)
  | some (val, off) =>
    let time := if thr.ecount = 0 then When.delay 0 else When.event thr.ecount
    return (thr, some ⟨none, off.setWidth 32, cp.valueSize, val, time⟩)

/-- The offset into an array word: index register 0 stands for zero. -/
def arrayOff (thr : Thread) (cp : PartCode) : BitVec 64 :=
  if cp.bitIdx0 ≠ 0 then thr.words cp.bitIdx0 else 0

/-- `of_ASSIGN_VEC4_A_D`. -/
def ofAssignVec4AD (thr : Thread) (cp : PartCode) : Option (Thread × Option PartStore) := do
  let off := arrayOff thr cp
  let del := if cp.bitIdx1 ≠ 0 then thr.words cp.bitIdx1 else 0
  let adr := thr.words 3
  let (val, thr) ← thr.popVec4
  if thr.flags 4 = .one then return (thr, none)
  match resizeRvalVec val off cp.valueSize with
  | none => return (thr, none)
  | some (val, off) =>
    return (thr, some ⟨some (adr.setWidth 32), off.setWidth 32, cp.valueSize, val, .delay del⟩)

/-- `of_CASSIGN_VEC4_OFF`: clips on its own. -/
def ofCassignVec4Off (thr : Thread) (cp : PartCode) : Option (Thread × Option PartStore) := do
  let base := thr.words cp.bitIdx0
  let (val, thr) ← thr.popVec4
  let value : Vector4 := val
  let wid := BitVec.ofNat 32 value.length
  if thr.flags 4 = .one then return (thr, none)
  if base.toInt < 0 ∧ wid ≤ (-base).setWidth 32 then return (thr, none)
  if (cp.valueSize.setWidth 64).toInt ≤ base.toInt then return (thr, none)
  let (value, wid, base) :=
    if base.toInt < 0 then
      let wid := wid - (-base).setWidth 32
      (value.resize wid.toNat .x, wid, 0)
    else (value, wid, base)
  let (value, _) :=
    if cp.valueSize.setWidth 64 < base + wid.setWidth 64 then
      let wid := (cp.valueSize.setWidth 64 - base).setWidth 32
      (value.resize wid.toNat .x, wid)
    else (value, wid)
  return (thr, some ⟨none, base.setWidth 32, cp.valueSize, value, .now⟩)

/-! ## What is written -/

/-- A write that puts exactly the bits of a value into a target of a width, the value's first
bit at a signed offset. -/
def WritesBits (s : Option PartStore) (val : Vector4) (off : Int) (width : Nat) : Prop :=
  ∀ t : Nat, (s.bind fun s => s.bit t) =
    if off ≤ t ∧ t < width then val[(t - off).toNat]? else none

/-- A slice of the value, written where the slice starts, that leaves out only bits outside
the target. -/
private theorem writesBits_slice {val : Vector4} {off : Int} {width a w : Nat} {s : PartStore}
    (hval : s.val = (val.drop a).take w) (hoff : (s.base.toNat : Int) - a = off)
    (hin : s.base.toNat + w ≤ width)
    (hout : ∀ t : Nat, off ≤ t → t < width → t - off < val.length →
      s.base.toNat ≤ t ∧ t - s.base.toNat < w) :
    WritesBits (some s) val off width := by
  intro t
  rw [Option.bind_some, PartStore.bit, hval, List.getElem?_take, List.getElem?_drop]
  have hidx : s.base.toNat ≤ t → a + (t - s.base.toNat) = (t - off).toNat := by omega
  by_cases hbase : s.base.toNat ≤ t
  · rw [if_pos hbase, ← hidx hbase]
    by_cases hw : t - s.base.toNat < w
    · rw [if_pos hw, if_pos (by omega)]
    · rw [if_neg hw]
      by_cases ht : off ≤ t ∧ t < width
      · rw [if_pos ht, List.getElem?_eq_none]
        have hmiss := hout t ht.1 ht.2
        omega
      · rw [if_neg ht]
  · rw [if_neg hbase]
    by_cases ht : off ≤ t ∧ t < width
    · rw [if_pos ht, List.getElem?_eq_none]
      have hmiss := hout t ht.1 ht.2
      omega
    · rw [if_neg ht]

/-- Nothing is written if no bit is inside the target. -/
private theorem writesBits_none {val : Vector4} {off : Int} {width : Nat}
    (hout : (width : Int) ≤ off ∨ off + val.length ≤ 0) : WritesBits none val off width := by
  intro t
  by_cases ht : off ≤ t ∧ t < width
  · rw [if_pos ht, List.getElem?_eq_none (by omega)]
    rfl
  · rw [if_neg ht]
    rfl

private theorem toNat_size {val : Vector4} (hval : val.length < 2 ^ 32) :
    (BitVec.ofNat 32 val.length).toNat = val.length := by
  rw [BitVec.toNat_ofNat, Nat.mod_eq_of_lt hval]

/-- What is left after the cut above: a slice that ends with the value or with the target. -/
private theorem clipAbove_spec (val : Vector4) (sigWid base wid : BitVec 32) (off : BitVec 64)
    (hlen : base.toNat + wid.toNat = val.length) (hoff : off.toNat ≤ sigWid.toNat)
    (hedge : base.toNat = 0 ∨ off.toNat = 0)
    (adr : Option (BitVec 32)) (time : When) :
    WritesBits (some ⟨adr, (clipAbove val sigWid base wid off).2.setWidth 32, sigWid,
      (clipAbove val sigWid base wid off).1, time⟩) val ((off.toNat : Int) - base.toNat)
      sigWid.toNat := by
  have hsig := sigWid.isLt
  have hbase : (off.setWidth 32).toNat = off.toNat := by bv_omega
  apply writesBits_slice (a := base.toNat) (w := min wid.toNat (sigWid.toNat - off.toNat))
  · simp only [clipAbove]
    split_ifs with habove
    · have hcut : ((sigWid.setWidth 64 - off).setWidth 32).toNat = sigWid.toNat - off.toNat := by
        bv_omega
      rw [hcut, Vector4.subvalue_eq (by bv_omega), Nat.min_eq_right (by bv_omega)]
    · rw [Vector4.subvalue_eq (by omega), Nat.min_eq_left (by bv_omega)]
  · rw [clipAbove, hbase]
  · rw [clipAbove, hbase]
    omega
  · simp only [clipAbove, hbase]
    omega

/-- The part kept is the part inside the target. -/
private theorem resizeRvalVec_spec {val : Vector4} (hval : val.length < 2 ^ 32) (off : BitVec 64)
    (sigWid : BitVec 32) (adr : Option (BitVec 32)) (time : When) :
    WritesBits ((resizeRvalVec val off sigWid).map fun p =>
      ⟨adr, p.2.setWidth 32, sigWid, p.1, time⟩) val off.toInt sigWid.toNat := by
  have hoff := BitVec.toInt_eq_toNat_cond off
  have hwid := toNat_size hval
  have hsig := sigWid.isLt
  rw [resizeRvalVec]
  generalize BitVec.ofNat 32 val.length = wid at hwid
  split_ifs with hin hpos hout hbelow
  · -- the whole value
    apply writesBits_slice (a := 0) (w := val.length)
    · rw [List.drop_zero, List.take_length]
    all_goals
      simp only
      bv_omega
  · apply writesBits_none
    bv_omega
  · have hspec := clipAbove_spec val sigWid 0 wid off (by bv_omega) (by bv_omega) (.inl rfl)
      adr time
    have hint : (off.toNat : Int) - (0 : BitVec 32).toNat = off.toInt := by bv_omega
    rwa [hint] at hspec
  · apply writesBits_none
    bv_omega
  · have hspec := clipAbove_spec val sigWid ((-off).setWidth 32) (wid + off.setWidth 32) 0
      (by bv_omega) (by bv_omega) (.inr rfl) adr time
    have hint : ((0 : BitVec 64).toNat : Int) - ((-off).setWidth 32).toNat = off.toInt := by
      bv_omega
    rwa [hint] at hspec

/-! ## The opcodes -/

/-- The number of low bits `%cassign/vec4/off` cuts off for a base below zero: the distance
from zero, as an `unsigned`. -/
def belowCut (base : BitVec 64) : Nat := (-base).toNat % 2 ^ 32

/-- The opcode has popped its value and scheduled the write of that value. -/
def PopsAndWrites (r : Option (Thread × Option PartStore)) (thr : Thread) (val : Vector4)
    (rest : List {v : Vector4 // v.length < 2 ^ 32}) (off : Int) (width : Nat) : Prop :=
  ∃ s, r = some ({ thr with stackVec4 := rest }, s) ∧ WritesBits s val off width

section Opcodes

variable {thr : Thread} (cp : PartCode) {val : {v : Vector4 // v.length < 2 ^ 32}}
  {rest : List {v : Vector4 // v.length < 2 ^ 32}} (hst : thr.stackVec4 = val :: rest)
  (hflag : thr.flags 4 ≠ .one)
include hst hflag

private theorem ofAssignVec4OffD_spec :
    PopsAndWrites (ofAssignVec4OffD thr cp) thr val rest (thr.words cp.bitIdx0).toInt
      cp.valueSize.toNat := by
  have hspec := resizeRvalVec_spec val.2 (thr.words cp.bitIdx0) cp.valueSize none
    (.delay (thr.words cp.bitIdx1))
  refine ⟨_, ?_, hspec⟩
  rw [ofAssignVec4OffD, Thread.popVec4, hst]
  simp only [Option.bind_eq_bind, Option.bind_some, if_neg hflag]
  cases resizeRvalVec val.1 (thr.words cp.bitIdx0) cp.valueSize <;> rfl

private theorem ofAssignVec4OffE_spec :
    PopsAndWrites (ofAssignVec4OffE thr cp) thr val rest (thr.words cp.bitIdx0).toInt
      cp.valueSize.toNat := by
  have hspec := resizeRvalVec_spec val.2 (thr.words cp.bitIdx0) cp.valueSize none
    (if thr.ecount = 0 then .delay 0 else .event thr.ecount)
  refine ⟨_, ?_, hspec⟩
  rw [ofAssignVec4OffE, Thread.popVec4, hst]
  simp only [Option.bind_eq_bind, Option.bind_some, if_neg hflag]
  cases resizeRvalVec val.1 (thr.words cp.bitIdx0) cp.valueSize <;> rfl

private theorem ofAssignVec4AD_spec :
    PopsAndWrites (ofAssignVec4AD thr cp) thr val rest (arrayOff thr cp).toInt
      cp.valueSize.toNat := by
  have hspec := resizeRvalVec_spec val.2 (arrayOff thr cp) cp.valueSize
    (some ((thr.words 3).setWidth 32))
    (.delay (if cp.bitIdx1 ≠ 0 then thr.words cp.bitIdx1 else 0))
  refine ⟨_, ?_, hspec⟩
  rw [ofAssignVec4AD, Thread.popVec4, hst]
  simp only [Option.bind_eq_bind, Option.bind_some, if_neg hflag]
  cases resizeRvalVec val.1 (arrayOff thr cp) cp.valueSize <;> rfl

/-- `%cassign/vec4/off` at a base inside the target or above it. -/
private theorem ofCassignVec4Off_nonneg (hbase : 0 ≤ (thr.words cp.bitIdx0).toInt) :
    PopsAndWrites (ofCassignVec4Off thr cp) thr val rest (thr.words cp.bitIdx0).toInt
      cp.valueSize.toNat := by
  have hlen := toNat_size val.2
  have hval := val.2
  have hsig := cp.valueSize.isLt
  have hoff := BitVec.toInt_eq_toNat_cond (thr.words cp.bitIdx0)
  have hint : (cp.valueSize.setWidth 64).toInt = cp.valueSize.toNat := by
    rw [BitVec.toInt_eq_toNat_of_lt] <;> bv_omega
  rw [ofCassignVec4Off, Thread.popVec4, hst]
  simp only [Option.bind_eq_bind, Option.bind_some, if_neg hflag]
  generalize BitVec.ofNat 32 val.1.length = wid at hlen
  generalize thr.words cp.bitIdx0 = base at hbase hoff
  rw [if_neg (by omega), hint]
  by_cases hout : (cp.valueSize.toNat : Int) ≤ base.toInt
  · rw [if_pos hout]
    exact ⟨none, rfl, writesBits_none (.inl hout)⟩
  · have hbase32 : (base.setWidth 32).toNat = base.toNat := by bv_omega
    rw [if_neg hout, if_neg (by omega)]
    refine ⟨_, rfl, ?_⟩
    apply writesBits_slice (a := 0) (w := min wid.toNat (cp.valueSize.toNat - base.toNat))
    · rw [List.drop_zero]
      split_ifs with habove
      · have hcut : ((cp.valueSize.setWidth 64 - base).setWidth 32).toNat =
            cp.valueSize.toNat - base.toNat := by
          bv_omega
        simp only [hcut]
        rw [Vector4.resize_eq (by bv_omega), Nat.min_eq_right (by bv_omega)]
      · rw [Nat.min_eq_left (by bv_omega), List.take_of_length_le (by omega)]
    all_goals
      simp only [hbase32]
      bv_omega

/-- `%cassign/vec4/off` below the target: what it drops, and the low bits it writes otherwise. -/
private theorem ofCassignVec4Off_neg (hbase : (thr.words cp.bitIdx0).toInt < 0) :
    ∃ s, ofCassignVec4Off thr cp = some ({ thr with stackVec4 := rest }, s) ∧
      (val.1.length ≤ belowCut (thr.words cp.bitIdx0) → s = none) ∧
      (belowCut (thr.words cp.bitIdx0) < val.1.length → ∃ st, s = some st ∧ st.base = 0 ∧
        st.val = val.1.take (min (val.1.length - belowCut (thr.words cp.bitIdx0))
          cp.valueSize.toNat)) := by
  have hlen := toNat_size val.2
  have hval := val.2
  have hsig := cp.valueSize.isLt
  have hint : (cp.valueSize.setWidth 64).toInt = cp.valueSize.toNat := by
    rw [BitVec.toInt_eq_toNat_of_lt] <;> bv_omega
  have hcut : ((-thr.words cp.bitIdx0).setWidth 32).toNat = belowCut (thr.words cp.bitIdx0) := by
    rw [BitVec.toNat_setWidth, belowCut]
  rw [ofCassignVec4Off, Thread.popVec4, hst]
  simp only [Option.bind_eq_bind, Option.bind_some, if_neg hflag]
  generalize BitVec.ofNat 32 val.1.length = wid at hlen
  generalize thr.words cp.bitIdx0 = base at hbase hcut
  by_cases hdrop : wid ≤ (-base).setWidth 32
  · rw [if_pos ⟨hbase, hdrop⟩]
    refine ⟨none, rfl, fun _ => rfl, fun hk => ?_⟩
    bv_omega
  · rw [if_neg fun h => hdrop h.2, if_neg (by omega), if_pos hbase]
    refine ⟨_, rfl, fun hk => ?_, fun hk => ⟨_, rfl, ?_, ?_⟩⟩
    · bv_omega
    · rfl
    · have hwid : (wid - (-base).setWidth 32).toNat = val.1.length - belowCut base := by bv_omega
      simp only [hwid]
      split_ifs with habove
      · have hcut' : ((cp.valueSize.setWidth 64 - 0).setWidth 32).toNat = cp.valueSize.toNat := by
          bv_omega
        simp only [hcut']
        rw [Vector4.resize_eq (v := val.1) (by omega), Vector4.resize_eq, List.take_take,
          Nat.min_comm]
        rw [List.length_take]
        bv_omega
      · rw [Vector4.resize_eq (by omega), Nat.min_eq_left (by bv_omega)]

end Opcodes

/-- The inputs on which `%cassign/vec4/off` clips as its siblings do: a base not below zero, a
value dropped whole, a target of no width, or high bits of the value equal to the low bits
written in their place. -/
def CassignClips (val : Vector4) (base : BitVec 64) (width : Nat) : Prop :=
  0 ≤ base.toInt ∨ val.length ≤ belowCut base ∨ width = 0 ∨
    (-base.toInt < val.length ∧ ∀ j : Nat, j < width → j - base.toInt < val.length →
      val[j]? = val[(j - base.toInt).toNat]?)

private theorem belowCut_eq {base : BitVec 64} (hbase : base.toInt < 0)
    (hlt : -base.toInt < 2 ^ 32) : (belowCut base : Int) = -base.toInt := by
  have hint := BitVec.toInt_eq_toNat_cond base
  rw [belowCut]
  bv_omega

private theorem belowCut_le {base : BitVec 64} (hbase : base.toInt < 0) :
    (belowCut base : Int) ≤ -base.toInt := by
  have hint := BitVec.toInt_eq_toNat_cond base
  rw [belowCut]
  bv_omega

/-- Low bits written at zero for a base below zero are right exactly if nothing tells them from
the high bits. -/
private theorem writesBits_low_iff {val : Vector4} (hval : val.length < 2 ^ 32) {base : BitVec 64}
    (hbase : base.toInt < 0) {width : Nat} (hk : belowCut base < val.length) {s : PartStore}
    (hsbase : s.base = 0) (hsval : s.val = val.take (min (val.length - belowCut base) width)) :
    WritesBits (some s) val base.toInt width ↔ CassignClips val base width := by
  have hbit : ∀ t, s.bit t =
      if t < min (val.length - belowCut base) width then val[t]? else none := by
    intro t
    have hzero : s.base.toNat = 0 := by rw [hsbase]; rfl
    rw [PartStore.bit, hzero, if_pos (Nat.zero_le t), hsval, List.getElem?_take, Nat.sub_zero]
  simp only [WritesBits, Option.bind_some, hbit, CassignClips]
  constructor
  · intro h
    by_cases hwidth : width = 0
    · exact .inr (.inr (.inl hwidth))
    · have hzero := h 0
      rw [if_pos (by omega), if_pos (by omega), List.getElem?_eq_getElem (by omega), eq_comm,
        List.getElem?_eq_some_iff] at hzero
      obtain ⟨hin, -⟩ := hzero
      have hcut := belowCut_eq hbase (by omega)
      refine .inr (.inr (.inr ⟨by omega, fun j hj hjv => ?_⟩))
      have hj' := h j
      rwa [if_pos (by omega), if_pos (by omega)] at hj'
  · rintro (h | h | h | ⟨hin, hsame⟩) t
    · omega
    · omega
    · rw [if_neg (by omega), if_neg (by omega)]
    · have hcut := belowCut_eq hbase (by omega)
      by_cases ht : t < width
      · by_cases htv : t - base.toInt < val.length
        · rw [if_pos (by omega), if_pos (by omega), hsame t ht htv]
        · rw [if_neg (by omega), if_pos (by omega), List.getElem?_eq_none (by omega)]
      · rw [if_neg (by omega), if_neg (by omega)]

/-- Every part-write opcode cuts off what is outside its target, except that
`%cassign/vec4/off` keeps the wrong bits of a value that straddles bit zero. -/
theorem part_writes_correct_iff (thr : Thread) (cp : PartCode)
    (val : {v : Vector4 // v.length < 2 ^ 32}) (rest : List {v : Vector4 // v.length < 2 ^ 32})
    (hst : thr.stackVec4 = val :: rest) (hflag : thr.flags 4 ≠ .one) :
    PopsAndWrites (ofAssignVec4OffD thr cp) thr val rest (thr.words cp.bitIdx0).toInt
        cp.valueSize.toNat ∧
      PopsAndWrites (ofAssignVec4OffE thr cp) thr val rest (thr.words cp.bitIdx0).toInt
        cp.valueSize.toNat ∧
      PopsAndWrites (ofAssignVec4AD thr cp) thr val rest (arrayOff thr cp).toInt
        cp.valueSize.toNat ∧
      (PopsAndWrites (ofCassignVec4Off thr cp) thr val rest (thr.words cp.bitIdx0).toInt
          cp.valueSize.toNat ↔
        CassignClips val (thr.words cp.bitIdx0) cp.valueSize.toNat) := by
  refine ⟨ofAssignVec4OffD_spec cp hst hflag, ofAssignVec4OffE_spec cp hst hflag,
    ofAssignVec4AD_spec cp hst hflag, ?_⟩
  rcases le_or_gt 0 (thr.words cp.bitIdx0).toInt with hbase | hbase
  · exact iff_of_true (ofCassignVec4Off_nonneg cp hst hflag hbase) (.inl hbase)
  · obtain ⟨s, hs, hdrop, hlow⟩ := ofCassignVec4Off_neg cp hst hflag hbase
    have hpops : PopsAndWrites (ofCassignVec4Off thr cp) thr val rest
        (thr.words cp.bitIdx0).toInt cp.valueSize.toNat ↔
        WritesBits s val (thr.words cp.bitIdx0).toInt cp.valueSize.toNat := by
      rw [PopsAndWrites, hs]
      constructor
      · rintro ⟨s', hs', hw⟩
        rw [Option.some.injEq, Prod.mk.injEq] at hs'
        rwa [hs'.2]
      · exact fun hw => ⟨s, rfl, hw⟩
    rw [hpops]
    by_cases hk : val.1.length ≤ belowCut (thr.words cp.bitIdx0)
    · rw [hdrop hk]
      have hle := belowCut_le hbase
      exact iff_of_true (writesBits_none (.inr (by omega))) (.inr (.inl hk))
    · obtain ⟨st, rfl, hsbase, hsval⟩ := hlow (by omega)
      exact writesBits_low_iff val.2 hbase (by omega) hsbase hsval

/-- A thread about to write a value, its index registers all equal. -/
private def threadAt (off : BitVec 64) (val : {v : Vector4 // v.length < 2 ^ 32}) : Thread where
  words _ := off
  flags _ := .zero
  stackVec4 := [val]
  ecount := 0

/-- Two bits at offset -1 of a target of two bits, the high one alike the low one. -/
theorem part_writes_example :
    PopsAndWrites (ofCassignVec4Off (threadAt (-1) ⟨[.one, .one], by decide⟩) ⟨4, 5, 2⟩)
      (threadAt (-1) ⟨[.one, .one], by decide⟩) [.one, .one] [] (-1) 2 := by
  have hiff := part_writes_correct_iff (threadAt (-1) ⟨[.one, .one], by decide⟩) ⟨4, 5, 2⟩
    ⟨[.one, .one], by decide⟩ [] rfl (by decide)
  apply hiff.2.2.2.mpr
  refine .inr (.inr (.inr ⟨by decide, fun j hj hjv => ?_⟩))
  have hj0 : j = 0 := by
    have hint : (threadAt (-1) ⟨[.one, .one], by decide⟩).words 4 = -1 := rfl
    have hval : ((-1 : BitVec 64)).toInt = -1 := by decide
    simp only [hint, hval, List.length_cons, List.length_nil] at hjv
    omega
  rw [hj0]
  rfl

/-- The value 10 at offset -1 of a target of one bit: the low bit is written for the high one. -/
theorem cassign_keeps_low_bits :
    ¬ ∀ (thr : Thread) (cp : PartCode) (val : {v : Vector4 // v.length < 2 ^ 32})
      (rest : List {v : Vector4 // v.length < 2 ^ 32}), thr.stackVec4 = val :: rest →
      thr.flags 4 ≠ .one →
      PopsAndWrites (ofCassignVec4Off thr cp) thr val rest (thr.words cp.bitIdx0).toInt
        cp.valueSize.toNat := by
  intro h
  obtain ⟨s, hs, hw⟩ := h (threadAt (-1) ⟨[.zero, .one], by decide⟩) ⟨4, 5, 1⟩
    ⟨[.zero, .one], by decide⟩ [] rfl (by decide)
  have hsent : (ofCassignVec4Off (threadAt (-1) ⟨[.zero, .one], by decide⟩) ⟨4, 5, 1⟩).map
      Prod.snd = some (some ⟨none, 0, 1, [.zero], .now⟩) := by
    decide
  rw [hs, Option.map_some, Option.some.injEq] at hsent
  dsimp only at hsent
  have hzero := hw 0
  rw [hsent] at hzero
  exact absurd hzero (by decide)

end Icarus.Vvp
