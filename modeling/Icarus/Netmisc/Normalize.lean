import Icarus.Verinum.Native

/-!
# Variable bases of selects

A select with a base that is not known before the simulation is normalized: the
declared range is subtracted, and width and sign of the arithmetic are chosen so
that the offset is exact. Native integers are `long`; signed arithmetic that
overflows is `none`.
-/

namespace Icarus

open Icarus.Core

namespace Verinum

/-- The constructor from a native unsigned integer. -/
def ofUint64 (val : BitVec 64) (nbits : Nat) : Verinum :=
  ⟨nativeBits (· >>> 1) nbits val, true, false, false, false⟩

/-- `pad_to_width` of a number. A string is written out and read back, bit by bit the same. -/
def padToWidth (that : Verinum) (width : Nat) : Verinum :=
  if width ≤ that.len then that
  else if that.len = 0 then { fill .v0 width that.hasLen with hasSign := that.hasSign }
  else
    let pad := that.get (that.len - 1)
    let pad := if pad = .v1 ∧ !that.hasSign ∧ !that.isSingle then .v0 else pad
    let pad := if that.hasLen ∧ !that.hasSign ∧ !that.isSingle ∧ (pad = .vx ∨ pad = .vz) then .v0
      else pad
    let val : Verinum := { ofBits (extend that.bits pad width) that.hasLen with
      hasSign := that.hasSign }
    if that.isString ∧ width % 8 = 0 then
      ⟨val.bits.map fun b => if b = .v1 then .v1 else .v0, true, false, false, true⟩
    else val

end Verinum

namespace Netmisc

/-- The operators of `NetEBAdd`. -/
inductive AddOp
  | plus
  | minus
  deriving DecidableEq

/-- The expressions of a normalized base. -/
inductive NetExpr
  /-- An expression that is not a constant, by width and sign. -/
  | other (width : Nat) (hasSign : Bool)
  /-- `NetEConst`. -/
  | const (value : Verinum)
  /-- `NetESelect` without a base. -/
  | select (expr : NetExpr) (width : Nat) (hasSign : Bool)
  /-- `NetEBAdd`. -/
  | add (op : AddOp) (left right : NetExpr) (width : Nat) (hasSign : Bool)

namespace NetExpr

/-- `expr_width`. -/
def width : NetExpr → Nat
  | other width _ => width
  | const value => value.len
  | select _ width _ => width
  | add _ _ _ width _ => width

/-- `has_sign`. -/
def hasSign : NetExpr → Bool
  | other _ hasSign => hasSign
  | const value => value.hasSign
  | select _ _ hasSign => hasSign
  | add _ _ _ _ hasSign => hasSign

/-- `cast_signed`. -/
def castSigned (flag : Bool) : NetExpr → NetExpr
  | other width _ => other width flag
  | const value => const { value with hasSign := flag }
  | select expr width _ => select expr width flag
  | add op left right width _ => add op left right width flag

/-- `pad_to_width`. -/
def padToWidth (expr : NetExpr) (wid : Nat) (signedFlag : Bool) : NetExpr :=
  if wid ≤ expr.width then expr.castSigned signedFlag
  else match expr with
    | const value => const ({ value with hasSign := signedFlag }.padToWidth wid)
    | expr => select expr wid signedFlag

end NetExpr

/-- The integers of `long`. -/
def IsLong (z : Int) : Prop := -2 ^ 63 ≤ z ∧ z < 2 ^ 63

instance (z : Int) : Decidable (IsLong z) := inferInstanceAs (Decidable (_ ∧ _))

/-- The result of signed arithmetic. -/
def long (z : Int) : Option Int := if IsLong z then some z else none

/-- The loop of `num_bits`, for an argument of so many bits. -/
def numBitsLoop : Nat → Int → Nat
  | 0, _ => 0
  | fuel + 1, arg => if arg = 0 then 0 else numBitsLoop fuel (arg / 2) + 1

/-- `num_bits`. -/
def numBits (arg : Int) : Option Nat :=
  if arg < 0 then do
    let arg := (← long (-arg)) - 1
    return 1 + numBitsLoop 64 arg
  else some (numBitsLoop 64 arg)

/-- `make_add_expr` with a constant. -/
def makeAddExpr (expr : NetExpr) (val : Int) : Option NetExpr :=
  if val = 0 then some expr
  else do
    let (op, val) ← if val < 0 then (long (-val)).map fun val => (AddOp.minus, val)
      else some (AddOp.plus, val)
    let valV := { Verinum.ofUint64 (BitVec.ofInt 64 val) expr.width with hasSign := expr.hasSign }
    return .add op expr (.const valV) expr.width expr.hasSign

/-- `make_sub_expr` from a constant. -/
def makeSubExpr (val : Int) (expr : NetExpr) : NetExpr :=
  let valV := { Verinum.ofUint64 (BitVec.ofInt 64 val) expr.width with hasSign := expr.hasSign }
  .add .minus (.const valV) expr expr.width expr.hasSign

/-- The canonical offset of `normalize_variable_base`; the width is unsigned, so its subtraction
wraps around. -/
def canonicalOffset (msb lsb : Int) (wid : Nat) (isUp : Bool) (soff : Int) : Option Int :=
  if msb < lsb then do
    let offset : Int ← long (soff + lsb)
    return if isUp then (offset - (wid - 1 : Nat)).bmod (2 ^ 64) else offset
  else do
    let offset : Int ← long (soff - lsb)
    return if isUp then offset else (offset - (wid - 1 : Nat)).bmod (2 ^ 64)

/-- `add_base_sign` of `normalize_variable_base`. -/
def addBaseSign (msbLo hasSign : Bool) (baseWid offWid : Nat) (offset : Int) : Bool :=
  !hasSign ∧ (offset < 0 ∨ (msbLo ∧ offWid ≤ baseWid))

/-- `add_off_sign` of `normalize_variable_base`. -/
def addOffSign (msbLo hasSign : Bool) (baseWid offWid : Nat) (offset : Int) : Bool :=
  0 ≤ offset ∧ (hasSign ∨ addBaseSign msbLo hasSign baseWid offWid offset)

/-- `min_wid` of `normalize_variable_base`. -/
def minWid (msbLo hasSign : Bool) (baseWid offWid : Nat) (offset : Int) : Nat :=
  1 + max (offWid + (addOffSign msbLo hasSign baseWid offWid offset).toNat)
    (baseWid + (addBaseSign msbLo hasSign baseWid offWid offset).toNat)

/-- The padding of `normalize_variable_base`. -/
def padBase (base : NetExpr) (msbLo : Bool) (offWid : Nat) (offset : Int) : NetExpr :=
  let m := minWid msbLo base.hasSign base.width offWid offset
  if addBaseSign msbLo base.hasSign base.width offWid offset then
    .select (base.padToWidth m base.hasSign) m true
  else base.padToWidth m base.hasSign

/-- `normalize_variable_base`. -/
def normalizeVariableBase (base : NetExpr) (msb lsb : Int) (wid : Nat) (isUp : Bool) (soff : Int) :
    Option NetExpr := do
  let offset ← canonicalOffset msb lsb wid isUp soff
  if ¬ msb < lsb ∧ offset = 0 then return base
  let offWid ← numBits offset
  let base := padBase base (msb < lsb) offWid offset
  if msb < lsb then return makeSubExpr offset base else makeAddExpr base offset

/-! ## The value -/

namespace NetExpr

/-- The number that an expression evaluates to where the part that is not constant is `x`. -/
def eval (x : Nat) : NetExpr → Nat
  | other _ _ => x
  | const value => Verinum.number value.bits
  | select expr width hasSign =>
    if width = expr.width then expr.eval x
    else (TwosComplement.reading hasSign expr.width (expr.eval x) % 2 ^ width).toNat
  | add .plus left right width _ => (left.eval x + right.eval x) % 2 ^ width
  | add .minus left right width _ => (((left.eval x : Int) - right.eval x) % 2 ^ width).toNat

/-- The integer, at the width and sign of the expression. -/
def toInt (x : Nat) (e : NetExpr) : Int := TwosComplement.reading e.hasSign e.width (e.eval x)

/-- No addition, subtraction or padding overflows. -/
def Exact (x : Nat) : NetExpr → Prop
  | other _ _ | const _ => True
  | e@(select expr _ _) => expr.Exact x ∧ e.toInt x = expr.toInt x
  | e@(add .plus left right _ _) =>
    left.Exact x ∧ right.Exact x ∧ e.toInt x = left.toInt x + right.toInt x
  | e@(add .minus left right _ _) =>
    left.Exact x ∧ right.Exact x ∧ e.toInt x = left.toInt x - right.toInt x

/-- A base of a width and a sign: an expression that is not constant, or a number without X and Z
bits and of no special kind. -/
def IsBase (width : Nat) (hasSign : Bool) : NetExpr → Prop
  | other w s => w = width ∧ s = hasSign
  | const v => v.len = width ∧ v.hasSign = hasSign ∧ v.isDefined ∧ !v.isSingle ∧ !v.isString
  | _ => False

end NetExpr

/-! ## Numbers -/

private theorem toNat_ofInt (z : Int) : ((BitVec.ofInt 64 z).toNat : Int) = z % 2 ^ 64 := by
  rw [BitVec.toNat_ofInt, Int.toNat_of_nonneg (Int.emod_nonneg _ (by norm_num))]
  rfl

/-- A native unsigned integer is written with any integer that it is congruent to. -/
theorem toInt_ofUint64 {s : Bool} {n : Nat} {v : BitVec 64} {z : Int} (hn : 0 < n)
    (hz : TwosComplement.InRange s n z) (hmod : (v.toNat : Int) ≡ z [ZMOD 2 ^ n]) :
    ({ Verinum.ofUint64 v n with hasSign := s } : Verinum).toInt = z := by
  have hlen : (Verinum.nativeBits (· >>> 1) n v).length = n := Verinum.length_nativeBits _ n _
  have hlt := Verinum.number_lt (Verinum.nativeBits (· >>> 1) n v)
  rw [hlen] at hlt
  rw [Verinum.toInt, Verinum.len, Verinum.ofUint64, hlen]
  refine TwosComplement.reading_eq hn hlt hz ?_
  rw [Verinum.number_nativeBits_ushiftRight]
  push_cast
  exact (Int.mod_modEq _ _).trans hmod

/-- A native integer is written exactly if it is not negative or no wider than it is. -/
theorem toInt_ofUint64_ofInt {s : Bool} {n : Nat} {z : Int} (hn : 0 < n)
    (hz : TwosComplement.InRange s n z) (hlong : z < 2 ^ 63) (hneg : z < 0 → n ≤ 64) :
    ({ Verinum.ofUint64 (BitVec.ofInt 64 z) n with hasSign := s } : Verinum).toInt = z := by
  refine toInt_ofUint64 hn hz ?_
  rw [toNat_ofInt]
  rcases Int.lt_or_le z 0 with h | h
  · exact (Int.mod_modEq z _).of_dvd (pow_dvd_pow 2 (hneg h))
  · rw [Int.emod_eq_of_lt h (by omega)]

/-- A negative native integer is written as a positive one where there is room for it. -/
theorem toInt_ofUint64_wide {n : Nat} {z : Int} (hn : 64 < n) (hneg : z < 0)
    (hlong : -2 ^ 63 ≤ z) :
    ({ Verinum.ofUint64 (BitVec.ofInt 64 z) n with hasSign := true } : Verinum).toInt =
      z + 2 ^ 64 := by
  have hpow : (2 : Int) ^ 64 ≤ 2 ^ (n - 1) := pow_le_pow_right₀ (by norm_num) (by omega)
  refine toInt_ofUint64 (by omega) ?_ ?_
  · rw [TwosComplement.InRange, if_pos rfl]
    constructor <;> omega
  · rw [toNat_ofInt, ← Int.add_emod_right, Int.emod_eq_of_lt (by omega) (by omega)]

/-- A number of no special kind is padded with its sign. -/
theorem padToWidth_eq {v : Verinum} {wid : Nat} (hlen : 0 < v.len) (hwid : ¬ wid ≤ v.len)
    (hdefined : v.isDefined) (hsingle : v.isSingle = false) (hstring : v.isString = false) :
    v.padToWidth wid = { Verinum.ofBits (Verinum.extend v.bits v.signBit wid) v.hasLen with
      hasSign := v.hasSign } := by
  have hknown := (v.isDefined_iff.mp hdefined) (v.get (v.len - 1)) (by
    rw [Verinum.get, List.getD_eq_getElem?_getD,
      List.getElem?_eq_getElem (show v.len - 1 < v.bits.length from Nat.sub_one_lt_of_lt hlen)]
    exact List.getElem_mem _)
  rw [Verinum.padToWidth, if_neg hwid, if_neg hlen.ne', Verinum.signBit]
  cases hsign : v.hasSign <;> rcases hknown with hbit | hbit <;>
    simp [hsingle, hstring, hbit]

/-- Padding a number of no special kind keeps its integer. -/
theorem toInt_padToWidth {v : Verinum} {wid : Nat} (hlen : 0 < v.len) (hwid : v.len ≤ wid)
    (hdefined : v.isDefined) (hsingle : v.isSingle = false) (hstring : v.isString = false) :
    (v.padToWidth wid).toInt = v.toInt ∧ (v.padToWidth wid).len = wid ∧
      (v.padToWidth wid).hasSign = v.hasSign := by
  by_cases hle : wid ≤ v.len
  · rw [Verinum.padToWidth, if_pos hle]
    exact ⟨rfl, by omega, rfl⟩
  · have hpad := padToWidth_eq hlen hle hdefined hsingle hstring
    have hl : (v.padToWidth wid).len = wid := by
      rw [hpad]
      exact Verinum.length_extend _ _ _
    have hs : (v.padToWidth wid).hasSign = v.hasSign := by rw [hpad]
    refine ⟨Verinum.toInt_of_extend hs hlen (by omega) ?_, hl, hs⟩
    rw [hl, hpad]
    rfl

/-! ## Sums -/

/-- The expression has a width and a sign and evaluates to an integer without overflow. -/
structure Computes (x m : Nat) (s : Bool) (z : Int) (e : NetExpr) : Prop where
  /-- The width. -/
  width : e.width = m
  /-- The sign. -/
  hasSign : e.hasSign = s
  /-- The value is a number of that width. -/
  eval_lt : e.eval x < 2 ^ m
  /-- Nothing overflows. -/
  exact : e.Exact x
  /-- The integer. -/
  toInt : e.toInt x = z

namespace Computes

variable {x m : Nat} {s : Bool} {y z : Int} {l r e : NetExpr}

theorem modEq (h : Computes x m s z e) : (e.eval x : Int) ≡ z [ZMOD 2 ^ m] := by
  have hmod := TwosComplement.reading_modEq e.hasSign e.width (e.eval x)
  rw [← NetExpr.toInt, h.toInt, h.width] at hmod
  exact hmod.symm

theorem inRange (h : Computes x m s z e) (hm : 0 < m) : TwosComplement.InRange s m z := by
  have hrange := TwosComplement.reading_inRange e.hasSign (h.width.symm ▸ hm)
    (h.width.symm ▸ h.eval_lt)
  rwa [← NetExpr.toInt, h.toInt, h.width, h.hasSign] at hrange

theorem emod_toNat_lt (z : Int) (m : Nat) : (z % 2 ^ m).toNat < 2 ^ m := by
  have hpos : (0 : Int) < 2 ^ m := pow_pos (by norm_num) m
  have hlt := Int.emod_lt_of_pos z hpos
  rw [Int.toNat_lt (Int.emod_nonneg z hpos.ne')]
  exact_mod_cast hlt

theorem emod_toNat_modEq (z : Int) (m : Nat) :
    ((z % 2 ^ m).toNat : Int) ≡ z [ZMOD 2 ^ m] := by
  rw [Int.toNat_of_nonneg (Int.emod_nonneg z (pow_ne_zero m (by norm_num)))]
  exact Int.mod_modEq z _

/-- A constant has the integer of its number. -/
theorem const {v : Verinum} (hlen : v.len = m) (hsign : v.hasSign = s) (hz : v.toInt = z) :
    Computes x m s z (.const v) where
  width := hlen
  hasSign := hsign
  eval_lt := hlen ▸ Verinum.number_lt v.bits
  exact := trivial
  toInt := hz

/-- Padding by the own sign keeps the integer. -/
theorem pad {w : Nat} (h : Computes x w s z e) (hw : 0 < w) (hlt : w < m) :
    Computes x m s z (.select e m s) := by
  have hne : m ≠ e.width := by
    rw [h.width]
    omega
  have hread : TwosComplement.reading s e.width (e.eval x) = z := by
    rw [← h.toInt, NetExpr.toInt, h.hasSign]
  have heval : (NetExpr.select e m s).eval x = (z % 2 ^ m).toNat := by
    rw [NetExpr.eval, if_neg hne, hread]
  have hz : (NetExpr.select e m s).toInt x = z := by
    rw [NetExpr.toInt, heval]
    exact TwosComplement.reading_eq (by omega : 0 < m) (emod_toNat_lt z m)
      ((h.inRange hw).mono hlt.le) (emod_toNat_modEq z m)
  exact ⟨rfl, rfl, heval ▸ emod_toNat_lt z m, ⟨h.exact, hz.trans h.toInt.symm⟩, hz⟩

/-- An unsigned expression that leaves the sign bit clear may be taken as signed. -/
theorem hideSign (h : Computes x m false z e) (hz : z < 2 ^ (m - 1)) :
    Computes x m true z (.select e m true) := by
  have hnum : (e.eval x : Int) = z := by
    rw [← h.toInt, NetExpr.toInt, h.hasSign, TwosComplement.reading_unsigned]
  have heval : (NetExpr.select e m true).eval x = e.eval x := by
    rw [NetExpr.eval, if_pos h.width.symm]
  have hlow : e.eval x < 2 ^ (m - 1) := by
    rw [← hnum] at hz
    exact_mod_cast hz
  have htoInt : (NetExpr.select e m true).toInt x = z := by
    rw [NetExpr.toInt, heval, ← hnum]
    exact TwosComplement.reading_of_lt hlow
  exact ⟨rfl, rfl, heval ▸ h.eval_lt, ⟨h.exact, htoInt.trans h.toInt.symm⟩, htoInt⟩

/-- A sum that is in range is exact. -/
theorem add (hm : 0 < m) (hl : Computes x m s y l) (hr : Computes x m s z r)
    (hrange : TwosComplement.InRange s m (y + z)) :
    Computes x m s (y + z) (.add .plus l r m s) := by
  have hlt : (NetExpr.add .plus l r m s).eval x < 2 ^ m := Nat.mod_lt _ (Nat.two_pow_pos m)
  have hmod : ((NetExpr.add .plus l r m s).eval x : Int) ≡ y + z [ZMOD 2 ^ m] := by
    rw [NetExpr.eval]
    push_cast
    exact (Int.mod_modEq _ _).trans (hl.modEq.add hr.modEq)
  have htoInt : (NetExpr.add .plus l r m s).toInt x = y + z :=
    TwosComplement.reading_eq hm hlt hrange hmod
  exact ⟨rfl, rfl, hlt, ⟨hl.exact, hr.exact, by rw [htoInt, hl.toInt, hr.toInt]⟩, htoInt⟩

/-- The value of a difference, exact or not. -/
theorem sub_modEq (hl : Computes x m s y l) (hr : Computes x m s z r) :
    (NetExpr.add .minus l r m s).eval x < 2 ^ m ∧
      ((NetExpr.add .minus l r m s).eval x : Int) ≡ y - z [ZMOD 2 ^ m] := by
  rw [NetExpr.eval]
  exact ⟨emod_toNat_lt _ m, (emod_toNat_modEq _ m).trans (hl.modEq.sub hr.modEq)⟩

/-- A difference that is in range is exact. -/
theorem sub (hm : 0 < m) (hl : Computes x m s y l) (hr : Computes x m s z r)
    (hrange : TwosComplement.InRange s m (y - z)) :
    Computes x m s (y - z) (.add .minus l r m s) := by
  obtain ⟨hlt, hmod⟩ := hl.sub_modEq hr
  have htoInt : (NetExpr.add .minus l r m s).toInt x = y - z :=
    TwosComplement.reading_eq hm hlt hrange hmod
  exact ⟨rfl, rfl, hlt, ⟨hl.exact, hr.exact, by rw [htoInt, hl.toInt, hr.toInt]⟩, htoInt⟩

end Computes

/-! ## Bits of a native integer -/

theorem numBitsLoop_spec (fuel : Nat) {arg : Int} (hnonneg : 0 ≤ arg) (hlt : arg < 2 ^ fuel) :
    arg < 2 ^ numBitsLoop fuel arg ∧ ∀ n, arg < 2 ^ n → numBitsLoop fuel arg ≤ n := by
  induction fuel generalizing arg with
  | zero =>
    rw [numBitsLoop]
    exact ⟨by simpa using hlt, fun n _ => Nat.zero_le n⟩
  | succ fuel ih =>
    rw [numBitsLoop]
    split_ifs with h0
    · exact ⟨by rw [h0, pow_zero]; exact one_pos, fun n _ => Nat.zero_le n⟩
    · rw [pow_succ] at hlt
      obtain ⟨hless, hleast⟩ := @ih (arg / 2) (by omega) (by omega)
      rw [pow_succ]
      refine ⟨by omega, fun n hn => ?_⟩
      cases n with
      | zero =>
        rw [pow_zero] at hn
        omega
      | succ n =>
        rw [pow_succ] at hn
        exact Nat.succ_le_succ (hleast n (by omega))

/-- A native integer fits its bits, with one more bit for the sign where it is not negative. -/
theorem numBits_spec {arg : Int} (hlong : IsLong arg) (hmin : -2 ^ 63 < arg) :
    ∃ n, numBits arg = some n ∧
      (0 ≤ arg → arg < 2 ^ n ∧ ∀ k, arg < 2 ^ k → n ≤ k) ∧
      (arg < 0 → TwosComplement.InRange true n arg ∧ 0 < n ∧
        ∀ k, -2 ^ k ≤ arg → n ≤ k + 1) := by
  have hpow : (2 : Int) ^ 63 < 2 ^ 64 := by norm_num
  by_cases hneg : arg < 0
  · have hminus : long (-arg) = some (-arg) := if_pos ⟨by omega, by omega⟩
    obtain ⟨hless, hleast⟩ := @numBitsLoop_spec 64 (-arg - 1) (by omega)
      (by have := hlong.1; omega)
    refine ⟨1 + numBitsLoop 64 (-arg - 1), ?_, fun h => by omega, fun _ => ⟨?_, by omega, ?_⟩⟩
    · rw [numBits, if_pos hneg, hminus]
      rfl
    · rw [TwosComplement.InRange, if_pos rfl, Nat.add_sub_cancel_left]
      constructor <;> omega
    · intro k hk
      have := hleast k (by omega)
      omega
  · obtain ⟨hless, hleast⟩ := @numBitsLoop_spec 64 arg (by omega)
      (by have := hlong.2; omega)
    exact ⟨_, if_neg hneg, fun _ => ⟨hless, hleast⟩, fun h => absurd h hneg⟩

end Netmisc

end Icarus
