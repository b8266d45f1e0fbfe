import Icarus.Netmisc.Offset
import Icarus.Netmisc.Slices
import Mathlib.Data.Nat.Log

/-!
# Collapsed indices

The indices of a packed array, one expression for each leading dimension, are collapsed to one
expression: each is normalized, scaled by the width of its slice and added to what is there.
Widths are chosen so that neither the product nor the sum loses a bit.
-/

namespace Icarus.Netmisc

open Icarus.Core (TwosComplement.reading TwosComplement.reading_eq TwosComplement.reading_inRange)
open Icarus.Core.TwosComplement (InRange)

/-! ## Slice widths -/

/-- `netrange_width`, in `unsigned` arithmetic. -/
def netrangeWidth (packed : List Netrange) (baseWidth : Nat) : Option Nat :=
  packed.foldlM (fun wid cur => do
    let useWid ← cur.width
    return wid * (useWid % 2 ^ 32) % 2 ^ 32) (baseWidth % 2 ^ 32)

/-- The loop of `calculate_slice_widths_from_packed_dims_`. A division by zero has no result. -/
def sliceWidsLoop (wid : Nat) : List Netrange → Option (List Nat)
  | [] => some []
  | [_] => some [wid]
  | cur :: next :: dims => do
    let width ← cur.width
    if width = 0 then none
    else return wid :: (← sliceWidsLoop (wid / width) (next :: dims))

/-- `slice_wids_` of a net with packed dimensions. -/
def sliceWids (dims : List Netrange) : Option (List Nat) := do
  sliceWidsLoop (← netrangeWidth dims 1) dims

/-- `slice_width`. -/
def sliceWidth (sliceWids : List Nat) (depth : Nat) : Nat :=
  if depth > sliceWids.length then 0
  else if depth = sliceWids.length then 1
  else sliceWids.getD depth 0

/-! ## Expressions -/

/-- The expressions of collapsed indices. -/
inductive ArrayExpr
  /-- The normalized expression of the index at a place. -/
  | index (place : Nat) (expr : NetExpr)
  /-- `NetESelect` without a base. -/
  | select (expr : ArrayExpr) (width : Nat) (hasSign : Bool)
  /-- `NetEBMult` by a constant. -/
  | mult (expr : ArrayExpr) (value : Verinum) (width : Nat) (hasSign : Bool)
  /-- `NetEBAdd`. -/
  | add (left right : ArrayExpr) (width : Nat) (hasSign : Bool)
  /-- `NetEBAdd` with a constant on the right. -/
  | addConst (op : AddOp) (expr : ArrayExpr) (value : Verinum) (width : Nat) (hasSign : Bool)
  /-- `NetEBAdd` that subtracts from a constant. -/
  | subFrom (value : Verinum) (expr : ArrayExpr) (width : Nat) (hasSign : Bool)

namespace ArrayExpr

/-- `expr_width`. -/
def width : ArrayExpr → Nat
  | index _ expr => expr.width
  | select _ width _ => width
  | mult _ _ width _ => width
  | add _ _ width _ => width
  | addConst _ _ _ width _ => width
  | subFrom _ _ width _ => width

/-- `has_sign`. -/
def hasSign : ArrayExpr → Bool
  | index _ expr => expr.hasSign
  | select _ _ hasSign => hasSign
  | mult _ _ _ hasSign => hasSign
  | add _ _ _ hasSign => hasSign
  | addConst _ _ _ _ hasSign => hasSign
  | subFrom _ _ _ hasSign => hasSign

/-- `pad_to_width`, by the sign of the expression. -/
def padToWidth (expr : ArrayExpr) (wid : Nat) : ArrayExpr :=
  if wid ≤ expr.width then expr
  else match expr with
    | index place expr => index place (expr.padToWidth wid expr.hasSign)
    | expr => select expr wid expr.hasSign

/-- `make_mult_expr`; the bits of the factor are the logarithm, rounded up. -/
def makeMultExpr (expr : ArrayExpr) (val : Nat) : ArrayExpr :=
  let useWid := expr.width + Nat.clog 2 val
  let valV := { Verinum.ofUint64 (BitVec.ofNat 64 val) useWid with hasSign := expr.hasSign }
  mult (expr.padToWidth useWid) valV useWid expr.hasSign

/-- `make_add_expr` of two expressions. -/
def makeAddExpr (expr1 expr2 : ArrayExpr) : ArrayExpr :=
  let useSigned := expr1.hasSign && expr2.hasSign
  let useWid := max expr1.width expr2.width
  add (expr1.padToWidth useWid) (expr2.padToWidth useWid) useWid useSigned

/-- The number that an expression evaluates to where the index at a place has a value. -/
def eval (values : Nat → Nat) : ArrayExpr → Nat
  | index place expr => expr.eval (values place)
  | select expr width hasSign =>
    if width = expr.width then expr.eval values
    else (TwosComplement.reading hasSign expr.width (expr.eval values) % 2 ^ width).toNat
  | mult expr value width _ => expr.eval values * Verinum.number value.bits % 2 ^ width
  | add left right width _ => (left.eval values + right.eval values) % 2 ^ width
  | addConst .plus expr value width _ =>
    (expr.eval values + Verinum.number value.bits) % 2 ^ width
  | addConst .minus expr value width _ =>
    (((expr.eval values : Int) - Verinum.number value.bits) % 2 ^ width).toNat
  | subFrom value expr width _ =>
    (((Verinum.number value.bits : Int) - expr.eval values) % 2 ^ width).toNat

/-- The integer, at the width and sign of the expression. -/
def toInt (values : Nat → Nat) (e : ArrayExpr) : Int :=
  TwosComplement.reading e.hasSign e.width (e.eval values)

end ArrayExpr

/-! ## The collapse -/

/-- The scaling of a normalized index by the width of its slice; `unsigned` in the comparison
of the bits. -/
def scaleIndex (tmp : ArrayExpr) (width : Nat) : Option ArrayExpr :=
  if width = 1 then some tmp
  else do
    let curSliceWidth : Nat := width % 2 ^ 32
    let bits ← numBits (curSliceWidth : Int)
    let tmp := if tmp.width ≤ bits then tmp.padToWidth (bits + 1) else tmp
    return tmp.makeMultExpr curSliceWidth

/-- One turn of the loop of `collapse_array_exprs`, without the base. -/
def collapseIndex (width place : Nat) (cur : Netrange) (expr : NetExpr) : Option ArrayExpr := do
  let tmp ← normalizeVariableBase expr cur.msb cur.lsb (width % 2 ^ 32) (cur.lsb < cur.msb) 0
  scaleIndex (.index place tmp) width

/-- The loop of `collapse_array_exprs`. -/
def collapseLoop (sliceWids : List Nat) :
    Nat → Option ArrayExpr → List Netrange → List NetExpr → Option (Option ArrayExpr)
  | _, base, _, [] => some base
  | idx, base, cur :: dims, expr :: exprs => do
    let tmp ← collapseIndex (sliceWidth sliceWids (idx + 1)) idx cur expr
    let base := match base with
      | some base => base.makeAddExpr tmp
      | none => tmp
    collapseLoop sliceWids (idx + 1) (some base) dims exprs
  | _, _, [], _ :: _ => none

/-- `collapse_array_exprs`, of elaborated indices. -/
def collapseArrayExprs (dims : List Netrange) (exprs : List NetExpr) : Option ArrayExpr :=
  if dims.length = 1 then exprs.head?.map (.index 0)
  else do
    let wids ← sliceWids dims
    let base ← collapseLoop wids 0 none dims exprs
    base

/-! ## The widths of slices -/

/-- Every range is defined, and `unsigned` holds the number of bits. -/
def Small (dims : List Netrange) : Prop :=
  (∀ r ∈ dims, r.defined = true) ∧ (counts dims).prod < 2 ^ 32

section Widths

variable {r : Netrange} {dims : List Netrange}

theorem Small.tail (h : Small (r :: dims)) : Small dims := by
  refine ⟨fun r' hr' => h.1 r' (List.mem_cons_of_mem _ hr'), lt_of_le_of_lt ?_ h.2⟩
  rw [counts_prod_cons]
  exact Nat.le_mul_of_pos_left _ Netrange.count_pos

theorem Small.drop (h : Small dims) (k : Nat) : Small (dims.drop k) := by
  induction k generalizing dims with
  | zero => exact h
  | succ k ih =>
    cases dims with
    | nil => exact h
    | cons r dims => exact ih h.tail

theorem Small.count_lt (h : Small (r :: dims)) : r.count < 2 ^ 32 := by
  have hlt := h.2
  rw [counts_prod_cons] at hlt
  exact lt_of_le_of_lt (Nat.le_mul_of_pos_right _ counts_prod_pos) hlt

theorem Small.width_eq (h : Small (r :: dims)) : r.width = some r.count :=
  Netrange.width_eq (h.1 r List.mem_cons_self) (h.count_lt.trans (by norm_num))

theorem Small.sizeable (h : Small dims) : Sizeable dims := by
  constructor
  · induction dims with
    | nil => exact fun _ hr => absurd hr List.not_mem_nil
    | cons r dims ih =>
      refine List.forall_mem_cons.mpr ⟨⟨h.1 r List.mem_cons_self, ?_⟩, ih h.tail⟩
      exact h.count_lt.trans (by norm_num)
  · exact h.2.le.trans (by norm_num)

/-- The width of a small vector is computed. -/
theorem netrangeWidth_eq {wid : Nat} (hdims : Small dims) (hwid : wid * (counts dims).prod < 2 ^ 32) :
    netrangeWidth dims wid = some (wid * (counts dims).prod) := by
  induction dims generalizing wid with
  | nil =>
    rw [counts, List.map_nil, List.prod_nil, Nat.mul_one] at hwid ⊢
    rw [netrangeWidth, List.foldlM_nil, Nat.mod_eq_of_lt hwid]
    rfl
  | cons r dims ih =>
    rw [counts_prod_cons, ← Nat.mul_assoc] at hwid ⊢
    have hstep : wid * r.count < 2 ^ 32 :=
      lt_of_le_of_lt (Nat.le_mul_of_pos_right _ counts_prod_pos) hwid
    have hlow : wid < 2 ^ 32 := lt_of_le_of_lt (Nat.le_mul_of_pos_right _ Netrange.count_pos) hstep
    have hrest := ih hdims.tail hwid
    rw [netrangeWidth, Nat.mod_eq_of_lt hstep] at hrest
    rw [netrangeWidth, List.foldlM_cons, hdims.width_eq, Option.bind_eq_bind, Option.bind_some,
      Nat.mod_eq_of_lt hdims.count_lt, Nat.mod_eq_of_lt hlow, Nat.mod_eq_of_lt hstep]
    exact hrest

/-- The widths of the slices are the numbers of bits that are left. -/
theorem sliceWidsLoop_eq (hdims : Small dims) : ∃ wids,
    sliceWidsLoop (counts dims).prod dims = some wids ∧ wids.length = dims.length ∧
      ∀ k < dims.length, wids.getD k 0 = (counts (dims.drop k)).prod := by
  induction dims with
  | nil => exact ⟨[], rfl, rfl, fun k hk => absurd hk (Nat.not_lt_zero k)⟩
  | cons r dims ih =>
    cases dims with
    | nil =>
      refine ⟨_, rfl, rfl, fun k hk => ?_⟩
      obtain rfl : k = 0 := Nat.lt_one_iff.mp hk
      rfl
    | cons next dims =>
      obtain ⟨wids, hwids, hlen, hget⟩ := ih hdims.tail
      have hdiv : (counts (r :: next :: dims)).prod / r.count = (counts (next :: dims)).prod := by
        rw [counts_prod_cons]
        exact Nat.mul_div_cancel_left _ Netrange.count_pos
      refine ⟨(counts (r :: next :: dims)).prod :: wids, ?_, congrArg (· + 1) hlen, ?_⟩
      · rw [sliceWidsLoop, hdims.width_eq, Option.bind_eq_bind, Option.bind_some,
          if_neg Netrange.count_pos.ne', hdiv, hwids]
        rfl
      · intro k hk
        cases k with
        | zero => rfl
        | succ k => exact hget k (Nat.lt_of_succ_lt_succ hk)

theorem sliceWids_eq (hdims : Small dims) : ∃ wids, sliceWids dims = some wids ∧
    ∀ depth ≤ dims.length, sliceWidth wids depth = (counts (dims.drop depth)).prod := by
  obtain ⟨wids, hwids, hlen, hget⟩ := sliceWidsLoop_eq hdims
  refine ⟨wids, ?_, fun depth hdepth => ?_⟩
  · have hall := @netrangeWidth_eq dims 1 hdims (by rw [Nat.one_mul]; exact hdims.2)
    rw [Nat.one_mul] at hall
    rw [sliceWids, hall, Option.bind_eq_bind, Option.bind_some, hwids]
  · rw [sliceWidth, hlen, if_neg (Nat.not_lt.mpr hdepth)]
    split_ifs with heq
    · rw [heq, List.drop_length]
      rfl
    · exact hget depth (lt_of_le_of_ne hdepth heq)

end Widths

/-! ## The value of a normalized index -/

/-- A number of a constant has no X and Z bits and is of no special kind. -/
def NetExpr.Plain : NetExpr → Prop
  | const v => v.isDefined = true ∧ v.isSingle = false ∧ v.isString = false
  | _ => True

section Normalized

variable {x w m : Nat} {s : Bool} {z : Int} {e base : NetExpr}

theorem NetExpr.IsBase.plain (h : base.IsBase w s) : base.Plain := by
  cases base with
  | const v => exact ⟨h.2.2.1, by simpa using h.2.2.2.1, by simpa using h.2.2.2.2⟩
  | other => trivial
  | select => trivial
  | add => trivial

/-- A number of no special kind stays one when it is padded. -/
theorem isDefined_padToWidth {v : Verinum} {wid : Nat} (hlen : 0 < v.len) (hwid : ¬ wid ≤ v.len)
    (h : (NetExpr.const v).Plain) : (NetExpr.const (v.padToWidth wid)).Plain := by
  obtain ⟨hdefined, hsingle, hstring⟩ := h
  rw [padToWidth_eq hlen hwid hdefined hsingle hstring]
  have hknown := v.isDefined_iff.mp hdefined
  exact ⟨(Verinum.isDefined_iff _).mpr
    (Verinum.known_extend hknown (Verinum.known_signBit hknown) wid), rfl, rfl⟩

/-- Padding by the own sign keeps the integer of an expression. -/
theorem NetExpr.padToWidth_spec (hplain : e.Plain) (hw : 0 < e.width)
    (heval : e.eval x < 2 ^ e.width) (hlt : e.width < m) :
    (e.padToWidth m e.hasSign).width = m ∧ (e.padToWidth m e.hasSign).hasSign = e.hasSign ∧
      (e.padToWidth m e.hasSign).eval x < 2 ^ m ∧
      (e.padToWidth m e.hasSign).toInt x = e.toInt x ∧ (e.padToWidth m e.hasSign).Plain := by
  have hselect : (NetExpr.select e m e.hasSign).eval x < 2 ^ m ∧
      (NetExpr.select e m e.hasSign).toInt x = e.toInt x := by
    have hrange := TwosComplement.reading_inRange e.hasSign hw heval
    have hsmall := Computes.emod_toNat_lt (e.toInt x) m
    rw [NetExpr.toInt, NetExpr.eval, if_neg (by omega)]
    exact ⟨hsmall, TwosComplement.reading_eq (hw.trans hlt) hsmall (hrange.mono hlt.le)
      (Computes.emod_toNat_modEq _ m)⟩
  cases e with
  | const v =>
    obtain ⟨hdefined, hsingle, hstring⟩ := hplain
    obtain ⟨hint, hlen, hsign⟩ := toInt_padToWidth hw hlt.le hdefined hsingle hstring
    have hpad : (NetExpr.const v).padToWidth m v.hasSign = .const (v.padToWidth m) :=
      if_neg (Nat.not_le.mpr hlt)
    have hless := Verinum.number_lt (v.padToWidth m).bits
    rw [show (v.padToWidth m).bits.length = m from hlen] at hless
    exact hpad ▸ ⟨hlen, hsign, hless, hint,
      isDefined_padToWidth hw (Nat.not_le.mpr hlt) ⟨hdefined, hsingle, hstring⟩⟩
  | other width hasSign =>
    have hpad : (NetExpr.other width hasSign).padToWidth m hasSign = .select _ m hasSign :=
      if_neg (Nat.not_le.mpr hlt)
    exact hpad ▸ ⟨rfl, rfl, hselect.1, hselect.2, trivial⟩
  | select expr width hasSign =>
    have hpad : (NetExpr.select expr width hasSign).padToWidth m hasSign = .select _ m hasSign :=
      if_neg (Nat.not_le.mpr hlt)
    exact hpad ▸ ⟨rfl, rfl, hselect.1, hselect.2, trivial⟩
  | add op left right width hasSign =>
    have hpad : (NetExpr.add op left right width hasSign).padToWidth m hasSign =
        .select _ m hasSign := if_neg (Nat.not_le.mpr hlt)
    exact hpad ▸ ⟨rfl, rfl, hselect.1, hselect.2, trivial⟩

/-- The value of a sum or difference has the bits of its width. -/
theorem eval_add_lt (op : AddOp) (l r : NetExpr) (w : Nat) (s : Bool) :
    (NetExpr.add op l r w s).eval x < 2 ^ w := by
  cases op with
  | plus => exact Nat.mod_lt _ (Nat.two_pow_pos w)
  | minus => exact Computes.emod_toNat_lt _ w

/-- A constant that is not zero is added at the width of the expression. -/
theorem makeAddExpr_shape {val : Int} (hval : val ≠ 0) (h : makeAddExpr base val = some e) :
    ∃ op right, e = .add op base right base.width base.hasSign := by
  rw [makeAddExpr, if_neg hval] at h
  split_ifs at h with hneg
  · obtain ⟨⟨op, val⟩, -, h⟩ := Option.bind_eq_some_iff.mp (show Option.bind _ _ = some e from h)
    exact ⟨op, _, (Option.some_inj.mp h).symm⟩
  · exact ⟨.plus, _, (Option.some_inj.mp h).symm⟩

/-- What is normalized has a width, and its value has the bits of it. -/
theorem normalize_shape {msb lsb soff : Int} {wid : Nat} {isUp : Bool} (hw : 0 < w)
    (hbase : base.IsBase w s) (hx : x < 2 ^ w)
    (he : normalizeVariableBase base msb lsb wid isUp soff = some e) :
    0 < e.width ∧ e.eval x < 2 ^ e.width ∧ e.Plain := by
  have hcomputes := computes_base hbase hx
  obtain ⟨o, -, he⟩ := Option.bind_eq_some_iff.mp he
  by_cases hzero : ¬ msb < lsb ∧ o = 0
  · rw [if_pos hzero] at he
    obtain rfl := Option.some_inj.mp he
    exact ⟨hcomputes.width ▸ hw, hcomputes.width ▸ hcomputes.eval_lt, hbase.plain⟩
  · rw [if_neg hzero] at he
    obtain ⟨n, -, he⟩ := Option.bind_eq_some_iff.mp he
    generalize decide (msb < lsb) = msbLo at he
    have hP := computes_padBase msbLo n o hbase hx hw
    have hpos : 0 < (padBase base msbLo n o).width := by
      rw [hP.width, minWid]
      omega
    by_cases hdir : msb < lsb
    · rw [if_pos hdir] at he
      obtain rfl := Option.some_inj.mp he
      exact ⟨hpos, eval_add_lt _ _ _ _ _, trivial⟩
    · rw [if_neg hdir] at he
      obtain ⟨op, right, rfl⟩ := makeAddExpr_shape (fun h0 => hzero ⟨hdir, h0⟩) he
      exact ⟨hpos, eval_add_lt _ _ _ _ _, trivial⟩

end Normalized

end Icarus.Netmisc
