import Icarus.Netmisc.Collapse
import Icarus.Netmisc.Tiling

/-!
# The offset of collapsed indices

The expression of collapsed indices evaluates to the offset of the slice. What carries the sum is
that it has room for every offset within the slice reached so far.
-/

namespace Icarus.Netmisc

open Icarus.Core (TwosComplement.reading TwosComplement.reading_modEq TwosComplement.reading_eq
  TwosComplement.reading_inRange)
open Icarus.Core.TwosComplement (InRange)

namespace ArrayExpr

variable {values : Nat → Nat} {m m' w : Nat} {s s' : Bool} {y z : Int} {e l r : ArrayExpr}

/-! ## Values -/

/-- A constant index is of no special kind. -/
def Plain : ArrayExpr → Prop
  | index _ expr => expr.Plain
  | _ => True

/-- The expression has a width and a sign and evaluates to an integer. -/
structure Yields (values : Nat → Nat) (m : Nat) (s : Bool) (z : Int) (e : ArrayExpr) : Prop where
  /-- The width. -/
  width : e.width = m
  /-- The sign. -/
  hasSign : e.hasSign = s
  /-- The value is a number of that width. -/
  eval_lt : e.eval values < 2 ^ m
  /-- The integer. -/
  toInt : e.toInt values = z
  /-- A constant index is of no special kind. -/
  plain : e.Plain

theorem Yields.modEq (h : Yields values m s z e) : (e.eval values : Int) ≡ z [ZMOD 2 ^ m] := by
  have hmod := TwosComplement.reading_modEq e.hasSign e.width (e.eval values)
  rw [← ArrayExpr.toInt, h.toInt, h.width] at hmod
  exact hmod.symm

theorem Yields.inRange (h : Yields values m s z e) (hm : 0 < m) : InRange s m z := by
  have hrange := TwosComplement.reading_inRange e.hasSign (h.width.symm ▸ hm)
    (h.width.symm ▸ h.eval_lt)
  rwa [← ArrayExpr.toInt, h.toInt, h.width, h.hasSign] at hrange

/-- Padding keeps the integer. -/
theorem Yields.padToWidth (h : Yields values w s z e) (hw : 0 < w) (hle : w ≤ m) :
    Yields values m s z (e.padToWidth m) := by
  obtain rfl | hlt := Nat.eq_or_lt_of_le hle
  · unfold ArrayExpr.padToWidth
    rwa [if_pos h.width.ge]
  · have hwide : ¬ m ≤ e.width := by
      rw [h.width]
      omega
    have hselect : Yields values m s z (.select e m e.hasSign) := by
      have hread : TwosComplement.reading e.hasSign e.width (e.eval values) = z := h.toInt
      have heval : (ArrayExpr.select e m e.hasSign).eval values = (z % 2 ^ m).toNat := by
        rw [ArrayExpr.eval, if_neg (by omega), hread]
      have hsmall := Computes.emod_toNat_lt z m
      have hinRange := (h.inRange hw).mono hle
      refine ⟨rfl, h.hasSign, heval ▸ hsmall, ?_, trivial⟩
      rw [ArrayExpr.toInt, heval]
      exact TwosComplement.reading_eq (hw.trans hlt) hsmall (h.hasSign.symm ▸ hinRange)
        (Computes.emod_toNat_modEq z m)
    unfold ArrayExpr.padToWidth
    rw [if_neg hwide]
    cases e with
    | index place expr =>
      obtain rfl : expr.width = w := h.width
      obtain rfl : expr.hasSign = s := h.hasSign
      obtain ⟨hwidth, hsign, heval, hint, hplain⟩ :=
        NetExpr.padToWidth_spec h.plain hw h.eval_lt hlt
      exact ⟨hwidth, hsign, heval, hint.trans h.toInt, hplain⟩
    | select => exact hselect
    | mult => exact hselect
    | add => exact hselect
    | addConst => exact hselect
    | subFrom => exact hselect

/-- A sum of padded terms is exact where one of them has room for it. -/
theorem Yields.makeAddExpr (hl : Yields values m s y l) (hr : Yields values m' s' z r)
    (hm : 0 < m) (hm' : 0 < m') (hnonneg : 0 ≤ y + z) (hrange : InRange s m (y + z)) :
    Yields values (max m m') (s && s') (y + z) (l.makeAddExpr r) ∧
      ∀ v, 0 ≤ v → InRange s m v → InRange (s && s') (max m m') v := by
  have hkeep : ∀ v, 0 ≤ v → InRange s m v → InRange (s && s') (max m m') v := by
    intro v hv hin
    have hmono := hin.mono (Nat.le_max_left m m')
    cases s with
    | false => exact hmono
    | true =>
      cases s' with
      | true => exact hmono
      | false =>
        have hpow : (2 : Int) ^ (max m m' - 1) ≤ 2 ^ max m m' :=
          pow_le_pow_right₀ (by norm_num) (Nat.sub_le _ 1)
        rw [InRange, if_pos rfl] at hmono
        rw [Bool.and_false, InRange, if_neg Bool.false_ne_true]
        exact ⟨hv, hmono.2.trans_le hpow⟩
  refine ⟨?_, hkeep⟩
  have hpadl := hl.padToWidth hm (Nat.le_max_left m m')
  have hpadr := hr.padToWidth hm' (Nat.le_max_right m m')
  have hshape : l.makeAddExpr r =
      .add (l.padToWidth (max m m')) (r.padToWidth (max m m')) (max m m') (s && s') := by
    rw [ArrayExpr.makeAddExpr, hl.width, hr.width, hl.hasSign, hr.hasSign]
  rw [hshape]
  have hlt : (ArrayExpr.add (l.padToWidth (max m m')) (r.padToWidth (max m m')) (max m m')
      (s && s')).eval values < 2 ^ max m m' := Nat.mod_lt _ (Nat.two_pow_pos _)
  refine ⟨rfl, rfl, hlt, ?_, trivial⟩
  refine TwosComplement.reading_eq (lt_of_lt_of_le hm (Nat.le_max_left m m')) hlt
    (hkeep _ hnonneg hrange) ?_
  rw [ArrayExpr.eval]
  push_cast
  exact (Int.mod_modEq _ _).trans (hpadl.modEq.add hpadr.modEq)

/-- There is room for every multiple below the next one. -/
theorem inRange_scale {d p c v : Nat} (hw : 0 < w) (hd : InRange s w d) (hp : p ≤ 2 ^ c)
    (hv : v < (d + 1) * p) : InRange s (w + c) v := by
  have hbelow : ∀ k, (d : Int) < 2 ^ k → (v : Int) < 2 ^ (k + c) := by
    intro k hk
    have hk : d + 1 ≤ 2 ^ k := by exact_mod_cast hk
    have hmul : (d + 1) * p ≤ 2 ^ k * 2 ^ c := Nat.mul_le_mul hk hp
    rw [← pow_add] at hmul
    exact_mod_cast lt_of_lt_of_le hv hmul
  cases s with
  | false =>
    rw [InRange, if_neg Bool.false_ne_true] at hd ⊢
    exact ⟨Int.natCast_nonneg v, hbelow w hd.2⟩
  | true =>
    rw [InRange, if_pos rfl] at hd ⊢
    have hupper := hbelow (w - 1) hd.2
    rw [show w - 1 + c = w + c - 1 by omega] at hupper
    have hpos : (0 : Int) < 2 ^ (w + c - 1) := pow_pos (by norm_num) _
    exact ⟨by omega, hupper⟩

/-- A product with a positive number takes the bits of it. -/
theorem inRange_mul {p c : Nat} (hw : 0 < w) (hz : InRange s w z) (hpos : 0 < p)
    (hp : p ≤ 2 ^ c) : InRange s (w + c) (z * p) := by
  have hcast : (p : Int) ≤ 2 ^ c := by exact_mod_cast hp
  have hnonneg : (0 : Int) < p := by exact_mod_cast hpos
  have hupper : ∀ k : Nat, z < 2 ^ k → z * p < 2 ^ (k + c) := by
    intro k hk
    calc z * p < 2 ^ k * p := mul_lt_mul_of_pos_right hk hnonneg
      _ ≤ 2 ^ k * 2 ^ c := mul_le_mul_of_nonneg_left hcast (pow_nonneg (by norm_num) k)
      _ = 2 ^ (k + c) := (pow_add 2 k c).symm
  cases s with
  | false =>
    rw [InRange, if_neg Bool.false_ne_true] at hz ⊢
    exact ⟨mul_nonneg hz.1 hnonneg.le, hupper w hz.2⟩
  | true =>
    rw [InRange, if_pos rfl] at hz ⊢
    rw [show w + c - 1 = w - 1 + c by omega]
    refine ⟨?_, hupper (w - 1) hz.2⟩
    calc -(2 : Int) ^ (w - 1 + c) = -2 ^ (w - 1) * 2 ^ c := by rw [pow_add, neg_mul]
      _ ≤ -2 ^ (w - 1) * p := mul_le_mul_of_nonpos_left hcast (by simp)
      _ ≤ z * p := mul_le_mul_of_nonneg_right hz.1 hnonneg.le

/-- A multiplication is exact. -/
theorem Yields.makeMultExpr {p : Nat} (h : Yields values w s z e) (hw : 0 < w) (hp : 0 < p)
    (hlt : p < 2 ^ 64) : Yields values (w + Nat.clog 2 p) s (z * p) (e.makeMultExpr p) := by
  have hpad := h.padToWidth hw (Nat.le_add_right w (Nat.clog 2 p))
  have hshape : e.makeMultExpr p = .mult (e.padToWidth (w + Nat.clog 2 p))
      { Verinum.ofUint64 (BitVec.ofNat 64 p) (w + Nat.clog 2 p) with hasSign := s }
      (w + Nat.clog 2 p) s := by
    rw [ArrayExpr.makeMultExpr, h.width, h.hasSign]
  rw [hshape]
  have hsmall : ∀ v, (ArrayExpr.mult (e.padToWidth (w + Nat.clog 2 p)) v
      (w + Nat.clog 2 p) s).eval values < 2 ^ (w + Nat.clog 2 p) :=
    fun v => Nat.mod_lt _ (Nat.two_pow_pos _)
  have hrange : InRange s (w + Nat.clog 2 p) (z * p) :=
    inRange_mul hw (h.inRange hw) hp (Nat.le_pow_clog (by decide) p)
  have hnum : (Verinum.number (Verinum.ofUint64 (BitVec.ofNat 64 p) (w + Nat.clog 2 p)).bits : Int)
      ≡ p [ZMOD 2 ^ (w + Nat.clog 2 p)] := by
    rw [Verinum.ofUint64, Verinum.number_nativeBits_ushiftRight, BitVec.toNat_ofNat,
      Nat.mod_eq_of_lt hlt]
    push_cast
    exact Int.mod_modEq _ _
  refine ⟨rfl, rfl, hsmall _, ?_, trivial⟩
  refine TwosComplement.reading_eq (Nat.add_pos_left hw _) (hsmall _) hrange ?_
  rw [ArrayExpr.eval]
  push_cast
  exact (Int.mod_modEq _ _).trans (hpad.modEq.mul hnum)

end ArrayExpr

open ArrayExpr (Yields inRange_scale)

/-! ## One index -/

/-- The index has one value only if a slice is one bit wide, and its constants are written by
native integers: a lower end that is negative and subtracted from needs no more than their bits. -/
def Direct (r : Netrange) (sliceWidth : Nat) (expr : NetExpr) : Prop :=
  -2 ^ 63 < r.lsb ∧ r.lsb < 2 ^ 63 ∧ (r.msb = r.lsb → sliceWidth = 1) ∧
    (r.msb < r.lsb → r.lsb < 0 → -2 ^ 62 ≤ r.lsb ∧ expr.width + (!expr.hasSign).toNat ≤ 63)

/-- The value of the index at a place, which has no X and Z bits. -/
structure Takes (value : Nat) (expr : NetExpr) (i : Int) : Prop where
  /-- The index is any expression with a width. -/
  isBase : expr.IsBase expr.width expr.hasSign
  /-- The width is not zero. -/
  width_pos : 0 < expr.width
  /-- The value has the bits of the width. -/
  value_lt : value < 2 ^ expr.width
  /-- The integer. -/
  toInt : expr.toInt value = i

section Index

variable {values : Nat → Nat} {r : Netrange} {width place : Nat} {expr : NetExpr} {i : Int}

/-- The expression evaluates to an offset and has room for a number of offsets from there. -/
def HasRoom (values : Nat → Nat) (offset room : Nat) (e : ArrayExpr) : Prop :=
  ∃ m s, 0 < m ∧ Yields values m s (offset : Int) e ∧
    ∀ v : Nat, v < offset + room → InRange s m v

theorem scaleIndex_spec {w d : Nat} {s : Bool} {e : ArrayExpr} (h : Yields values w s d e)
    (hw : 0 < w) (hpos : 0 < width) (hlt : width < 2 ^ 32) :
    ∃ t, scaleIndex e width = some t ∧ HasRoom values (d * width) width t := by
  by_cases h1 : width = 1
  · refine ⟨e, if_pos h1, w, s, hw, ?_, fun v hv => ?_⟩
    · rwa [h1, Nat.mul_one]
    · rw [← Nat.succ_mul] at hv
      exact inRange_scale (c := 0) hw (h.inRange hw) h1.le hv
  · obtain ⟨n, hn, -, -⟩ := numBits_spec (show IsLong (width : Int) from ⟨by omega, by omega⟩)
      (by omega)
    have hmult : ∀ {w' e'}, 0 < w' → Yields values w' s d e' →
        HasRoom values (d * width) width (e'.makeMultExpr width) := by
      intro w' e' hw' h'
      have hmul := h'.makeMultExpr hw' hpos (hlt.trans (by norm_num))
      rw [← Nat.cast_mul] at hmul
      exact ⟨_, s, Nat.add_pos_left hw' _, hmul,
        fun v hv => inRange_scale hw' (h'.inRange hw') (Nat.le_pow_clog (by decide) width)
          (by rwa [← Nat.succ_mul] at hv)⟩
    rw [scaleIndex, if_neg h1]
    simp only [Nat.mod_eq_of_lt hlt, hn, Option.bind_eq_bind, Option.bind_some]
    refine ⟨_, rfl, ?_⟩
    by_cases hwide : e.width ≤ n
    · rw [if_pos hwide]
      rw [h.width] at hwide
      exact hmult (Nat.succ_pos n) (h.padToWidth hw (Nat.le_succ_of_le hwide))
    · rw [if_neg hwide]
      exact hmult hw h

/-- The canonical offset of an index is its digit. -/
theorem canonical_eq_digit (hin : r.Contains i) (h1 : r.msb = r.lsb → width = 1) :
    canonical r.msb r.lsb width (r.lsb < r.msb) 0 i = r.digit i := by
  rw [Netrange.cast_digit hin, Netrange.distance, canonical]
  obtain hdir | hdir | hdir := lt_trichotomy r.msb r.lsb
  · rw [if_pos hdir, if_neg (not_le.mpr hdir), if_neg (by simpa using hdir.le)]
    ring
  · rw [if_neg hdir.not_lt, if_pos hdir.ge, if_neg (by simpa using hdir.le), h1 hdir]
    push_cast
    ring
  · rw [if_neg hdir.le.not_gt, if_pos hdir.le, if_pos (by simpa using hdir)]
    ring

/-- An index is normalized and scaled exactly. -/
theorem collapseIndex_spec (hdirect : Direct r width expr) (htakes : Takes (values place) expr i)
    (hin : r.Contains i) (hpos : 0 < width) (hlt : width < 2 ^ 32) :
    ∃ t, collapseIndex width place r expr = some t ∧ HasRoom values (r.digit i * width) width t := by
  obtain ⟨hlow, hhigh, hone, hneg⟩ := hdirect
  have hslice : slicePart r.msb r.lsb 0 = if r.msb < r.lsb then r.lsb else -r.lsb := by
    rw [slicePart, zero_add, zero_sub]
  have hzero : canonical r.msb r.lsb width (r.lsb < r.msb) 0 0 =
      if r.msb < r.lsb then r.lsb else -r.lsb := by
    unfold canonical
    obtain hdir | hdir | hdir := lt_trichotomy r.msb r.lsb
    · rw [if_pos hdir, if_pos hdir, if_neg (by simpa using hdir.le)]
      ring
    · rw [if_neg hdir.not_lt, if_neg hdir.not_lt, if_neg (by simpa using hdir.le), hone hdir]
      push_cast
      ring
    · rw [if_neg hdir.le.not_gt, if_neg hdir.le.not_gt, if_pos (by simpa using hdir)]
      ring
  obtain ⟨e, he, -, htoInt⟩ := normalize_exact hpos htakes.width_pos htakes.isBase
    htakes.value_lt (show IsLong (slicePart r.msb r.lsb 0) by
      rw [hslice]
      split_ifs <;> constructor <;> omega)
    (show -2 ^ 63 < canonical r.msb r.lsb width (r.lsb < r.msb) 0 0 by
      rw [hzero]
      split_ifs <;> omega)
    (fun hdir => by
      rw [hzero, if_pos hdir]
      exact hneg hdir)
  obtain ⟨hwidth, heval, hplain⟩ := normalize_shape htakes.width_pos htakes.isBase
    htakes.value_lt he
  rw [htakes.toInt, canonical_eq_digit hin hone] at htoInt
  have hyields : Yields values e.width e.hasSign (r.digit i) (.index place e) :=
    ⟨rfl, rfl, heval, htoInt, hplain⟩
  obtain ⟨t, ht, hterm⟩ := scaleIndex_spec hyields hwidth hpos hlt
  refine ⟨t, ?_, hterm⟩
  rw [collapseIndex, Nat.mod_eq_of_lt hlt, he, Option.bind_eq_bind, Option.bind_some]
  exact ht

end Index

/-! ## All indices -/

/-- The condition for every index that is there. -/
def AllDirect : List Netrange → List NetExpr → Prop
  | r :: dims, expr :: exprs => Direct r (counts dims).prod expr ∧ AllDirect dims exprs
  | _, _ => True

/-- The values of the indices from a place on. -/
def AllTake (values : Nat → Nat) : Nat → List NetExpr → List Int → Prop
  | _, [], [] => True
  | place, expr :: exprs, i :: indices =>
    Takes (values place) expr i ∧ AllTake values (place + 1) exprs indices
  | _, _, _ => False

section Loop

variable {values : Nat → Nat} {wids : List Nat} {r : Netrange} {dims : List Netrange}
  {expr : NetExpr} {exprs : List NetExpr} {i sb : Int} {indices : List Int} {place : Nat}

/-- The sum with the term of an index has room for the offsets of its slice. -/
theorem HasRoom.makeAddExpr {b t : ArrayExpr} {offset d : Nat}
    (hb : HasRoom values offset (counts (r :: dims)).prod b)
    (ht : HasRoom values (d * (counts dims).prod) (counts dims).prod t) (hd : d < r.count) :
    HasRoom values (offset + d * (counts dims).prod) (counts dims).prod (b.makeAddExpr t) := by
  obtain ⟨m, s, hm, hyb, hroom⟩ := hb
  obtain ⟨m', s', hm', hyt, -⟩ := ht
  have hnext : (d + 1) * (counts dims).prod ≤ (counts (r :: dims)).prod := by
    rw [counts_prod_cons]
    exact Nat.mul_le_mul_right _ hd
  rw [Nat.succ_mul] at hnext
  have hpos := @counts_prod_pos dims
  have hcast : (offset : Int) + ((d * (counts dims).prod : Nat) : Int) =
      ((offset + d * (counts dims).prod : Nat) : Int) := (Nat.cast_add _ _).symm
  obtain ⟨hsum, hkeep⟩ := hyb.makeAddExpr hyt hm hm' (hcast ▸ Int.natCast_nonneg _)
    (hcast ▸ hroom _ (by omega))
  rw [hcast] at hsum
  exact ⟨max m m', s && s', lt_of_lt_of_le hm (Nat.le_max_left m m'), hsum,
    fun v hv => hkeep v (Int.natCast_nonneg v) (hroom v (by omega))⟩

/-- The loop adds the offsets of the indices to what is there. -/
theorem collapseLoop_spec {b : ArrayExpr} {offset : Nat}
    (hwids : ∀ k ≤ dims.length, sliceWidth wids (place + k) = (counts (dims.drop k)).prod)
    (hsmall : Small dims) (hdirect : AllDirect dims exprs)
    (htakes : AllTake values place exprs indices) (hin : InDims (dims.take indices.length) indices)
    (hb : HasRoom values offset (counts dims).prod b) :
    ∃ e, collapseLoop wids place (some b) dims exprs = some (some e) ∧
      e.toInt values = ((offset + slot dims indices : Nat) : Int) := by
  induction exprs generalizing place dims indices b offset with
  | nil =>
    cases indices with
    | nil =>
      obtain ⟨m, s, -, hyields, -⟩ := hb
      refine ⟨b, by cases dims <;> rfl, ?_⟩
      rw [slot, digits, List.zipWith_nil_right, Core.MixedRadix.address_nil, Nat.add_zero]
      exact hyields.toInt
    | cons i indices => exact htakes.elim
  | cons expr exprs ih =>
    cases indices with
    | nil => exact htakes.elim
    | cons i indices =>
      cases dims with
      | nil => cases hin
      | cons r dims =>
        obtain - | ⟨hi, htl⟩ := hin
        obtain ⟨t, ht, hterm⟩ := collapseIndex_spec hdirect.1 htakes.1 hi counts_prod_pos
          hsmall.tail.2
        have hnext : sliceWidth wids (place + 1) = (counts dims).prod := by
          rw [hwids 1 (Nat.succ_le_succ (Nat.zero_le _)), List.drop_one, List.tail_cons]
        obtain ⟨e, he, htoInt⟩ := ih (fun k hk => by
          rw [Nat.add_right_comm, Nat.add_assoc, hwids (k + 1) (Nat.succ_le_succ hk)]
          rfl) hsmall.tail hdirect.2 htakes.2 htl
          (hb.makeAddExpr hterm (Netrange.digit_lt hi))
        refine ⟨e, ?_, ?_⟩
        · rw [collapseLoop, hnext, ht]
          exact he
        · rw [htoInt, slot_cons, Nat.add_assoc]

/-- The collapsed expression evaluates to the address. -/
theorem collapseArrayExprs_spec (hdims : 2 ≤ dims.length) (hsmall : Small dims)
    (hdirect : AllDirect dims exprs) (htakes : AllTake values 0 exprs indices)
    (hin : InDims (dims.take indices.length) indices) (hne : indices ≠ []) :
    ∃ e, collapseArrayExprs dims exprs = some e ∧
      e.toInt values = ((slot dims indices : Nat) : Int) := by
  obtain ⟨wids, hwids, hwidth⟩ := sliceWids_eq hsmall
  cases indices with
  | nil => exact absurd rfl hne
  | cons i indices =>
    cases exprs with
    | nil => exact htakes.elim
    | cons expr exprs =>
      cases dims with
      | nil => cases hin
      | cons r dims =>
        obtain - | ⟨hi, htl⟩ := hin
        obtain ⟨t, ht, hterm⟩ := collapseIndex_spec hdirect.1 htakes.1 hi counts_prod_pos
          hsmall.tail.2
        have hnext : sliceWidth wids (0 + 1) = (counts dims).prod :=
          hwidth 1 (Nat.succ_le_succ (Nat.zero_le _))
        obtain ⟨e, he, htoInt⟩ := collapseLoop_spec (fun k hk => by
          rw [Nat.add_comm, hwidth (k + 1) (Nat.succ_le_succ hk)]
          rfl) hsmall.tail hdirect.2 htakes.2 htl hterm
        refine ⟨e, ?_, ?_⟩
        · rw [collapseArrayExprs, if_neg (by omega), hwids, Option.bind_eq_bind, Option.bind_some,
            collapseLoop, hnext, ht]
          exact congrArg (Option.bind · id) he
        · rw [htoInt, slot_cons]

/-- Where every index is direct, the collapsed expression evaluates to the offset that
`prefix_to_slice` computes for the values of the indices. -/
theorem collapse_eq_prefixToSlice (dims : List Netrange) (exprs : List NetExpr)
    (values : Nat → Nat) (indices : List Int) (sb : Int) (hdims : 2 ≤ dims.length)
    (hsmall : Small dims) (hdirect : AllDirect dims exprs)
    (htakes : AllTake values 0 exprs (indices ++ [sb]))
    (hin : InDims (dims.take (indices.length + 1)) (indices ++ [sb])) :
    ∃ e loff lwid, collapseArrayExprs dims exprs = some e ∧
      prefixToSlice dims indices sb = some (some (loff, lwid)) ∧ e.toInt values = loff := by
  have hlength : (indices ++ [sb]).length = indices.length + 1 := List.length_append
  have hlen : indices.length < dims.length := by
    have heq := hin.length_eq
    rw [List.length_take, hlength] at heq
    omega
  obtain ⟨e, he, htoInt⟩ := collapseArrayExprs_spec hdims hsmall hdirect htakes
    (by rwa [hlength]) (by simp)
  exact ⟨e, _, _, he, prefixToSlice_eq hsmall.sizeable hin hlen, htoInt⟩

/-- Two indices into a vector `[0:3][7:-8][1:0]`. -/
theorem collapse_eq_prefixToSlice_pair : ∃ e loff lwid,
    collapseArrayExprs [⟨0, 3⟩, ⟨7, -8⟩, ⟨1, 0⟩] [.other 2 false, .other 4 true] = some e ∧
      prefixToSlice [⟨0, 3⟩, ⟨7, -8⟩, ⟨1, 0⟩] [1] (-8) = some (some (loff, lwid)) ∧
      e.toInt (fun place => if place = 0 then 1 else 8) = loff :=
  collapse_eq_prefixToSlice [⟨0, 3⟩, ⟨7, -8⟩, ⟨1, 0⟩] [.other 2 false, .other 4 true]
    (fun place => if place = 0 then 1 else 8) [1] (-8) (by decide)
    ⟨by decide, by decide⟩
    ⟨⟨by decide, by decide, by decide, by decide⟩,
      ⟨by decide, by decide, by decide, by decide⟩, trivial⟩
    ⟨⟨⟨rfl, rfl⟩, by decide, by decide, by decide⟩, ⟨⟨rfl, rfl⟩, by decide, by decide, by decide⟩,
      trivial⟩
    (.cons ⟨by decide, by decide⟩ (.cons ⟨by decide, by decide⟩ .nil))

/-- The only index of `[0:0]`, into a vector `[0:0][3:0]`, gives a negative offset. -/
theorem collapse_ne_prefixToSlice : ¬ ∀ (dims : List Netrange) (exprs : List NetExpr)
    (values : Nat → Nat) (indices : List Int) (sb : Int), 2 ≤ dims.length → Small dims →
      AllTake values 0 exprs (indices ++ [sb]) →
      InDims (dims.take (indices.length + 1)) (indices ++ [sb]) →
      ∃ e loff lwid, collapseArrayExprs dims exprs = some e ∧
        prefixToSlice dims indices sb = some (some (loff, lwid)) ∧ e.toInt values = loff := by
  intro h
  obtain ⟨e, loff, lwid, he, hslice, htoInt⟩ := h [⟨0, 0⟩, ⟨3, 0⟩] [.other 1 false] (fun _ => 0) []
    0 (by decide) ⟨by decide, by decide⟩ ⟨⟨⟨rfl, rfl⟩, by decide, by decide, by decide⟩, trivial⟩
    (.cons ⟨by decide, by decide⟩ .nil)
  have hvalue : (collapseArrayExprs [⟨0, 0⟩, ⟨3, 0⟩] [.other 1 false]).map
      (fun e => e.toInt fun _ => 0) = some (-12) := by decide +kernel
  have hoffset : prefixToSlice [⟨0, 0⟩, ⟨3, 0⟩] [] 0 = some (some (0, 4)) := by decide
  rw [he] at hvalue
  rw [hoffset] at hslice
  obtain ⟨rfl, -⟩ := Prod.mk.inj (Option.some_inj.mp (Option.some_inj.mp hslice))
  rw [Option.map_some, htoInt] at hvalue
  exact absurd (Option.some_inj.mp hvalue) (by decide)

end Loop

end Icarus.Netmisc
