import Icarus.Netmisc.Dims

/-!
# Slices of packed arrays

The bits of a packed array are numbered one to one, the slices of each depth tile it, and the
walk that gives a slice tests the last index only.
-/

namespace Icarus.Netmisc

open Icarus.Core.MixedRadix

/-- All widths, and the number of bits, are native integers. -/
def Sizeable (dims : List Netrange) : Prop :=
  (∀ r ∈ dims, r.defined = true ∧ r.count < 2 ^ 63) ∧ (counts dims).prod ≤ 2 ^ 63

variable {r : Netrange} {dims : List Netrange} {indices : List Int} {i : Int}

/-! ## One dimension -/

namespace Netrange

theorem count_pos : 0 < r.count := Nat.succ_pos _

theorem width_eq (hdefined : r.defined = true) (hcount : r.count < 2 ^ 63) :
    r.width = some r.count := by
  unfold count at hcount
  rw [width, hdefined, Bool.not_true, if_neg Bool.false_ne_true]
  split_ifs with hdir
  · have hdiff : long (r.msb - r.lsb) = some (r.msb - r.lsb) := if_pos ⟨by omega, by omega⟩
    have hwidth : long (r.msb - r.lsb + 1) = some (r.msb - r.lsb + 1) :=
      if_pos ⟨by omega, by omega⟩
    rw [hdiff, Option.bind_eq_bind, Option.bind_some, hwidth, Option.bind_some, count]
    exact congrArg some (by omega)
  · have hdiff : long (r.lsb - r.msb) = some (r.lsb - r.msb) := if_pos ⟨by omega, by omega⟩
    have hwidth : long (r.lsb - r.msb + 1) = some (r.lsb - r.msb + 1) :=
      if_pos ⟨by omega, by omega⟩
    rw [hdiff, Option.bind_eq_bind, Option.bind_some, hwidth, Option.bind_some, count]
    exact congrArg some (by omega)

/-- A width that is computed is a native integer. -/
theorem count_lt_of_width {w : Nat} (hdefined : r.defined = true) (h : r.width = some w) :
    r.count < 2 ^ 63 := by
  rw [width, hdefined, Bool.not_true, if_neg Bool.false_ne_true] at h
  split_ifs at h with hdir
  all_goals
    obtain ⟨diff, hdiff, h⟩ := Option.bind_eq_some_iff.mp h
    obtain ⟨wid, hwid, -⟩ := Option.bind_eq_some_iff.mp h
    obtain ⟨-, hdiff⟩ := Option.ite_none_right_eq_some.mp hdiff
    obtain ⟨hlong, -⟩ := Option.ite_none_right_eq_some.mp hwid
    obtain rfl := Option.some_inj.mp hdiff
    have hlt := hlong.2
    unfold count
    omega

theorem position_eq (hdefined : r.defined = true) (hcount : r.count < 2 ^ 63)
    (h : r.Contains i) : r.position i = some (r.digit i : Int) := by
  have hdigit := digit_lt h
  have hcast := cast_digit h
  have hlong : IsLong (r.digit i : Int) := ⟨by omega, by omega⟩
  rw [hcast] at hlong
  rw [position, hdefined, Bool.not_true, if_neg Bool.false_ne_true, hcast, distance]
  rw [distance] at hlong
  split_ifs with hdir
  · rw [if_pos hdir] at hlong
    exact if_pos hlong
  · rw [if_neg hdir] at hlong
    exact if_pos hlong

theorem defined_of_position {p : Int} (h : r.position i = some p) : r.defined = true := by
  by_contra hdefined
  rw [position, Bool.eq_false_iff.mpr hdefined, Bool.not_false, if_pos rfl] at h
  exact Option.some_ne_none _ h.symm

/-- An index is in range or fails one of the tests for the last index. -/
theorem contains_iff : r.Contains i ↔ ¬ (i < r.msb ∧ i < r.lsb) ∧ ¬ (i > r.msb ∧ i > r.lsb) := by
  unfold Contains
  omega

end Netrange

/-! ## Many dimensions -/

theorem counts_prod_cons : (counts (r :: dims)).prod = r.count * (counts dims).prod := by
  rw [counts, List.map_cons, List.prod_cons]

theorem Sizeable.tail (h : Sizeable (r :: dims)) : Sizeable dims := by
  refine ⟨fun r' hr' => h.1 r' (List.mem_cons_of_mem _ hr'), ?_⟩
  refine le_trans ?_ h.2
  rw [counts_prod_cons]
  exact Nat.le_mul_of_pos_left _ Netrange.count_pos

theorem counts_prod_pos : 0 < (counts dims).prod := by
  induction dims with
  | nil => exact Nat.one_pos
  | cons r dims ih =>
    rw [counts_prod_cons]
    exact Nat.mul_pos Netrange.count_pos ih

theorem slot_cons : slot (r :: dims) (i :: indices) =
    r.digit i * (counts dims).prod + slot dims indices := rfl

/-- A native integer is not changed by the conversion. -/
theorem wrap_of_lt {z : Int} (h : 0 ≤ z) (hlt : z < 2 ^ 63) : wrap z = z := by
  refine Int.bmod_eq_of_le (n := z) (m := 2 ^ 64) ?_ ?_ <;> norm_num <;> omega

theorem wrap_mul_wrap (a b : Int) : wrap (wrap a * b) = wrap (a * b) := Int.bmod_mul_bmod

theorem long_natCast {n : Nat} (h : n < 2 ^ 63) : long (n : Int) = some (n : Int) :=
  if_pos ⟨by omega, by omega⟩

/-- A digit times the width that it counts. The width is too great for a native integer only
where there is one index. -/
theorem digit_mul_wrap {d n p : Nat} (hd : d < n) (h : n * p ≤ 2 ^ 63) (hp : 0 < p) :
    (d : Int) * wrap p = (d * p : Nat) ∧ d * p < 2 ^ 63 := by
  have hlt : d * p < n * p := Nat.mul_lt_mul_of_pos_right hd hp
  refine ⟨?_, lt_of_lt_of_le hlt h⟩
  obtain rfl | hpos := Nat.eq_zero_or_pos d
  · simp
  · have hsmall : 2 * p ≤ n * p := Nat.mul_le_mul_right p (by omega)
    rw [wrap_of_lt (by omega) (by omega)]
    push_cast
    rfl

theorem sbToIdxWalk_cons {r' : Netrange} {i' : Int} :
    sbToIdxWalk (r :: r' :: dims) (i :: i' :: indices) =
      (sbToIdxWalk (r' :: dims) (i' :: indices)).bind fun walk =>
        (r.position i).bind fun tmpOff => (long (tmpOff * walk.2)).bind fun product =>
          (long (walk.1 + product)).bind fun accOff => r.width.bind fun width =>
            some (accOff, wrap (walk.2 * width)) := rfl

/-- The walk of `sb_to_idx` computes the address. -/
theorem sbToIdxWalk_eq (hsize : Sizeable dims) (h : InDims dims indices) (hne : dims ≠ []) :
    sbToIdxWalk dims indices =
      some ((slot dims indices : Int), wrap ((counts dims).prod : Nat)) := by
  induction h with
  | nil => exact absurd rfl hne
  | @cons r i dims indices hi htl ih =>
    obtain ⟨hdefined, hcount⟩ := hsize.1 r List.mem_cons_self
    have hpos := Netrange.position_eq hdefined hcount hi
    have hwid := Netrange.width_eq hdefined hcount
    cases htl with
    | nil => simp [sbToIdxWalk, hwid, hpos, slot, digits, address]
    | @cons r' i' dims' indices' hi' htl' =>
      have hprod : r.count * (counts (r' :: dims')).prod ≤ 2 ^ 63 := by
        have hle := hsize.2
        rwa [counts_prod_cons] at hle
      have hlt := slot_lt (.cons hi (.cons hi' htl'))
      obtain ⟨hmul, hsmall⟩ := digit_mul_wrap (Netrange.digit_lt hi) hprod counts_prod_pos
      have hsum : (slot (r' :: dims') (i' :: indices') : Int) +
          ((r.digit i * (counts (r' :: dims')).prod : Nat) : Int) =
          (slot (r :: r' :: dims') (i :: i' :: indices') : Nat) := by
        rw [@slot_cons r (r' :: dims')]
        push_cast
        ring
      have hbound : slot (r :: r' :: dims') (i :: i' :: indices') < 2 ^ 63 :=
        lt_of_lt_of_le hlt hsize.2
      have hwrap : wrap (wrap ((counts (r' :: dims')).prod : Nat) * (r.count : Int)) =
          wrap ((counts (r :: r' :: dims')).prod : Nat) := by
        rw [wrap_mul_wrap, @counts_prod_cons r (r' :: dims'), Nat.mul_comm r.count, Nat.cast_mul]
      rw [sbToIdxWalk_cons, ih hsize.tail (List.cons_ne_nil _ _), Option.bind_some, hpos,
        Option.bind_some, hmul, long_natCast hsmall, Option.bind_some, hsum,
        long_natCast hbound, Option.bind_some, hwid, Option.bind_some, hwrap]

theorem isLong_of_long {z z' : Int} (h : long z = some z') : IsLong z' := by
  obtain ⟨hlong, hz⟩ := Option.ite_none_right_eq_some.mp h
  exact Option.some_inj.mp hz ▸ hlong

theorem Netrange.isLong_of_position {p : Int} (h : r.position i = some p) : IsLong p := by
  rw [Netrange.position, Netrange.defined_of_position h, Bool.not_true,
    if_neg Bool.false_ne_true] at h
  split_ifs at h <;> exact isLong_of_long h

/-- A walk that ends has used every dimension, and its result is a native integer. -/
theorem of_sbToIdxWalk {off wid : Int} (h : sbToIdxWalk dims indices = some (off, wid)) :
    (∀ r ∈ dims, r.defined = true ∧ r.count < 2 ^ 63) ∧ IsLong off := by
  induction dims generalizing indices off wid with
  | nil => cases indices <;> simp [sbToIdxWalk] at h
  | cons r dims ih =>
    match dims, indices with
    | _, [] => cases dims <;> simp [sbToIdxWalk] at h
    | [], [sb] =>
      obtain ⟨w, hw, h⟩ := Option.bind_eq_some_iff.mp h
      obtain ⟨p, hp, h⟩ := Option.bind_eq_some_iff.mp h
      have hdefined := Netrange.defined_of_position hp
      obtain ⟨rfl, -⟩ := Prod.mk.inj (Option.some_inj.mp h)
      refine ⟨fun r' hr' => ?_, Netrange.isLong_of_position hp⟩
      obtain rfl := List.mem_singleton.mp hr'
      exact ⟨hdefined, Netrange.count_lt_of_width hdefined hw⟩
    | [], _ :: _ :: _ => simp [sbToIdxWalk] at h
    | r' :: dims, [sb] => cases dims <;> simp [sbToIdxWalk] at h
    | r' :: dims, i :: i' :: indices =>
      rw [sbToIdxWalk_cons] at h
      obtain ⟨walk, hwalk, h⟩ := Option.bind_eq_some_iff.mp h
      obtain ⟨tmp, htmp, h⟩ := Option.bind_eq_some_iff.mp h
      obtain ⟨product, -, h⟩ := Option.bind_eq_some_iff.mp h
      obtain ⟨acc, hacc, h⟩ := Option.bind_eq_some_iff.mp h
      obtain ⟨w, hw, h⟩ := Option.bind_eq_some_iff.mp h
      have hdefined := Netrange.defined_of_position htmp
      obtain ⟨rfl, -⟩ := Prod.mk.inj (Option.some_inj.mp h)
      refine ⟨fun r₁ hr₁ => ?_, isLong_of_long hacc⟩
      obtain rfl | hr₁ := List.mem_cons.mp hr₁
      · exact ⟨hdefined, Netrange.count_lt_of_width hdefined hw⟩
      · exact (ih hwalk).1 r₁ hr₁

/-! ## The walk of a slice -/

/-- An address that only some dimensions have an index for. -/
theorem slot_lt_of_take (h : InDims (dims.take indices.length) indices) :
    slot dims indices < (counts dims).prod := by
  induction indices generalizing dims with
  | nil =>
    rw [slot, digits, List.zipWith_nil_right, address_nil]
    exact counts_prod_pos
  | cons i indices ih =>
    cases dims with
    | nil => exact absurd h nofun
    | cons r dims =>
      obtain - | ⟨hi, htl⟩ := h
      rw [slot_cons, counts_prod_cons]
      calc r.digit i * (counts dims).prod + slot dims indices
          < r.digit i * (counts dims).prod + (counts dims).prod := Nat.add_lt_add_left (ih htl) _
        _ = (r.digit i + 1) * (counts dims).prod := by ring
        _ ≤ r.count * (counts dims).prod := Nat.mul_le_mul_right _ (Netrange.digit_lt hi)

theorem tailWidth_eq (hsize : Sizeable dims) : tailWidth dims = some (counts dims).prod := by
  induction dims with
  | nil => rfl
  | cons r dims ih =>
    obtain ⟨hdefined, hcount⟩ := hsize.1 r List.mem_cons_self
    have hle := hsize.2
    rw [counts_prod_cons] at hle
    have hlt : (counts dims).prod * r.count < 2 ^ 64 := by
      rw [Nat.mul_comm]
      omega
    have hmod : (counts dims).prod * r.count % 2 ^ 64 = (counts (r :: dims)).prod := by
      rw [Nat.mod_eq_of_lt hlt, counts_prod_cons, Nat.mul_comm]
    rw [tailWidth, ih hsize.tail, Option.bind_eq_bind, Option.bind_some,
      Netrange.width_eq hdefined hcount, Option.bind_some, Option.pure_def, hmod]

theorem prefixWalk_singleton {sb : Int} (hsize : Sizeable (r :: dims)) (h : r.Contains sb) :
    prefixWalk (r :: dims) [sb] = some (some ⟨(counts dims).prod, (counts dims).prod,
      (slot (r :: dims) [sb] : Nat)⟩) := by
  obtain ⟨hdefined, hcount⟩ := hsize.1 r List.mem_cons_self
  obtain ⟨hlow, hhigh⟩ := Netrange.contains_iff.mp h
  have hle := hsize.2
  rw [counts_prod_cons] at hle
  have hlt := (digit_mul_wrap (Netrange.digit_lt h) hle counts_prod_pos).2
  have hslot : slot (r :: dims) [sb] = r.digit sb * (counts dims).prod := by
    rw [slot_cons, slot, digits, List.zipWith_nil_right, address_nil, Nat.add_zero]
  have hwrap : wrap ((r.digit sb : Int) * ((counts dims).prod : Nat)) =
      ((r.digit sb * (counts dims).prod : Nat) : Int) := by
    rw [← Nat.cast_mul]
    exact wrap_of_lt (Int.natCast_nonneg _) (by omega)
  rw [prefixWalk, tailWidth_eq hsize.tail, Option.bind_eq_bind, Option.bind_some, hdefined,
    Bool.not_true, if_neg Bool.false_ne_true, if_neg hlow, if_neg hhigh,
    Netrange.position_eq hdefined hcount h, Option.bind_eq_bind, Option.bind_some, hwrap, hslot]
  rfl

theorem prefixWalk_cons {r' : Netrange} {i' : Int} :
    prefixWalk (r :: r' :: dims) (i :: i' :: indices) =
      (prefixWalk (r' :: dims) (i' :: indices)).bind fun res =>
        match res with
        | none => some none
        | some walk => r'.width.bind fun width => (r.position i).bind fun position =>
            some (some { walk with
              accWid := walk.accWid * width % 2 ^ 64
              accOff := wrap (walk.accOff + position * (walk.accWid * width % 2 ^ 64 : Nat)) }) := by
  rw [prefixWalk]
  · rfl
  · exact List.cons_ne_nil _ _

/-- For indices in range the walk gives the width of what is left and the address. -/
theorem prefixWalk_eq (hsize : Sizeable dims) (hne : indices ≠ [])
    (h : InDims (dims.take indices.length) indices) :
    prefixWalk dims indices = some (some ⟨(counts (dims.drop indices.length)).prod,
      (counts dims.tail).prod, (slot dims indices : Nat)⟩) := by
  induction indices generalizing dims with
  | nil => exact absurd rfl hne
  | cons i indices ih =>
    cases dims with
    | nil => exact absurd h nofun
    | cons r dims =>
      obtain - | ⟨hi, htl⟩ := h
      cases indices with
      | nil => exact prefixWalk_singleton hsize hi
      | cons i' indices =>
        cases dims with
        | nil => exact absurd htl nofun
        | cons r' dims =>
          obtain ⟨hdefined, hcount⟩ := hsize.1 r List.mem_cons_self
          obtain ⟨hdefined', hcount'⟩ := hsize.tail.1 r' List.mem_cons_self
          have hle := hsize.2
          rw [counts_prod_cons] at hle
          have hacc : (counts dims).prod * r'.count % 2 ^ 64 = (counts (r' :: dims)).prod := by
            rw [Nat.mul_comm, ← counts_prod_cons]
            have hone : (counts (r' :: dims)).prod ≤ 2 ^ 63 := hsize.tail.2
            exact Nat.mod_eq_of_lt (by omega)
          have hlt : slot (r :: r' :: dims) (i :: i' :: indices) < 2 ^ 63 :=
            lt_of_lt_of_le (slot_lt_of_take (.cons hi htl)) hsize.2
          have hoff : wrap ((slot (r' :: dims) (i' :: indices) : Nat) +
              (r.digit i : Int) * ((counts (r' :: dims)).prod : Nat)) =
              (slot (r :: r' :: dims) (i :: i' :: indices) : Nat) := by
            rw [← Nat.cast_mul, ← Nat.cast_add, Nat.add_comm, ← slot_cons]
            exact wrap_of_lt (Int.natCast_nonneg _) (by omega)
          rw [prefixWalk_cons, ih hsize.tail (List.cons_ne_nil _ _) htl, Option.bind_some]
          simp only [List.tail_cons]
          rw [Netrange.width_eq hdefined' hcount', Option.bind_some,
            Netrange.position_eq hdefined hcount hi, Option.bind_some, hacc, hoff]
          rfl

/-- The walk ends with `false` if and only if the last index is not in its range. -/
theorem prefixWalk_none_iff {pre : List Int} {sb : Int} (hsize : Sizeable dims)
    (hlen : pre.length < dims.length) :
    prefixWalk dims (pre ++ [sb]) = some none ↔ ¬ (dims[pre.length]).Contains sb := by
  induction pre generalizing dims with
  | nil =>
    cases dims with
    | nil => exact absurd hlen (Nat.not_lt_zero _)
    | cons r dims =>
      refine ⟨fun h hin => ?_, fun hout => ?_⟩
      · rw [List.nil_append, prefixWalk_singleton hsize hin] at h
        exact Option.some_ne_none _ (Option.some_inj.mp h)
      · obtain ⟨hdefined, -⟩ := hsize.1 r List.mem_cons_self
        rw [List.nil_append, prefixWalk, tailWidth_eq hsize.tail, Option.bind_eq_bind,
          Option.bind_some, hdefined, Bool.not_true, if_neg Bool.false_ne_true]
        split_ifs with hlow hhigh
        · rfl
        · rfl
        · exact absurd (Netrange.contains_iff.mpr ⟨hlow, hhigh⟩) hout
  | cons i pre ih =>
    match dims with
    | [] => exact absurd hlen (Nat.not_lt_zero _)
    | [r] => exact absurd hlen (by simp)
    | r :: r' :: dims =>
      have hlen' : pre.length < (r' :: dims).length := Nat.lt_of_succ_lt_succ hlen
      have hget : (r :: r' :: dims)[(i :: pre).length] = (r' :: dims)[pre.length] := rfl
      rw [hget, ← ih hsize.tail hlen']
      obtain ⟨i', indices, hcons⟩ := List.exists_cons_of_ne_nil
        (List.append_ne_nil_of_right_ne_nil pre (List.cons_ne_nil sb []))
      rw [List.cons_append, hcons, prefixWalk_cons]
      constructor
      · intro h
        obtain ⟨res, hres, h⟩ := Option.bind_eq_some_iff.mp h
        cases res with
        | none => exact hres
        | some walk =>
          obtain ⟨w, -, h⟩ := Option.bind_eq_some_iff.mp h
          obtain ⟨p, -, h⟩ := Option.bind_eq_some_iff.mp h
          exact absurd (Option.some_inj.mp h) nofun
      · intro h
        rw [h]
        rfl

end Icarus.Netmisc
