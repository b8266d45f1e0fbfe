import Icarus.Verinum.Resize

/-!
# Folding constants of additions

`NetEBAdd::eval_tree` replaces the addition of constants by a constant, and an addition of a
constant to the addition of a constant by one addition. The operator on the outside is kept, so that
the constants are added where the operators are the same, and subtracted else. What is left has the
value of the expression and its sign.
-/

namespace Icarus

open Icarus.Core

namespace Verinum

/-! ## Low bits of sums -/

/-- The low bits of an integer. -/
def lowBits : Nat → Int → List V
  | 0, _ => []
  | n + 1, z => (if z % 2 = 1 then V.v1 else .v0) :: lowBits n (z / 2)

@[simp] theorem length_lowBits (n : Nat) (z : Int) : (lowBits n z).length = n := by
  induction n generalizing z with
  | zero => rfl
  | succ n ih => rw [lowBits, List.length_cons, ih]

theorem known_lowBits (n : Nat) (z : Int) : ∀ b ∈ lowBits n z, b.Known := by
  induction n generalizing z with
  | zero => exact fun b hb => absurd hb List.not_mem_nil
  | succ n ih =>
    intro b hb
    rcases List.mem_cons.mp hb with rfl | hb
    · split
      · exact Or.inr rfl
      · exact Or.inl rfl
    · exact ih _ b hb

theorem number_lowBits (n : Nat) (z : Int) : (number (lowBits n z) : Int) = z % 2 ^ n := by
  induction n generalizing z with
  | zero => rw [pow_zero, Int.emod_one]; rfl
  | succ n ih =>
    have hbit : (((if z % 2 = 1 then V.v1 else .v0) : V).digit : Int) = z % 2 := by
      rcases Int.emod_two_eq_zero_or_one z with h | h <;> rw [h] <;> rfl
    have hcons : number (lowBits (n + 1) z) =
        ((if z % 2 = 1 then V.v1 else .v0) : V).digit + 2 * number (lowBits n (z / 2)) := by
      rw [lowBits, number, Words.sum_cons, pow_one]
      rfl
    rw [hcons]
    push_cast
    have hpow : (0 : Int) < 2 ^ n := by positivity
    have hlow := Int.emod_nonneg (z / 2) hpow.ne'
    have hhigh := Int.emod_lt_of_pos (z / 2) hpow
    have hsplit : z = z % 2 + 2 * (z / 2 % 2 ^ n) + 2 * 2 ^ n * (z / 2 / 2 ^ n) := by
      have hrest := Int.emod_add_mul_ediv (z / 2) (2 ^ n)
      rw [mul_assoc]
      linarith [Int.emod_add_mul_ediv z 2]
    have hbounds := Int.emod_two_eq_zero_or_one z
    rw [hbit, ih, pow_succ']
    conv_rhs => rw [hsplit]
    rw [Int.add_mul_emod_self_left]
    exact (Int.emod_eq_of_lt (by omega) (by omega)).symm

/-- Known bits are the low bits of every integer that is their number modulo the width. -/
theorem eq_lowBits {bits : List V} {n : Nat} {z : Int} (hknown : ∀ b ∈ bits, b.Known)
    (hlen : bits.length = n) (hmod : (number bits : Int) ≡ z [ZMOD 2 ^ n]) :
    bits = lowBits n z := by
  refine eq_of_number hknown (known_lowBits n z) (by rw [hlen, length_lowBits]) ?_
  have hlt : (number bits : Int) < 2 ^ n := by
    rw [← hlen]
    exact_mod_cast number_lt bits
  zify
  rw [number_lowBits, ← hmod, Int.emod_eq_of_lt (Int.natCast_nonneg _) hlt]

/-- A cast to no more bits keeps the low ones. -/
theorem bits_castToWidth_le {v : Verinum} {width : Nat} (hle : width ≤ v.len) :
    (castToWidth v width).bits = v.bits.take width := by
  rcases Nat.lt_or_eq_of_le hle with hlt | heq
  · exact bits_castToWidth hlt
  · have hall : v.bits.take width = v.bits := List.take_of_length_le heq.ge
    by_cases hsame : v.hasLen ∧ v.len = width
    · rw [castToWidth, if_pos hsame, hall]
    · have hfull : width ≤ (v.bits.take width).length := by rw [hall]; exact heq.le
      rw [castToWidth, if_neg hsame, if_pos hle, copyBits]
      simp only
      rw [Nat.min_eq_left hle, extend_of_le _ hfull, List.take_take, Nat.min_self]

/-- A bit more on top is dropped. -/
theorem castToWidth_appendNe {bits bits' : List V} {extra pad : V} {n : Nat}
    (hlen : bits.length = n) (h : bits' = bits ∨ bits' = appendNe bits extra pad)
    (hasLen hasSign : Bool) :
    (castToWidth (signedBits bits' hasLen hasSign) n).bits = bits := by
  have htake : List.take n bits' = bits ∧ n ≤ bits'.length := by
    subst hlen
    rcases h with rfl | rfl
    · exact ⟨List.take_length, le_rfl⟩
    · refine ⟨?_, length_appendNe bits extra pad⟩
      unfold appendNe
      split
      · exact List.take_left
      · exact List.take_length
  rw [bits_castToWidth_le (by rw [len_signedBits]; exact htake.2)]
  exact htake.1

/-- An undefined result is cast to X bits only. -/
theorem castToWidth_undefined {n : Nat} (hpos : 0 < n) (hasLen hasSign : Bool) :
    (castToWidth (undefined n hasLen hasSign) n).bits = List.replicate n .vx := by
  cases hasLen with
  | true =>
    have hlen : (undefined n true hasSign).len = n := List.length_replicate
    rw [castToWidth, if_pos ⟨rfl, hlen⟩]
    rfl
  | false =>
    have hlen : (undefined n false hasSign).len = 1 := rfl
    have hbits : (undefined n false hasSign).bits = [.vx] := rfl
    rcases Nat.lt_or_eq_of_le (Nat.succ_le_of_lt hpos) with hlt | rfl
    · have hpad : (undefined n false hasSign).get 0 = .vx := rfl
      rw [castToWidth, if_neg (fun h => Bool.false_ne_true h.1), if_neg (by omega), hlen,
        if_neg Nat.one_ne_zero, hpad, hbits]
      simp only [reduceCtorEq, false_and, if_false]
      rw [if_neg fun h => Bool.false_ne_true h.1]
      have hext : extend [.vx] .vx n = List.replicate n V.vx := by
        rw [extend_of_ge _ hlt.le, List.length_singleton, ← List.replicate_one,
          List.replicate_append_replicate, Nat.add_sub_cancel' hlt.le]
      exact hext
    · rw [bits_castToWidth_le hlen.ge, hbits]
      rfl

/-- The low bits of what is added. -/
theorem sumBits_eq_lowBits {l r : List V} {lpad rpad carry : V} {n : Nat} {z : Int}
    (hl : ∀ b ∈ l, b.Known) (hlpad : lpad.Known) (hr : ∀ b ∈ r, b.Known) (hrpad : rpad.Known)
    (hc : carry.Known) (hll : l.length = n) (hlr : r.length = n)
    (hz : ((number l + number r + carry.digit : Nat) : Int) ≡ z [ZMOD 2 ^ n]) :
    (sumBits l lpad r rpad carry n).1 = lowBits n z := by
  obtain ⟨hknown, hnum⟩ := number_sumBits hl hlpad hr hrpad hc n
  rw [extend_of_le lpad hll.ge, extend_of_le rpad hlr.ge, List.take_of_length_le hll.le,
    List.take_of_length_le hlr.le] at hnum
  refine eq_lowBits hknown (length_sumBits ..) (Int.ModEq.trans ?_ hz)
  rw [← hnum, Int.modEq_iff_dvd]
  push_cast
  exact ⟨(sumBits l lpad r rpad carry n).2.digit, by ring⟩

end Verinum

namespace Netmisc

/-- The operators, of the numbers of the compiler. -/
def AddOp.apply : AddOp → Verinum → Verinum → Verinum
  | .plus => Verinum.add
  | .minus => Verinum.sub

/-- The operators, of integers. -/
def AddOp.int : AddOp → Int → Int → Int
  | .plus, y, z => y + z
  | .minus, y, z => y - z

/-- The operators, of vectors to a width: only X bits where an operand has X or Z bits. -/
def AddOp.value (op : AddOp) (wid : Nat) (l r : List Verinum.V) : List Verinum.V :=
  if (∀ b ∈ l, b.Known) ∧ ∀ b ∈ r, b.Known then
    Verinum.lowBits wid (op.int (Verinum.number l) (Verinum.number r))
  else List.replicate wid .vx

namespace EvalAdd

/-- The expressions that the function tells apart. -/
inductive Expr (α : Type)
  /-- An expression that is neither a constant nor an addition, and is not evaluated further. -/
  | other (a : α) (width : Nat) (hasSign : Bool)
  /-- `NetEConst`. -/
  | const (value : Verinum)
  /-- `NetEBAdd`. -/
  | add (op : AddOp) (left right : Expr α) (width : Nat) (hasSign : Bool)

variable {α : Type}

namespace Expr

/-- `expr_width`. -/
def width : Expr α → Nat
  | other _ width _ => width
  | const value => value.len
  | add _ _ _ width _ => width

/-- `has_sign`. -/
def hasSign : Expr α → Bool
  | other _ _ hasSign => hasSign
  | const value => value.hasSign
  | add _ _ _ _ hasSign => hasSign

end Expr

/-- `eval_arguments_`: the constant that replaces the expression, if there is one; none where an
assertion fails. -/
def evalArguments (op : AddOp) (wid : Nat) : Expr α → Expr α → Option (Option Verinum)
  | .const lval, .const rval =>
    if 0 < wid ∧ lval.len = wid ∧ rval.len = wid then
      some (some (Verinum.castToWidth (op.apply lval rval) wid))
    else none
  | _, _ => some none

/-- The end of `eval_tree`, where the operands are not both constants; none where an assertion
fails. -/
def combine (op : AddOp) (left right : Expr α) (wid : Nat) (hasSign : Bool) : Option (Expr α) :=
  match left, right with
  | .add seOp seLeft (.const lval) _ _, .const rval =>
    if 0 < wid ∧ lval.len = wid ∧ rval.len = wid then
      let val :=
        if op = seOp then Verinum.castToWidth (rval.add lval) wid
        else Verinum.castToWidth (rval.sub lval) wid
      some (.add op seLeft (.const val) wid hasSign)
    else none
  | left, right => some (.add op left right wid hasSign)

/-- `eval_expr`, with `eval_tree` of the additions: what the expression becomes. -/
def evalExpr : Expr α → Option (Expr α)
  | .other a width hasSign => some (.other a width hasSign)
  | .const value => some (.const value)
  | .add op left right wid hasSign =>
    (evalExpr left).bind fun left =>
      (evalExpr right).bind fun right =>
        (evalArguments op wid left right).bind fun
          | some val => some (.const val)
          | none => combine op left right wid hasSign

/-! ## Values -/

/-- The value of an expression, with the values of those that are not evaluated. -/
def Expr.value (env : α → List Verinum.V) : Expr α → List Verinum.V
  | .other a _ _ => env a
  | .const value => value.bits
  | .add op left right wid _ => op.value wid (left.value env) (right.value env)

/-! ## Folding two constants -/

section Fold

variable {wid : Nat} {l r : List Verinum.V}

theorem int_modEq (op : AddOp) {y y' z z' m : Int} (hy : y ≡ y' [ZMOD m]) (hz : z ≡ z' [ZMOD m]) :
    op.int y z ≡ op.int y' z' [ZMOD m] := by
  cases op with
  | plus => exact hy.add hz
  | minus => exact hy.sub hz

theorem value_known (op : AddOp) (wid : Nat) (hl : ∀ b ∈ l, b.Known) (hr : ∀ b ∈ r, b.Known) :
    op.value wid l r = Verinum.lowBits wid (op.int (Verinum.number l) (Verinum.number r)) :=
  if_pos ⟨hl, hr⟩

theorem value_unknown (op : AddOp) (wid : Nat) (h : ¬ ((∀ b ∈ l, b.Known) ∧ ∀ b ∈ r, b.Known)) :
    op.value wid l r = List.replicate wid .vx := if_neg h

/-- A value that has no X bits is that of operands without X and Z bits. -/
theorem known_value_iff (op : AddOp) (hpos : 0 < wid) :
    (∀ b ∈ op.value wid l r, b.Known) ↔ (∀ b ∈ l, b.Known) ∧ ∀ b ∈ r, b.Known := by
  constructor
  · intro h
    by_contra hnot
    rw [value_unknown op wid hnot] at h
    exact absurd (h .vx (List.mem_replicate.mpr ⟨hpos.ne', rfl⟩)) (by decide)
  · rintro ⟨hl, hr⟩
    rw [value_known op wid hl hr]
    exact Verinum.known_lowBits _ _

/-- Numbers of a width are added to the low bits of their sum. -/
theorem bits_apply (op : AddOp) {l r : Verinum} (hpos : 0 < wid) (hl : l.len = wid)
    (hr : r.len = wid) :
    (Verinum.castToWidth (op.apply l r) wid).bits = op.value wid l.bits r.bits := by
  have hmax : max l.len r.len = wid := by rw [hl, hr, Nat.max_self]
  by_cases hdef : l.isDefined = true ∧ r.isDefined = true
  · obtain ⟨dl, dr⟩ := hdef
    have kl := (Verinum.isDefined_iff l).mp dl
    have kr := (Verinum.isDefined_iff r).mp dr
    have hsl := Verinum.known_signBit kl
    have hsr := Verinum.known_signBit kr
    have hundef : ¬ (!l.isDefined || !r.isDefined) = true := by simp [dl, dr]
    have hmax' : max l.bits.length r.bits.length = wid := hmax
    rw [value_known op wid kl kr]
    cases op with
    | plus =>
      have hsum := @Verinum.sumBits_eq_lowBits l.bits r.bits l.signBit r.signBit .v0 wid
        (AddOp.plus.int (Verinum.number l.bits) (Verinum.number r.bits)) kl hsl kr hsr
        (Or.inl rfl) hl hr (by push_cast; rfl)
      rw [AddOp.apply, Verinum.add, if_neg hundef, Verinum.ripple_eq, hmax', ← hsum]
      exact Verinum.castToWidth_appendNe (Verinum.length_sumBits ..) (ite_eq_or_eq ..) _ _
    | minus =>
      have hnot := Verinum.number_map_not kr
      have hlen : (r.bits.map Verinum.V.not).length = wid := (List.length_map _).trans hr
      have hcomp : (Verinum.number (r.bits.map Verinum.V.not) : Int) =
          2 ^ wid - 1 - Verinum.number r.bits := by
        have hsum := hnot.2
        rw [show r.bits.length = wid from hr] at hsum
        zify at hsum
        linarith
      have hsum := @Verinum.sumBits_eq_lowBits l.bits (r.bits.map Verinum.V.not) l.signBit
        r.signBit.not .v1 wid (AddOp.minus.int (Verinum.number l.bits) (Verinum.number r.bits))
        kl hsl hnot.1 hsr.not.1 (Or.inr rfl) hl hlen (by
          push_cast
          rw [hcomp, Int.modEq_iff_dvd]
          exact ⟨-1, by simp only [AddOp.int, Verinum.V.digit_v1]; push_cast; ring⟩)
      have hmax'' : max l.bits.length (r.bits.map Verinum.V.not).length = wid := by
        rw [List.length_map, hmax']
      rw [AddOp.apply, Verinum.sub, if_neg hundef, Verinum.ripple_eq, hmax'', ← hsum]
      exact Verinum.castToWidth_appendNe (Verinum.length_sumBits ..) (ite_eq_or_eq ..).symm _ _
  · have hundef : (!l.isDefined || !r.isDefined) = true := by
      rw [Bool.or_eq_true, Bool.not_eq_true', Bool.not_eq_true']
      by_contra h
      simp only [not_or, Bool.not_eq_false] at h
      exact hdef h
    rw [value_unknown op wid fun h =>
      hdef ⟨(Verinum.isDefined_iff l).mpr h.1, (Verinum.isDefined_iff r).mpr h.2⟩]
    cases op with
    | plus =>
      rw [AddOp.apply, Verinum.add, if_pos hundef, hmax]
      exact Verinum.castToWidth_undefined hpos _ _
    | minus =>
      rw [AddOp.apply, Verinum.sub, if_pos hundef, hmax]
      exact Verinum.castToWidth_undefined hpos _ _

/-- The constants are combined by the operator on the outside as by both of the operators. -/
theorem value_value (op seOp : AddOp) (hpos : 0 < wid) (a l r : List Verinum.V) :
    op.value wid (seOp.value wid a l) r =
      op.value wid a ((if op = seOp then AddOp.plus else .minus).value wid r l) := by
  by_cases ha : ∀ b ∈ a, b.Known
  · by_cases hl : ∀ b ∈ l, b.Known
    · by_cases hr : ∀ b ∈ r, b.Known
      · rw [value_known seOp wid ha hl, value_known op wid (Verinum.known_lowBits _ _) hr,
          value_known _ wid hr hl, value_known op wid ha (Verinum.known_lowBits _ _)]
        refine Verinum.eq_lowBits (Verinum.known_lowBits _ _) (Verinum.length_lowBits _ _) ?_
        rw [Verinum.number_lowBits, Verinum.number_lowBits, Verinum.number_lowBits]
        refine (Int.mod_modEq _ _).trans ?_
        refine (int_modEq op (Int.mod_modEq _ _) (Int.ModEq.refl _)).trans ?_
        refine Int.ModEq.trans ?_ (int_modEq op (Int.ModEq.refl _) (Int.mod_modEq _ _).symm)
        refine congrArg (· % _) ?_
        cases op <;> cases seOp <;> simp only [AddOp.int, if_true, reduceCtorEq, if_false] <;> ring
      · rw [value_unknown op wid fun h => hr h.2, value_unknown op wid fun h =>
          hr ((known_value_iff _ hpos).mp h.2).1]
    · rw [value_unknown op wid fun h => hl ((known_value_iff seOp hpos).mp h.1).2,
        value_unknown op wid fun h => hl ((known_value_iff _ hpos).mp h.2).2]
  · rw [value_unknown op wid fun h => ha ((known_value_iff seOp hpos).mp h.1).1,
      value_unknown op wid fun h => ha h.1]

end Fold

/-! ## Folding expressions -/

namespace Expr

/-- The operands of the additions have their width. -/
def Wide : Expr α → Prop
  | other _ _ _ => True
  | const _ => True
  | add _ left right wid _ =>
    0 < wid ∧ left.width = wid ∧ right.width = wid ∧ left.Wide ∧ right.Wide

/-- There is an expression that is not evaluated. -/
def hasOther : Expr α → Bool
  | other _ _ _ => true
  | const _ => false
  | add _ left right _ _ => left.hasOther || right.hasOther

end Expr

/-- What an expression may be replaced by. -/
structure Replaces (e e' : Expr α) : Prop where
  wide : e'.Wide
  width_eq : e'.width = e.width
  value_eq : ∀ env, e'.value env = e.value env
  hasOther_eq : e'.hasOther = e.hasOther
  hasSign_eq : e.hasOther = true → e'.hasSign = e.hasSign

theorem Replaces.refl {e : Expr α} (h : e.Wide) : Replaces e e :=
  ⟨h, rfl, fun _ => rfl, rfl, fun _ => rfl⟩

variable {op : AddOp} {left right left' right' : Expr α} {wid : Nat} {hasSign : Bool}

/-- Operands may be replaced. -/
theorem Replaces.add (h : (Expr.add op left right wid hasSign).Wide) (hl : Replaces left left')
    (hr : Replaces right right') :
    Replaces (.add op left right wid hasSign) (.add op left' right' wid hasSign) where
  wide := by
    obtain ⟨hpos, hlw, hrw, -, -⟩ := h
    exact ⟨hpos, hl.width_eq.trans hlw, hr.width_eq.trans hrw, hl.wide, hr.wide⟩
  width_eq := rfl
  value_eq env := by rw [Expr.value, Expr.value, hl.value_eq, hr.value_eq]
  hasOther_eq := by rw [Expr.hasOther, Expr.hasOther, hl.hasOther_eq, hr.hasOther_eq]
  hasSign_eq _ := rfl

theorem Replaces.trans {e e' e'' : Expr α} (h : Replaces e e') (h' : Replaces e' e'') :
    Replaces e e'' where
  wide := h'.wide
  width_eq := h'.width_eq.trans h.width_eq
  value_eq env := (h'.value_eq env).trans (h.value_eq env)
  hasOther_eq := h'.hasOther_eq.trans h.hasOther_eq
  hasSign_eq hother := (h'.hasSign_eq (h.hasOther_eq.trans hother)).trans (h.hasSign_eq hother)

/-- Two constants are replaced by one. -/
theorem replaces_constants {lval rval : Verinum}
    (h : (Expr.add op (.const lval : Expr α) (.const rval) wid hasSign).Wide) :
    Replaces (.add op (.const lval : Expr α) (.const rval) wid hasSign)
      (.const (Verinum.castToWidth (op.apply lval rval) wid)) where
  wide := trivial
  width_eq := Verinum.len_castToWidth _ _
  value_eq _ := bits_apply op h.1 h.2.1 h.2.2.1
  hasOther_eq := rfl
  hasSign_eq hother := by cases hother

/-- An addition of a constant to the addition of a constant is replaced by one addition. -/
theorem replaces_nested {seOp : AddOp} {seLeft : Expr α} {lval rval : Verinum} {seWid : Nat}
    {seSign : Bool}
    (h : (Expr.add op (.add seOp seLeft (.const lval) seWid seSign) (.const rval) wid
      hasSign).Wide) :
    Replaces (.add op (.add seOp seLeft (.const lval) seWid seSign) (.const rval) wid hasSign)
      (.add op seLeft (.const (Verinum.castToWidth
        ((if op = seOp then AddOp.plus else .minus).apply rval lval) wid)) wid hasSign) where
  wide := by
    obtain ⟨hpos, rfl, -, ⟨-, hl, -, hwide, -⟩, -⟩ := h
    exact ⟨hpos, hl, Verinum.len_castToWidth _ _, hwide, trivial⟩
  width_eq := rfl
  value_eq env := by
    obtain ⟨hpos, rfl, hr, ⟨-, -, hl, -⟩, -⟩ := h
    simp only [Expr.value]
    rw [bits_apply _ hpos hr hl, ← value_value op seOp hpos]
    rfl
  hasOther_eq := by
    simp only [Expr.hasOther, Bool.or_false]
  hasSign_eq _ := rfl

/-- The end of `eval_tree` replaces the expression. -/
theorem combine_spec (h : (Expr.add op left right wid hasSign).Wide) :
    ∃ e', combine op left right wid hasSign = some e' ∧
      Replaces (.add op left right wid hasSign) e' := by
  unfold combine
  split
  · next seOp seLeft lval seWid seSign rval =>
    have hnested := replaces_nested h
    obtain ⟨hpos, hwid, hr, ⟨-, -, hl, -⟩, -⟩ := h
    have hval : (if op = seOp then Verinum.castToWidth (rval.add lval) wid
        else Verinum.castToWidth (rval.sub lval) wid) =
          Verinum.castToWidth ((if op = seOp then AddOp.plus else .minus).apply rval lval) wid := by
      split <;> rfl
    rw [if_pos ⟨hpos, hl.trans hwid, hr⟩, hval]
    exact ⟨_, rfl, hnested⟩
  · exact ⟨_, rfl, .refl h⟩

/-- Evaluation of an expression keeps its width and value, and its sign unless it is a constant. -/
theorem evalExpr_replaces {e : Expr α} (h : e.Wide) :
    ∃ e', evalExpr e = some e' ∧ Replaces e e' := by
  induction e with
  | other a width hasSign => exact ⟨_, rfl, .refl h⟩
  | const value => exact ⟨_, rfl, .refl h⟩
  | add op left right wid hasSign ihl ihr =>
    obtain ⟨left', hleft, hl⟩ := ihl h.2.2.2.1
    obtain ⟨right', hright, hr⟩ := ihr h.2.2.2.2
    have hoperands := Replaces.add h hl hr
    rw [evalExpr, hleft, hright, Option.bind_some, Option.bind_some, evalArguments.eq_def]
    split
    · next lval rval =>
      have hconst := replaces_constants hoperands.wide
      obtain ⟨hpos, hlw, hrw, -, -⟩ := hoperands.wide
      rw [if_pos ⟨hpos, hlw, hrw⟩, Option.bind_some]
      exact ⟨_, rfl, hoperands.trans hconst⟩
    · obtain ⟨e', he', hreplaces⟩ := combine_spec hoperands.wide
      exact ⟨e', he', hoperands.trans hreplaces⟩

/-- Evaluation of nested additions keeps the width and the value of the expression, and its sign if
it is not all constants. -/
theorem evalExpr_right {e : Expr α} (h : e.Wide) :
    ∃ e', evalExpr e = some e' ∧ e'.width = e.width ∧ (∀ env, e'.value env = e.value env) ∧
      (e.hasOther = true → e'.hasSign = e.hasSign) := by
  obtain ⟨e', he', hreplaces⟩ := evalExpr_replaces h
  exact ⟨e', he', hreplaces.width_eq, hreplaces.value_eq, hreplaces.hasSign_eq⟩

/-- Two constants added to an expression of four bits. -/
theorem evalExpr_right_two :
    ∃ e', evalExpr (.add .minus (.add .plus (.other () 4 false)
        (.const (Verinum.ofBits [.v1, .v1, .v0, .v0] true)) 4 false)
        (.const (Verinum.ofBits [.v0, .vx, .v0, .v0] false)) 4 true) = some e' ∧ e'.width = 4 ∧
      (∀ env, e'.value env = AddOp.value .minus 4 (AddOp.value .plus 4 (env ())
        [.v1, .v1, .v0, .v0]) [.v0, .vx, .v0, .v0]) ∧ (true = true → e'.hasSign = true) :=
  evalExpr_right (e := .add .minus (.add .plus (.other () 4 false)
    (.const (Verinum.ofBits [.v1, .v1, .v0, .v0] true)) 4 false)
    (.const (Verinum.ofBits [.v0, .vx, .v0, .v0] false)) 4 true)
    ⟨by decide, rfl, rfl, ⟨by decide, rfl, rfl, trivial, trivial⟩, trivial⟩

/-- Constants that are added to an expression one after the other, each with its operator and the
sign of the addition. -/
def Expr.nested (wid : Nat) (e : Expr α) (cs : List (AddOp × Verinum × Bool)) : Expr α :=
  cs.foldl (fun e c => .add c.1 e (.const c.2.1) wid c.2.2) e

/-- Of constants that are added one after the other, one is left. -/
theorem evalExpr_nested (hpos : 0 < wid) (a : α) (aWid : Nat) (aSign : Bool)
    {cs : List (AddOp × Verinum × Bool)} (hcs : ∀ c ∈ cs, c.2.1.len = wid) (hne : cs ≠ []) :
    ∃ op val hasSign, evalExpr (Expr.nested wid (.other a aWid aSign) cs) =
      some (.add op (.other a aWid aSign) (.const val) wid hasSign) ∧ val.len = wid := by
  induction cs using List.reverseRecOn with
  | nil => exact absurd rfl hne
  | append_singleton ds d ih =>
    have hd : d.2.1.len = wid := hcs d (List.mem_append_right _ (List.mem_singleton_self d))
    have hlast : Expr.nested wid (.other a aWid aSign) (ds ++ [d]) =
        .add d.1 (Expr.nested wid (.other a aWid aSign) ds) (.const d.2.1) wid d.2.2 := by
      rw [Expr.nested, List.foldl_append]
      rfl
    rw [hlast, evalExpr]
    by_cases hds : ds = []
    · rw [hds]
      exact ⟨d.1, d.2.1, d.2.2, rfl, hd⟩
    · obtain ⟨op, val, hasSign, heval, hval⟩ :=
        ih (fun c hc => hcs c (List.mem_append_left _ hc)) hds
      have hdone : evalExpr (.const d.2.1 : Expr α) = some (.const d.2.1) := rfl
      rw [heval, hdone, Option.bind_some, Option.bind_some]
      simp only [evalArguments, Option.bind_some, combine]
      rw [if_pos ⟨hpos, hval, hd⟩]
      refine ⟨d.1, _, d.2.2, rfl, ?_⟩
      split <;> exact Verinum.len_castToWidth _ _

end EvalAdd

end Netmisc

end Icarus
