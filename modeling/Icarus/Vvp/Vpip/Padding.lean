import Icarus.Vvp.Vpip.Radix

/-!
# Digits as wide vectors

The functions that read texts to bases that are powers of two negate what they have read at the
width of the digits, and then pad it from its top bit. A negative number has no bit for its sign
there, so that the padding is right only as long as the number fits the digits with a sign.
-/

namespace Icarus.Vvp

namespace Vector4

theorem toNat_append (u w : Vector4) : toNat (u ++ w) = toNat u + 2 ^ u.length * toNat w := by
  induction u with
  | nil => rw [List.nil_append, toNat, List.length_nil, Nat.pow_zero, Nat.one_mul, Nat.zero_add]
  | cons b u ih =>
    rw [List.cons_append, toNat, ih, toNat, List.length_cons, Nat.pow_succ]
    ring

theorem toNat_zeros (n : Nat) : toNat (List.replicate n .zero) = 0 := by
  induction n with
  | zero => rfl
  | succ n ih => rw [List.replicate_succ, toNat, ih]; rfl

theorem toNat_ones (n : Nat) : toNat (List.replicate n .one) + 1 = 2 ^ n := by
  induction n with
  | zero => rfl
  | succ n ih =>
    rw [List.replicate_succ, toNat, if_pos rfl, Nat.pow_succ]
    omega

theorem known_take {v : Vector4} (hv : v.hasXz = false) (n : Nat) : hasXz (v.take n) = false :=
  hasXz_eq_false.mpr fun b hb => hasXz_eq_false.mp hv b (List.mem_of_mem_take hb)

/-- The low bits of a vector are those of its number. -/
theorem take_eq_ofNat {v : Vector4} (hv : v.hasXz = false) {n : Nat} (hn : n ≤ v.length) :
    v.take n = ofNat n v.toNat := by
  have hlen : (v.take n).length = n := List.length_take_of_le hn
  rw [← ofNat_toNat (known_take hv n), hlen, toNat_take, ofNat_eq_iff, Nat.mod_mod]

/-- The low bits of the low bits of an integer. -/
theorem take_ofInt {n size : Nat} (hn : n ≤ size) (z : Int) :
    (ofInt size z).take n = ofInt n z := by
  have hlen : n ≤ (ofInt size z).length := by rwa [ofInt, length_ofNat]
  have hcast : (((z % 2 ^ size).toNat : Nat) : Int) = z % 2 ^ size :=
    Int.toNat_of_nonneg (Int.emod_nonneg z (by positivity))
  have hknown : hasXz (ofInt size z) = false := hasXz_ofNat ..
  rw [take_eq_ofNat hknown hlen, ← ofInt_natCast, ofInt_eq_iff, ofInt, toNat_ofNat]
  push_cast
  rw [hcast, Int.emod_emod_of_dvd _ dvd_rfl]
  exact (Int.mod_modEq z (2 ^ size)).of_dvd (pow_dvd_pow 2 hn)

/-- Zeros on top do not change the number. -/
theorem take_zeros {v : Vector4} (hv : v.hasXz = false) (n : Nat) :
    (v ++ List.replicate (n - v.length) Bit4.zero).take n = ofNat n v.toNat := by
  have hlen : n ≤ (v ++ List.replicate (n - v.length) Bit4.zero).length := by
    rw [List.length_append, List.length_replicate]
    omega
  rw [take_eq_ofNat (Vpip.known_append.mpr ⟨hv, Vpip.known_zeros _⟩) hlen, toNat_append,
    toNat_zeros, Nat.mul_zero, Nat.add_zero]

/-- Copies of the top bit do not change the integer. -/
theorem take_signs {v : Vector4} (hv : v.hasXz = false) (hpos : 0 < v.length) (n : Nat) :
    (v ++ List.replicate (n - v.length) (v.getLastD .x)).take n = ofInt n v.toInt := by
  obtain ⟨top, htop⟩ : ∃ b, v[v.length - 1]? = some b :=
    ⟨_, List.getElem?_eq_getElem (Nat.sub_lt hpos Nat.one_pos)⟩
  have hlast : v.getLastD .x = top := by
    rw [List.getLastD_eq_getLast?, List.getLast?_eq_getElem?, htop, Option.getD_some]
  have hbit : v.toNat.testBit (v.length - 1) = decide (top = .one) := by
    rw [testBit_toNat, htop]
    exact decide_eq_decide.mpr Option.some_inj
  rw [hlast]
  rcases hasXz_eq_false.mp hv top (List.mem_of_getElem? htop) with rfl | rfl
  · rw [take_zeros hv, toInt_of_not_top (by rw [hbit]; rfl), ofInt_natCast]
  · have hknown : hasXz (v ++ List.replicate (n - v.length) .one) = false :=
      Vpip.known_append.mpr
        ⟨hv, hasXz_eq_false.mpr fun b hb => Or.inr (List.eq_of_mem_replicate hb)⟩
    have hlen : n ≤ (v ++ List.replicate (n - v.length) Bit4.one).length := by
      rw [List.length_append, List.length_replicate]
      omega
    have hones := toNat_ones (n - v.length)
    have hlt := toNat_lt v
    rw [take_eq_ofNat hknown hlen, ← ofInt_natCast, ofInt_eq_iff, toNat_append,
      toInt_of_top (by rw [hbit]; rfl), Int.modEq_iff_dvd]
    have hdiv : (2 : Int) ^ n ∣ 2 ^ (v.length + (n - v.length)) := pow_dvd_pow _ (by omega)
    refine (Int.dvd_neg.mpr hdiv).trans (dvd_of_eq ?_)
    rw [pow_add]
    zify at hones
    rw [← hones]
    push_cast [hlt.le]
    ring

/-- The integer of a vector lies around zero. -/
theorem toInt_bounds {v : Vector4} (hpos : 0 < v.length) :
    -2 ^ (v.length - 1) ≤ v.toInt ∧ v.toInt < 2 ^ (v.length - 1) := by
  have hlt := toNat_lt v
  have hpow : 2 ^ v.length = 2 * 2 ^ (v.length - 1) := by
    rw [← Nat.pow_succ', Nat.succ_eq_add_one, Nat.sub_add_cancel hpos]
  have hcast : ((2 ^ (v.length - 1) : Nat) : Int) = 2 ^ (v.length - 1) := by push_cast; rfl
  have htop := testBit_top hpos
  rw [← hcast]
  cases h : v.toNat.testBit (v.length - 1)
  · rw [h, eq_comm, decide_eq_false_iff_not] at htop
    rw [toInt_of_not_top h]
    omega
  · rw [h, eq_comm, decide_eq_true_eq] at htop
    rw [toInt_of_top h]
    omega

end Vector4

namespace Vpip

/-- The end of the functions that read a text: negate what is read if there is a minus sign, and
pad it. -/
def negatePad (isNegative : Bool) (size : Nat) (tval : Vector4) : Vector4 :=
  let tval := if isNegative then tval.invert.addInt 1 else tval
  let pad : Bit4 := match tval.getLastD .x with
    | .x => .x
    | .z => .z
    | .one => if isNegative then .one else .zero
    | .zero => .zero
  (tval ++ List.replicate (size - tval.length) pad).take size

/-- A number fits in so many bits, with a sign if it is negated, as far as its low bits go. -/
def Fits (isNegative : Bool) (width magnitude size : Nat) : Prop :=
  (0 < width ∨ size = 0) ∧
    (if isNegative then magnitude + 2 ^ (width - 1) - 1 else magnitude) % 2 ^ size < 2 ^ width

/-- The low bits of the low bits of a number are its own if it has no others. -/
theorem mod_two_pow_modEq_iff (x width size : Nat) :
    x % 2 ^ width ≡ x [MOD 2 ^ size] ↔ x % 2 ^ size < 2 ^ width := by
  have hx := Nat.mod_lt x (Nat.two_pow_pos size)
  have hx' := Nat.mod_lt x (Nat.two_pow_pos width)
  rcases Nat.le_total size width with hle | hle
  · refine iff_of_true ?_ (hx.trans_le (Nat.pow_le_pow_right Nat.two_pos hle))
    exact (Nat.mod_mod_of_dvd x (Nat.pow_dvd_pow 2 hle))
  · have hlow : x % 2 ^ width < 2 ^ size := hx'.trans_le (Nat.pow_le_pow_right Nat.two_pos hle)
    have hmod : x % 2 ^ size % 2 ^ width = x % 2 ^ width :=
      Nat.mod_mod_of_dvd x (Nat.pow_dvd_pow 2 hle)
    rw [Nat.ModEq, Nat.mod_eq_of_lt hlow]
    constructor
    · exact fun h => h ▸ hx'
    · exact fun h => by rw [← hmod, Nat.mod_eq_of_lt h]

/-- What is negated stands for the negated number closest to zero. -/
theorem toInt_negated_modEq_iff {tval : Vector4} (hv : tval.hasXz = false) (hpos : 0 < tval.length)
    {magnitude : Nat} (hval : tval.toNat = magnitude % 2 ^ tval.length) (size : Nat) :
    (tval.invert.addInt 1).toInt ≡ -(magnitude : Int) [ZMOD 2 ^ size] ↔
      (magnitude + 2 ^ (tval.length - 1) - 1) % 2 ^ size < 2 ^ tval.length := by
  obtain ⟨width, hwidth⟩ : ∃ w, tval.length = w + 1 := ⟨tval.length - 1, by omega⟩
  rw [Vector4.addInt_invert hv]
  obtain ⟨r, hr⟩ : ∃ r, r = (Vector4.ofInt tval.length (-(tval.toNat : Int))).toInt := ⟨_, rfl⟩
  have hlen : (Vector4.ofInt tval.length (-(tval.toNat : Int))).length = width + 1 := by
    rw [Vector4.ofInt, Vector4.length_ofNat, hwidth]
  have hbounds := Vector4.toInt_bounds (by omega : 0 < (Vector4.ofInt tval.length
    (-(tval.toNat : Int))).length)
  have hmod : r ≡ -(magnitude : Int) [ZMOD 2 ^ (width + 1)] := by
    rw [hr, hwidth]
    refine (Vector4.toInt_ofInt_modEq _ _).trans (Int.ModEq.neg ?_)
    rw [hval, hwidth]
    push_cast
    exact Int.mod_modEq _ _
  rw [← hr, hlen, Nat.add_sub_cancel] at hbounds
  rw [← hr, hwidth, Nat.add_sub_cancel]
  have hpow := Nat.two_pow_pos width
  have hcast : ((2 ^ width : Nat) : Int) = 2 ^ width := by push_cast; rfl
  rw [← hcast] at hbounds
  obtain ⟨y, hy⟩ : ∃ y : Nat, (y : Int) = ((2 ^ width : Nat) : Int) - 1 - r :=
    ⟨(((2 ^ width : Nat) : Int) - 1 - r).toNat, Int.toNat_of_nonneg (by omega)⟩
  -- mirrored, the closest number to zero is the one that is not negative
  have hmirror : ∀ n : Nat, r ≡ -(magnitude : Int) [ZMOD 2 ^ n] ↔
      y ≡ magnitude + 2 ^ width - 1 [MOD 2 ^ n] := by
    intro n
    rw [← Int.natCast_modEq_iff, Int.modEq_iff_dvd, Int.modEq_iff_dvd, hy]
    push_cast [show 1 ≤ magnitude + 2 ^ width by omega]
    refine Int.dvd_neg.symm.trans ?_
    have heq : -(-(magnitude : Int) - r) =
        (magnitude : Int) + 2 ^ width - 1 - (2 ^ width - 1 - r) := by ring
    rw [heq]
  have hlow : y = (magnitude + 2 ^ width - 1) % 2 ^ (width + 1) := by
    have hlt : y < 2 ^ (width + 1) := by
      rw [Nat.pow_succ]
      omega
    rw [← (hmirror (width + 1)).mp hmod, Nat.mod_eq_of_lt hlt]
  rw [hmirror, hlow, mod_two_pow_modEq_iff]

/-- What is read is the low bits of the integer if the number fits. -/
theorem negatePad_eq_iff {tval : Vector4} (hv : tval.hasXz = false) {magnitude : Nat}
    (hval : tval.toNat = magnitude % 2 ^ tval.length) (isNegative : Bool) (size : Nat) :
    negatePad isNegative size tval =
        Vector4.ofInt size (if isNegative then -(magnitude : Int) else magnitude) ↔
      Fits isNegative tval.length magnitude size := by
  rcases Nat.eq_zero_or_pos tval.length with hnil | hpos
  · obtain rfl := List.eq_nil_of_length_eq_zero hnil
    have hpad : negatePad isNegative size [] = List.replicate size .x := by
      cases isNegative <;> simp [negatePad, Vector4.invert, Vector4.addInt, Vector4.addIntLoop]
    rw [hpad, Fits, List.length_nil]
    rcases Nat.eq_zero_or_pos size with rfl | hsize
    · refine iff_of_true ?_ ⟨Or.inr rfl, ?_⟩
      · exact (List.eq_nil_of_length_eq_zero (by rw [Vector4.ofInt, Vector4.length_ofNat])).symm
      · rw [Nat.pow_zero, Nat.mod_one]
        exact Nat.one_pos
    · refine iff_of_false (fun h => ?_) fun h => by omega
      have hknown := Vector4.hasXz_ofNat size
        ((if isNegative then -(magnitude : Int) else magnitude) % 2 ^ size).toNat
      rw [← Vector4.ofInt, ← h, Vector4.hasXz_eq_false] at hknown
      have := hknown .x (List.mem_replicate.mpr ⟨by omega, rfl⟩)
      simp at this
  · have hknown : ∀ {v : Vector4}, v.hasXz = false → 0 < v.length →
        v.getLastD .x = .zero ∨ v.getLastD .x = .one := by
      intro v hv hpos
      rw [List.getLastD_eq_getLast?, List.getLast?_eq_getElem?,
        List.getElem?_eq_getElem (Nat.sub_lt hpos Nat.one_pos)]
      exact Vector4.hasXz_eq_false.mp hv _ (List.getElem_mem _)
    rw [Fits, and_iff_right (Or.inl hpos)]
    cases isNegative with
    | false =>
      have hpad : negatePad false size tval = Vector4.ofNat size tval.toNat := by
        rw [← Vector4.take_zeros hv size, negatePad]
        rcases hknown hv hpos with h | h <;> simp only [Bool.false_eq_true, if_false, h]
      rw [hpad, hval]
      simp only [Bool.false_eq_true, if_false]
      rw [Vector4.ofInt_natCast, Vector4.ofNat_eq_iff]
      exact mod_two_pow_modEq_iff magnitude tval.length size
    | true =>
      have hneg := Vector4.addInt_invert hv
      have hnegKnown : (tval.invert.addInt 1).hasXz = false := by
        rw [hneg]
        exact Vector4.hasXz_ofNat ..
      have hnegLen : (tval.invert.addInt 1).length = tval.length := by
        rw [hneg, Vector4.ofInt, Vector4.length_ofNat]
      have hpad : negatePad true size tval = Vector4.ofInt size (tval.invert.addInt 1).toInt := by
        rw [← Vector4.take_signs hnegKnown (by omega) size, negatePad]
        rcases hknown hnegKnown (by omega) with h | h <;> simp only [if_true, h]
      rw [hpad, Vector4.ofInt_eq_iff]
      exact toInt_negated_modEq_iff hv hpos hval size

/-- A number always fits as far as the width of the digits goes. -/
theorem fits_self {width : Nat} (hpos : 0 < width) (isNegative : Bool) (magnitude : Nat)
    {size : Nat} (hsize : size ≤ width) : Fits isNegative width magnitude size :=
  ⟨Or.inl hpos, (Nat.mod_lt _ (Nat.two_pow_pos size)).trans_le
    (Nat.pow_le_pow_right Nat.two_pos hsize)⟩

/-- A signed number is another one, modulo a power, if the numbers are the same. -/
theorem ofInt_sign_eq_iff (isNegative : Bool) (x y size : Nat) :
    Vector4.ofInt size (if isNegative then -(x : Int) else x) =
        Vector4.ofInt size (if isNegative then -(y : Int) else y) ↔ x ≡ y [MOD 2 ^ size] := by
  rw [Vector4.ofInt_eq_iff, ← Int.natCast_modEq_iff, Nat.cast_pow, Nat.cast_ofNat]
  cases isNegative with
  | false => rfl
  | true =>
    simp only [if_true]
    exact Int.neg_modEq_neg

/-- Negation keeps the width. -/
theorem length_negated {tval : Vector4} (hv : tval.hasXz = false) (isNegative : Bool) :
    (if isNegative then tval.invert.addInt 1 else tval).length = tval.length := by
  split
  · rw [Vector4.addInt_invert hv, Vector4.ofInt, Vector4.length_ofNat]
  · rfl

/-- The low bits are as wide as the digits. -/
theorem take_negatePad {tval : Vector4} (hv : tval.hasXz = false) {isNegative : Bool} {size : Nat}
    (hle : tval.length ≤ size) :
    (negatePad isNegative size tval).take tval.length = negatePad isNegative tval.length tval := by
  have hlen := length_negated hv isNegative
  simp only [negatePad]
  rw [List.take_take, Nat.min_eq_left hle, List.take_append_of_le_length hlen.ge,
    List.take_append_of_le_length hlen.ge]

/-- The function may have read another number: its low bits are then those of the right one, as far
as they are read. -/
theorem negatePad_read_iff {tval : Vector4} (hv : tval.hasXz = false) {read : Nat}
    (hval : tval.toNat = read % 2 ^ tval.length) (isNegative : Bool) (magnitude size : Nat) :
    negatePad isNegative size tval =
        Vector4.ofInt size (if isNegative then -(magnitude : Int) else magnitude) ↔
      read ≡ magnitude [MOD 2 ^ min tval.length size] ∧
        Fits isNegative tval.length magnitude size := by
  rcases Nat.eq_zero_or_pos tval.length with hnil | hpos
  · have hzero : tval.toNat = magnitude % 2 ^ tval.length := by
      rw [hval, hnil, Nat.pow_zero, Nat.mod_one, Nat.mod_one]
    rw [negatePad_eq_iff hv hzero, hnil, Nat.zero_min, Nat.pow_zero, and_iff_right Nat.modEq_one]
  · rcases Nat.le_total size tval.length with hle | hle
    · have hread := (negatePad_eq_iff hv hval isNegative size).mpr
        (fits_self hpos isNegative read hle)
      rw [hread, ofInt_sign_eq_iff, Nat.min_eq_right hle,
        and_iff_left (fits_self hpos isNegative magnitude hle)]
    · rw [Nat.min_eq_left hle]
      constructor
      · intro h
        have hread := (negatePad_eq_iff hv hval isNegative tval.length).mpr
          (fits_self hpos isNegative read le_rfl)
        have hmod : read ≡ magnitude [MOD 2 ^ tval.length] := by
          rw [← ofInt_sign_eq_iff isNegative, ← hread, ← Vector4.take_ofInt hle, ← h,
            take_negatePad hv hle]
        exact ⟨hmod, (negatePad_eq_iff hv (hval.trans hmod) isNegative size).mp h⟩
      · rintro ⟨hmod, hfits⟩
        exact (negatePad_eq_iff hv (hval.trans hmod) isNegative size).mpr hfits

end Vpip

end Icarus.Vvp
