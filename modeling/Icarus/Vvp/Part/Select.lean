import Icarus.Vvp.Thread.PartSelect

/-!
# The variable part of a vector

`vvp_fun_part_var` keeps the base of its part in an `int`, where the least `int` stands for a
select that is no address, and steps through the source with 32-bit addresses.
-/

namespace Icarus.Vvp

/-! ## The base -/

/-- What `vector4_to_value` reads into an `int32_t`; nothing where it meets an X or Z bit. -/
def selectValue (isSigned : Bool) (bit : Vector4) : Option (BitVec 32) :=
  if bit.LowXz then none else some (BitVec.ofInt 32 (intValue isSigned bit))

/-- The base that is kept for a select. -/
def selectBase (isSigned : Bool) (bit : Vector4) : BitVec 32 :=
  match selectValue isSigned bit with
  | none => BitVec.intMin 32
  | some tmp => if !isSigned && tmp.toInt < 0 then BitVec.intMin 32 else tmp

/-- An empty select reads as zero. -/
theorem selectBase_nil (isSigned : Bool) : selectBase isSigned [] = 0 := by
  cases isSigned <;> decide

/-! ## The loop -/

/-- The loop of `recv_vec4_` with some bits to go, at bit `idx`. -/
def partLoop (source : Vector4) (base : BitVec 32) : Nat → Nat → Vector4 → Vector4
  | 0, _, res => res
  | togo + 1, idx, res =>
    let adr := base + BitVec.ofNat 32 idx
    if adr.toInt < 0 then partLoop source base togo (idx + 1) res
    else if source.length ≤ adr.toNat then res
    else partLoop source base togo (idx + 1) (res.set idx (source.getD adr.toNat .x))

/-- The part that `recv_vec4_` finds. -/
def partVarValue (wid : BitVec 32) (source : Vector4) (base : BitVec 32) : Vector4 :=
  partLoop source base wid.toNat 0 (xVec wid.toNat)

@[simp] theorem length_partLoop (source : Vector4) (base : BitVec 32) (togo idx : Nat)
    (res : Vector4) : (partLoop source base togo idx res).length = res.length := by
  induction togo generalizing idx res with
  | zero => rfl
  | succ togo ih =>
    rw [partLoop]
    split_ifs
    · exact ih _ _
    · rfl
    · rw [ih, List.length_set]

@[simp] theorem length_xVec (wid : Nat) : (xVec wid).length = wid := List.length_replicate

@[simp] theorem length_partVarValue (wid : BitVec 32) (source : Vector4) (base : BitVec 32) :
    (partVarValue wid source base).length = wid.toNat := by
  rw [partVarValue, length_partLoop, length_xVec]

/-- The addresses the loop steps through fit an `int`: it leaves a short source before they
wrap around, or the part ends first. -/
def NoWrap (size togo : Nat) (base : Int) : Prop :=
  size < 2 ^ 31 ∧ base < 2 ^ 31 ∨ base + togo ≤ 2 ^ 31

/-- The loop sets the bits it gets to, as far as they are in the source. -/
private theorem getElem?_partLoop {source : Vector4} {base : BitVec 32} {togo idx : Nat}
    (hidx : idx + togo < 2 ^ 32) (hwrap : NoWrap source.length togo (base.toInt + idx))
    (res : Vector4) (i : Nat) :
    (partLoop source base togo idx res)[i]? = res[i]?.map fun b =>
      if idx ≤ i ∧ i < idx + togo ∧ 0 ≤ base.toInt + i ∧ base.toInt + i < source.length then
        source.bitAt (base.toInt + i)
      else b := by
  have hbase := BitVec.toInt_eq_toNat_cond base
  induction togo generalizing idx res with
  | zero =>
    rw [partLoop]
    cases res[i]? with
    | none => rfl
    | some b => rw [Option.map_some, if_neg (by omega)]
  | succ togo ih =>
    have hadr : (base + BitVec.ofNat 32 idx).toInt = base.toInt + idx := by
      have hsum := BitVec.toInt_eq_toNat_cond (base + BitVec.ofNat 32 idx)
      unfold NoWrap at hwrap
      rw [BitVec.toNat_add, BitVec.toNat_ofNat] at hsum
      omega
    have hnat : 0 ≤ base.toInt + idx →
        ((base + BitVec.ofNat 32 idx).toNat : Int) = base.toInt + idx := by
      intro hpos
      have hsum := BitVec.toInt_eq_toNat_cond (base + BitVec.ofNat 32 idx)
      omega
    rw [partLoop]
    by_cases hneg : (base + BitVec.ofNat 32 idx).toInt < 0
    · -- the position is below the source
      rw [if_pos hneg, ih (by omega) (by unfold NoWrap at hwrap ⊢; omega)]
      congr 1
      funext b
      split_ifs <;> first | rfl | omega
    · rw [if_neg hneg]
      by_cases hend : source.length ≤ (base + BitVec.ofNat 32 idx).toNat
      · -- the position is past the source, and so is every later one
        rw [if_pos hend]
        cases res[i]? with
        | none => rfl
        | some b => rw [Option.map_some, if_neg (by omega)]
      · rw [if_neg hend, ih (by omega) (by unfold NoWrap at hwrap ⊢; omega), List.getElem?_set]
        by_cases hi : idx = i
        · subst hi
          have hbit : source.bitAt (base.toInt + idx) =
              source.getD (base + BitVec.ofNat 32 idx).toNat .x := by
            rw [← hnat (by omega), bitAt_natCast, List.getD_eq_getElem?_getD]
          rw [if_pos rfl, hbit]
          by_cases hres : idx < res.length
          · rw [if_pos hres, List.getElem?_eq_getElem hres, Option.map_some, Option.map_some,
              if_neg (by omega), if_pos (by omega)]
          · rw [if_neg hres, List.getElem?_eq_none (by omega), Option.map_none, Option.map_none]
        · rw [if_neg hi]
          congr 1
          funext b
          split_ifs <;> first | rfl | omega

/-- Where the addresses do not wrap around, the loop finds the window at the base. -/
theorem partVarValue_eq {wid : BitVec 32} {source : Vector4} {base : BitVec 32}
    (hwrap : NoWrap source.length wid.toNat base.toInt) :
    partVarValue wid source base = source.window base.toInt wid.toNat := by
  have hwid := wid.isLt
  apply List.ext_getElem?
  intro i
  have hzero : NoWrap source.length wid.toNat (base.toInt + (0 : Nat)) := by
    rwa [Nat.cast_zero, add_zero]
  rw [partVarValue, getElem?_partLoop (by omega) hzero]
  by_cases hi : i < wid.toNat
  · rw [getElem?_window source base.toInt hi, xVec, List.getElem?_replicate_of_lt hi,
      Option.map_some, Option.some_inj]
    by_cases hin : 0 ≤ base.toInt + i ∧ base.toInt + i < source.length
    · rw [if_pos (by omega)]
    · rw [if_neg (by omega)]
      rcases not_and_or.mp hin with hneg | hge
      · exact (bitAt_neg (by omega)).symm
      · exact (bitAt_ge (by omega)).symm
  · rw [List.getElem?_eq_none (by rw [length_xVec]; omega),
      List.getElem?_eq_none (by rw [length_window]; omega), Option.map_none]

/-- Nothing but X is found in a source of nothing but X. -/
theorem partVarValue_xVec (wid : BitVec 32) (n : Nat) (base : BitVec 32) :
    partVarValue wid (xVec n) base = xVec wid.toNat := by
  rw [partVarValue]
  generalize wid.toNat = togo
  suffices h : ∀ togo idx m, partLoop (xVec n) base togo idx (xVec m) = xVec m from h togo 0 togo
  intro togo
  induction togo with
  | zero => exact fun _ _ => rfl
  | succ togo ih =>
    intro idx m
    have hx : (xVec m).set idx ((xVec n).getD (base + BitVec.ofNat 32 idx).toNat .x) = xVec m := by
      have hbit : (xVec n).getD (base + BitVec.ofNat 32 idx).toNat .x = .x := by
        rw [xVec, List.getD_eq_getElem?_getD, List.getElem?_getD_replicate_default_eq]
      rw [hbit, xVec, List.set_replicate_self]
    rw [partLoop, hx, ih, ite_self, ite_self]

/-! ## The part that is meant -/

theorem meantPart_nil (isSigned : Bool) (source : Vector4) (wid : Nat) :
    meantPart isSigned [] source wid = source.window 0 wid := by
  cases isSigned <;> rfl

/-- The base that is kept for a select addresses the part that is meant. An X or Z bit is seen
if it is among the low 32, the integer is to fit an `int`, and a select without sign that reads
as negative is beyond the source. -/
def Addressed (isSigned : Bool) (wid : Nat) (source select : Vector4) : Prop :=
  select.LowXz ∧ wid ≤ 2 ^ 31 ∨
    select.hasXz = false ∧
      (-2 ^ 31 ≤ intValue isSigned select ∧ intValue isSigned select < 2 ^ 31 ∧
          NoWrap source.length wid (intValue isSigned select) ∨
        isSigned = false ∧ 2 ^ 31 ≤ intValue isSigned select % 2 ^ 32 ∧
          source.length ≤ intValue isSigned select ∧ wid ≤ 2 ^ 31)

instance (size togo : Nat) (base : Int) : Decidable (NoWrap size togo base) :=
  inferInstanceAs (Decidable (_ ∧ _ ∨ _))

instance (isSigned : Bool) (wid : Nat) (source select : Vector4) :
    Decidable (Addressed isSigned wid source select) :=
  inferInstanceAs (Decidable (_ ∧ _ ∨ _ ∧ (_ ∧ _ ∧ _ ∨ _ ∧ _ ∧ _ ∧ _)))

/-- The least `int` addresses nothing, if the part is not too wide. -/
theorem partVarValue_intMin {wid : BitVec 32} (hwid : wid.toNat ≤ 2 ^ 31) (source : Vector4) :
    partVarValue wid source (BitVec.intMin 32) = xVec wid.toNat := by
  have hmin : (BitVec.intMin 32).toInt = -2 ^ 31 := by decide
  rw [partVarValue_eq (by unfold NoWrap; omega), window_eq_xVec_iff]
  intro idx hidx
  exact bitAt_neg (by omega)

theorem partVarValue_select {isSigned : Bool} {wid : BitVec 32} {source select : Vector4}
    (h : Addressed isSigned wid.toNat source select) :
    partVarValue wid source (selectBase isSigned select) =
      meantPart isSigned select source wid.toNat := by
  rcases h with ⟨hxz, hwid⟩ | ⟨hknown, h⟩
  · rw [selectBase, selectValue, if_pos hxz, meantPart, if_pos (hasXz_of_lowXz hxz)]
    exact partVarValue_intMin hwid source
  · have hlow : ¬ select.LowXz := fun hxz => by
      rw [hasXz_of_lowXz hxz] at hknown
      cases hknown
    rw [selectBase, selectValue, if_neg hlow, meantPart, if_neg (by rw [hknown]; decide)]
    dsimp only
    have hnonneg : isSigned = false → 0 ≤ intValue isSigned select := by
      rintro rfl
      exact Int.natCast_nonneg _
    generalize intValue isSigned select = z at h hnonneg
    have hint : (BitVec.ofInt 32 z).toInt = z.bmod (2 ^ 32) := BitVec.toInt_ofInt z
    rcases h with ⟨hlo, hhi, hwrap⟩ | ⟨hunsigned, hneg, hout, hwid⟩
    · have hz : (BitVec.ofInt 32 z).toInt = z := by
        rw [hint, Int.bmod_eq_of_le (by omega) (by omega)]
      rw [if_neg, partVarValue_eq (by rwa [hz]), hz]
      simp only [Bool.and_eq_true, Bool.not_eq_true', decide_eq_true_eq, hz, not_and]
      intro hunsigned
      have hpos := hnonneg hunsigned
      omega
    · have hz : (BitVec.ofInt 32 z).toInt < 0 := by
        rw [hint, Int.bmod_def]
        split_ifs <;> omega
      rw [if_pos (by rw [hunsigned, decide_eq_true hz]; rfl), partVarValue_intMin hwid, eq_comm,
        window_eq_xVec_iff]
      intro idx hidx
      exact bitAt_ge (by omega)

end Icarus.Vvp
