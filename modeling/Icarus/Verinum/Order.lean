import Icarus.Verinum.Compare

/-!
# The order of numbers

`<` repeats the code of `<=` but for its last answer; `>` and `>=` exchange the operands. Between
operands of one signedness all five comparisons are those of the integers.
-/

namespace Icarus.Verinum

/-- The loop of `<` over the common bits, from the top. -/
def ltLoop (left right : List V) : Nat → V
  | 0 => .v0
  | idx + 1 =>
    let l := left.getD idx .v0
    let r := right.getD idx .v0
    if l = .vx ∨ l = .vz ∨ r = .vx ∨ r = .vz then .vx
    else if r.digit < l.digit then .v0
    else if l.digit < r.digit then .v1
    else ltLoop left right idx

/-- `operator <`. -/
def lt (left right : Verinum) : V :=
  let signedCalc := left.hasSign && right.hasSign
  let leftPad := comparePad signedCalc left
  let rightPad := comparePad signedCalc right
  if leftPad = .v1 ∧ rightPad = .v0 then .v1
  else if leftPad = .v0 ∧ rightPad = .v1 then .v0
  else if (left.bits.drop right.len).any (· ≠ rightPad) then
    if signedCalc ∧ leftPad = .v1 then .v1 else .v0
  else if (right.bits.drop left.len).any (· ≠ leftPad) then
    if signedCalc ∧ rightPad = .v1 then .v0 else .v1
  else ltLoop left.bits right.bits (min left.len right.len)

/-- `operator >`. -/
def gt (left right : Verinum) : V := lt right left

/-- `operator >=`. -/
def ge (left right : Verinum) : V := le right left

/-- A number with bits, none of them X or Z, of a signedness. -/
structure Operand (sign : Bool) (v : Verinum) : Prop where
  /-- There are bits. -/
  pos : 0 < v.len
  /-- There are no X and Z bits. -/
  defined : v.isDefined
  /-- The signedness. -/
  hasSign : v.hasSign = sign

/-! ## Less is not greater or equal -/

theorem getD_known {bits : List V} (h : ∀ b ∈ bits, b.Known) (idx : Nat) :
    (bits.getD idx .v0).Known := by
  rw [List.getD_eq_getElem?_getD]
  by_cases hidx : idx < bits.length
  · rw [List.getElem?_eq_getElem hidx]
    exact h _ (List.getElem_mem hidx)
  · rw [List.getElem?_eq_none (Nat.not_lt.mp hidx)]
    exact Or.inl rfl

/-- The loops of `<` and `<=` with their operands exchanged. -/
theorem ltLoop_eq_not {left right : List V} (hl : ∀ b ∈ left, b.Known)
    (hr : ∀ b ∈ right, b.Known) (idx : Nat) :
    ltLoop left right idx = (leLoop right left idx).not := by
  induction idx with
  | zero => rfl
  | succ idx ih =>
    rw [ltLoop, leLoop, ih]
    rcases getD_known hl idx with h | h <;> rcases getD_known hr idx with g | g <;>
      simp only [h, g] <;> rfl

section Operands

variable {sign : Bool} {left right : Verinum}

/-- A pad is the top bit of a signed operand, and zero of an unsigned one. -/
theorem Operand.comparePad_known (h : Operand sign left) (signedCalc : Bool) :
    (comparePad signedCalc left).Known := by
  rw [comparePad]
  split_ifs
  · exact getD_known (left.isDefined_iff.mp h.defined) _
  · exact Or.inl rfl

omit left right in
/-- Bits above an operand are those of a longer one. -/
private theorem lt_of_any_drop {bits : List V} {n : Nat} {pad : V}
    (h : (bits.drop n).any (· ≠ pad) = true) : n < bits.length := by
  by_contra hle
  rw [List.drop_of_length_le (Nat.not_lt.mp hle), List.any_nil] at h
  exact Bool.false_ne_true h

/-- `<` is the complement of `<=` with the operands exchanged. -/
theorem Operand.lt_eq_not (hl : Operand sign left) (hr : Operand sign right) :
    lt left right = (le right left).not := by
  have hloop := ltLoop_eq_not (left.isDefined_iff.mp hl.defined)
    (right.isDefined_iff.mp hr.defined) (min left.len right.len)
  have hleft := hl.comparePad_known (left.hasSign && right.hasSign)
  have hright := hr.comparePad_known (left.hasSign && right.hasSign)
  unfold lt le
  rw [Bool.and_comm right.hasSign, Nat.min_comm right.len, hloop]
  dsimp only
  generalize comparePad (left.hasSign && right.hasSign) left = leftPad at *
  generalize comparePad (left.hasSign && right.hasSign) right = rightPad at *
  by_cases hal : (left.bits.drop right.len).any (· ≠ rightPad) = true
  · -- The left operand is longer: the right one has no bits above it.
    have har : ¬ (right.bits.drop left.len).any (· ≠ leftPad) = true := fun h =>
      absurd (lt_of_any_drop h) (Nat.lt_asymm (lt_of_any_drop hal))
    simp only [if_pos hal, if_neg har]
    rcases hleft with rfl | rfl <;> rcases hright with rfl | rfl <;> simp only [V.not] <;>
      split_ifs <;> first | rfl | trivial
  · simp only [if_neg hal]
    by_cases har : (right.bits.drop left.len).any (· ≠ leftPad) = true
    · simp only [if_pos har]
      rcases hleft with rfl | rfl <;> rcases hright with rfl | rfl <;> simp only [V.not] <;>
        split_ifs <;> first | rfl | trivial
    · simp only [if_neg har]
      rcases hleft with rfl | rfl <;> rcases hright with rfl | rfl <;> rfl

/-- `<` compares the integers of operands of one signedness. -/
theorem lt_eq (hl : Operand sign left) (hr : Operand sign right) :
    lt left right = if left.toInt < right.toInt then .v1 else .v0 := by
  rw [hl.lt_eq_not hr, le_eq hr.pos hl.pos hr.defined hl.defined (hr.hasSign.trans hl.hasSign.symm)]
  by_cases h : left.toInt < right.toInt
  · rw [if_pos h, if_neg (not_le.mpr h)]
    rfl
  · rw [if_neg h, if_pos (not_lt.mp h)]
    rfl

/-- A comparison that holds says so. -/
private theorem ite_eq_v1 {p : Prop} [Decidable p] : (if p then V.v1 else .v0) = .v1 ↔ p := by
  by_cases h : p
  · simp [h]
  · simp [h]

/-- The comparisons of operands of one signedness are those of their integers, so that `<` is a
strict total order up to `==`. -/
theorem compare_operands {third : Verinum} (hl : Operand sign left) (hr : Operand sign right)
    (ht : Operand sign third) :
    eq left right = (if left.toInt = right.toInt then .v1 else .v0) ∧
      lt left right = (if left.toInt < right.toInt then .v1 else .v0) ∧
      le left right = (if left.toInt ≤ right.toInt then .v1 else .v0) ∧
      gt left right = (if left.toInt > right.toInt then .v1 else .v0) ∧
      ge left right = (if left.toInt ≥ right.toInt then .v1 else .v0) ∧
      lt left left = .v0 ∧
      (lt left right = .v1 → lt right third = .v1 → lt left third = .v1) ∧
      (eq left right = .v1 → (lt left third = .v1 ↔ lt right third = .v1) ∧
        (lt third left = .v1 ↔ lt third right = .v1)) ∧
      (lt left right = .v1 ∨ eq left right = .v1 ∨ lt right left = .v1) ∧
      ¬ (lt left right = .v1 ∧ (eq left right = .v1 ∨ lt right left = .v1)) := by
  have hsign := hl.hasSign.trans hr.hasSign.symm
  have heq := eq_eq hl.pos hr.pos hl.defined hr.defined hsign
  refine ⟨heq, lt_eq hl hr, le_eq hl.pos hr.pos hl.defined hr.defined hsign, lt_eq hr hl,
    le_eq hr.pos hl.pos hr.defined hl.defined hsign.symm, ?_⟩
  rw [heq, lt_eq hl hl, lt_eq hl hr, lt_eq hr ht, lt_eq hl ht, lt_eq ht hl, lt_eq ht hr,
    lt_eq hr hl]
  simp only [ite_eq_v1]
  refine ⟨if_neg (lt_irrefl _), lt_trans, fun h => ?_, lt_trichotomy _ _, fun h => ?_⟩
  · rw [h]
    exact ⟨Iff.rfl, Iff.rfl⟩
  · exact h.2.elim h.1.ne h.1.asymm

/-- Of -2, -1 and 3, in two, one and three bits. -/
theorem compare_operands_three :
    lt ⟨[.v0, .v1], true, true, false, false⟩ ⟨[.v1], true, true, false, false⟩ = .v1 := by
  have h := (@compare_operands true ⟨[.v0, .v1], true, true, false, false⟩
    ⟨[.v1], true, true, false, false⟩ ⟨[.v1, .v1, .v0], true, true, false, false⟩
    ⟨by decide, by decide, rfl⟩ ⟨by decide, by decide, rfl⟩ ⟨by decide, by decide, rfl⟩).2.1
  exact h.trans (if_pos (by decide))

end Operands

end Icarus.Verinum
