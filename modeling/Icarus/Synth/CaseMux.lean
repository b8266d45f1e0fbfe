import Icarus.Synth.Enable
import Icarus.Verinum.Native
import Mathlib.Data.Nat.Log

/-!
# The muxes of a case statement

`NetCase::synth_async` for plain case statements with constant guards. The guards are native
integers that index a map of statements; the selector is shortened to the bits that the largest
guard needs, with one more for a default statement. The muxes select the statement of the first
item whose guard is the selector, but for guards that have no native value and for selectors
that are out of range.
-/

namespace Icarus.Synth

open Icarus.Verinum

/-! ## Items -/

/-- A case item; the guard of a default item and the statement of an empty item are missing. -/
structure CaseItem (β : Type) where
  guard : Option Verinum
  statement : Option β

/-- What the items are collected into. -/
structure CaseMap (β : Type) where
  /-- `max_guard_value`. -/
  maxGuardValue : BitVec 64
  /-- `statement_map`; an empty statement stands for the case statement itself. -/
  statementMap : BitVec 64 → Option (Option β)
  /-- `default_statement`. -/
  defaultStatement : Option β

variable {β : Type}

/-- One turn of the loop over the items; the warning about a duplicate is left out. -/
def CaseMap.collectItem (m : CaseMap β) (item : CaseItem β) : CaseMap β :=
  match item.guard with
  | none => { m with defaultStatement := item.statement }
  | some gval =>
    let selIdx := asUlong gval
    if (m.statementMap selIdx).isSome then m
    else
      { m with
        maxGuardValue := if m.maxGuardValue < selIdx then selIdx else m.maxGuardValue
        statementMap := fun idx =>
          if idx = selIdx then some item.statement else m.statementMap idx }

/-- The loop over the items. -/
def collect (items : List (CaseItem β)) : CaseMap β :=
  items.foldl CaseMap.collectItem ⟨0, fun _ => none, none⟩

/-- `sel_need`. The sum wraps; the logarithm of zero is less than one. -/
def CaseMap.selNeed (m : CaseMap β) (selWidth : Nat) : Nat :=
  let selNeed := max (Nat.clog 2 (m.maxGuardValue + 1).toNat) 1
  if m.defaultStatement.isSome ∧ selWidth > selNeed then selNeed + 1 else selNeed

/-! ## Muxes -/

/-- What ends the synthesis of a case statement. -/
inductive CaseError
  | tooLarge
  | assertion
  deriving DecidableEq

/-- `{|esig[M-1:N-1], esig[N-2:0]}`. -/
def osig (selNeed esig : Nat) : Nat :=
  (if esig / 2 ^ (selNeed - 1) = 0 then 0 else 2 ^ (selNeed - 1)) + esig % 2 ^ (selNeed - 1)

/-- `mux_selector_reduce_width`: the new selector for each value of the old one. -/
def muxSelectorReduceWidth (selGot selNeed : Nat) : Except CaseError (Nat → Nat) :=
  if selGot < selNeed then .error .assertion
  else if selGot = selNeed then .ok fun esig => esig
  else if selNeed < 2 then .error .assertion
  else .ok (osig selNeed)

/-- The muxes: their size, their selector and the statements of their inputs. -/
structure CaseMux (β : Type) where
  muxSize : Nat
  select : Nat → Nat
  statementMap : BitVec 64 → Option (Option β)
  defaultStatement : Option β

/-- The part of `NetCase::synth_async` that collects the items and reduces the selector. -/
def synthCase (selWidth : Nat) (items : List (CaseItem β)) : Except CaseError (CaseMux β) :=
  let m := collect items
  let selNeed := m.selNeed selWidth
  if 32 ≤ selNeed then .error .tooLarge
  else
    (if selWidth > selNeed then muxSelectorReduceWidth selWidth selNeed
    else .ok fun esig => esig).map
      fun select => ⟨2 ^ selNeed, select, m.statementMap, m.defaultStatement⟩

namespace CaseMux

/-- The statement of an input; without one the statement input is passed on. -/
def data (mux : CaseMux β) (idx : Nat) : Option β :=
  match mux.statementMap (BitVec.ofNat 64 idx) with
  | none => mux.defaultStatement
  | some statement => statement

/-- An output mux, with the outputs of the statements. -/
def outMux {α : Type} (mux : CaseMux β) (statementInput : α) (out : β → α) (esig : Nat) : α :=
  match mux.data (mux.select esig) with
  | none => statementInput
  | some statement => out statement

variable {σ : Type}

/-- An input of the enable mux. -/
def enaData (mux : CaseMux β) (ena : β → Link σ) (idx : Nat) : Link σ :=
  match mux.data idx with
  | none => .tieLo
  | some statement => ena statement

/-- The enable; a full case needs no mux. -/
def enable (mux : CaseMux β) (esig : σ → Nat) (ena : β → Link σ) : Link σ :=
  if ∀ idx < mux.muxSize, (mux.enaData ena idx).isTieHi then .tieHi
  else .caseMux mux.muxSize (fun env => mux.select (esig env)) (mux.enaData ena)

end CaseMux

/-! ## Execution -/

/-- The guard is the selector. -/
def CaseItem.matches (s : Nat) (item : CaseItem β) : Bool :=
  match item.guard with
  | none => false
  | some gval => gval.isDefined && number gval.bits == s

/-- The statement of the default item. -/
def defaultOf (items : List (CaseItem β)) : Option β :=
  ((items.filter fun item => item.guard.isNone).getLast?).bind CaseItem.statement

/-- The statement that is executed, if any. -/
def choice (items : List (CaseItem β)) (s : Nat) : Option β :=
  match items.find? (CaseItem.matches s) with
  | none => defaultOf items
  | some item => item.statement

/-! ## The collected items -/

/-- The value of a guard; one with an unknown bit is read as zero. -/
def guardValue (gval : Verinum) : Nat := if gval.isDefined then number gval.bits else 0

theorem toNat_asUlong_guard (gval : Verinum) :
    (asUlong gval).toNat = min (guardValue gval) (2 ^ 64 - 1) := by
  unfold guardValue
  split_ifs with hdef
  · exact toNat_asUlong hdef
  · have h0 : asUlong gval = 0 := by
      unfold asUlong
      simp [hdef]
    rw [h0]
    rfl

/-- The largest guard. -/
def largestGuard : List (CaseItem β) → Nat
  | [] => 0
  | item :: items => max (item.guard.elim 0 guardValue) (largestGuard items)

/-- The number of selector bits that the guards need. -/
def guardWidth (items : List (CaseItem β)) : Nat := max (Nat.clog 2 (largestGuard items + 1)) 1

/-- The guard of an item, as an index. -/
def CaseItem.index (item : CaseItem β) : Option (BitVec 64) := item.guard.map asUlong

theorem statementMap_foldl (items : List (CaseItem β)) (m : CaseMap β) (idx : BitVec 64) :
    (items.foldl CaseMap.collectItem m).statementMap idx =
      (m.statementMap idx).or
        ((items.find? fun item => item.index = some idx).map CaseItem.statement) := by
  induction items generalizing m with
  | nil => simp
  | cons item items ih =>
    rw [List.foldl_cons, ih, List.find?_cons]
    unfold CaseMap.collectItem CaseItem.index
    cases hguard : item.guard with
    | none => simp
    | some gval =>
      by_cases hidx : asUlong gval = idx
      · subst hidx
        cases hentry : m.statementMap (asUlong gval) <;> simp [hentry]
      · have hne : ¬idx = asUlong gval := fun h => hidx h.symm
        cases hentry : m.statementMap (asUlong gval) <;> simp [hentry, hidx, hne]

/-- An entry is the statement of the first item with its index. -/
theorem statementMap_collect (items : List (CaseItem β)) (idx : BitVec 64) :
    (collect items).statementMap idx =
      (items.find? fun item => item.index = some idx).map CaseItem.statement := by
  unfold collect
  rw [statementMap_foldl, Option.none_or]

theorem defaultStatement_foldl (items : List (CaseItem β)) (m : CaseMap β) :
    (items.foldl CaseMap.collectItem m).defaultStatement =
      match (items.filter fun item => item.guard.isNone).getLast? with
      | none => m.defaultStatement
      | some item => item.statement := by
  induction items generalizing m with
  | nil => rfl
  | cons item items ih =>
    rw [List.foldl_cons, ih]
    cases hguard : item.guard with
    | none =>
      rw [List.filter_cons_of_pos (by rw [hguard]; rfl), List.getLast?_cons]
      cases (items.filter fun item => item.guard.isNone).getLast? <;>
        simp [CaseMap.collectItem, hguard]
    | some gval =>
      rw [List.filter_cons_of_neg (by simp [hguard])]
      cases (items.filter fun item => item.guard.isNone).getLast? with
      | none =>
        simp only [CaseMap.collectItem, hguard]
        split_ifs <;> rfl
      | some last => rfl

theorem defaultStatement_collect (items : List (CaseItem β)) :
    (collect items).defaultStatement = defaultOf items := by
  unfold collect defaultOf
  rw [defaultStatement_foldl]
  cases (items.filter fun item => item.guard.isNone).getLast? <;> rfl

/-- No index of the map is larger than the largest one. -/
def CaseMap.Bounded (m : CaseMap β) : Prop :=
  ∀ idx, (m.statementMap idx).isSome → idx ≤ m.maxGuardValue

theorem CaseMap.Bounded.collectItem {m : CaseMap β} (h : m.Bounded) (item : CaseItem β) :
    (m.collectItem item).Bounded ∧
      (m.collectItem item).maxGuardValue.toNat =
        max m.maxGuardValue.toNat (min (item.guard.elim 0 guardValue) (2 ^ 64 - 1)) := by
  unfold CaseMap.collectItem
  cases hguard : item.guard with
  | none => exact ⟨h, by simp⟩
  | some gval =>
    dsimp only [Option.elim]
    rw [← toNat_asUlong_guard]
    split_ifs with hentry hlt
    · exact ⟨h, (Nat.max_eq_left (BitVec.le_def.mp (h _ hentry))).symm⟩
    · have hle := Nat.le_of_lt (BitVec.lt_def.mp hlt)
      refine ⟨fun idx hidx => ?_, (Nat.max_eq_right hle).symm⟩
      dsimp only at hidx ⊢
      split_ifs at hidx with heq
      · exact BitVec.le_of_eq heq
      · exact BitVec.le_def.mpr ((BitVec.le_def.mp (h idx hidx)).trans hle)
    · have hle : (asUlong gval).toNat ≤ m.maxGuardValue.toNat :=
        Nat.le_of_not_lt fun hlt' => hlt (BitVec.lt_def.mpr hlt')
      refine ⟨fun idx hidx => ?_, (Nat.max_eq_left hle).symm⟩
      dsimp only at hidx ⊢
      split_ifs at hidx with heq
      · rw [heq]
        exact BitVec.le_def.mpr hle
      · exact h idx hidx

theorem maxGuardValue_foldl (items : List (CaseItem β)) {m : CaseMap β} (h : m.Bounded) :
    (items.foldl CaseMap.collectItem m).maxGuardValue.toNat =
      max m.maxGuardValue.toNat (min (largestGuard items) (2 ^ 64 - 1)) := by
  induction items generalizing m with
  | nil => simp [largestGuard]
  | cons item items ih =>
    obtain ⟨hbounded, hmax⟩ := h.collectItem item
    rw [List.foldl_cons, ih hbounded, hmax, largestGuard, Nat.max_assoc, Nat.min_max_distrib_right]

/-- The largest guard saturates. -/
theorem maxGuardValue_collect (items : List (CaseItem β)) :
    (collect items).maxGuardValue.toNat = min (largestGuard items) (2 ^ 64 - 1) := by
  unfold collect
  rw [maxGuardValue_foldl items (by intro idx hidx; simp at hidx)]
  exact Nat.zero_max _

/-! ## The inputs of the muxes -/

/-- The guard is zero or has an unknown bit. -/
def CaseItem.isZero (item : CaseItem β) : Bool :=
  match item.guard with
  | none => false
  | some gval => guardValue gval == 0

/-- The statement of an index. -/
def dataOf (items : List (CaseItem β)) (idx : Nat) : Option β :=
  match items.find? fun item => item.index = some (BitVec.ofNat 64 idx) with
  | none => defaultOf items
  | some item => item.statement

theorem index_iff_matches (item : CaseItem β) {idx : Nat} (hpos : 0 < idx)
    (hlt : idx < 2 ^ 64 - 1) :
    item.index = some (BitVec.ofNat 64 idx) ↔ item.matches idx = true := by
  unfold CaseItem.index CaseItem.matches
  cases item.guard with
  | none => simp
  | some gval =>
    have hnat := toNat_asUlong_guard gval
    have hvalue : guardValue gval = idx ↔ gval.isDefined = true ∧ number gval.bits = idx := by
      unfold guardValue
      split_ifs with hdef
      · exact (and_iff_right hdef).symm
      · exact iff_of_false (Nat.ne_of_lt hpos) fun h => hdef h.1
    rw [Option.map_some, Option.some_inj, ← BitVec.toNat_inj, hnat, BitVec.toNat_ofNat,
      Nat.mod_eq_of_lt (by omega), Bool.and_eq_true, beq_iff_eq, ← hvalue]
    omega

theorem index_iff_isZero (item : CaseItem β) :
    item.index = some (BitVec.ofNat 64 0) ↔ item.isZero = true := by
  unfold CaseItem.index CaseItem.isZero
  cases item.guard with
  | none => simp
  | some gval =>
    have hnat := toNat_asUlong_guard gval
    rw [Option.map_some, Option.some_inj, ← BitVec.toNat_inj, hnat, BitVec.toNat_ofNat, beq_iff_eq]
    omega

/-- An input that no guard with an unknown bit and no guard that saturates is bound to. -/
theorem dataOf_eq_choice (items : List (CaseItem β)) {idx : Nat} (hpos : 0 < idx)
    (hlt : idx < 2 ^ 64 - 1) : dataOf items idx = choice items idx := by
  have hpred : (fun item : CaseItem β => decide (item.index = some (BitVec.ofNat 64 idx))) =
      CaseItem.matches idx := by
    ext item
    rw [Bool.eq_iff_iff, decide_eq_true_iff]
    exact index_iff_matches item hpos hlt
  unfold dataOf choice
  rw [hpred]

/-- The first input is the one of the first guard that is zero or has an unknown bit. -/
theorem dataOf_zero (items : List (CaseItem β)) :
    dataOf items 0 = choice items 0 ↔
      ∀ item, items.find? CaseItem.isZero = some item → item.statement = choice items 0 := by
  have hpred : (fun item : CaseItem β => decide (item.index = some (BitVec.ofNat 64 0))) =
      CaseItem.isZero := by
    ext item
    rw [Bool.eq_iff_iff, decide_eq_true_iff]
    exact index_iff_isZero item
  unfold dataOf
  rw [hpred]
  cases hfind : items.find? CaseItem.isZero with
  | some item => simp
  | none =>
    have hnone : items.find? (CaseItem.matches 0) = none := by
      rw [List.find?_eq_none] at hfind ⊢
      intro item hitem hmatch
      refine hfind item hitem ?_
      unfold CaseItem.matches at hmatch
      unfold CaseItem.isZero guardValue
      cases hguard : item.guard with
      | none => simp [hguard] at hmatch
      | some gval => simp_all
    simp [choice, hnone]

/-- Beyond the largest guard no item matches. -/
theorem choice_of_lt {items : List (CaseItem β)} {s : Nat} (h : largestGuard items < s) :
    choice items s = defaultOf items := by
  have hnone : items.find? (CaseItem.matches s) = none := by
    rw [List.find?_eq_none]
    intro item hitem hmatch
    have hle : item.guard.elim 0 guardValue ≤ largestGuard items := by
      clear h hmatch
      induction items with
      | nil => simp at hitem
      | cons head items ih =>
        rcases List.mem_cons.mp hitem with rfl | hmem
        · exact Nat.le_max_left _ _
        · exact (ih hmem).trans (Nat.le_max_right _ _)
    unfold CaseItem.matches at hmatch
    cases hguard : item.guard with
    | none => simp [hguard] at hmatch
    | some gval =>
      simp only [hguard, Bool.and_eq_true, beq_iff_eq] at hmatch
      simp only [hguard, Option.elim_some, guardValue, hmatch.1, if_true, hmatch.2] at hle
      omega
  simp [choice, hnone]

theorem largestGuard_lt {items : List (CaseItem β)} {selWidth : Nat}
    (hlen : ∀ item ∈ items, ∀ gval, item.guard = some gval → gval.len = selWidth) :
    largestGuard items < 2 ^ selWidth := by
  induction items with
  | nil => exact Nat.two_pow_pos selWidth
  | cons item items ih =>
    refine Nat.max_lt.mpr ⟨?_, ih fun other h => hlen other (List.mem_cons_of_mem _ h)⟩
    cases hguard : item.guard with
    | none => exact Nat.two_pow_pos selWidth
    | some gval =>
      have hnumber := number_lt gval.bits
      have hbits : gval.bits.length = selWidth := hlen item (by simp) gval hguard
      rw [hbits] at hnumber
      unfold Option.elim guardValue
      dsimp only
      split_ifs
      · exact hnumber
      · exact Nat.two_pow_pos selWidth

/-! ## The selected statement -/

/-- The case statement is synthesised without a failed assertion, and for each value of the
selector all muxes select what is executed. -/
def Selects (selWidth : Nat) (items : List (CaseItem β)) : Prop :=
  ∃ mux, synthCase selWidth items = .ok mux ∧
    ∀ (α σ : Type) (statementInput : α) (out : β → α) (ena : β → Link σ) (esig : σ → Nat)
      (env : σ), esig env < 2 ^ selWidth →
      mux.outMux statementInput out (esig env) =
          (choice items (esig env)).elim statementInput out ∧
        (mux.enable esig ena).eval env =
          (choice items (esig env)).elim false fun statement => (ena statement).eval env

/-- The value of an enable that is optimised away is the value of all the inputs. -/
theorem CaseMux.eval_enable {σ : Type} (mux : CaseMux β) (esig : σ → Nat) (ena : β → Link σ)
    {env : σ} (h : mux.select (esig env) < mux.muxSize) :
    (mux.enable esig ena).eval env =
      (mux.data (mux.select (esig env))).elim false fun statement => (ena statement).eval env := by
  have hdata : (mux.enaData ena (mux.select (esig env))).eval env =
      (mux.data (mux.select (esig env))).elim false fun statement => (ena statement).eval env := by
    unfold CaseMux.enaData
    cases mux.data (mux.select (esig env)) <;> rfl
  unfold CaseMux.enable
  split_ifs with hfull
  · rw [← hdata, Link.eval_of_isTieHi (hfull _ h)]
    rfl
  · exact hdata

/-- The new selector is an index of the mux. -/
theorem muxSelectorReduceWidth_lt {selGot selNeed s : Nat} {select : Nat → Nat}
    (h : muxSelectorReduceWidth selGot selNeed = .ok select) (hs : s < 2 ^ selGot) :
    select s < 2 ^ selNeed := by
  unfold muxSelectorReduceWidth at h
  split_ifs at h with hlt heq htwo
  · cases h
    rwa [← heq]
  · cases h
    have hpow : 2 ^ selNeed = 2 ^ (selNeed - 1) + 2 ^ (selNeed - 1) := by
      rw [← Nat.two_mul, ← pow_succ']
      congr 1
      omega
    have hmod := Nat.mod_lt s (Nat.two_pow_pos (selNeed - 1))
    unfold osig
    split_ifs <;> omega

section Selects

variable {items : List (CaseItem β)} {selWidth : Nat}

/-- The selector of the muxes. -/
theorem synthCase_eq (hneed : (collect items).selNeed selWidth < 32) :
    synthCase selWidth items =
      (if selWidth > (collect items).selNeed selWidth then
        muxSelectorReduceWidth selWidth ((collect items).selNeed selWidth)
      else .ok fun esig => esig).map fun select =>
        ⟨2 ^ (collect items).selNeed selWidth, select, (collect items).statementMap,
          (collect items).defaultStatement⟩ := by
  unfold synthCase
  dsimp only
  rw [if_neg (Nat.not_le.mpr hneed)]

theorem data_collect (muxSize : Nat) (select : Nat → Nat) (idx : Nat) :
    CaseMux.data ⟨muxSize, select, (collect items).statementMap, (collect items).defaultStatement⟩
      idx = dataOf items idx := by
  unfold CaseMux.data dataOf
  dsimp only
  rw [statementMap_collect, defaultStatement_collect]
  cases items.find? fun item => item.index = some (BitVec.ofNat 64 idx) <;> rfl

/-- The muxes of a case statement that selects what is executed. -/
theorem Selects.data {mux : CaseMux β} (h : Selects selWidth items)
    (hmux : synthCase selWidth items = .ok mux) {s : Nat} (hs : s < 2 ^ selWidth) :
    mux.data (mux.select s) = choice items s := by
  obtain ⟨mux', hok, hselects⟩ := h
  rw [hmux, Except.ok.injEq] at hok
  subst hok
  have hout := (hselects (Option β) Nat none some (fun _ => .tieHi) (fun env => env) s hs).1
  unfold CaseMux.outMux at hout
  cases hdata : mux.data (mux.select s) <;> cases hchoice : choice items s <;> simp_all

/-- The muxes select by the statements of the indices. -/
theorem selects_iff_dataOf {select : Nat → Nat} {muxSize : Nat}
    (hmux : synthCase selWidth items =
      .ok ⟨muxSize, select, (collect items).statementMap, (collect items).defaultStatement⟩)
    (hlt : ∀ s < 2 ^ selWidth, select s < muxSize) :
    Selects selWidth items ↔ ∀ s < 2 ^ selWidth, dataOf items (select s) = choice items s := by
  constructor
  · intro h s hs
    have hdata := h.data hmux hs
    rwa [data_collect] at hdata
  · intro hdata
    refine ⟨_, hmux, fun α σ statementInput out ena esig env hs => ⟨?_, ?_⟩⟩
    · unfold CaseMux.outMux
      rw [data_collect]
      dsimp only
      rw [hdata _ hs]
      cases choice items (esig env) <;> rfl
    · rw [CaseMux.eval_enable _ _ _ (hlt _ hs), data_collect]
      dsimp only
      rw [hdata _ hs]

/-- No reduction: the selector is the index. -/
theorem selects_of_le (hneed : (collect items).selNeed selWidth < 32)
    (hle : selWidth ≤ (collect items).selNeed selWidth) :
    Selects selWidth items ↔ dataOf items 0 = choice items 0 := by
  have hmux := synthCase_eq hneed
  rw [if_neg (Nat.not_lt.mpr hle)] at hmux
  have hpow := Nat.pow_le_pow_right Nat.two_pos hle
  have h32 := Nat.pow_lt_pow_right Nat.one_lt_two hneed
  rw [selects_iff_dataOf hmux fun s hs => hs.trans_le hpow]
  refine ⟨fun h => h 0 (Nat.two_pow_pos selWidth), fun h s hs => ?_⟩
  rcases Nat.eq_zero_or_pos s with rfl | hpos
  · exact h
  · exact dataOf_eq_choice items hpos (by omega)

/-- With reduction the upper half has the selectors that are out of range. -/
theorem selects_of_lt (hneed : (collect items).selNeed selWidth < 32)
    (htwo : 2 ≤ (collect items).selNeed selWidth)
    (hlt : (collect items).selNeed selWidth < selWidth) :
    Selects selWidth items ↔ dataOf items 0 = choice items 0 ∧
      ∀ s < 2 ^ selWidth, 2 ^ ((collect items).selNeed selWidth - 1) ≤ s →
        choice items s = choice items (2 ^ ((collect items).selNeed selWidth - 1) +
          s % 2 ^ ((collect items).selNeed selWidth - 1)) := by
  have hok : muxSelectorReduceWidth selWidth ((collect items).selNeed selWidth) =
      .ok (osig ((collect items).selNeed selWidth)) := by
    unfold muxSelectorReduceWidth
    rw [if_neg (by omega), if_neg (by omega), if_neg (by omega)]
  have hmux := synthCase_eq hneed
  rw [if_pos hlt, hok] at hmux
  rw [selects_iff_dataOf hmux fun s hs => muxSelectorReduceWidth_lt hok hs]
  generalize (collect items).selNeed selWidth = selNeed at *
  have h32 : 2 ^ selNeed < 2 ^ 32 := Nat.pow_lt_pow_right Nat.one_lt_two hneed
  have hdouble : 2 ^ selNeed = 2 ^ (selNeed - 1) + 2 ^ (selNeed - 1) := by
    rw [← Nat.two_mul, ← pow_succ']
    congr 1
    omega
  have hhalf := Nat.two_pow_pos (selNeed - 1)
  have hupper : ∀ s, 2 ^ (selNeed - 1) ≤ s →
      dataOf items (osig selNeed s) = choice items (2 ^ (selNeed - 1) + s % 2 ^ (selNeed - 1)) := by
    intro s hs
    have hmod := Nat.mod_lt s hhalf
    unfold osig
    rw [if_neg (Nat.div_pos hs hhalf).ne']
    exact dataOf_eq_choice items (by omega) (by omega)
  have hlower : ∀ s, s < 2 ^ (selNeed - 1) → osig selNeed s = s := by
    intro s hs
    unfold osig
    rw [if_pos (Nat.div_eq_of_lt hs), Nat.mod_eq_of_lt hs, Nat.zero_add]
  constructor
  · intro h
    refine ⟨?_, fun s hs hge => ?_⟩
    · have hzero := h 0 (Nat.two_pow_pos selWidth)
      rwa [hlower 0 hhalf] at hzero
    · rw [← h s hs, hupper s hge]
  · rintro ⟨hzero, h⟩ s hs
    rcases Nat.lt_or_ge s (2 ^ (selNeed - 1)) with hlow | hge
    · rw [hlower s hlow]
      rcases Nat.eq_zero_or_pos s with rfl | hpos
      · exact hzero
      · exact dataOf_eq_choice items hpos (by omega)
    · rw [hupper s hge, h s hs hge]

/-- One bit is too few for the reduction. -/
theorem not_selects (hneed : (collect items).selNeed selWidth < 2)
    (hlt : (collect items).selNeed selWidth < selWidth) : ¬Selects selWidth items := by
  rintro ⟨mux, hok, -⟩
  rw [synthCase_eq (by omega), if_pos hlt] at hok
  unfold muxSelectorReduceWidth at hok
  rw [if_neg (by omega), if_neg (by omega), if_pos hneed] at hok
  cases hok

/-! ## When the muxes select what is executed -/

/-- The first guard that is zero or has an unknown bit has the statement of a zero selector. A
guard that saturates needs a default statement, and the other selectors are executed as the two
that they are reduced to. Without a default statement no item may be in the upper half of a
selector that is reduced. -/
structure CaseCondition (selWidth : Nat) (items : List (CaseItem β)) : Prop where
  zero : ∀ item, items.find? CaseItem.isZero = some item → item.statement = choice items 0
  saturated : 2 ^ 64 - 1 ≤ largestGuard items → (defaultOf items).isSome ∧
    ∀ s < 2 ^ selWidth, 2 ≤ s → choice items s = choice items (2 + s % 2)
  range : largestGuard items < 2 ^ 64 - 1 → defaultOf items = none → guardWidth items < selWidth →
    2 ≤ guardWidth items ∧
      ∀ s, 2 ^ (guardWidth items - 1) ≤ s → s < 2 ^ guardWidth items → choice items s = none

theorem selNeed_collect (hlt : largestGuard items < 2 ^ 64 - 1) :
    (collect items).selNeed selWidth =
      if (defaultOf items).isSome ∧ selWidth > guardWidth items then guardWidth items + 1
      else guardWidth items := by
  have hmax := maxGuardValue_collect items
  have hone : ((collect items).maxGuardValue + 1).toNat = largestGuard items + 1 := by
    rw [BitVec.toNat_add, hmax]
    have : (1 : BitVec 64).toNat = 1 := rfl
    omega
  unfold CaseMap.selNeed guardWidth
  dsimp only
  rw [hone, defaultStatement_collect]

theorem selNeed_collect_saturated (hge : 2 ^ 64 - 1 ≤ largestGuard items) :
    (collect items).selNeed selWidth =
      if (defaultOf items).isSome ∧ selWidth > 1 then 2 else 1 := by
  have hmax := maxGuardValue_collect items
  have hzero : ((collect items).maxGuardValue + 1).toNat = 0 := by
    rw [BitVec.toNat_add, hmax]
    have : (1 : BitVec 64).toNat = 1 := rfl
    omega
  unfold CaseMap.selNeed
  dsimp only
  rw [hzero, defaultStatement_collect, Nat.clog_zero_right]
  rfl

theorem guardWidth_pos (items : List (CaseItem β)) : 0 < guardWidth items := Nat.le_max_right _ 1

theorem largestGuard_lt_guardWidth (items : List (CaseItem β)) :
    largestGuard items < 2 ^ guardWidth items :=
  (Nat.le_pow_clog Nat.one_lt_two _).trans
    (Nat.pow_le_pow_right Nat.two_pos (Nat.le_max_left _ 1))

/-- A default statement has the extra bit of the selector. -/
theorem selects_iff_of_isSome (hlt : largestGuard items < 2 ^ 64 - 1)
    (hneed : (collect items).selNeed selWidth < 32) (hsome : (defaultOf items).isSome) :
    Selects selWidth items ↔ dataOf items 0 = choice items 0 := by
  have hneed' := @selNeed_collect β items selWidth hlt
  have hclog := largestGuard_lt_guardWidth items
  have hpos := guardWidth_pos items
  rcases Nat.lt_or_ge (guardWidth items + 1) selWidth with hreduce | hall
  · rw [if_pos ⟨hsome, by omega⟩] at hneed'
    rw [selects_of_lt hneed (by omega) (by omega), hneed', Nat.add_sub_cancel]
    refine and_iff_left fun s _ hs => ?_
    rw [choice_of_lt (hclog.trans_le hs),
      choice_of_lt (hclog.trans_le (Nat.le_add_right _ _))]
  · refine selects_of_le hneed ?_
    rw [hneed']
    split_ifs with h
    · exact hall
    · exact Nat.le_of_not_lt fun hlt => h ⟨hsome, hlt⟩

/-- Without a default statement the upper half of the selectors is shared. -/
theorem selects_iff_of_none (hlt : largestGuard items < 2 ^ 64 - 1)
    (hguard : guardWidth items ≤ selWidth) (hneed : (collect items).selNeed selWidth < 32)
    (hnone : defaultOf items = none) :
    Selects selWidth items ↔ dataOf items 0 = choice items 0 ∧
      (guardWidth items < selWidth → 2 ≤ guardWidth items ∧
        ∀ s, 2 ^ (guardWidth items - 1) ≤ s → s < 2 ^ guardWidth items →
          choice items s = none) := by
  have hneed' := @selNeed_collect β items selWidth hlt
  have hclog := largestGuard_lt_guardWidth items
  have hpos := guardWidth_pos items
  rw [hnone, if_neg (by simp)] at hneed'
  rw [hneed'] at hneed
  rcases hguard.lt_or_eq with hreduce | heq
  · by_cases htwo : 2 ≤ guardWidth items
    · rw [selects_of_lt (by rwa [hneed']) (by rwa [hneed']) (by rwa [hneed']), hneed']
      have hdouble : 2 ^ guardWidth items =
          2 ^ (guardWidth items - 1) + 2 ^ (guardWidth items - 1) := by
        rw [← Nat.two_mul, ← pow_succ', Nat.sub_add_cancel hpos]
      have hwide : 2 ^ (guardWidth items + 1) ≤ 2 ^ selWidth :=
        Nat.pow_le_pow_right Nat.two_pos hreduce
      rw [pow_succ] at hwide
      refine and_congr_right fun _ => ⟨fun h _ => ⟨htwo, fun s hge hs => ?_⟩, fun h s hs hge => ?_⟩
      · -- the selector one range above is not the guard of any item
        have hmod : (2 ^ guardWidth items + s) % 2 ^ (guardWidth items - 1) =
            s - 2 ^ (guardWidth items - 1) := by
          rw [hdouble, Nat.add_assoc, Nat.add_mod_left, Nat.add_mod_left,
            Nat.mod_eq_sub_mod hge, Nat.mod_eq_of_lt (by omega)]
        have habove := h (2 ^ guardWidth items + s) (by omega) (by omega)
        rw [hmod, Nat.add_sub_cancel' hge, choice_of_lt (by omega), hnone] at habove
        exact habove.symm
      · have hin := (h hreduce).2
        have hmod := Nat.mod_lt s (Nat.two_pow_pos (guardWidth items - 1))
        rw [hin (2 ^ (guardWidth items - 1) + s % 2 ^ (guardWidth items - 1)) (by omega) (by omega)]
        rcases Nat.lt_or_ge s (2 ^ guardWidth items) with hs' | hs'
        · exact hin s hge hs'
        · rw [choice_of_lt (hclog.trans_le hs'), hnone]
    · refine iff_of_false (not_selects (by rw [hneed']; omega) (by rwa [hneed'])) ?_
      exact fun h => htwo (h.2 hreduce).1
  · rw [selects_of_le (by rwa [hneed']) (by rw [hneed', heq])]
    exact (and_iff_left fun h => absurd h (by omega)).symm

/-- A guard that saturates leaves two bits of the selector. -/
theorem selects_iff_of_saturated (hge : 2 ^ 64 - 1 ≤ largestGuard items) (htwo : 2 < selWidth) :
    Selects selWidth items ↔ dataOf items 0 = choice items 0 ∧ (defaultOf items).isSome ∧
      ∀ s < 2 ^ selWidth, 2 ≤ s → choice items s = choice items (2 + s % 2) := by
  have hneed' := @selNeed_collect_saturated β items selWidth hge
  by_cases hsome : (defaultOf items).isSome
  · rw [if_pos ⟨hsome, by omega⟩] at hneed'
    rw [selects_of_lt (by omega) (by omega) (by omega), hneed']
    exact and_congr_right fun _ => (and_iff_right hsome).symm
  · rw [if_neg (fun h => hsome h.1)] at hneed'
    exact iff_of_false (not_selects (by omega) (by omega)) fun h => hsome h.2.1

/-- The first input, the guards that saturate and the upper half decide. -/
theorem selects_iff_inputs (hpos : 0 < selWidth)
    (hlen : ∀ item ∈ items, ∀ gval, item.guard = some gval → gval.len = selWidth)
    (hneed : (collect items).selNeed selWidth < 32) :
    Selects selWidth items ↔ dataOf items 0 = choice items 0 ∧
      (2 ^ 64 - 1 ≤ largestGuard items → (defaultOf items).isSome ∧
        ∀ s < 2 ^ selWidth, 2 ≤ s → choice items s = choice items (2 + s % 2)) ∧
      (largestGuard items < 2 ^ 64 - 1 → defaultOf items = none → guardWidth items < selWidth →
        2 ≤ guardWidth items ∧
          ∀ s, 2 ^ (guardWidth items - 1) ≤ s → s < 2 ^ guardWidth items →
            choice items s = none) := by
  have hlargest := largestGuard_lt hlen
  rcases Nat.lt_or_ge (largestGuard items) (2 ^ 64 - 1) with hlt | hge
  · have hguard : guardWidth items ≤ selWidth :=
      Nat.max_le.mpr ⟨Nat.clog_le_of_le_pow hlargest, hpos⟩
    have hnot : ¬2 ^ 64 - 1 ≤ largestGuard items := Nat.not_le.mpr hlt
    by_cases hsome : (defaultOf items).isSome
    · rw [selects_iff_of_isSome hlt hneed hsome]
      refine (and_iff_left ⟨fun h => absurd h hnot, fun _ hnone => ?_⟩).symm
      rw [hnone] at hsome
      exact absurd hsome Bool.false_ne_true
    · have hnone : defaultOf items = none := by simpa using hsome
      rw [selects_iff_of_none hlt hguard hneed hnone]
      exact and_congr_right fun _ => ⟨fun h => ⟨fun h' => absurd h' hnot, fun _ _ => h⟩,
        fun h => h.2 hlt hnone⟩
  · have htwo : 2 < selWidth := by
      by_contra hle
      have := Nat.pow_le_pow_right Nat.two_pos (Nat.le_of_not_lt hle)
      omega
    rw [selects_iff_of_saturated hge htwo]
    have hnot : ¬largestGuard items < 2 ^ 64 - 1 := Nat.not_lt.mpr hge
    exact and_congr_right fun _ => ⟨fun h => ⟨fun _ => h, fun h' => absurd h' hnot⟩,
      fun h => h.1 hge⟩

/-- The condition is enough. -/
theorem CaseCondition.selects (h : CaseCondition selWidth items) (hpos : 0 < selWidth)
    (hlen : ∀ item ∈ items, ∀ gval, item.guard = some gval → gval.len = selWidth)
    (hneed : (collect items).selNeed selWidth < 32) : Selects selWidth items :=
  (selects_iff_inputs hpos hlen hneed).mpr ⟨(dataOf_zero items).mpr h.zero, h.saturated, h.range⟩

/-- The muxes select what is executed exactly under the condition. -/
theorem selects_iff_caseCondition (hpos : 0 < selWidth)
    (hlen : ∀ item ∈ items, ∀ gval, item.guard = some gval → gval.len = selWidth)
    (hneed : (collect items).selNeed selWidth < 32) :
    Selects selWidth items ↔ CaseCondition selWidth items := by
  refine ⟨fun h => ?_, fun h => h.selects hpos hlen hneed⟩
  obtain ⟨hzero, hsaturated, hrange⟩ := (selects_iff_inputs hpos hlen hneed).mp h
  exact ⟨(dataOf_zero items).mp hzero, hsaturated, hrange⟩

end Selects

/-- A default statement and one guard, of a selector of two bits. -/
theorem selects_iff_caseCondition_default :
    Selects 2 [⟨some ⟨[.v1, .v0], true, false, false, false⟩, some 7⟩, ⟨none, some 9⟩] := by
  refine (selects_iff_caseCondition (by decide) ?_ (by decide)).mpr ⟨?_, ?_, ?_⟩
  · intro item hitem gval hguard
    rcases List.mem_cons.mp hitem with rfl | hitem
    · cases hguard
      rfl
    · rw [List.mem_singleton.mp hitem] at hguard
      cases hguard
  · intro item hfind
    cases hfind
  · intro hge
    exact absurd hge (by decide)
  · intro _ hnone
    exact absurd hnone (by decide)

/-- Without a default statement a selector of two bits with the guards zero and one fails an
assertion, and a selector of three bits with the guards zero to three selects the third statement
where no guard is the selector. -/
theorem not_selects_guards :
    ¬Selects 2 [⟨some ⟨[.v0, .v0], true, false, false, false⟩, some 0⟩,
        ⟨some ⟨[.v1, .v0], true, false, false, false⟩, some 1⟩] ∧
      ¬Selects 3 [⟨some ⟨[.v0, .v0, .v0], true, false, false, false⟩, some 0⟩,
        ⟨some ⟨[.v1, .v0, .v0], true, false, false, false⟩, some 1⟩,
        ⟨some ⟨[.v0, .v1, .v0], true, false, false, false⟩, some 2⟩,
        ⟨some ⟨[.v1, .v1, .v0], true, false, false, false⟩, some 3⟩] := by
  refine ⟨not_selects (by decide) (by decide), fun h => ?_⟩
  have hupper := (selects_of_lt (by decide) (by decide) (by decide)).mp h
  exact absurd (hupper.2 4 (by decide) (by decide)) (by decide)

end Icarus.Synth
