import Mathlib.Data.Bool.Basic

/-!
# Enables and bitmasks

The enable of an output nexus is built from gates as the statements that drive the nexus are
synthesised. A link that is not connected is read as tied low, but must not become the input of a
gate. The bitmask of a nexus has a bit for each of its bits; an empty one stands for a statement
that does not drive the nexus.
-/

namespace Icarus.Synth

/-- What a pin is linked to. The gates have their input links. -/
inductive Link (σ : Type)
  | unlinked
  | tieLo
  | tieHi
  | signal (value : σ → Bool)
  | not (input : Link σ)
  | and (qualifier enable : Link σ)
  | or (qualifier enable : Link σ)
  | mux (select : σ → Bool) (data1 data0 : Link σ)
  | caseMux (size : Nat) (select : σ → Nat) (data : Nat → Link σ)

namespace Link

variable {σ : Type}

/-- The value of a link; one that is not connected is low. -/
def eval (env : σ) : Link σ → Bool
  | unlinked => false
  | tieLo => false
  | tieHi => true
  | signal value => value env
  | not input => !input.eval env
  | and qualifier enable => qualifier.eval env && enable.eval env
  | or qualifier enable => qualifier.eval env || enable.eval env
  | mux select data1 data0 => bif select env then data1.eval env else data0.eval env
  | caseMux _ select data => (data (select env)).eval env

/-- `is_linked`. -/
def isLinked : Link σ → Bool
  | unlinked => false
  | _ => true

/-- `is_linked(scope->tie_lo())`. -/
def isTieLo : Link σ → Bool
  | tieLo => true
  | _ => false

/-- `is_linked(scope->tie_hi())`. -/
def isTieHi : Link σ → Bool
  | tieHi => true
  | _ => false

/-- No gate has an input that is not connected. -/
def Driven : Link σ → Prop
  | not input => input.isLinked ∧ input.Driven
  | and qualifier enable =>
    (qualifier.isLinked ∧ qualifier.Driven) ∧ enable.isLinked ∧ enable.Driven
  | or qualifier enable =>
    (qualifier.isLinked ∧ qualifier.Driven) ∧ enable.isLinked ∧ enable.Driven
  | mux _ data1 data0 => (data1.isLinked ∧ data1.Driven) ∧ data0.isLinked ∧ data0.Driven
  | caseMux size _ data => ∀ idx < size, (data idx).isLinked ∧ (data idx).Driven
  | _ => True

theorem isTieLo_iff {link : Link σ} : link.isTieLo = true ↔ link = tieLo := by
  cases link <;> simp [isTieLo]

theorem isTieHi_iff {link : Link σ} : link.isTieHi = true ↔ link = tieHi := by
  cases link <;> simp [isTieHi]

/-- Tied low and not connected are one value. -/
theorem eval_low {link : Link σ} (h : (link.isTieLo || !link.isLinked) = true) (env : σ) :
    link.eval env = false := by
  cases link <;> simp_all [isTieLo, isLinked, eval]

theorem eval_of_isTieHi {link : Link σ} (h : link.isTieHi = true) (env : σ) :
    link.eval env = true := by
  rw [isTieHi_iff.mp h, eval]

end Link

/-! ## Gates -/

section Gates

variable {σ : Type}

/-- The two types of gates that qualify an enable. -/
inductive GateType
  | and
  | or

/-- `qualify_enable`: the link of its output. -/
def qualifyEnable (qualifier : σ → Bool) (activeState : Bool) (gateType : GateType)
    (enableI : Link σ) : Link σ :=
  if enableI.isTieLo then .tieLo
  else
    let qualifier := if activeState = false then .not (.signal qualifier) else .signal qualifier
    if enableI.isTieHi then qualifier
    else
      match gateType with
      | .and => .and qualifier enableI
      | .or => .or qualifier enableI

/-- `multiplex_enables`: the link of its output, which starts unlinked. -/
def multiplexEnables (select : σ → Bool) (enable1 enable0 : Link σ) : Link σ :=
  if !enable1.isLinked && !enable0.isLinked then .unlinked
  else if enable1.isTieHi && enable0.isTieHi then .tieHi
  else if enable1.isTieLo || !enable1.isLinked then qualifyEnable select false .and enable0
  else if enable0.isTieLo || !enable0.isLinked then qualifyEnable select true .and enable1
  else if enable1.isTieHi then qualifyEnable select true .or enable0
  else if enable0.isTieHi then qualifyEnable select false .or enable1
  else .mux select enable1 enable0

variable {env : σ} {enable1 enable0 topEnable subEnable : Link σ}

theorem eval_qualifyEnable_and (qualifier : σ → Bool) (activeState : Bool) (enableI : Link σ) :
    (qualifyEnable qualifier activeState .and enableI).eval env =
      ((qualifier env == activeState) && enableI.eval env) := by
  cases activeState <;> cases enableI <;>
    simp [qualifyEnable, Link.eval, Link.isTieLo, Link.isTieHi]

/-- The other type of gate is for enables that are not tied. -/
theorem eval_qualifyEnable_or (qualifier : σ → Bool) (activeState : Bool) {enableI : Link σ}
    (hlo : enableI.isTieLo = false) (hhi : enableI.isTieHi = false) :
    (qualifyEnable qualifier activeState .or enableI).eval env =
      ((qualifier env == activeState) || enableI.eval env) := by
  simp only [qualifyEnable, hlo, hhi, Bool.false_eq_true, if_false]
  cases activeState <;> simp [Link.eval]

/-- A gate is driven where the enable is. -/
theorem driven_qualifyEnable (qualifier : σ → Bool) (activeState : Bool) (gateType : GateType)
    {enableI : Link σ} (hlinked : enableI.isLinked = true) (hdriven : enableI.Driven) :
    (qualifyEnable qualifier activeState gateType enableI).isLinked = true ∧
      (qualifyEnable qualifier activeState gateType enableI).Driven := by
  unfold qualifyEnable
  cases activeState <;> cases gateType <;> split_ifs <;>
    simp_all [Link.isLinked, Link.Driven]

/-! ## Clauses of a condition -/

/-- The enable of the selected clause. -/
theorem eval_multiplexEnables (select : σ → Bool) (enable1 enable0 : Link σ) :
    (multiplexEnables select enable1 enable0).eval env =
      bif select env then enable1.eval env else enable0.eval env := by
  unfold multiplexEnables
  split_ifs with hnone hboth h1 h0 hhi1 hhi0
  · simp only [Bool.and_eq_true] at hnone
    have h1 : enable1.eval env = false := Link.eval_low (by rw [hnone.1, Bool.or_true]) env
    have h0 : enable0.eval env = false := Link.eval_low (by rw [hnone.2, Bool.or_true]) env
    simp [Link.eval, h1, h0]
  · simp only [Bool.and_eq_true] at hboth
    rw [Link.eval_of_isTieHi hboth.1, Link.eval_of_isTieHi hboth.2]
    simp [Link.eval]
  · rw [eval_qualifyEnable_and, Link.eval_low h1]
    cases select env <;> simp
  · rw [eval_qualifyEnable_and, Link.eval_low h0]
    cases select env <;> simp
  · simp only [Bool.or_eq_true, not_or, Bool.not_eq_true] at h0
    have hhi : enable0.isTieHi = false := by simpa [hhi1] using hboth
    rw [eval_qualifyEnable_or _ _ h0.1 hhi, Link.eval_of_isTieHi hhi1]
    cases select env <;> simp
  · simp only [Bool.or_eq_true, not_or, Bool.not_eq_true] at h1
    rw [eval_qualifyEnable_or _ _ h1.1 (by simpa using hhi1), Link.eval_of_isTieHi hhi0]
    cases select env <;> simp
  · rw [Link.eval]

/-- Nothing is left undriven unless one clause is tied low and the other not connected. -/
theorem driven_multiplexEnables (select : σ → Bool) (h1 : enable1.Driven) (h0 : enable0.Driven)
    (hlinked : enable1.isLinked = true ∨ enable0.isLinked = true)
    (hlow : enable1 = .tieLo → enable0.isLinked = true) :
    (multiplexEnables select enable1 enable0).isLinked = true ∧
      (multiplexEnables select enable1 enable0).Driven := by
  unfold multiplexEnables
  split_ifs with hnone hboth hlow1 hlow0 hhi1 hhi0
  · simp only [Bool.and_eq_true, Bool.not_eq_true'] at hnone
    rcases hlinked with h | h
    · rw [hnone.1] at h
      exact absurd h Bool.false_ne_true
    · rw [hnone.2] at h
      exact absurd h Bool.false_ne_true
  · exact ⟨rfl, trivial⟩
  · have hlinked0 : enable0.isLinked = true := by
      rcases (Bool.or_eq_true _ _).mp hlow1 with h | h
      · exact hlow (Link.isTieLo_iff.mp h)
      · exact hlinked.resolve_left (by simpa using h)
    exact driven_qualifyEnable _ _ _ hlinked0 h0
  all_goals
    have hlinked1 : enable1.isLinked = true := by simp_all
  · exact driven_qualifyEnable _ _ _ hlinked1 h1
  all_goals
    have hlinked0 : enable0.isLinked = true := by simp_all
  · exact driven_qualifyEnable _ _ _ hlinked0 h0
  · exact driven_qualifyEnable _ _ _ hlinked1 h1
  · exact ⟨rfl, ⟨hlinked1, h1⟩, hlinked0, h0⟩

theorem isTieLo_qualifyEnable (qualifier : σ → Bool) (activeState : Bool) (gateType : GateType)
    (enableI : Link σ) :
    (qualifyEnable qualifier activeState gateType enableI).isTieLo = enableI.isTieLo := by
  unfold qualifyEnable
  cases activeState <;> cases gateType <;> split_ifs <;> simp_all [Link.isTieLo]

/-- The enable is tied low only where both clauses are low. -/
theorem isTieLo_multiplexEnables {select : σ → Bool}
    (h : (multiplexEnables select enable1 enable0).isTieLo = true) :
    (enable1.isTieLo || !enable1.isLinked) = true ∧ enable0.isTieLo = true := by
  unfold multiplexEnables at h
  split_ifs at h with hnone hboth hlow1 hlow0 hhi1 hhi0
  · exact absurd h Bool.false_ne_true
  · exact absurd h Bool.false_ne_true
  · rw [isTieLo_qualifyEnable] at h
    exact ⟨hlow1, h⟩
  · rw [isTieLo_qualifyEnable] at h
    exact absurd h fun h => hlow1 (by rw [h, Bool.true_or])
  · rw [isTieLo_qualifyEnable] at h
    exact absurd h fun h => hlow0 (by rw [h, Bool.true_or])
  · rw [isTieLo_qualifyEnable] at h
    exact absurd h fun h => hlow1 (by rw [h, Bool.true_or])
  · exact absurd h Bool.false_ne_true

/-! ## Statements of a block -/

end Gates

/-! ## Bitmasks -/

/-- `merge_parallel_masks`. -/
def mergeParallelMasks (topMask subMask : List Bool) : List Bool :=
  if subMask.length = 0 then topMask
  else if topMask.length = 0 then subMask
  else List.zipWith (fun top sub => if sub = false then false else top) topMask subMask

/-- The mask of a nexus has all its bits, or none. -/
def MaskOf (wid : Nat) (mask : List Bool) : Prop := mask.length = 0 ∨ mask.length = wid

section Masks

variable {wid : Nat} {topMask subMask : List Bool}

/-- Masks are merged bit by bit where both statements have one. -/
private theorem length_mergeMasks (f : Bool → Bool → Bool) (htop : MaskOf wid topMask)
    (hsub : MaskOf wid subMask) :
    (if subMask.length = 0 then topMask
      else if topMask.length = 0 then subMask
      else List.zipWith f topMask subMask).length = max topMask.length subMask.length := by
  split_ifs with h1 h2
  · rw [h1, Nat.max_zero]
  · rw [h2, Nat.zero_max]
  · rw [List.length_zipWith, htop.resolve_left h2, hsub.resolve_left h1, Nat.min_self,
      Nat.max_self]

theorem length_mergeParallelMasks (htop : MaskOf wid topMask) (hsub : MaskOf wid subMask) :
    (mergeParallelMasks topMask subMask).length = max topMask.length subMask.length :=
  length_mergeMasks _ htop hsub

private theorem maskOf_of_length_eq_max {mask : List Bool} (htop : MaskOf wid topMask)
    (hsub : MaskOf wid subMask) (h : mask.length = max topMask.length subMask.length) :
    MaskOf wid mask := by
  unfold MaskOf at *
  omega

theorem maskOf_mergeParallelMasks (htop : MaskOf wid topMask) (hsub : MaskOf wid subMask) :
    MaskOf wid (mergeParallelMasks topMask subMask) :=
  maskOf_of_length_eq_max htop hsub (length_mergeParallelMasks htop hsub)

theorem length_mergeParallelMasks_ne_zero (htop : MaskOf wid topMask) (hsub : MaskOf wid subMask)
    (h : topMask.length ≠ 0 ∨ subMask.length ≠ 0) :
    (mergeParallelMasks topMask subMask).length ≠ 0 := by
  rw [length_mergeParallelMasks htop hsub]
  omega

/-- A bit of the merged mask is a bit of every clause that drives the nexus. -/
theorem of_mem_mergeParallelMasks {b : Nat}
    (h : (mergeParallelMasks topMask subMask)[b]? = some true) :
    (topMask.length ≠ 0 → topMask[b]? = some true) ∧
      (subMask.length ≠ 0 → subMask[b]? = some true) := by
  unfold mergeParallelMasks at h
  split_ifs at h with h1 h2
  · exact ⟨fun _ => h, fun hne => absurd h1 hne⟩
  · exact ⟨fun hne => absurd h2 hne, fun _ => h⟩
  · rw [List.getElem?_zipWith] at h
    cases htop : topMask[b]? <;> cases hsub : subMask[b]? <;> simp_all

end Masks

end Icarus.Synth
