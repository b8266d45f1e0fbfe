import Icarus.Core.Settling
import Icarus.Vvp.Island.Pass

/-!
# The enable inputs of a tran island

A run of the island tests the enable inputs, makes a pass, and makes another one as long as the
values that the pass has sent change the state of a branch. What a pass sends to a port depends on
the branches that are connected with the port and on nothing else.
-/

namespace Icarus.Vvp.Island

open Icarus.Core

/-- The enable input of a branch. -/
structure Enable where
  /-- The port of the island that `en` leads to; without one the branch is always enabled. -/
  en : Option String
  /-- `active_high`. -/
  activeHigh : Bool

/-- The state of a branch whose enable input has some value. -/
def Enable.stateOf (c : Enable) : Bit4 → TranState
  | .zero => if c.activeHigh then .disabled else .enabled
  | .one => if c.activeHigh then .enabled else .disabled
  | _ => .unknown

/-- `value(0).value()`. -/
def firstBit (v : Vector8) : Bit4 := (v.getD 0 Scalar.hiZ).value

/-- `run_test_enabled`. -/
def runTestEnabled (enable : Nat → Enable) (invalue : String → Vector8) (r : Run)
    (branch : Nat) : Run :=
  let state := match (enable branch).en with
    | none => .enabled
    | some ep =>
      (enable branch).stateOf <|
        if r.outvalue ep ≠ [] then firstBit (r.outvalue ep)
        else if invalue ep = [] then .z
        else firstBit (invalue ep)
  { r with state := Function.update r.state branch state }

/-- `rerun_test_enabled`: an enable input that is not sent a value keeps the state. -/
def rerunTestEnabled (enable : Nat → Enable) (r : Run) (branch : Nat) : Run × Bool :=
  match (enable branch).en with
  | none => (r, false)
  | some ep =>
    if r.outvalue ep = [] then (r, false)
    else
      let state := (enable branch).stateOf (firstBit (r.outvalue ep))
      ({ r with state := Function.update r.state branch state }, state ≠ r.state branch)

/-- The loop of `run_island` that tests the enable inputs again, with `enable_changed`. -/
def rerunTests (enable : Nat → Enable) (order : List Nat) (r : Run) : Run × Bool :=
  order.foldl (fun t branch =>
    let u := rerunTestEnabled enable t.1 branch
    (u.1, t.2 || u.2)) (r, false)

section Rerun

variable (s : Mesh) (enable : Nat → Enable) (invalue islandGetValue : String → Vector8)
  (order : List Nat)

/-- What `run_island` does between the label `rerun` and the jump back to it. -/
def rerun (depth : Nat) (r : Run) : Option (Run × Bool) :=
  (resolutionPass s islandGetValue depth order r).map (rerunTests enable order)

/-- `run_island`, with the depth of the recursion and the number of passes. -/
def runIsland (depth passes : Nat) (r : Run) : Option Run :=
  Settling.loop (rerun s enable islandGetValue order depth) passes
    (order.foldl (runTestEnabled enable invalue) r)

end Rerun

/-! ## One push -/

section Push

variable {s : Mesh} {islandGetValue : String → Vector8}

/-- The value that a port is pushed into with: its old one, or its input on the first visit. -/
def firstValue (input oldVal : Vector8) : Vector8 := if oldVal = [] then input else oldVal

/-- The new value of the other port and what is called for, from what a push reads. -/
def pushChange (s : Mesh) (islandGetValue : String → Vector8) (val : String) (cur : BranchPtr)
    (state : TranState) (oldVal value : Vector8) :
    Option (Vector8 × List (String × BranchPtr)) :=
  let dst := s.portOf cur.other
  let base := firstValue (islandGetValue dst) oldVal
  if state = .disabled ∨ base = [] then some (oldVal, [])
  else do
    let new ← resolvePushed (s.branch cur.ptr) state cur.other.port base
      (if val = dst then base else value)
    if new = oldVal then some (new, [])
    else do
      let connections ← s.collectNode cur.other
      some (new, connections.map fun idx => (dst, idx))

/-- A push reads the state of its branch and the values at both sides, and sets the other one. -/
theorem pushStep_eq_pushChange (r : Run) (val : String) (cur : BranchPtr) :
    pushStep s islandGetValue r (val, cur) =
      (pushChange s islandGetValue val cur (r.state cur.ptr) (r.value (s.portOf cur.other))
        (r.value val)).map fun change => (r.setValue (s.portOf cur.other) change.1, change.2) := by
  obtain ⟨hvalue, hstate, hother, hset⟩ := @firstVisit islandGetValue r (s.portOf cur.other)
  have hbase : firstValue (islandGetValue (s.portOf cur.other)) (r.value (s.portOf cur.other)) =
      baseValue islandGetValue r (s.portOf cur.other) := rfl
  have hkeep : baseValue islandGetValue r (s.portOf cur.other) = [] →
      (if r.value (s.portOf cur.other) = [] then
        r.setValue (s.portOf cur.other) (islandGetValue (s.portOf cur.other)) else r) = r := by
    intro hnil
    by_cases hold : r.value (s.portOf cur.other) = []
    · rw [if_pos hold]
      rw [baseValue, if_pos hold] at hnil
      rw [hnil, ← hold, setValue_same]
    · rw [if_neg hold]
  simp only [pushStep, pushChange, hbase]
  generalize (if r.value (s.portOf cur.other) = [] then
    r.setValue (s.portOf cur.other) (islandGetValue (s.portOf cur.other)) else r) = r' at *
  by_cases hdisabled : r.state cur.ptr = .disabled
  · simp [hdisabled]
  rw [if_neg hdisabled, hvalue, hstate]
  by_cases hnil : baseValue islandGetValue r (s.portOf cur.other) = []
  · rw [if_pos hnil, if_pos (Or.inr hnil), hkeep hnil, Option.map_some, setValue_same]
  · rw [if_neg hnil, if_neg (not_or.mpr ⟨hdisabled, hnil⟩)]
    have hval : r'.value val = if val = s.portOf cur.other then
        baseValue islandGetValue r (s.portOf cur.other) else r.value val := by
      split_ifs with hself
      · rw [hself, hvalue]
      · exact hother val hself
    rw [hval]
    simp only [hset, Option.bind_eq_bind, Option.map_bind]
    congr 1
    funext new
    simp only [Function.comp]
    split_ifs
    · rfl
    · simp

/-- A value that is pushed into a port has the size of the value there. -/
theorem length_resolvePushed {branch : Branch} {state : TranState} {dstB : Bool}
    {value val new : Vector8} (h : resolvePushed branch state dstB value val = some new) :
    new.length = value.length := by
  have hsized : ∀ {w : Vector8}, resolveSized value w = some new → new.length = value.length := by
    intro w hw
    rw [resolveSized, Option.ite_none_right_eq_some] at hw
    obtain ⟨hsize, hnew⟩ := hw
    rw [← Option.some_inj.mp hnew, resolveVector, List.length_zipWith, ← hsize, Nat.min_self]
  unfold resolvePushed at h
  split_ifs at h
  · rw [resolveAmbiguous, Option.ite_none_right_eq_some] at h
    obtain ⟨hsize, hnew⟩ := h
    rw [← Option.some_inj.mp hnew, List.length_zipWith, ← hsize, Nat.min_self]
  · exact hsized h
  · obtain ⟨w, -, hw⟩ := Option.bind_eq_some_iff.mp h
    exact hsized hw

/-- What a push does: it sets the other port, whose value is not lost, and calls for pushes from
there. -/
theorem pushStep_cases (hs : s.Linked) {r r' : Run} {val : String} {cur : BranchPtr}
    (he : s.HasEnd cur) {next : List (String × BranchPtr)}
    (h : pushStep s islandGetValue r (val, cur) = some (r', next)) :
    ∃ v, pushChange s islandGetValue val cur (r.state cur.ptr) (r.value (s.portOf cur.other))
        (r.value val) = some (v, next) ∧ r' = r.setValue (s.portOf cur.other) v ∧
      (r.value (s.portOf cur.other) ≠ [] → v ≠ []) ∧
      (v ≠ [] → r.value (s.portOf cur.other) ≠ [] ∨ islandGetValue (s.portOf cur.other) ≠ []) ∧
      ∀ t ∈ next, s.HasEnd t.2 ∧ t.1 = s.portOf t.2 ∧ s.portOf t.2 = s.portOf cur.other := by
  rw [pushStep_eq_pushChange] at h
  obtain ⟨⟨v, next'⟩, hchange, heq⟩ := Option.map_eq_some_iff.mp h
  obtain ⟨rfl, rfl⟩ := Prod.ext_iff.mp heq
  refine ⟨v, hchange, rfl, ?_⟩
  rw [pushChange] at hchange
  by_cases hskip : r.state cur.ptr = .disabled ∨
      firstValue (islandGetValue (s.portOf cur.other)) (r.value (s.portOf cur.other)) = []
  · rw [if_pos hskip] at hchange
    obtain ⟨rfl, rfl⟩ := Prod.mk.inj (Option.some.inj hchange)
    exact ⟨id, Or.inl, fun t ht => absurd ht List.not_mem_nil⟩
  · rw [if_neg hskip] at hchange
    obtain ⟨new, hnew, hchange⟩ := Option.bind_eq_some_iff.mp hchange
    have hbase := (not_or.mp hskip).2
    have hne : new ≠ [] := fun hnil =>
      hbase (List.eq_nil_of_length_eq_zero (by rw [← length_resolvePushed hnew, hnil]; rfl))
    have hsource : r.value (s.portOf cur.other) ≠ [] ∨
        islandGetValue (s.portOf cur.other) ≠ [] := by
      by_cases hold : r.value (s.portOf cur.other) = []
      · rw [firstValue, if_pos hold] at hbase
        exact Or.inr hbase
      · exact Or.inl hold
    split_ifs at hchange with hold
    · obtain ⟨rfl, rfl⟩ := Prod.mk.inj (Option.some.inj hchange)
      exact ⟨fun _ => hne, fun _ => hsource, fun t ht => absurd ht List.not_mem_nil⟩
    · obtain ⟨conn, hconn, hmem⟩ := hs.collectNode (hasEnd_other.mpr he)
      rw [hconn, Option.bind_eq_bind, Option.bind_some] at hchange
      obtain ⟨rfl, rfl⟩ := Prod.mk.inj (Option.some.inj hchange)
      refine ⟨fun _ => hne, fun _ => hsource, fun t ht => ?_⟩
      obtain ⟨e, hmem', rfl⟩ := List.mem_map.mp ht
      obtain ⟨hend, hport⟩ := (hmem e).mp hmem'
      exact ⟨hend, hport.symm, hport⟩

end Push

end Icarus.Vvp.Island
