import Icarus.Core.Cascade
import Icarus.Vvp.Island.Branches
import Icarus.Vvp.Strength

/-!
# Resolution of a tran island

The value of a port is pushed through all branches at the port, and what it changes is pushed on
from there. Each branch starts from the ports that have not been visited, and in the end the values
are sent out and all ports are unvisited again. A failed assertion, or running out of the depth
that the recursion is given, is `none`.
-/

namespace Icarus.Vvp

open Icarus.Core

/-- `strength0()`. -/
def Scalar.strength0 (a : Scalar) : Fin 8 := a.lo.strength

/-- `strength1()`. -/
def Scalar.strength1 (a : Scalar) : Fin 8 := a.hi.strength

namespace Island

/-- `tran_state_t`. -/
inductive TranState
  | disabled | enabled | unknown
  deriving DecidableEq, Repr

/-- A row of `vvp_switch_strength_map`. -/
def switchStrengthMap (resistive : Bool) (strength : Fin 8) : Fin 8 :=
  if resistive then
    match strength with
    | 0 => 0 | 1 => 1 | 2 => 1 | 3 => 2 | 4 => 2 | 5 => 3 | 6 => 5 | 7 => 5
  else
    match strength with
    | 0 => 0 | 1 => 1 | 2 => 2 | 3 => 3 | 4 => 4 | 5 => 5 | 6 => 6 | 7 => 6

/-- The bit that `resolve_ambiguous` resolves with. -/
def switchedBit (b : Scalar) (state : TranState) (strMap : Fin 8 → Fin 8) : Scalar :=
  let b := Scalar.ofBit4 b.value (strMap b.strength0) (strMap b.strength1)
  if state = .unknown then
    match b.value with
    | .zero => Scalar.ofBit4 .x b.strength0 0
    | .one => Scalar.ofBit4 .x 0 b.strength1
    | _ => b
  else b

/-- `resolve_ambiguous`; the sizes agree by assertion. -/
def resolveAmbiguous (a b : Vector8) (state : TranState) (strMap : Fin 8 → Fin 8) :
    Option Vector8 :=
  if a.length = b.length then
    some (List.zipWith (fun a b => resolve a (switchedBit b state strMap)) a b)
  else none

/-- `resolve` of two vectors with its assertion. -/
def resolveSized (a b : Vector8) : Option Vector8 :=
  if a.length = b.length then some (resolveVector a b) else none

/-- `vvp_vector8_t::subvalue`: bits past the end are HiZ. -/
def subvalue (v : Vector8) (base wid : Nat) : Vector8 :=
  (List.range wid).map fun idx => v.getD (base + idx) Scalar.hiZ

/-- `part_expand`: the bits around the part are HiZ. -/
def partExpand (v : Vector8) (wid off : Nat) : Option Vector8 :=
  if off < wid then
    some ((List.range wid).map fun idx =>
      if off ≤ idx then v.getD (idx - off) Scalar.hiZ else Scalar.hiZ)
  else none

/-- What a run of the island changes. -/
structure Run where
  /-- `state` of each branch. -/
  state : Nat → TranState
  /-- `value` of each port; a port of size zero has not been visited. -/
  value : String → Vector8
  /-- `outvalue` of each port. -/
  outvalue : String → Vector8

/-- Assign `value` of a port. -/
def Run.setValue (r : Run) (p : String) (v : Vector8) : Run :=
  { r with value := Function.update r.value p v }

/-- The new value of the port at the other side of a branch. -/
def resolvePushed (branch : Branch) (state : TranState) (dstB : Bool) (value val : Vector8) :
    Option Vector8 :=
  if branch.width = 0 then
    resolveAmbiguous value val state (switchStrengthMap branch.resistive)
  else if dstB then resolveSized value (subvalue val branch.offset branch.part)
  else (partExpand val branch.width branch.offset).bind (resolveSized value)

section Resolution

variable (s : Mesh) (islandGetValue : String → Vector8)

/-- `push_value_through_branch` but for its last call: the connections that the new value is to be
pushed through. The value is a reference to that of a port. -/
def pushStep (r : Run) (task : String × BranchPtr) : Option (Run × List (String × BranchPtr)) :=
  let (val, cur) := task
  if r.state cur.ptr = .disabled then some (r, [])
  else
    let dst := s.portOf cur.other
    let oldVal := r.value dst
    let r := if r.value dst = [] then r.setValue dst (islandGetValue dst) else r
    if r.value dst = [] then some (r, [])
    else do
      let new ← resolvePushed (s.branch cur.ptr) (r.state cur.ptr) cur.other.port (r.value dst)
        (r.value val)
      let r := r.setValue dst new
      if new = oldVal then some (r, [])
      else do
        let connections ← s.collectNode cur.other
        some (r, connections.map fun idx => (dst, idx))

/-- `push_value_through_branch`, with the depth of the recursion. -/
def pushValueThroughBranch (depth : Nat) (r : Run) (task : String × BranchPtr) : Option Run :=
  Cascade.run (pushStep s islandGetValue) depth r task

/-- `push_value_through_branches`. -/
def pushValueThroughBranches (depth : Nat) (r : Run) (val : String)
    (connections : List BranchPtr) : Option Run :=
  (connections.map fun idx => (val, idx)).foldlM (pushValueThroughBranch s islandGetValue depth) r

/-- One of the two blocks of `run_resolution`: visit the port at an end. -/
def visitPort (depth : Nat) (r : Run) (side : BranchPtr) : Option Run :=
  let port := s.portOf side
  if r.value port = [] then do
    let connections ← s.collectNode side
    let r := r.setValue port (islandGetValue port)
    if r.value port ≠ [] then pushValueThroughBranches s islandGetValue depth r port connections
    else some r
  else some r

/-- `run_resolution`. -/
def runResolution (depth : Nat) (r : Run) (branch : Nat) : Option Run := do
  let r ← visitPort s islandGetValue depth r ⟨branch, false⟩
  visitPort s islandGetValue depth r ⟨branch, true⟩

/-- One of the two blocks of `run_output`, with `island_send_value`. -/
def outputPort (r : Run) (side : BranchPtr) : Run :=
  let port := s.portOf side
  if r.value port = [] then r
  else
    let r := if r.outvalue port = r.value port then r
      else { r with outvalue := Function.update r.outvalue port (r.value port) }
    r.setValue port []

/-- `run_output`. -/
def runOutput (r : Run) (branch : Nat) : Run :=
  outputPort s (outputPort s r ⟨branch, false⟩) ⟨branch, true⟩

/-- The two loops of `run_island` that resolve the branches and send the values, with the branches
in any order. -/
def resolutionPass (depth : Nat) (order : List Nat) (r : Run) : Option Run :=
  (order.foldlM (runResolution s islandGetValue depth) r).map fun r => order.foldl (runOutput s) r

end Resolution

end Island

end Icarus.Vvp
