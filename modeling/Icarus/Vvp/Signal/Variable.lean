import Icarus.Core.Runs
import Icarus.Vvp.Bits

/-!
# Static vector variables

A variable is a `vvp_fun_signal4_sa` that shares its bits with the
`vvp_wire_vec4` filter behind it. Stores, continuous assigns and releases go
through the functor and the filter, which both decide whether the value is to be
sent on; a force sends past them.
-/

namespace Icarus.Vvp

open Core

/-- The functor and the filter of a variable, with the value that a node downstream has got. -/
structure Variable where
  /-- `bits4_`, shared. -/
  bits4 : Vector4
  /-- `assign_mask_` of the functor, empty for none. -/
  assignMask : List Bool
  /-- `needs_init_` of the functor. -/
  funNeedsInit : Bool
  /-- `needs_init_` of the filter. -/
  filNeedsInit : Bool
  /-- `force4_`. -/
  force4 : Vector4
  /-- `force_mask_`, empty for none. -/
  forceMask : List Bool
  /-- `force_propagate_`. -/
  forcePropagate : Bool
  /-- The last value sent. -/
  downstream : Option Vector4
  deriving DecidableEq

namespace Variable

/-- A new variable. -/
def init (width : Nat) (bit : Bit4) : Variable :=
  ⟨List.replicate width bit, [], true, true, [], [], false, none⟩

/-! ## The filter -/

/-- `test_force_mask`. -/
def testForceMask (s : Variable) (idx : Nat) : Bool := s.forceMask.getD idx false

/-- `filtered_value_`. -/
def filteredValue (s : Variable) (idx : Nat) : Bit4 :=
  if s.testForceMask idx then s.force4.getD idx .x else s.bits4.getD idx .x

/-- `vec4_value`. -/
def vec4Value (s : Variable) : Vector4 :=
  if s.forceMask.any id then (List.range s.bits4.length).map s.filteredValue else s.bits4

/-- `filter_mask_` of the whole value: what is sent, nothing for `STOP`. -/
def filterMask (s : Variable) : Variable × Option Vector4 :=
  if s.forceMask.any id then
    let propagate := s.forcePropagate ||
      (List.range s.bits4.length).any fun idx => !s.testForceMask idx
    let filter := (List.range s.bits4.length).map s.filteredValue
    ({ s with forcePropagate := false }, if propagate then some filter else none)
  else (s, some s.bits4)

/-- `send_vec4_from_signal`, with `filter_vec4_from_signal`. -/
def sendFromSignal (s : Variable) (knownChanged : Bool) : Variable :=
  if !knownChanged && !s.filNeedsInit then s
  else
    match ({ s with filNeedsInit := false }).filterMask with
    | (s, some val) => { s with downstream := some val }
    | (s, none) => s

/-- A range of a mask set to a value. -/
def setRange (mask : List Bool) (base wid : Nat) (bit : Bool) : List Bool :=
  mask.mapIdx fun i m => if base ≤ i ∧ i < base + wid then bit else m

/-- `force_mask`. -/
def forceMaskBits (s : Variable) (mask : List Bool) : Variable :=
  let old := if s.forceMask = [] then List.replicate mask.length false else s.forceMask
  { s with
    forceMask := List.zipWith (· || ·) old mask
    forcePropagate := s.forcePropagate || mask.any id }

/-- `release_mask`. -/
def releaseMask (s : Variable) (mask : List Bool) : Variable :=
  if s.forceMask = [] then s
  else
    let left := List.zipWith (fun f m => f && !m) s.forceMask mask
    { s with forceMask := if left.any id then left else [] }

/-- `force_fil_vec4`. -/
def forceFilVec4 (s : Variable) (val : Vector4) (mask : List Bool) : Variable :=
  let s := s.forceMaskBits mask
  { s with
    force4 :=
      if s.force4 = [] then val
      else s.force4.mapIdx fun i b => if mask.getD i false then val.getD i .x else b }

/-- `force_vec4` of the net. -/
def forceVec4 (s : Variable) (val : Vector4) (mask : List Bool) : Variable :=
  { s.forceFilVec4 val mask with downstream := some val }

/-! ## The functor -/

/-- The loop of a part store: the bits, whether one changed, and whether one was touched. -/
def storeBits (mask : List Bool) : Nat → Vector4 → Vector4 × Bool × Bool → Vector4 × Bool × Bool
  | _, [], st => st
  | idx, newBit :: bit, (bits, changed, touched) =>
    if bits.length ≤ idx then (bits, changed, touched)
    else if mask.getD idx false then storeBits mask (idx + 1) bit (bits, changed, touched)
    else if bits.getD idx .x ≠ newBit then
      storeBits mask (idx + 1) bit (bits.set idx newBit, true, true)
    else storeBits mask (idx + 1) bit (bits, changed, true)

/-- The part of a store that has an assign mask to respect. -/
def storeMasked (s : Variable) (base : Nat) (bit : Vector4) : Variable :=
  let (bits, changed, touched) := storeBits s.assignMask base bit (s.bits4, false, false)
  let s := { s with bits4 := bits }
  if touched && (s.funNeedsInit || changed) then
    ({ s with funNeedsInit := false }).sendFromSignal changed
  else s

/-- `recv_vec4` on port 0; nothing where an assertion fails. -/
def recvVec4 (s : Variable) (bit : Vector4) : Option Variable :=
  if s.assignMask = [] then
    let changed : Bool := s.bits4 ≠ bit
    if s.funNeedsInit || changed then
      if bit.length ≠ s.bits4.length then none
      else some (({ s with bits4 := bit, funNeedsInit := false }).sendFromSignal changed)
    else some s
  else if s.bits4.length ≠ s.assignMask.length then none
  else some (s.storeMasked 0 bit)

/-- `recv_vec4_pv` on port 0. -/
def recvVec4Pv (s : Variable) (bit : Vector4) (base vwid : Nat) : Option Variable :=
  if s.bits4.length ≠ vwid then none
  else if s.assignMask = [] then
    let (bits, changed) :=
      if base + bit.length ≤ s.bits4.length then
        let bits := s.bits4.setVec base bit
        (bits, decide (bits ≠ s.bits4))
      else
        let (bits, changed, _) := storeBits [] base bit (s.bits4, false, false)
        (bits, changed)
    let s := { s with bits4 := bits }
    if s.funNeedsInit || changed then
      some (({ s with funNeedsInit := false }).sendFromSignal changed)
    else some s
  else if s.bits4.length ≠ s.assignMask.length then none
  else some (s.storeMasked base bit)

/-- `coerce_to_width`. -/
def coerceToWidth (v : Vector4) (width : Nat) : Option Vector4 :=
  if v.length = width then some v
  else if width < v.length then some (v.take width)
  else none

/-- `recv_vec4` on port 1. -/
def cassign (s : Variable) (bit : Vector4) : Option Variable :=
  (coerceToWidth bit s.bits4.length).map fun next =>
    let changed : Bool := s.bits4 ≠ next
    ({ s with
      bits4 := next
      assignMask := List.replicate next.length true }).sendFromSignal changed

/-- `recv_vec4_pv` on port 1. -/
def cassignPv (s : Variable) (bit : Vector4) (base vwid : Nat) : Option Variable :=
  if s.bits4.length ≠ vwid then none
  else
    let mask :=
      if s.assignMask = [] then List.replicate s.bits4.length false else s.assignMask
    let (bits, changed, _) := storeBits [] base bit (s.bits4, false, false)
    some (({ s with
      bits4 := bits
      assignMask := setRange mask base bit.length true }).sendFromSignal changed)

/-- `deassign`. -/
def deassign (s : Variable) : Variable := { s with assignMask := [] }

/-- `deassign_pv`. -/
def deassignPv (s : Variable) (base wid : Nat) : Option Variable :=
  if wid ≠ 0 ∧ s.assignMask.length < base + wid then none
  else
    let mask := setRange s.assignMask base wid false
    some { s with assignMask := if mask.any id then mask else [] }

/-! ## Forces and releases of a thread -/

/-- `of_FORCE_VEC4`. -/
def ofForceVec4 (s : Variable) (value : Vector4) : Option Variable :=
  (coerceToWidth value s.bits4.length).map fun value =>
    s.forceVec4 value (List.replicate s.bits4.length true)

/-- `of_FORCE_VEC4_OFF` of a part inside the variable. -/
def ofForceVec4Off (s : Variable) (value : Vector4) (base : Nat) : Option Variable :=
  if s.bits4.length < base + value.length then none
  else
    let mask := setRange (List.replicate s.bits4.length false) base value.length true
    some (s.forceVec4 (s.vec4Value.setVec base value) mask)

/-- `release` with `net_flag` false. -/
def release (s : Variable) : Option Variable :=
  let res := (List.range s.bits4.length).map s.filteredValue
  (s.releaseMask (List.replicate s.bits4.length true)).recvVec4 res

/-- `release_pv` with `net_flag` false. -/
def releasePv (s : Variable) (base wid : Nat) : Option Variable :=
  if s.bits4.length < base + wid then none
  else
    let mask := setRange (List.replicate s.bits4.length false) base wid true
    let res := (List.range wid).map fun idx => s.filteredValue (base + idx)
    (s.releaseMask mask).recvVec4Pv res base s.bits4.length

end Variable

/-- What can happen to a variable. -/
inductive VariableStep
  | recvVec4 (bit : Vector4)
  | recvVec4Pv (bit : Vector4) (base vwid : Nat)
  | cassign (bit : Vector4)
  | cassignPv (bit : Vector4) (base vwid : Nat)
  | deassign
  | deassignPv (base wid : Nat)
  | forceVec4 (value : Vector4)
  | forceVec4Off (value : Vector4) (base : Nat)
  | release
  | releasePv (base wid : Nat)
  deriving DecidableEq

/-- A step of a variable; nothing where an assertion fails. -/
def Variable.step (s : Variable) : VariableStep → Option Variable
  | .recvVec4 bit => s.recvVec4 bit
  | .recvVec4Pv bit base vwid => s.recvVec4Pv bit base vwid
  | .cassign bit => s.cassign bit
  | .cassignPv bit base vwid => s.cassignPv bit base vwid
  | .deassign => some s.deassign
  | .deassignPv base wid => s.deassignPv base wid
  | .forceVec4 value => s.ofForceVec4 value
  | .forceVec4Off value base => s.ofForceVec4Off value base
  | .release => s.release
  | .releasePv base wid => s.releasePv base wid

end Icarus.Vvp
