import Icarus.Core.Runs
import Icarus.Netlist.Link
import Icarus.Verinum.Basic

/-!
# Constant drivers

A nexus keeps a guess of the value that drives it, the scan of its drivers sets
it, and the calls on links drop it. A substitution of bits drives its nexus with
what drives the nexuses of its inputs, so that a scan goes on there. A null
pointer that is followed, an assertion that fails and a stack without room are
`none`.
-/

namespace Icarus

namespace Netlist

/-! ## What links belong to -/

/-- `NetNet::Type`. -/
inductive NetType
  | none | implicit | implicitReg | wire | tri | tri1 | supply0 | supply1 | wand | triand | tri0
  | wor | trior | reg | unresolvedWire
  deriving DecidableEq

/-- `PortType::Enum`. -/
inductive PortType
  | notAPort | pimplicit | pinput | poutput | pinout | pref
  deriving DecidableEq

/-- What the scan reads of `NetNet`. -/
structure Net where
  /-- `type`. -/
  type : NetType
  /-- `port_type`. -/
  portType : PortType
  /-- `peek_lref`. -/
  lref : Nat
  /-- The scope has a parent. -/
  hasParent : Bool

/-- The object of a link. -/
inductive Obj
  | net (sig : Net)
  /-- `NetTran`; its third pin enables it. -/
  | tran (enable : Bool)
  /-- `NetConst`, with the bit of the pin. -/
  | const (value : Verinum.V)
  /-- The output of `NetSubstitute`, with the links of its two inputs. -/
  | substitute (pin1 pin2 : Nat)
  /-- Any other device, or an input of `NetSubstitute`. -/
  | other (dir : Dir)

/-- `NetNet::initialize_dir_`. -/
def Net.dir (sig : Net) : Dir :=
  match sig.type with
  | .reg | .implicitReg | .supply0 | .supply1 | .tri0 | .tri1 => .output
  | _ => .passive

/-- The direction that the constructor of the object gives to the link. -/
def Obj.dir : Obj → Dir
  | net sig => sig.dir
  | tran enable => if enable then .input else .passive
  | const _ => .output
  | substitute _ _ => .output
  | other dir => dir

/-- The target of a procedural assignment. -/
def Obj.isTarget : Obj → Bool
  | net sig => 0 < sig.lref
  | _ => false

def Obj.isTran : Obj → Bool
  | tran _ => true
  | _ => false

/-- A port of a root module that may be driven from outside. -/
def Obj.isRootPort : Obj → Bool
  | net sig => !sig.hasParent && sig.portType ≠ .notAPort && sig.portType ≠ .poutput
  | _ => false

/-- The pullup or pulldown of a net. -/
def Obj.pull : Obj → Option Value
  | net sig =>
    match sig.type with
    | .supply0 | .tri0 => some .v0
    | .supply1 | .tri1 => some .v1
    | _ => none
  | _ => none

/-! ## The scan -/

section Scan

variable (obj : Nat → Obj)

/-- `Nexus::first_nlink`. -/
def firstNlink (s : Netlist) (n : Nat) : Option Nat := (s.nexus n).list.bind fun l => (s.link l).next

/-- `Link::next_nlink`. -/
def nextNlink (s : Netlist) (l : Nat) : Option Nat :=
  if (s.link l).nexus.isSome then none else (s.link l).next

/-- The nexus of a link that has one. -/
def pinNexus (s : Netlist) (l : Nat) : Option Nat := (s.findNexus l).join

/-- A link in the loop of `drivers_constant`: the number of constant drivers, which is `none` if the
nexus is not constant. -/
def visit (constant : Netlist → Nat → Option (Bool × Netlist)) (n : Nat) (s : Netlist)
    (drivers cur : Nat) : Option (Option Nat × Netlist) :=
  if (obj cur).isTarget then some (none, s)
  else if (obj cur).isTran then some (none, s)
  else
    match (s.link cur).dir with
    | .input => some (some drivers, s)
    | .passive => if (obj cur).isRootPort then some (none, s) else some (some drivers, s)
    | .output =>
      match (obj cur).pull with
      | some v => some (some (drivers + 1), s.setDriven n v)
      | none =>
        match obj cur with
        | .substitute pin1 pin2 => do
          let (constant1, s) ← constant s (← s.pinNexus pin1)
          if constant1 then do
            let (constant2, s) ← constant s (← s.pinNexus pin2)
            return (if constant2 then some (drivers + 1) else none, s)
          else return (none, s)
        | .const _ => some (some (drivers + 1), s)
        | _ => some (none, s)

/-- The loop of `drivers_constant`. -/
def scan (constant : Netlist → Nat → Option (Bool × Netlist)) (n : Nat) :
    Nat → Netlist → Nat → Option Nat → Option (Bool × Netlist)
  | 0, _, _, _ => none
  | _ + 1, s, drivers, none =>
    if 1 < drivers then some (false, s.setDriven n .var) else some (true, s)
  | fuel + 1, s, drivers, some cur =>
    (visit obj constant n s drivers cur).bind fun (drivers, s) =>
      match drivers with
      | none => some (false, s.setDriven n .var)
      | some drivers => scan constant n fuel s drivers (s.nextNlink cur)

/-- `Nexus::drivers_constant`, on a stack with room for a number of calls. -/
def driversConstant : Nat → Netlist → Nat → Option (Bool × Netlist)
  | 0, _, _ => none
  | depth + 1, s, n =>
    match (s.nexus n).driven with
    | .var => some (false, s)
    | .noGuess => scan obj (driversConstant depth) n (s.links + 1) s 0 (s.firstNlink n)
    | _ => some (true, s)

/-! ## The value -/

/-- `Nexus::VALUE` of a bit. -/
def Value.ofBit : Verinum.V → Value
  | .v0 => v0
  | .v1 => v1
  | .vx => vx
  | .vz => vz

/-- The value that is kept as a guess. -/
def Value.bit : Value → Option Verinum.V
  | v0 => some .v0
  | v1 => some .v1
  | vx => some .vx
  | vz => some .vz
  | _ => none

/-- What a link says of the value. -/
def Obj.value : Obj → Option Verinum.V
  | const value => some value
  | obj => obj.pull.bind Value.bit

/-- The loop of `driven_value`. -/
def valueScan : Nat → Netlist → Verinum.V → Option Nat → Option Verinum.V
  | 0, _, _, _ => none
  | _ + 1, _, val, none => some val
  | fuel + 1, s, val, some cur =>
    match (obj cur).value with
    | some value => if val = .vz then valueScan fuel s value (s.nextNlink cur) else none
    | none => valueScan fuel s val (s.nextNlink cur)

/-- `Nexus::driven_value`. -/
def drivenValue (s : Netlist) (n : Nat) : Option (Verinum.V × Netlist) :=
  match (s.nexus n).driven with
  | .v0 => some (.v0, s)
  | .v1 => some (.v1, s)
  | .vx => some (.vx, s)
  | .vz => some (.vz, s)
  | .var => none
  | .noGuess =>
    (valueScan obj (s.links + 1) s .vz (s.firstNlink n)).map fun val =>
      (val, s.setDriven n (.ofBit val))

/-! ## Uses -/

/-- The calls on links and the questions about nexuses. -/
inductive Use
  | call (c : Call)
  | constant (l : Nat)
  | value (l : Nat)

/-- Links are made with the direction of their object, and it does not change. -/
def Made (s : Netlist) : Call → Prop
  | .newLink dir => dir = (obj s.links).dir
  | .setDir _ _ => False
  | _ => True

instance (s : Netlist) : (c : Call) → Decidable (Made obj s c)
  | .newLink dir => inferInstanceAs (Decidable (dir = (obj s.links).dir))
  | .setDir _ _ => inferInstanceAs (Decidable False)
  | .connect _ _ => inferInstanceAs (Decidable True)
  | .unlink _ => inferInstanceAs (Decidable True)
  | .nexus _ => inferInstanceAs (Decidable True)
  | .deleteLink _ => inferInstanceAs (Decidable True)

/-- A use. The value is asked for if the drivers are constant. -/
def useStep (depth : Nat) (s : Netlist) : Use → Option Netlist
  | .call c => if Made obj s c then s.step c else none
  | .constant l => (s.pinNexus l).bind fun n => (driversConstant obj depth s n).map (·.2)
  | .value l =>
    (s.pinNexus l).bind fun n =>
      if (driversConstant obj depth s n).map (·.1) = some true then
        (drivenValue obj s n).map (·.2)
      else none

/-- The links and nexuses without any guess. -/
def forget (s : Netlist) : Netlist :=
  { s with nexus := fun n => { s.nexus n with driven := .noGuess } }

end Scan

end Netlist

end Icarus
