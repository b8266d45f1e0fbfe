import Icarus.Core.Loop
import Mathlib.Logic.Function.Basic

/-!
# Links and nexuses

The pins of a netlist are links. Links that are connected are threaded into a
circular list, and one of them, the last, points to the nexus of the list. An
assertion that fails, a null pointer that is followed and a loop without end are
`none`.
-/

namespace Icarus

open Icarus.Core

namespace Netlist

/-- `Link::DIR`. -/
inductive Dir
  | passive
  | input
  | output
  deriving DecidableEq

/-- `Nexus::VALUE`. -/
inductive Value
  | noGuess
  | v0
  | v1
  | vx
  | vz
  | var
  deriving DecidableEq

/-- What connecting reads of `Link`. -/
structure Link where
  /-- `dir_`. -/
  dir : Dir
  /-- `next_`. -/
  next : Option Nat
  /-- `nexus_`. -/
  nexus : Option Nat

/-- What connecting reads of `Nexus`. -/
structure Nexus where
  /-- `list_`. -/
  list : Option Nat
  /-- `name_`. -/
  name : Option String
  /-- `driven_`. -/
  driven : Value

end Netlist

open Netlist

/-- The links and nexuses that have been made, by address. -/
structure Netlist where
  /-- The links. -/
  link : Nat → Link
  /-- Which of them exist. -/
  isLink : Nat → Bool
  /-- How many addresses of links have been used. -/
  links : Nat
  /-- The nexuses. -/
  nexus : Nat → Nexus
  /-- Which of them exist. -/
  isNexus : Nat → Bool
  /-- How many addresses of nexuses have been used. -/
  nexuses : Nat

namespace Netlist

/-- No links and no nexuses. -/
def empty : Netlist where
  link := fun _ => ⟨.passive, none, none⟩
  isLink := fun _ => false
  links := 0
  nexus := fun _ => ⟨none, none, .noGuess⟩
  isNexus := fun _ => false
  nexuses := 0

/-- Assignment to `next_`. -/
def setNext (s : Netlist) (l : Nat) (next : Option Nat) : Netlist :=
  { s with link := Function.update s.link l { s.link l with next := next } }

/-- Assignment to `nexus_`. -/
def setNexus (s : Netlist) (l : Nat) (nexus : Option Nat) : Netlist :=
  { s with link := Function.update s.link l { s.link l with nexus := nexus } }

/-- Assignment to `list_`. -/
def setList (s : Netlist) (n : Nat) (list : Option Nat) : Netlist :=
  { s with nexus := Function.update s.nexus n { s.nexus n with list := list } }

/-- Assignment to `name_`. -/
def setName (s : Netlist) (n : Nat) (name : Option String) : Netlist :=
  { s with nexus := Function.update s.nexus n { s.nexus n with name := name } }

/-- Assignment to `driven_`. -/
def setDriven (s : Netlist) (n : Nat) (driven : Value) : Netlist :=
  { s with nexus := Function.update s.nexus n { s.nexus n with driven := driven } }

/-- `Link::find_nexus_`. -/
def findNexus (s : Netlist) (l : Nat) : Option (Option Nat) :=
  match (s.link l).next with
  | none => none
  | some next =>
    if (s.link l).nexus.isSome then some (s.link l).nexus
    else
      (Loop.whileLoop (fun cur => cur ≠ l ∧ (s.link cur).nexus = none)
        (fun cur => (s.link cur).next) (s.links + 1) next).map
          fun cur => if cur = l then none else (s.link cur).nexus

/-- `delete` of a nexus; its list is empty by assertion. -/
def deleteNexus (s : Netlist) (n : Nat) : Option Netlist :=
  if (s.nexus n).list = none then some { s with isNexus := Function.update s.isNexus n false }
  else none

/-- `Nexus::Nexus`; the nexus and the netlist. -/
def newNexus (s : Netlist) (that : Nat) : Option (Nat × Netlist) :=
  let n := s.nexuses
  let s := { s with
    isNexus := Function.update s.isNexus n true
    nexuses := n + 1
    nexus := Function.update s.nexus n ⟨none, none, .noGuess⟩ }
  match (s.link that).next with
  | none =>
    let s := s.setList n (some that)
    let s := s.setNext that (some that)
    let s := s.setNexus that (some n)
    some (n, s.setDriven n .noGuess)
  | some _ => do
    let tmp ← (← s.findNexus that)
    let list ← (s.nexus tmp).list
    let s := s.setList n (some list)
    let s := s.setNexus list (some n)
    let s := s.setDriven n (s.nexus tmp).driven
    let s := s.setName n (s.nexus tmp).name
    let s := s.setList tmp none
    let s := s.setName tmp none
    let s ← s.deleteNexus tmp
    some (n, s)

/-- `Nexus::connect`. -/
def connectNexus (s : Netlist) (n r : Nat) : Option Netlist := do
  let rNexus ← if (s.link r).next.isSome then s.findNexus r else some none
  if some n = rNexus then return s
  let s := s.setName n none
  match (s.nexus n).list with
  | none =>
    match (s.link r).next with
    | none =>
      let s := s.setList n (some r)
      let s := s.setNext r (some r)
      let s := s.setNexus r (some n)
      return s.setDriven n .noGuess
    | some _ =>
      let rNexus ← rNexus
      let s := s.setDriven n (s.nexus rNexus).driven
      let s := s.setList n (s.nexus rNexus).list
      let list ← (s.nexus n).list
      let s := s.setNexus list (some n)
      let s := s.setList rNexus none
      s.deleteNexus rNexus
  | some list =>
    match (s.link r).next with
    | none =>
      let s := if (s.link r).dir ≠ .input then s.setDriven n .noGuess else s
      let s := s.setNexus r (some n)
      let s := s.setNext r (s.link list).next
      let s := s.setNext list (some r)
      let s := s.setNexus list none
      return s.setList n (some r)
    | some _ =>
      let rNexus ← rNexus
      let s := if (s.nexus rNexus).driven ≠ .vz then s.setDriven n .noGuess else s
      let rList ← (s.nexus rNexus).list
      let saveFirst := (s.link list).next
      let s := s.setNext list (s.link rList).next
      let s := s.setNext rList saveFirst
      let s := s.setNexus list none
      let s := s.setList n (some rList)
      let s := s.setNexus rList (some n)
      let s := s.setList rNexus none
      s.deleteNexus rNexus

/-- `Nexus::unlink`. -/
def unlinkNexus (s : Netlist) (n that : Nat) : Option Netlist := do
  let s := s.setName n none
  if (s.link that).next = some that then
    guard ((s.link that).nexus = some n)
    guard ((s.nexus n).list = some that)
    let s := s.setList n none
    let s := s.setDriven n .noGuess
    let s := s.setNexus that none
    return s.setNext that none
  let s := if (s.link that).dir ≠ .input then s.setDriven n .noGuess else s
  let list ← (s.nexus n).list
  let prev ← Loop.whileLoop (fun prev => (s.link prev).next ≠ some that)
    (fun prev => (s.link prev).next) (s.links + 1) list
  let s := s.setNext prev (s.link that).next
  let s ←
    if (s.nexus n).list = some that then do
      guard ((s.link that).nexus = some n)
      let s := s.setList n (some prev)
      pure (s.setNexus prev (some n))
    else pure s
  let s := s.setNexus that none
  return s.setNext that none

/-! ## The calls -/

/-- `Link::Link`, and the direction it is given. -/
def newLink (s : Netlist) (dir : Dir) : Netlist :=
  { s with
    link := Function.update s.link s.links ⟨dir, none, none⟩
    isLink := Function.update s.isLink s.links true
    links := s.links + 1 }

/-- `Link::set_dir`. -/
def setDir (s : Netlist) (l : Nat) (dir : Dir) : Netlist :=
  { s with link := Function.update s.link l { s.link l with dir := dir } }

/-- `connect` of two links. -/
def connect (s : Netlist) (l r : Nat) : Option Netlist := do
  guard (l ≠ r)
  let found ← if (s.link l).next.isSome then s.findNexus l else some none
  match found with
  | some tmp => s.connectNexus tmp r
  | none =>
    let found ← if (s.link r).next.isSome then s.findNexus r else some none
    match found with
    | some tmp => s.connectNexus tmp l
    | none =>
      let (tmp, s) ← s.newNexus l
      s.connectNexus tmp r

/-- `Link::is_linked`. -/
def isLinked (s : Netlist) (l : Nat) : Bool :=
  (s.link l).next.isSome && (s.link l).next ≠ some l

/-- `Link::unlink`. -/
def unlink (s : Netlist) (l : Nat) : Option Netlist :=
  if s.isLinked l then do
    let n ← (← s.findNexus l)
    s.unlinkNexus n l
  else some s

/-- `Link::nexus`; the nexus and the netlist. -/
def linkNexus (s : Netlist) (l : Nat) : Option (Option Nat × Netlist) :=
  if (s.link l).next = none then
    if (s.link l).nexus = none then (s.newNexus l).map fun r => (some r.1, r.2) else none
  else (s.findNexus l).map fun n => (n, s)

/-- `Link::~Link`. -/
def deleteLink (s : Netlist) (l : Nat) : Option Netlist := do
  let s ←
    if (s.link l).next.isSome then do
      let (tmp, s) ← s.linkNexus l
      let tmp ← tmp
      let s ← s.unlinkNexus tmp l
      if (s.nexus tmp).list = none then s.deleteNexus tmp else pure s
    else pure s
  return { s with isLink := Function.update s.isLink l false }

/-- The calls on links. -/
inductive Call
  | newLink (dir : Dir)
  | setDir (l : Nat) (dir : Dir)
  | connect (l r : Nat)
  | unlink (l : Nat)
  | nexus (l : Nat)
  | deleteLink (l : Nat)

/-- The links that a call names exist; a link is not connected to itself. -/
def Allowed (s : Netlist) : Call → Prop
  | .newLink _ => True
  | .setDir l _ | .unlink l | .nexus l | .deleteLink l => s.isLink l = true
  | .connect l r => s.isLink l = true ∧ s.isLink r = true ∧ l ≠ r

instance (s : Netlist) (c : Call) : Decidable (s.Allowed c) := by
  cases c <;> unfold Allowed <;> infer_instance

/-- A call, if it is allowed. -/
def step (s : Netlist) (c : Call) : Option Netlist :=
  if s.Allowed c then
    match c with
    | .newLink dir => some (s.newLink dir)
    | .setDir l dir => some (s.setDir l dir)
    | .connect l r => s.connect l r
    | .unlink l => s.unlink l
    | .nexus l => (s.linkNexus l).map (·.2)
    | .deleteLink l => s.deleteLink l
  else none

end Netlist

end Icarus
