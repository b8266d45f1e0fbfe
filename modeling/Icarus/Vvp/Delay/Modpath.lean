import Icarus.Core.Runs
import Icarus.Vvp.Bits

/-!
# Module path delays

`vvp_fun_modpath` delays every bit of its input by the delay of its own edge.
Bits that are due at the same time share an event; the events are found by their
time in a map, and a bit that changes again is taken out of its event.
-/

namespace Icarus.Vvp

open Core

/-- What `vvp_fun_modpath` reads of a `vvp_fun_modpath_src`. -/
structure ModpathSrc where
  /-- `delay_`. -/
  delay : Fin 12 → BitVec 64
  /-- `wake_time_`. -/
  wakeTime : BitVec 64
  /-- `condition_flag_`. -/
  conditionFlag : Bool

/-- `vvp_fun_modpath_event`. -/
structure ModpathEvent where
  /-- `time_`. -/
  time : BitVec 64
  /-- `values_`. -/
  values : Vector4
  /-- `active_`. -/
  active : Nat → Bool

namespace ModpathEvent

/-- The constructor. -/
def new (time : BitVec 64) (width : Nat) : ModpathEvent :=
  ⟨time, List.replicate width .x, fun _ => false⟩

/-- `set_bit`. -/
def setBit (event : ModpathEvent) (idx : Nat) (value : Bit4) : ModpathEvent :=
  { event with
    active := Function.update event.active idx true
    values := event.values.set idx value }

/-- `clear_bit`. -/
def clearBit (event : ModpathEvent) (idx : Nat) : ModpathEvent :=
  { event with active := Function.update event.active idx false }

end ModpathEvent

/-- `vvp_fun_modpath` with its `state_t`, the events it has allocated, and the scheduled events
with their times; the simulated time is counted without its wrap-around. -/
structure Modpath where
  /-- The simulated time. -/
  now : Nat
  /-- `input_vec4_`. -/
  input : Vector4
  /-- `output_vec4_`. -/
  output : Vector4
  /-- `pending`, by bit. -/
  pending : Nat → Option Nat
  /-- `events`, by time. -/
  events : BitVec 64 → Option Nat
  /-- The allocated events. -/
  heap : Nat → Option ModpathEvent
  /-- The address of the next event. -/
  next : Nat
  /-- The events in the scheduler, with the times they are due. -/
  scheduled : List (Nat × Nat)
  /-- `src_list_`. -/
  srcList : List ModpathSrc
  /-- `ifnone_list_`. -/
  ifnoneList : List ModpathSrc

/-- The edges as `delay_edge_t` numbers them, from the old value to the new. -/
def edgeTable : Bit4 → Bit4 → Fin 12
  | .zero, .zero => 0
  | .zero, .one => 0
  | .zero, .z => 2
  | .zero, .x => 6
  | .one, .zero => 1
  | .one, .one => 1
  | .one, .z => 4
  | .one, .x => 8
  | .z, .zero => 5
  | .z, .one => 3
  | .z, .z => 5
  | .z, .x => 11
  | .x, .zero => 9
  | .x, .one => 7
  | .x, .z => 10
  | .x, .x => 9

/-- `delay_from_edge`. -/
def delayFromEdge (a b : Bit4) (array : Fin 12 → BitVec 64) : BitVec 64 := array (edgeTable a b)

namespace Modpath

/-- A new functor at a time. -/
def init (width : Nat) (srcList ifnoneList : List ModpathSrc) (now : Nat) : Modpath :=
  ⟨now, List.replicate width .x, List.replicate width .x, fun _ => none, fun _ => none,
    fun _ => none, 0, [], srcList, ifnoneList⟩

/-- `schedule_simtime`. -/
def simtime (s : Modpath) : BitVec 64 := BitVec.ofNat 64 s.now

/-- `cancel_bit_`. -/
def cancelBit (s : Modpath) (idx : Nat) : Modpath :=
  match s.pending idx with
  | none => s
  | some event =>
    { s with
      heap := Function.update s.heap event ((s.heap event).map (·.clearBit idx))
      pending := Function.update s.pending idx none }

/-- The event of a time, from the map or allocated and scheduled. -/
def eventAt (s : Modpath) (delay : BitVec 64) : Modpath × Nat :=
  let eventTime := s.simtime + delay
  match s.events eventTime with
  | none =>
    ({ s with
        heap := Function.update s.heap s.next (some (.new eventTime s.output.length))
        events := Function.update s.events eventTime (some s.next)
        scheduled := (s.now + delay.toNat, s.next) :: s.scheduled
        next := s.next + 1 }, s.next)
  | some event => (s, event)

/-- `schedule_bit_`. -/
def scheduleBit (s : Modpath) (idx : Nat) (value : Bit4) (delay : BitVec 64) : Modpath :=
  let (s, event) := s.eventAt delay
  { s with
    heap := Function.update s.heap event ((s.heap event).map (·.setBit idx value))
    pending := Function.update s.pending idx (some event) }

/-- The candidates among the sources, with the latest wake time. -/
def addSrc (c : List ModpathSrc × BitVec 64) (cur : ModpathSrc) : List ModpathSrc × BitVec 64 :=
  if cur.conditionFlag = false then c
  else if c.1 = [] then ([cur], cur.wakeTime)
  else if cur.wakeTime = c.2 then (c.1 ++ [cur], c.2)
  else if c.2 < cur.wakeTime then ([cur], cur.wakeTime)
  else c

/-- The candidates with the sources of the `ifnone` paths. -/
def addIfnone (candidateWakeTime : BitVec 64) (c : List ModpathSrc × BitVec 64)
    (cur : ModpathSrc) : List ModpathSrc × BitVec 64 :=
  if c.1 = [] then ([cur], cur.wakeTime)
  else if cur.wakeTime = c.2 ∧ candidateWakeTime < c.2 then (c.1 ++ [cur], c.2)
  else if c.2 < cur.wakeTime then ([cur], cur.wakeTime)
  else c

/-- `candidate_list`. -/
def candidateList (s : Modpath) : List ModpathSrc :=
  let c := s.srcList.foldl addSrc ([], 0)
  (s.ifnoneList.foldl (addIfnone c.2) c).1

/-- The delays of a source that are left at the present time. -/
def leftAt (s : Modpath) (src : ModpathSrc) (idx : Fin 12) : BitVec 64 :=
  let tmp := src.wakeTime + src.delay idx
  if tmp ≤ s.simtime then 0 else tmp - s.simtime

/-- `out_at`: the smallest delays of the candidates. -/
def outAt (s : Modpath) (src : ModpathSrc) (rest : List ModpathSrc) : Fin 12 → BitVec 64 :=
  rest.foldl
    (fun out src idx => if s.leftAt src idx < out idx then s.leftAt src idx else out idx)
    (s.leftAt src)

/-- The delay selected for the change of a bit. -/
def useDelay (s : Modpath) (old new : Bit4) : BitVec 64 :=
  match s.candidateList with
  | [] => 0
  | src :: rest => delayFromEdge old new (s.outAt src rest)

/-- The change of one bit: cancelled, and scheduled anew unless the output has the value. -/
def changeBit (s : Modpath) (idx : Nat) (value : Bit4) (delay : BitVec 64) : Modpath :=
  let s := s.cancelBit idx
  if s.output.getD idx .x ≠ value then s.scheduleBit idx value delay else s

/-- The loop of `recv_vec4` over the bits that change. -/
def changeBits (s : Modpath) (bit : Vector4) (delay : Bit4 → Bit4 → BitVec 64) : Modpath :=
  (List.range bit.length).foldl
    (fun t idx =>
      let oldValue := s.input.getD idx .x
      let newValue := bit.getD idx .x
      if oldValue = newValue then t else t.changeBit idx newValue (delay oldValue newValue)) s

/-- `recv_vec4` on port 0; nothing where its assertion fails. -/
def recvVec4 (s : Modpath) (bit : Vector4) : Option Modpath :=
  if s.input.length ≠ bit.length then none
  else if s.input = bit then some s
  else some { s.changeBits bit s.useDelay with input := bit }

/-- A bit of the loop of `run_event_`: the pending events and the output. -/
def runBit (event : Nat) (ev : ModpathEvent) (st : (Nat → Option Nat) × Vector4) (idx : Nat) :
    (Nat → Option Nat) × Vector4 :=
  if ev.active idx = false ∨ st.1 idx ≠ some event then st
  else
    let value := ev.values.getD idx .x
    (Function.update st.1 idx none,
      if st.2.getD idx .x ≠ value then st.2.set idx value else st.2)

/-- `run_event_`; nothing where an assertion fails. The scheduler deletes the event. -/
def runEvent (s : Modpath) (event : Nat) : Option Modpath :=
  match s.heap event with
  | none => none
  | some ev =>
    if s.events ev.time ≠ some event then none
    else
      let (pending, output) :=
        (List.range s.output.length).foldl (runBit event ev) (s.pending, s.output)
      some { s with
        events := Function.update s.events ev.time none
        pending := pending
        output := output
        heap := Function.update s.heap event none }

end Modpath

end Icarus.Vvp
