import Icarus.Vvp.Schedule.Queue

/-!
# The simulation loop

One step of `schedule_simulate` runs at most one event: it stops at every
`run_run` and at every change of phase, which is where the running event may
call back into the scheduling functions. A world adds the clock without its
64-bit wrap and the log of what was scheduled and what was run.
-/

namespace Icarus.Vvp.Schedule

open Icarus.Core Icarus.Core.DeltaList

/-- Where `schedule_simulate` stands. -/
inductive Phase
  /-- At the top of the loop, or running an active event. -/
  | loop
  /-- In the loop over the `cbAtStartOfSimTime` callbacks. -/
  | start
  /-- In the first loop of `run_rosync`. -/
  | rosync
  /-- In the second loop of `run_rosync`, deleting threads. -/
  | delThread
  deriving DecidableEq, Repr

/-- The scheduler: its queue, `schedule_time` and the place in the loop. -/
structure Sim (H Q : Type) where
  /-- `sched_list` and its events. -/
  queue : Queue H Q
  /-- `schedule_time`, a `vvp_time64_t`. -/
  scheduleTime : Nat
  /-- The place in the loop. -/
  phase : Phase

section Step

variable {H Q : Type} (impl : Fifo EventId H Q)

/-- Move a whole region into the active region when that one has run out. -/
def refill (p : EventQueue → Q) (r : EventQueue) : EventQueue → Q :=
  if impl.isNull (p .active) then Function.update (Function.update p .active (p r)) r impl.null
  else p

/-- Advance the event queues: inactive, then nonblocking, then read-write sync. -/
def promote (p : EventQueue → Q) : EventQueue → Q :=
  refill impl (refill impl (refill impl p .inactive) .nbassign) .rwsync

/-- Pull the first event off a region of the current cell. -/
def pull (heap : H) (ctim : EventTime Q) (rest : List (EventTime Q)) (r : EventQueue) :
    Option (EventId × Queue H Q) :=
  (impl.dequeue heap (ctim.payload r)).map fun x =>
    (x.1, ⟨x.2.1, setQueue ctim r x.2.2 :: rest⟩)

/-- Run the event that was pulled off, or go on to what follows the empty region. -/
def serve (s : Sim H Q) (pulled : Option (EventId × Queue H Q)) (done : Sim H Q) :
    Option EventId × Sim H Q :=
  match pulled with
  | some (cur, queue) => (some cur, { s with queue := queue })
  | none => (none, done)

/-- One step of `schedule_simulate`, with the event it runs if it runs one. -/
def step (s : Sim H Q) : Option (Option EventId × Sim H Q) :=
  let heap := s.queue.heap
  match s.queue.schedList with
  | [] => none
  | ctim :: rest =>
    match s.phase with
    | .loop =>
      if 0 < ctim.delay then
        some (none, ⟨⟨heap, { ctim with delay := 0 } :: rest⟩,
          (s.scheduleTime + ctim.delay) % 2 ^ 64, .start⟩)
      else
        let ctim := { ctim with payload := promote impl ctim.payload }
        some (serve s (pull impl heap ctim rest .active)
          ⟨⟨heap, ctim :: rest⟩, s.scheduleTime, .rosync⟩)
    | .start => some (serve s (pull impl heap ctim rest .start) { s with phase := .loop })
    | .rosync => some (serve s (pull impl heap ctim rest .rosync) { s with phase := .delThread })
    | .delThread =>
      some (serve s (pull impl heap ctim rest .delThread)
        ⟨⟨heap, rest⟩, s.scheduleTime, .loop⟩)

end Step

/-! ## Calls into the scheduler -/

/-- The scheduling functions an event may call. -/
inductive Call
  /-- `schedule_event_`. -/
  | event (delay : Nat) (selectQueue : EventQueue)
  /-- `schedule_nbassign_`. -/
  | nbassign (delay : Nat)
  /-- `schedule_event_push_`. -/
  | eventPush
  /-- `schedule_vthread_list_ready`. -/
  | vthreadListReady
  deriving DecidableEq, Repr

/-- The delay of a call. -/
def Call.delay : Call → Nat
  | .event delay _ => delay
  | .nbassign delay => delay
  | .eventPush => 0
  | .vthreadListReady => 0

/-- The region of a call. -/
def Call.selectQueue : Call → EventQueue
  | .event _ selectQueue => selectQueue
  | .nbassign _ => .nbassign
  | .eventPush => .active
  | .vthreadListReady => .active

/-- The regions of read-write events. -/
def EventQueue.readWrite : List EventQueue := [.active, .inactive, .nbassign, .rwsync]

/-- What callers observe: no delayed inactive event, no start callback for the current
time, no read-write event from `run_rosync`, nothing but thread deletion from deletion. -/
def Call.Allowed (phase : Phase) (c : Call) : Prop :=
  (c.selectQueue = .inactive → c.delay = 0) ∧
  (c.selectQueue = .start → 0 < c.delay) ∧
  (phase = .rosync → c.delay = 0 → c.selectQueue ∉ EventQueue.readWrite) ∧
  (phase = .delThread → c.delay = 0 → c.selectQueue = .delThread)

instance (phase : Phase) (c : Call) : Decidable (c.Allowed phase) := by
  unfold Call.Allowed
  infer_instance

section World

variable {H Q : Type} (impl : Fifo EventId H Q)

/-- The queue after a call that schedules `cur`. -/
def Call.perform (c : Call) (s : Queue H Q) (cur : EventId) : Queue H Q :=
  match c with
  | .event delay selectQueue => scheduleEvent impl s cur delay selectQueue
  | .nbassign delay => scheduleNbassign impl s cur delay
  | .eventPush => scheduleEventPush impl s cur
  | .vthreadListReady => scheduleVthreadListReady impl s cur

/-- A logged call: the event, both clocks and the delay. -/
structure Scheduled where
  /-- The event. -/
  event : EventId
  /-- `schedule_time` at the call. -/
  time : Nat
  /-- Time since the start of the simulation, not wrapped. -/
  elapsed : Nat
  /-- The delay asked for. -/
  delay : Nat
  deriving DecidableEq, Repr

/-- A logged `run_run`: the event and both clocks. -/
structure Executed where
  /-- The event. -/
  event : EventId
  /-- `schedule_time` when it ran. -/
  time : Nat
  /-- Time since the start of the simulation, not wrapped. -/
  elapsed : Nat
  deriving DecidableEq, Repr

/-- The scheduler with its log. -/
structure World (H Q : Type) where
  /-- The scheduler. -/
  sim : Sim H Q
  /-- Time since the start of the simulation, not wrapped. -/
  elapsed : Nat
  /-- The calls made so far. -/
  scheduled : List Scheduled
  /-- The events run so far, in order. -/
  executed : List Executed

/-- Before the simulation: nothing scheduled, time zero. -/
def World.initial (heap : H) : World H Q := ⟨⟨⟨heap, []⟩, 0, .loop⟩, 0, [], []⟩

/-- How far the next step moves the clock. -/
def Sim.advance (s : Sim H Q) : Nat :=
  match s.phase, s.queue.schedList with
  | .loop, ctim :: _ => ctim.delay
  | _, _ => 0

/-- One thing that happens in a run. -/
inductive Action
  /-- The running code schedules a fresh event. -/
  | call (cur : EventId) (c : Call)
  /-- The simulation loop makes a step. -/
  | step
  deriving DecidableEq, Repr

/-- A call appended to the log. -/
def World.call (w : World H Q) (cur : EventId) (c : Call) : Option (World H Q) :=
  if cur ∉ w.scheduled.map Scheduled.event ∧ c.Allowed w.sim.phase then
    some { w with
      sim := { w.sim with queue := c.perform impl w.sim.queue cur }
      scheduled := w.scheduled ++ [⟨cur, w.sim.scheduleTime, w.elapsed, c.delay⟩] }
  else none

/-- A loop step, logged when it runs an event. -/
def World.step (w : World H Q) : Option (World H Q) :=
  (Schedule.step impl w.sim).map fun x =>
    { w with
      sim := x.2
      elapsed := w.elapsed + w.sim.advance
      executed := w.executed ++
        x.1.toList.map fun e => ⟨e, x.2.scheduleTime, w.elapsed + w.sim.advance⟩ }

/-- Perform one action. -/
def World.act (w : World H Q) : Action → Option (World H Q)
  | .call cur c => w.call impl cur c
  | .step => w.step impl

/-- Perform a whole run; it fails at the first call that is not allowed. -/
def World.run (w : World H Q) (as : List Action) : Option (World H Q) :=
  as.foldlM (World.act impl) w

end World

end Icarus.Vvp.Schedule
