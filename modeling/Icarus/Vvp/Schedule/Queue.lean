import Icarus.Core.Fifo
import Icarus.Core.DeltaList

/-!
# The stratified event queue

`sched_list` is a delta list of time cells, each with seven region queues. The
insertion functions are written over an arbitrary `Fifo`: over `Fifo.rings` they
are the pointer code, over `Fifo.lists` its reading. A zero-delay insertion made
through one of the hand-specialised paths is the insertion of `schedule_event_`,
as an equation between whole queue states.
-/

namespace Icarus.Vvp.Schedule

open Icarus.Core Icarus.Core.DeltaList

/-- The address of an `event_s`. -/
abbrev EventId := Nat

/-- The regions of a time step, in the order of `event_queue_t`. -/
inductive EventQueue
  | start | active | inactive | nbassign | rwsync | rosync | delThread
  deriving DecidableEq, Repr

/-- Every region of a time step. -/
def EventQueue.all : List EventQueue :=
  [.start, .active, .inactive, .nbassign, .rwsync, .rosync, .delThread]

theorem EventQueue.mem_all (r : EventQueue) : r ∈ EventQueue.all := by cases r <;> decide

/-- One `event_time_s`: its delta delay and its seven region queues. -/
abbrev EventTime (Q : Type) := Cell (EventQueue → Q)

/-- Overwrite one region queue of a time cell. -/
def setQueue {Q : Type} (ctim : EventTime Q) (r : EventQueue) (q : Q) : EventTime Q :=
  { ctim with payload := Function.update ctim.payload r q }

/-- `sched_list` together with the heap of `event_s::next` pointers. -/
structure Queue (H Q : Type) where
  /-- The `next` pointers of the events. -/
  heap : H
  /-- The time cells, current one first. -/
  schedList : List (EventTime Q)

/-- A list of cells opened at the cell that is to receive an event. -/
structure Located (β : Type) where
  /-- The cells in front of it. -/
  before : List (Cell β)
  /-- The receiving cell. -/
  ctim : Cell β
  /-- The cells behind it. -/
  after : List (Cell β)

/-- The list put back together. -/
def Located.cells {β : Type} (l : Located β) : List (Cell β) := l.before ++ l.ctim :: l.after

section Locate

variable {β : Type} (empty : β)

/-- The three exits of the walk: in front of `ctim`, at `ctim`, behind the last cell. -/
def settle (ctim : Cell β) (rest : List (Cell β)) (delay : Nat) : Located β :=
  if delay < ctim.delay then
    ⟨[], ⟨delay, empty⟩, { ctim with delay := ctim.delay - delay } :: rest⟩
  else if ctim.delay = delay then ⟨[], ctim, rest⟩
  else ⟨[ctim], ⟨delay - ctim.delay, empty⟩, []⟩

/-- `while (ctim->next && (ctim->delay < delay))`, consuming the deltas it passes. -/
def walk (ctim : Cell β) : List (Cell β) → Nat → Located β
  | [], delay => settle empty ctim [] delay
  | next :: rest, delay =>
    if ctim.delay < delay then
      let l := walk next rest (delay - ctim.delay)
      { l with before := ctim :: l.before }
    else settle empty ctim (next :: rest) delay

/-- Find or create the cell at `delay` time units from now. -/
def locate (cells : List (Cell β)) (delay : Nat) : Located β :=
  match cells with
  | [] => ⟨[], ⟨delay, empty⟩, []⟩
  | ctim :: rest =>
    if delay < ctim.delay then
      ⟨[], ⟨delay, empty⟩, { ctim with delay := ctim.delay - delay } :: rest⟩
    else walk empty ctim rest delay

end Locate

section Insert

variable {H Q : Type} (impl : Fifo EventId H Q)

/-- `schedule_event_`: put an event last in a region of the cell at `delay`. -/
def scheduleEvent (s : Queue H Q) (cur : EventId) (delay : Nat)
    (selectQueue : EventQueue) : Queue H Q :=
  let l := locate (fun _ => impl.null) s.schedList delay
  let (heap, q) := impl.enqueue s.heap (l.ctim.payload selectQueue) cur
  ⟨heap, l.before ++ setQueue l.ctim selectQueue q :: l.after⟩

/-- `schedule_nbassign_`: the short path for a zero delay in the current step. -/
def scheduleNbassign (s : Queue H Q) (cur : EventId) (delay : Nat) : Queue H Q :=
  match s.schedList with
  | [] => scheduleEvent impl s cur delay .nbassign
  | ctim :: rest =>
    if delay ≠ 0 ∨ ctim.delay ≠ 0 then scheduleEvent impl s cur delay .nbassign
    else
      let (heap, q) := impl.enqueue s.heap (ctim.payload .nbassign) cur
      ⟨heap, setQueue ctim .nbassign q :: rest⟩

/-- `schedule_event_push_`: put an event in front of the active events. -/
def scheduleEventPush (s : Queue H Q) (cur : EventId) : Queue H Q :=
  match s.schedList with
  | [] => scheduleEvent impl s cur 0 .active
  | ctim :: rest =>
    if 0 < ctim.delay then scheduleEvent impl s cur 0 .active
    else
      let (heap, q) := impl.push s.heap (ctim.payload .active) cur
      ⟨heap, setQueue ctim .active q :: rest⟩

/-- `schedule_vthread_list_ready`: put a woken thread last in the active queue. -/
def scheduleVthreadListReady (s : Queue H Q) (cur : EventId) : Queue H Q :=
  match s.schedList with
  | [] => scheduleEvent impl s cur 0 .active
  | ctim :: rest =>
    if ctim.delay ≠ 0 then scheduleEvent impl s cur 0 .active
    else
      let (heap, q) := impl.enqueue s.heap (ctim.payload .active) cur
      ⟨heap, setQueue ctim .active q :: rest⟩

end Insert

/-! ## The short paths -/

/-- A zero delay stops the walk at a current cell without touching any delta. -/
theorem locate_zero {β : Type} (empty : β) (ctim : Cell β) (rest : List (Cell β))
    (h : ctim.delay = 0) : locate empty (ctim :: rest) 0 = ⟨[], ctim, rest⟩ := by
  cases rest with
  | nil => simp [locate, walk, settle, h]
  | cons next rest => simp [locate, walk, settle, h]

/-- In a current cell `schedule_event_` with no delay is one region append. -/
theorem scheduleEvent_current {H Q : Type} (impl : Fifo EventId H Q) (heap : H)
    (ctim : EventTime Q) (rest : List (EventTime Q)) (cur : EventId) (r : EventQueue)
    (h : ctim.delay = 0) :
    scheduleEvent impl ⟨heap, ctim :: rest⟩ cur 0 r =
      ⟨(impl.enqueue heap (ctim.payload r) cur).1,
        setQueue ctim r (impl.enqueue heap (ctim.payload r) cur).2 :: rest⟩ := by
  unfold scheduleEvent
  rw [locate_zero _ ctim rest h]
  rfl

/-- `schedule_nbassign_` is `schedule_event_` on its region, whatever the delay. -/
theorem scheduleNbassign_eq {H Q : Type} (impl : Fifo EventId H Q) (s : Queue H Q)
    (cur : EventId) (delay : Nat) :
    scheduleNbassign impl s cur delay = scheduleEvent impl s cur delay .nbassign := by
  obtain ⟨heap, cells⟩ := s
  cases cells with
  | nil => rfl
  | cons ctim rest =>
    by_cases hslow : delay ≠ 0 ∨ ctim.delay ≠ 0
    · simp only [scheduleNbassign, hslow, if_true]
    · have hd : delay = 0 := by omega
      have hc : ctim.delay = 0 := by omega
      subst hd
      rw [scheduleEvent_current impl heap ctim rest cur .nbassign hc]
      simp only [scheduleNbassign, hslow, if_false]

/-- `schedule_vthread_list_ready` is `schedule_event_` on the active region. -/
theorem scheduleVthreadListReady_eq {H Q : Type} (impl : Fifo EventId H Q) (s : Queue H Q)
    (cur : EventId) :
    scheduleVthreadListReady impl s cur = scheduleEvent impl s cur 0 .active := by
  obtain ⟨heap, cells⟩ := s
  cases cells with
  | nil => rfl
  | cons ctim rest =>
    by_cases hc : ctim.delay ≠ 0
    · simp only [scheduleVthreadListReady, hc, if_true, ne_eq, not_false_eq_true]
    · rw [scheduleEvent_current impl heap ctim rest cur .active (by omega)]
      simp only [scheduleVthreadListReady, hc, if_false]

end Icarus.Vvp.Schedule
