import Icarus.Core.Chain
import Icarus.Core.Runs
import Icarus.Vvp.Event.Merge

/-!
# Deferral transactions

A procedural store opens a region in which event inputs and scheduled functors
are captured by a transaction. The transaction is allocated when it is first
needed and shared by nested stores; it delivers its events when its source has
ended and the functors it captured have run, and goes to a free list. What a
delivery calls may open regions of its own.
-/

namespace Icarus.Vvp

open Core

variable {Port Context : Type} [DecidableEq Port] [DecidableEq Context]

/-- What has happened in the present use of a transaction. Nothing in the program reads it. -/
structure DeferHistory (Port Context : Type) where
  /-- The inputs deferred. -/
  calls : List (DeferCall Port Context)
  /-- The functors captured. -/
  captured : Nat
  /-- Those that have left. -/
  left : Nat
  /-- The source has ended. -/
  ended : Bool
  /-- The events passed to their inputs. -/
  delivered : List (DeferredVec4Event Port Context)
  deriving DecidableEq

/-- A use of a transaction begins. -/
def DeferHistory.empty : DeferHistory Port Context := ⟨[], 0, 0, false, []⟩

/-- `vvp_event_defer_s`, with its history. -/
structure EventDefer (Port Context : Type) where
  /-- `pending_functors`. -/
  pendingFunctors : Nat
  /-- `source_done`. -/
  sourceDone : Bool
  /-- `events`. -/
  events : List (DeferredVec4Event Port Context)
  /-- `next_free`. -/
  nextFree : Option Nat
  /-- The history of the present use. -/
  history : DeferHistory Port Context
  deriving DecidableEq

/-- A transaction as it is made. -/
def EventDefer.new : EventDefer Port Context := ⟨0, false, [], none, .empty⟩

/-- What is being executed, in the control stack of the simulator. -/
inductive DeferFrame (Port Context : Type)
  /-- A store, after `vvp_event_defer_begin`. -/
  | store
  /-- A scheduled functor, with the transaction that captured it. -/
  | functor (transaction : Option Nat)
  /-- The loop of `finish_event_defer`, with the events it has still to deliver. -/
  | deliver (transaction : Nat) (events : List (DeferredVec4Event Port Context))
  deriving DecidableEq

/-- The transactions, the variables of `event.cc`, the functors in the schedule and the control
stack. -/
structure DeferState (Port Context : Type) where
  /-- `vvp_event_defer_depth`. -/
  depth : Nat
  /-- `vvp_current_event_defer`. -/
  current : Option Nat
  /-- `free_event_defer`. -/
  freeEventDefer : Option Nat
  /-- The transactions by address. -/
  heap : Nat → EventDefer Port Context
  /-- The first address not in use. -/
  heapSize : Nat
  /-- The scheduled functors, each with the transaction that captured it. -/
  scheduled : List (Option Nat)
  /-- The control stack, innermost first. -/
  stack : List (DeferFrame Port Context)
  /-- How often a transaction has been taken. -/
  allocated : Nat
  /-- The histories of the uses that are over. -/
  finished : List (DeferHistory Port Context)

namespace DeferState

/-- The simulator before it runs. -/
def init : DeferState Port Context :=
  ⟨0, none, none, fun _ => .new, 0, [], [], 0, []⟩

/-- A transaction changed. -/
def modify (s : DeferState Port Context) (t : Nat)
    (f : EventDefer Port Context → EventDefer Port Context) : DeferState Port Context :=
  { s with heap := Function.update s.heap t (f (s.heap t)) }

omit [DecidableEq Port] [DecidableEq Context] in
@[simp] theorem modify_heap_self (s : DeferState Port Context) (t : Nat)
    (f : EventDefer Port Context → EventDefer Port Context) :
    (s.modify t f).heap t = f (s.heap t) := Function.update_self ..

omit [DecidableEq Port] [DecidableEq Context] in
theorem modify_heap_of_ne (s : DeferState Port Context) {t u : Nat} (hne : u ≠ t)
    (f : EventDefer Port Context → EventDefer Port Context) :
    (s.modify t f).heap u = s.heap u := Function.update_of_ne hne _ _

omit [DecidableEq Port] [DecidableEq Context] in
/-- What a change of one transaction keeps it keeps of all. -/
theorem modify_heap_keeps (s : DeferState Port Context) {t : Nat} {β : Type}
    (g : EventDefer Port Context → β) {f : EventDefer Port Context → EventDefer Port Context}
    (hf : g (f (s.heap t)) = g (s.heap t)) (u : Nat) :
    g ((s.modify t f).heap u) = g (s.heap u) := by
  rcases eq_or_ne u t with rfl | hne
  · rw [modify_heap_self, hf]
  · rw [modify_heap_of_ne s hne]

/-- `vvp_event_defer_active`. -/
def active (s : DeferState Port Context) : Bool := s.depth ≠ 0 || s.current.isSome

/-- `alloc_event_defer`. -/
def allocEventDefer (s : DeferState Port Context) : DeferState Port Context × Nat :=
  let (s, transaction) :=
    match s.freeEventDefer with
    | some transaction =>
      ({ s with freeEventDefer := (s.heap transaction).nextFree }, transaction)
    | none => ({ s with heapSize := s.heapSize + 1 }, s.heapSize)
  ({ s.modify transaction fun _ => ⟨0, false, [], none, .empty⟩ with
      allocated := s.allocated + 1 }, transaction)

/-- `active_event_defer`. -/
def activeEventDefer (s : DeferState Port Context) : DeferState Port Context × Option Nat :=
  if s.current = none ∧ s.depth ≠ 0 then
    let (s, transaction) := s.allocEventDefer
    ({ s with current := some transaction }, some transaction)
  else (s, s.current)

/-- `finish_event_defer` up to its loop, which becomes a frame. -/
def finishEventDefer (s : DeferState Port Context) (transaction : Nat) :
    DeferState Port Context :=
  if (s.heap transaction).sourceDone = false ∨ (s.heap transaction).pendingFunctors ≠ 0 then s
  else
    { s.modify transaction fun d => { d with events := [] } with
      stack := .deliver transaction (s.heap transaction).events :: s.stack }

/-- The end of `finish_event_defer`, after its loop: the transaction goes to the free list. -/
def recycle (s : DeferState Port Context) (transaction : Nat) : DeferState Port Context :=
  { s.modify transaction fun d => { d with events := [], nextFree := s.freeEventDefer } with
    freeEventDefer := some transaction
    finished := s.finished ++ [(s.heap transaction).history] }

omit [DecidableEq Port] [DecidableEq Context] in
theorem recycle_heap (s : DeferState Port Context) (t : Nat) :
    (s.recycle t).heap =
      (s.modify t fun d => { d with events := [], nextFree := s.freeEventDefer }).heap := rfl

/-- `vvp_event_defer_capture`. -/
def vvpEventDeferCapture (s : DeferState Port Context) : DeferState Port Context × Option Nat :=
  match s.activeEventDefer with
  | (s, none) => (s, none)
  | (s, some transaction) =>
    (s.modify transaction fun d =>
      { d with
        pendingFunctors := d.pendingFunctors + 1
        history := { d.history with captured := d.history.captured + 1 } }, some transaction)

/-- `vvp_event_defer_enter`; nothing where an assertion fails. -/
def vvpEventDeferEnter (s : DeferState Port Context) (transaction : Nat) :
    Option (DeferState Port Context) :=
  if s.current = none ∧ s.depth = 0 then some { s with current := some transaction } else none

/-- `vvp_event_defer_leave`; nothing where an assertion fails. -/
def vvpEventDeferLeave (s : DeferState Port Context) (transaction : Nat) :
    Option (DeferState Port Context) :=
  if s.current = some transaction ∧ 0 < (s.heap transaction).pendingFunctors then
    let s := { s with current := none }
    let s := s.modify transaction fun d =>
      { d with
        pendingFunctors := d.pendingFunctors - 1
        history := { d.history with left := d.history.left + 1 } }
    some (s.finishEventDefer transaction)
  else none

/-- `vvp_event_defer_vec4` or `vvp_event_defer_vec4_pv`, as an event input calls it. -/
def vvpEventDefer (s : DeferState Port Context) (call : DeferCall Port Context) :
    DeferState Port Context × Bool :=
  match s.activeEventDefer with
  | (s, none) => (s, false)
  | (s, some transaction) =>
    (s.modify transaction fun d =>
      { d with
        events := call.run d.events
        history := { d.history with calls := d.history.calls ++ [call] } }, true)

/-- `vvp_event_defer_begin`. -/
def vvpEventDeferBegin (s : DeferState Port Context) : DeferState Port Context :=
  { s with depth := s.depth + 1 }

/-- `vvp_event_defer_end_`; nothing where an assertion fails. -/
def vvpEventDeferEnd_ (s : DeferState Port Context) : Option (DeferState Port Context) :=
  match s.current with
  | none => none
  | some transaction =>
    if s.depth ≠ 0 then none
    else if (s.heap transaction).sourceDone then some s
    else
      let s := { s with current := none }
      let s := s.modify transaction fun d =>
        { d with sourceDone := true, history := { d.history with ended := true } }
      some (s.finishEventDefer transaction)

/-- `vvp_event_defer_end`; nothing where an assertion fails. -/
def vvpEventDeferEnd (s : DeferState Port Context) : Option (DeferState Port Context) :=
  if s.depth = 0 then none
  else
    let s := { s with depth := s.depth - 1 }
    if s.depth = 0 ∧ s.current.isSome then s.vvpEventDeferEnd_ else some s

/-- `schedule_functor`. -/
def scheduleFunctor (s : DeferState Port Context) : DeferState Port Context :=
  let (s, transaction) := if s.active then s.vvpEventDeferCapture else (s, none)
  { s with scheduled := s.scheduled ++ [transaction] }

end DeferState

/-- What can happen next. -/
inductive DeferStep (Port Context : Type)
  /-- A store begins. -/
  | begin
  /-- The innermost store ends. -/
  | «end»
  /-- An event input receives a value. -/
  | receive (call : DeferCall Port Context)
  /-- A functor is scheduled. -/
  | schedule
  /-- The scheduler starts a functor. -/
  | run (index : Nat)
  /-- The functor returns. -/
  | leave
  /-- The innermost delivery passes its next event on. -/
  | deliver
  /-- The innermost delivery is through. -/
  | recycle
  deriving DecidableEq

namespace DeferState

/-- What the control stack allows: regions are nested, and the scheduler starts a functor when
nothing else is being executed. -/
def enabled (s : DeferState Port Context) : DeferStep Port Context → Bool
  | .begin | .receive _ | .schedule => true
  | .end => s.stack.head? = some .store
  | .run index => s.stack = [] && index < s.scheduled.length
  | .leave => match s.stack with
    | .functor _ :: _ => true
    | _ => false
  | .deliver => match s.stack with
    | .deliver _ (_ :: _) :: _ => true
    | _ => false
  | .recycle => match s.stack with
    | .deliver _ [] :: _ => true
    | _ => false

/-- A step that is allowed; nothing where an assertion fails. -/
def exec (s : DeferState Port Context) : DeferStep Port Context → Option (DeferState Port Context)
  | .begin =>
    let s := s.vvpEventDeferBegin
    some { s with stack := .store :: s.stack }
  | .end => { s with stack := s.stack.tail }.vvpEventDeferEnd
  | .receive call => some (if s.active then (s.vvpEventDefer call).1 else s)
  | .schedule => some s.scheduleFunctor
  | .run index =>
    let transaction := (s.scheduled[index]?).join
    let s :=
      { s with
        scheduled := s.scheduled.eraseIdx index
        stack := .functor transaction :: s.stack }
    match transaction with
    | none => some s
    | some transaction => s.vvpEventDeferEnter transaction
  | .leave => match s.stack with
    | .functor (some transaction) :: stack =>
      { s with stack := stack }.vvpEventDeferLeave transaction
    | .functor none :: stack => some { s with stack := stack }
    | _ => none
  | .deliver => match s.stack with
    | .deliver transaction (cur :: events) :: stack =>
      some { s.modify transaction fun d =>
        { d with history := { d.history with delivered := d.history.delivered ++ [cur] } } with
        stack := .deliver transaction events :: stack }
    | _ => none
  | .recycle => match s.stack with
    | .deliver transaction [] :: stack => some ({ s with stack := stack }.recycle transaction)
    | _ => none

/-- A step of a properly nested run. -/
def step (s : DeferState Port Context) (l : DeferStep Port Context) :
    Option (DeferState Port Context) := if s.enabled l then s.exec l else none

/-- A transaction on the free list. -/
def OnFreeList (s : DeferState Port Context) (t : Nat) : Prop :=
  ∃ l, Chain (fun t => (s.heap t).nextFree) s.freeEventDefer l ∧ t ∈ l

end DeferState

end Icarus.Vvp
