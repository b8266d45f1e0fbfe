import Icarus.Core.Runs
import Mathlib.Data.List.Sort

/-!
# Threads and their children

A thread forks children, joins them one at a time or detaches them, waits for
the detached ones, and disables threads of a scope. The sets of children and of
the threads of a scope are ordered by the addresses of their members, which are
a parameter. A `%disable` disables the threads of its scope one after the other;
each is a step of its own here, in which nothing else happens.
-/

namespace Icarus.Vvp

open Core

/-- `vthread_s`: the relatives of a thread and its flags. The `pc` of a thread is null when it
has ended. -/
structure VThread where
  /-- `parent`. -/
  parent : Option Nat
  /-- `parent_scope`. -/
  parentScope : Nat
  /-- `children`. -/
  children : List Nat
  /-- `detached_children`. -/
  detachedChildren : List Nat
  /-- `i_am_joining`. -/
  iAmJoining : Bool
  /-- `i_am_detached`. -/
  iAmDetached : Bool
  /-- `i_am_waiting`. -/
  iAmWaiting : Bool
  /-- `i_am_in_function`. -/
  iAmInFunction : Bool
  /-- `is_scheduled`. -/
  isScheduled : Bool
  /-- `i_have_ended`. -/
  iHaveEnded : Bool
  /-- `i_was_disabled`. -/
  iWasDisabled : Bool
  /-- `waiting_for_event`. -/
  waitingForEvent : Bool
  /-- `vthread_reap` has been called. -/
  reaped : Bool
  /-- `vthread_delete` has been called. -/
  deleted : Bool
  deriving DecidableEq

/-- The threads created so far, and the `%disable` that is being executed. -/
structure VThreads where
  /-- The threads, in the order of their creation. -/
  threads : Nat → VThread
  /-- How many there are. -/
  next : Nat
  /-- `threads` of each scope. -/
  scopes : Nat → List Nat
  /-- The thread, the scope and the `disabled_myself_flag` of a `%disable`. -/
  disabling : Option (Nat × Nat × Bool)

/-- `vthread_new`. -/
def vthreadNew (scope : Nat) : VThread :=
  { parent := none, parentScope := scope, children := [], detachedChildren := [],
    iAmJoining := false, iAmDetached := false, iAmWaiting := false, iAmInFunction := false,
    isScheduled := false, iHaveEnded := false, iWasDisabled := false, waitingForEvent := false,
    reaped := false, deleted := false }

/-- A member put into a set, which is kept in the order of the addresses. -/
def setInsert (addr : Nat → Nat) (thr : Nat) (set : List Nat) : List Nat :=
  set.orderedInsert (fun a b => addr a ≤ addr b) thr

namespace VThreads

/-- No threads yet. -/
def init : VThreads := ⟨fun _ => vthreadNew 0, 0, fun _ => [], none⟩

/-- A thread changed. -/
def modify (s : VThreads) (thr : Nat) (f : VThread → VThread) : VThreads :=
  { s with threads := Function.update s.threads thr (f (s.threads thr)) }

@[simp] theorem modify_self (s : VThreads) (thr : Nat) (f : VThread → VThread) :
    (s.modify thr f).threads thr = f (s.threads thr) := Function.update_self ..

theorem modify_of_ne (s : VThreads) {thr u : Nat} (hne : u ≠ thr) (f : VThread → VThread) :
    (s.modify thr f).threads u = s.threads u := Function.update_of_ne hne _ _

theorem modify_scopes (s : VThreads) (thr : Nat) (f : VThread → VThread) :
    (s.modify thr f).scopes = s.scopes := rfl

/-- What a change of one thread keeps it keeps of all. -/
theorem modify_keeps (s : VThreads) {thr : Nat} {β : Type} (g : VThread → β)
    {f : VThread → VThread} (hf : g (f (s.threads thr)) = g (s.threads thr)) (u : Nat) :
    g ((s.modify thr f).threads u) = g (s.threads u) := by
  rcases eq_or_ne u thr with rfl | hne
  · rw [modify_self, hf]
  · rw [modify_of_ne s hne]

/-- Two changes of one thread are one. -/
theorem modify_modify (s : VThreads) (thr : Nat) (f g : VThread → VThread) :
    (s.modify thr f).modify thr g = s.modify thr fun t => g (f t) := by
  simp [modify]

/-- All the threads of a set changed. -/
def modifyAll (s : VThreads) (set : List Nat) (f : VThread → VThread) : VThreads :=
  { s with threads := fun thr => if thr ∈ set then f (s.threads thr) else s.threads thr }

theorem modifyAll_threads (s : VThreads) (set : List Nat) (f : VThread → VThread) (u : Nat) :
    (s.modifyAll set f).threads u = if u ∈ set then f (s.threads u) else s.threads u := rfl

/-- What a change of all the threads of a set keeps it keeps of all. -/
theorem modifyAll_keeps (s : VThreads) (set : List Nat) {β : Type} (g : VThread → β)
    {f : VThread → VThread} (hf : ∀ t, g (f t) = g t) (u : Nat) :
    g ((s.modifyAll set f).threads u) = g (s.threads u) := by
  rw [modifyAll_threads]
  split_ifs
  · exact hf _
  · rfl

@[simp] theorem modifyAll_nil (s : VThreads) (f : VThread → VThread) : s.modifyAll [] f = s := by
  simp [modifyAll]

/-- A thread taken out of the set of its scope. -/
def leaveScope (s : VThreads) (thr : Nat) : VThreads :=
  { s with
    scopes := Function.update s.scopes (s.threads thr).parentScope
      ((s.scopes (s.threads thr).parentScope).erase thr) }

@[simp] theorem leaveScope_scopes (s : VThreads) (thr : Nat) :
    (s.leaveScope thr).scopes = Function.update s.scopes (s.threads thr).parentScope
      ((s.scopes (s.threads thr).parentScope).erase thr) := rfl

@[simp] theorem leaveScope_threads (s : VThreads) (thr : Nat) :
    (s.leaveScope thr).threads = s.threads := rfl

/-- `schedule_vthread`; nothing where the assertion of `vthread_mark_scheduled` fails. -/
def scheduleVthread (s : VThreads) (thr : Nat) : Option VThreads :=
  if (s.threads thr).isScheduled then none
  else some (s.modify thr fun t => { t with isScheduled := true })

/-- `vthread_reap`, whose assertions hold in every `Forest`. -/
def vthreadReap (s : VThreads) (thr : Nat) : VThreads :=
  let t := s.threads thr
  let s := s.modifyAll t.children fun child => { child with parent := t.parent }
  let s := s.modifyAll t.detachedChildren fun child =>
    { child with parent := none, iAmDetached := false }
  let s :=
    match t.parent with
    | none => s
    | some parent =>
      s.modify parent fun p =>
        if t.iAmDetached then { p with detachedChildren := p.detachedChildren.erase thr }
        else { p with children := p.children.erase thr }
  let s := s.leaveScope thr
  s.modify thr fun t =>
    { t with parent := none, reaped := true, deleted := !t.isScheduled && !t.waitingForEvent }

/-- `do_join`; nothing where its assertion fails. -/
def doJoin (s : VThreads) (thr child : Nat) : Option VThreads :=
  if (s.threads child).parent = some thr then some (s.vthreadReap child) else none

/-! ## Disabling -/

/-- The end of `do_disable`: a parent that is blocked in a `%join` is woken, and a thread without
a parent is reaped. -/
def leaveParent (s : VThreads) (thr : Nat) : Option VThreads :=
  match (s.threads thr).parent with
  | none => some (s.vthreadReap thr)
  | some parent =>
    if (s.threads parent).iAmJoining then
      let s := s.modify parent fun p => { p with iAmJoining := false }
      (if (s.threads parent).iHaveEnded then some s else s.scheduleVthread parent).bind fun s =>
        s.doJoin parent thr
    else some s

/-- The loop of `do_disable` over the children of a thread, at most so many times. -/
def disableLoop (disable : VThreads → Nat → Option (VThreads × Bool)) (thr : Nat) :
    Nat → VThreads → Bool → Option (VThreads × Bool)
  | 0, s, flag => if (s.threads thr).children = [] then some (s, flag) else none
  | n + 1, s, flag =>
    match (s.threads thr).children with
    | [] => some (s, flag)
    | tmp :: _ =>
      if (s.threads tmp).parent ≠ some thr then none
      else
        (disable (s.modify thr fun t => { t with iAmJoining := false }) tmp).bind fun r =>
          disableLoop disable thr n (r.1.vthreadReap tmp) (flag || r.2)

/-- `do_disable`, at most so many calls deep. -/
def doDisable (target : Nat) : Nat → VThreads → Nat → Option (VThreads × Bool)
  | 0, _, _ => none
  | depth + 1, s, thr =>
    let s := s.leaveScope thr
    let s := s.modify thr fun t => { t with iWasDisabled := true, iHaveEnded := true }
    (disableLoop (doDisable target depth) thr (s.threads thr).children.length s false).bind
      fun r => (r.1.leaveParent thr).map fun s => (s, r.2 || decide (thr = target))

/-! ## The opcodes -/

/-- `of_FORK`. -/
def ofFork (addr : Nat → Nat) (s : VThreads) (thr scope : Nat) : VThreads :=
  let inFunction := (s.threads thr).iAmInFunction
  let child :=
    { vthreadNew scope with
      parent := some thr
      iAmInFunction := inFunction
      -- in a function the child is run at once, which takes it out of the schedule
      isScheduled := !inFunction }
  let s := s.modify thr fun t => { t with children := setInsert addr s.next t.children }
  { s with
    threads := Function.update s.threads s.next child
    next := s.next + 1
    scopes := Function.update s.scopes scope (setInsert addr s.next (s.scopes scope)) }

/-- `do_join_opcode`; nothing where an assertion fails. -/
def doJoinOpcode (s : VThreads) (thr : Nat) : Option VThreads :=
  if (s.threads thr).iAmJoining || (s.threads thr).children = [] then none
  else
    match (s.threads thr).children.find? fun cur => (s.threads cur).iHaveEnded with
    | some cur => s.doJoin thr cur
    | none => some (s.modify thr fun t => { t with iAmJoining := true })

/-- The loop of `of_JOIN_DETACH`, at most so many times. -/
def joinDetachLoop (addr : Nat → Nat) (thr : Nat) : Nat → VThreads → Option VThreads
  | 0, s => if (s.threads thr).children = [] then some s else none
  | n + 1, s =>
    match (s.threads thr).children with
    | [] => some s
    | child :: _ =>
      if (s.threads child).parent ≠ some thr then none
      else if (s.threads child).iHaveEnded then
        joinDetachLoop addr thr n (s.vthreadReap child)
      else
        let s := s.modify child fun c => { c with iAmDetached := true }
        joinDetachLoop addr thr n (s.modify thr fun t =>
          { t with
            children := t.children.erase child
            detachedChildren := setInsert addr child t.detachedChildren })

/-- `of_JOIN_DETACH`; nothing where an assertion fails. -/
def ofJoinDetach (addr : Nat → Nat) (s : VThreads) (thr count : Nat) : Option VThreads :=
  if count ≠ (s.threads thr).children.length then none
  else joinDetachLoop addr thr count s

/-- `of_WAIT_FORK`; nothing where an assertion fails. -/
def ofWaitFork (s : VThreads) (thr : Nat) : Option VThreads :=
  let t := s.threads thr
  if t.iAmInFunction || t.iAmJoining || t.iAmWaiting || t.children ≠ [] then none
  else if t.detachedChildren = [] then some s
  else some (s.modify thr fun t => { t with iAmWaiting := true })

/-- The loop of `of_DISABLE_FORK`, at most so many times. -/
def disableForkLoop (thr : Nat) : Nat → VThreads → Option VThreads
  | 0, s => if (s.threads thr).detachedChildren = [] then some s else none
  | n + 1, s =>
    match (s.threads thr).detachedChildren with
    | [] => some s
    | child :: _ =>
      if (s.threads child).parent ≠ some thr then none
      else
        (doDisable thr s.next s child).bind fun r =>
          if r.2 then none else disableForkLoop thr n (r.1.vthreadReap child)

/-- `of_DISABLE_FORK`; nothing where an assertion fails. -/
def ofDisableFork (s : VThreads) (thr : Nat) : Option VThreads :=
  let t := s.threads thr
  if t.iAmJoining || t.children ≠ [] then none
  else disableForkLoop thr t.detachedChildren.length s

/-- The loop of `of_DISABLE_FLOW`, at most so many times. -/
def flowTarget (s : VThreads) (scope : Nat) : Nat → Nat → Option Nat
  | 0, _ => none
  | n + 1, cur =>
    if (s.threads cur).parentScope = scope then some cur
    else (s.threads cur).parent.bind (flowTarget s scope n)

/-- `of_DISABLE_FLOW`; nothing where an assertion fails. -/
def ofDisableFlow (s : VThreads) (thr scope : Nat) : Option VThreads :=
  (flowTarget s scope s.next thr).bind fun cur => (doDisable thr s.next s cur).map Prod.fst

/-- The beginning of `of_END`: the thread has ended, and its detached children are detached
fully. -/
def dismissed (s : VThreads) (thr : Nat) : VThreads :=
  ((s.modify thr fun t => { t with iHaveEnded := true }).modifyAll
      (s.threads thr).detachedChildren fun child =>
        { child with parent := none, iAmDetached := false }).modify thr
    fun t => { t with detachedChildren := [] }

/-- `of_END`; nothing where an assertion fails. -/
def ofEnd (s : VThreads) (thr : Nat) : Option VThreads :=
  if (s.threads thr).waitingForEvent then none
  else
    let s := s.dismissed thr
    let t := s.threads thr
    if t.children ≠ [] then none
    else
      match t.parent with
      | none => if t.iAmDetached then none else some (s.vthreadReap thr)
      | some tmp =>
        if t.iAmDetached then
          let s := s.modify tmp fun p => { p with detachedChildren := p.detachedChildren.erase thr }
          let p := s.threads tmp
          (if p.iAmWaiting && p.detachedChildren = [] then
            (s.modify tmp fun p => { p with iAmWaiting := false }).scheduleVthread tmp
          else some s).map fun s =>
            (s.modify thr fun t => { t with iAmDetached := false, parent := none }).vthreadReap thr
        else if (s.threads tmp).iAmJoining then
          ((s.modify tmp fun p => { p with iAmJoining := false }).scheduleVthread tmp).bind fun s =>
            s.doJoin tmp thr
        else some s

end VThreads

/-- The opcodes of a thread that concern its relatives, or suspend it. -/
inductive ThreadOp
  | fork (scope : Nat)
  | join
  | joinDetach (count : Nat)
  | waitFork
  | disable (scope : Nat)
  | disableFlow (scope : Nat)
  | disableFork
  | «end»
  | delay
  | wait
  deriving DecidableEq

/-- What can happen next. -/
inductive ThreadStep
  /-- A thread of its own is created and scheduled. -/
  | create (scope : Nat) (inFunction : Bool)
  /-- A scheduled thread is run. -/
  | run (thr : Nat)
  /-- The event that a thread waits for happens. -/
  | wake (thr : Nat)
  /-- A thread that is being run executes an opcode. -/
  | op (thr : Nat) (op : ThreadOp)
  /-- The `%disable` that is being executed disables the next thread of its scope, or is over. -/
  | disableNext
  deriving DecidableEq

namespace VThreads

/-- A thread that is being run. -/
def canRun (s : VThreads) (thr : Nat) : Bool :=
  let t := s.threads thr
  thr < s.next && !t.iHaveEnded && !t.isScheduled && !t.iAmJoining && !t.iAmWaiting &&
    !t.waitingForEvent

/-- An opcode; nothing where an assertion fails. -/
def exec (addr : Nat → Nat) (s : VThreads) (thr : Nat) : ThreadOp → Option VThreads
  | .fork scope => some (s.ofFork addr thr scope)
  | .join => s.doJoinOpcode thr
  | .joinDetach count => s.ofJoinDetach addr thr count
  | .waitFork => s.ofWaitFork thr
  | .disable scope => some { s with disabling := some (thr, scope, false) }
  | .disableFlow scope => s.ofDisableFlow thr scope
  | .disableFork => s.ofDisableFork thr
  | .end => s.ofEnd thr
  | .delay => s.scheduleVthread thr
  | .wait => some (s.modify thr fun t => { t with waitingForEvent := true })

/-- One step; nothing where it is not possible or an assertion fails. -/
def step (addr : Nat → Nat) (s : VThreads) (l : ThreadStep) : Option VThreads :=
  match s.disabling with
  | some (thr, scope, flag) =>
    if l ≠ .disableNext then none
    else
      match s.scopes scope with
      | [] => some { s with disabling := none }
      | cur :: _ =>
        (doDisable thr s.next s cur).map fun r =>
          { r.1 with disabling := some (thr, scope, flag || r.2) }
  | none =>
    match l with
    | .create scope inFunction =>
      let thr := { vthreadNew scope with iAmInFunction := inFunction, isScheduled := true }
      some { s with
        threads := Function.update s.threads s.next thr
        next := s.next + 1
        scopes := Function.update s.scopes scope (setInsert addr s.next (s.scopes scope)) }
    | .run thr =>
      if (s.threads thr).isScheduled = false then none
      else
        some (s.modify thr fun t =>
          { t with
            isScheduled := false
            -- a thread that has ended comes to `of_ZOMBIE`
            deleted := t.deleted || t.iHaveEnded && t.parent.isNone && decide (t.children = []) })
    | .wake thr =>
      if (s.threads thr).waitingForEvent = false then none
      else some (s.modify thr fun t => { t with waitingForEvent := false, isScheduled := true })
    | .op thr op => if s.canRun thr then s.exec addr thr op else none
    | .disableNext => none

end VThreads

end Icarus.Vvp
