import Icarus.Core.Chain
import Mathlib.Data.List.Nodup

/-!
# Event controls

A non-blocking assignment with an event control waits in a linked list of its event. Each trigger
walks through the list, counts every control down, and runs and unlinks those that are due, while
`last` follows as the place where the next control is to be linked in.
-/

namespace Icarus.Vvp

open Icarus.Core

/-! ## Writes -/

/-- What a write does as far as its event can tell: it ends in a world, or it triggers the event
in a world and goes on in the one it finds then. -/
inductive WriteEffect (W : Type)
  | done (world : W)
  | trigger (world : W) (rest : W → WriteEffect W)

/-! ## The list -/

/-- `evctl`. -/
structure Evctl (A : Type) where
  /-- `ecount_`. -/
  ecount : Nat
  /-- What `run_run` writes. -/
  action : A
  /-- `next`. -/
  next : Option Nat

/-- A place that holds a pointer to a control: `event_ctls`, or `next` of a control. -/
inductive LinkPtr
  | eventCtls
  | next (ctl : Nat)
  deriving DecidableEq

/-- `waitable_hooks_s` with the heap its controls are in, the world their writes go to, and the
controls that have run. -/
structure WaitableHooks (W A : Type) where
  /-- `event_ctls`. -/
  eventCtls : Option Nat
  /-- `last`. -/
  last : LinkPtr
  /-- The controls; nothing where none is allocated or it is deleted. -/
  heap : Nat → Option (Evctl A)
  /-- The next control that is allocated. -/
  fresh : Nat
  /-- What the writes go to. -/
  world : W
  /-- The controls that have run, in their order. -/
  ran : List (Nat × A)

/-- What goes wrong: an assertion fails, a deleted control is used, or the walk does not end. -/
inductive EvctlError
  | assertion
  | deleted
  | fuel
  deriving DecidableEq

namespace WaitableHooks

variable {W A : Type}

/-- No controls. -/
def init (world : W) : WaitableHooks W A := ⟨none, .eventCtls, fun _ => none, 0, world, []⟩

/-- A control that is used. -/
def load (s : WaitableHooks W A) (ctl : Nat) : Except EvctlError (Evctl A) :=
  match s.heap ctl with
  | none => .error .deleted
  | some cell => .ok cell

/-- A control with new fields, or deleted. -/
def put (s : WaitableHooks W A) (ctl : Nat) (cell : Option (Evctl A)) : WaitableHooks W A :=
  { s with heap := Function.update s.heap ctl cell }

/-- `*last = ctl`. -/
def store (s : WaitableHooks W A) (ctl : Option Nat) : Except EvctlError (WaitableHooks W A) :=
  match s.last with
  | .eventCtls => .ok { s with eventCtls := ctl }
  | .next prev => (s.load prev).map fun cell => s.put prev (some { cell with next := ctl })

/-- `schedule_evctl`. -/
def scheduleEvctl (s : WaitableHooks W A) (ecount : Nat) (action : A) :
    Except EvctlError (WaitableHooks W A) :=
  let ctl := s.fresh
  let s := { s.put ctl (some ⟨ecount, action, none⟩) with fresh := ctl + 1 }
  (s.store (some ctl)).map fun s => { s with last := .next ctl }

/-! ## A trigger -/

end WaitableHooks

/-- A write, with what a trigger does to the event. -/
def WriteEffect.run {W A : Type}
    (retrigger : WaitableHooks W A → Except EvctlError (WaitableHooks W A)) :
    WriteEffect W → WaitableHooks W A → Except EvctlError (WaitableHooks W A)
  | .done world, s => .ok { s with world := world }
  | .trigger world rest, s =>
    match retrigger { s with world := world } with
    | .error e => .error e
    | .ok s => (rest s.world).run retrigger s

namespace WaitableHooks

variable {W A : Type}

/-- `dec_and_run`. -/
def decAndRun (write : A → W → WriteEffect W)
    (retrigger : WaitableHooks W A → Except EvctlError (WaitableHooks W A)) (cur : Nat)
    (s : WaitableHooks W A) : Except EvctlError (Bool × WaitableHooks W A) := do
  let ctl ← s.load cur
  if ctl.ecount = 0 then throw .assertion
  let ecount := ctl.ecount - 1
  let s := s.put cur (some { ctl with ecount := ecount })
  let s ← if ecount = 0 then
      (write ctl.action s.world).run retrigger { s with ran := s.ran ++ [(cur, ctl.action)] }
    else pure s
  let ctl ← s.load cur
  return (decide (ctl.ecount = 0), s)

/-- The loop of `run_waiting_threads_` from a control on. A trigger inside a write starts a walk
of its own. -/
def walk (write : A → W → WriteEffect W) :
    Nat → Option Nat → WaitableHooks W A → Except EvctlError (WaitableHooks W A)
  | 0, _, _ => throw .fuel
  | _ + 1, none, s => return s
  | fuel + 1, some cur, s => do
    let (ran, s) ← decAndRun write
      (fun s => walk write fuel s.eventCtls { s with last := .eventCtls }) cur s
    let ctl ← s.load cur
    if ran then
      let s ← (s.put cur none).store ctl.next
      walk write fuel ctl.next s
    else walk write fuel ctl.next { s with last := .next cur }

/-- `run_waiting_threads_`, as far as the controls go. -/
def runWaitingThreads (write : A → W → WriteEffect W) (fuel : Nat) (s : WaitableHooks W A) :
    Except EvctlError (WaitableHooks W A) :=
  walk write fuel s.eventCtls { s with last := .eventCtls }

/-! ## What is in the list -/

/-- The link of a control. -/
def next (s : WaitableHooks W A) (ctl : Nat) : Option Nat := (s.heap ctl).bind Evctl.next

end WaitableHooks

/-- A control that is waiting. -/
structure Waiting (A : Type) where
  /-- The control. -/
  ctl : Nat
  /-- The triggers it still waits for. -/
  ecount : Nat
  /-- What it writes. -/
  action : A
  deriving DecidableEq

namespace Waiting

variable {A : Type}

/-- The place after the last of some controls. -/
def tailPtr (l : List (Waiting A)) : LinkPtr :=
  match l.getLast? with
  | none => .eventCtls
  | some e => .next e.ctl

@[simp] theorem tailPtr_concat (l : List (Waiting A)) (e : Waiting A) :
    tailPtr (l ++ [e]) = .next e.ctl := by
  rw [tailPtr, List.getLast?_concat]

/-- The controls that the next trigger runs. -/
def due (l : List (Waiting A)) : List (Nat × A) :=
  (l.filter fun e => e.ecount = 1).map fun e => (e.ctl, e.action)

/-- The controls that are left after the next trigger. -/
def tick (l : List (Waiting A)) : List (Waiting A) :=
  (l.filter fun e => e.ecount ≠ 1).map fun e => { e with ecount := e.ecount - 1 }

theorem due_cons_wait {e : Waiting A} (togo : List (Waiting A)) (hwait : e.ecount ≠ 1) :
    due (e :: togo) = due togo := by
  rw [due, List.filter_cons_of_neg (by simpa using hwait), due]

theorem due_cons_due {e : Waiting A} (togo : List (Waiting A)) (hdue : e.ecount = 1) :
    due (e :: togo) = (e.ctl, e.action) :: due togo := by
  rw [due, List.filter_cons_of_pos (by simpa using hdue), List.map_cons, due]

theorem tick_cons_wait {e : Waiting A} (togo : List (Waiting A)) (hwait : e.ecount ≠ 1) :
    tick (e :: togo) = { e with ecount := e.ecount - 1 } :: tick togo := by
  rw [tick, List.filter_cons_of_pos (by simpa using hwait), List.map_cons, tick]

theorem tick_cons_due {e : Waiting A} (togo : List (Waiting A)) (hdue : e.ecount = 1) :
    tick (e :: togo) = tick togo := by
  rw [tick, List.filter_cons_of_neg (by simpa using hdue), tick]

end Waiting

open Waiting

namespace WaitableHooks

variable {W A : Type}

/-- A walk has passed some controls and has the others to go. -/
structure Walks (s : WaitableHooks W A) (passed togo : List (Waiting A)) : Prop where
  /-- All of them are linked. -/
  chain : Chain s.next s.eventCtls ((passed ++ togo).map Waiting.ctl)
  /-- All of them are on the heap. -/
  heap_eq : ∀ e ∈ passed ++ togo, ∃ next, s.heap e.ctl = some ⟨e.ecount, e.action, next⟩
  /-- `last` is the place after those passed. -/
  last_eq : s.last = tailPtr passed
  /-- No control is linked twice. -/
  nodup : ((passed ++ togo).map Waiting.ctl).Nodup
  /-- The next control to be allocated is new. -/
  lt_fresh : ∀ e ∈ passed ++ togo, e.ctl < s.fresh

variable {s : WaitableHooks W A} {passed togo : List (Waiting A)} {e : Waiting A}

theorem next_eq_of_heap {ctl : Nat} {cell : Evctl A} (h : s.heap ctl = some cell) :
    s.next ctl = cell.next := by rw [next, h, Option.bind_some]

theorem heap_put (s : WaitableHooks W A) (ctl : Nat) (cell : Option (Evctl A)) (other : Nat) :
    (s.put ctl cell).heap other = if other = ctl then cell else s.heap other :=
  Function.update_apply ..

theorem next_put (s : WaitableHooks W A) (ctl : Nat) (cell : Option (Evctl A)) (other : Nat) :
    (s.put ctl cell).next other = if other = ctl then cell.bind Evctl.next else s.next other := by
  rw [next, heap_put]
  split_ifs <;> rfl

theorem load_eq {ctl : Nat} {cell : Evctl A} (h : s.heap ctl = some cell) :
    s.load ctl = .ok cell := by rw [load, h]

theorem store_eventCtls (h : s.last = .eventCtls) (ctl : Option Nat) :
    s.store ctl = .ok { s with eventCtls := ctl } := by
  unfold store
  split
  · rfl
  · simp_all

theorem store_next {prev : Nat} {cell : Evctl A} (h : s.last = .next prev)
    (hcell : s.heap prev = some cell) (ctl : Option Nat) :
    s.store ctl = .ok (s.put prev (some { cell with next := ctl })) := by
  unfold store
  split
  · simp_all
  · rename_i prev' hprev
    obtain rfl : prev' = prev := LinkPtr.next.inj (hprev.symm.trans h)
    rw [load_eq hcell]
    rfl

namespace Walks

/-- A new walk has everything to go. -/
theorem restart (h : s.Walks passed togo) :
    Walks { s with last := .eventCtls } [] (passed ++ togo) :=
  ⟨h.chain, h.heap_eq, rfl, h.nodup, h.lt_fresh⟩

/-- The control at hand, and the start of what is to go after it. -/
theorem current (h : s.Walks passed (e :: togo)) :
    s.heap e.ctl = some ⟨e.ecount, e.action, (togo.head?).map Waiting.ctl⟩ := by
  obtain ⟨next, hnext⟩ := h.heap_eq e (by simp)
  have hchain := h.chain
  rw [List.map_append, List.map_cons] at hchain
  have hstart := hchain.after.start_eq
  rw [next_eq_of_heap hnext, List.head?_map] at hstart
  rw [hnext]
  dsimp only at hstart
  rw [hstart]

/-- The control at hand is not among the others. -/
theorem ctl_ne (h : s.Walks passed (e :: togo)) {u : Waiting A} (hu : u ∈ passed ++ togo) :
    u.ctl ≠ e.ctl := by
  have hnodup := h.nodup
  rw [List.map_append, List.map_cons, List.nodup_middle, List.nodup_cons, ← List.map_append]
    at hnodup
  intro heq
  exact hnodup.1 (heq ▸ List.mem_map_of_mem hu)

/-- The count of the control at hand is set. -/
theorem putCount (h : s.Walks passed (e :: togo)) (ecount : Nat) :
    (s.put e.ctl (some ⟨ecount, e.action, (togo.head?).map Waiting.ctl⟩)).Walks passed
      ({ e with ecount := ecount } :: togo) := by
  have hcur := h.current
  have hmem : ∀ u ∈ passed ++ { e with ecount := ecount } :: togo,
      u = { e with ecount := ecount } ∨ u ∈ passed ++ togo := by
    intro u hu
    simp only [List.mem_append, List.mem_cons] at hu ⊢
    tauto
  refine ⟨?_, fun u hu => ?_, h.last_eq, ?_, fun u hu => ?_⟩
  · have hchain := h.chain
    rw [List.map_append, List.map_cons] at hchain ⊢
    apply hchain.congr
    intro t _
    rw [next_put]
    split_ifs with ht
    · rw [ht, next_eq_of_heap hcur]
      rfl
    · rfl
  · rw [heap_put]
    rcases hmem u hu with rfl | hu
    · rw [if_pos rfl]
      exact ⟨_, rfl⟩
    · rw [if_neg (h.ctl_ne hu)]
      exact h.heap_eq u (by simp only [List.mem_append, List.mem_cons] at hu ⊢; tauto)
  · have hnodup := h.nodup
    rw [List.map_append, List.map_cons] at hnodup ⊢
    exact hnodup
  · rcases hmem u hu with rfl | hu
    · exact h.lt_fresh e (by simp)
    · exact h.lt_fresh u (by simp only [List.mem_append, List.mem_cons] at hu ⊢; tauto)

/-- The walk passes the control at hand. -/
theorem advance (h : s.Walks passed (e :: togo)) :
    Walks { s with last := .next e.ctl } (passed ++ [e]) togo := by
  have happ : passed ++ [e] ++ togo = passed ++ e :: togo := by simp
  refine ⟨?_, ?_, (tailPtr_concat passed e).symm, ?_, ?_⟩
  · rw [happ]
    exact h.chain
  · rw [happ]
    exact h.heap_eq
  · rw [happ]
    exact h.nodup
  · rw [happ]
    exact h.lt_fresh

/-- The control at hand is deleted, and the place before it holds the one after it. -/
theorem remove (h : s.Walks passed (e :: togo)) :
    ∃ s', (s.put e.ctl none).store ((togo.head?).map Waiting.ctl) = .ok s' ∧
      s'.Walks passed togo ∧ s'.world = s.world ∧ s'.ran = s.ran ∧ s'.fresh = s.fresh := by
  have hcur := h.current
  have hsub : ∀ u ∈ passed ++ togo, u ∈ passed ++ e :: togo := by
    intro u hu
    simp only [List.mem_append, List.mem_cons] at hu ⊢
    tauto
  have hnodup : ((passed ++ togo).map Waiting.ctl).Nodup :=
    h.nodup.sublist ((List.Sublist.append_left (List.sublist_cons_self e togo) passed).map _)
  have hchain := h.chain
  rw [List.map_append, List.map_cons] at hchain
  -- the chain after the control, which is not part of it any more
  have hrest : Chain (s.put e.ctl none).next ((togo.head?).map Waiting.ctl)
      (togo.map Waiting.ctl) := by
    have hafter := hchain.after
    rw [next_eq_of_heap hcur] at hafter
    apply hafter.congr
    intro t ht
    obtain ⟨u, hu, rfl⟩ := List.mem_map.mp ht
    rw [next_put, if_neg (h.ctl_ne (List.mem_append_right passed hu))]
  rcases List.eq_nil_or_concat passed with rfl | ⟨pre, prev, rfl⟩
  · refine ⟨{ s.put e.ctl none with eventCtls := (togo.head?).map Waiting.ctl }, ?_, ?_, rfl, rfl,
      rfl⟩
    · exact store_eventCtls (s := s.put e.ctl none) h.last_eq _
    · refine ⟨hrest, fun u hu => ?_, h.last_eq, hnodup, fun u hu => h.lt_fresh u (hsub u hu)⟩
      change ∃ next, (s.put e.ctl none).heap u.ctl = _
      rw [heap_put, if_neg (h.ctl_ne hu)]
      exact h.heap_eq u (hsub u hu)
  · rw [List.concat_eq_append] at *
    obtain ⟨link, hlink⟩ := h.heap_eq prev (by simp)
    have hprev : (s.put e.ctl none).heap prev.ctl = some ⟨prev.ecount, prev.action, link⟩ := by
      rw [heap_put, if_neg (h.ctl_ne (by simp)), hlink]
    have hother : ∀ u ∈ pre ++ togo, u.ctl ≠ prev.ctl := by
      have hmid := hnodup
      rw [List.append_assoc, List.singleton_append, List.map_append, List.map_cons,
        List.nodup_middle, List.nodup_cons, ← List.map_append] at hmid
      intro u hu heq
      exact hmid.1 (heq ▸ List.mem_map_of_mem hu)
    refine ⟨_, store_next (s := s.put e.ctl none)
      (h.last_eq.trans (tailPtr_concat pre prev)) hprev _,
      ⟨?_, fun u hu => ?_, h.last_eq, hnodup, fun u hu => h.lt_fresh u (hsub u hu)⟩, rfl, rfl, rfl⟩
    · rw [List.append_assoc, List.singleton_append, List.map_append, List.map_cons]
      rw [List.map_append, List.map_singleton, List.append_assoc, List.singleton_append] at hchain
      refine hchain.relink ?_ fun t ht => ?_
      · rw [next_put, if_pos rfl]
        apply hrest.congr
        intro t ht
        obtain ⟨u, hu, rfl⟩ := List.mem_map.mp ht
        rw [next_put, if_neg (hother u (List.mem_append_right pre hu))]
      · obtain ⟨u, hu, rfl⟩ := List.mem_map.mp ht
        rw [next_put, if_neg (hother u (List.mem_append_left togo hu)), next_put,
          if_neg (h.ctl_ne (by simp [hu]))]
    · rw [heap_put]
      have hcase : u = prev ∨ u ∈ pre ++ togo := by
        simp only [List.mem_append, List.mem_cons, List.not_mem_nil, or_false] at hu ⊢
        tauto
      rcases hcase with rfl | hu'
      · rw [if_pos rfl]
        exact ⟨_, rfl⟩
      · rw [if_neg (hother u hu'), heap_put, if_neg (h.ctl_ne hu)]
        exact h.heap_eq u (hsub u hu)

end Walks

/-! ## One control -/

section DecAndRun

variable {write : A → W → WriteEffect W}
  {retrigger : WaitableHooks W A → Except EvctlError (WaitableHooks W A)}

/-- A control that has run already fails the assertion. -/
theorem decAndRun_zero (h : s.Walks passed (e :: togo)) (hzero : e.ecount = 0) :
    decAndRun write retrigger e.ctl s = .error .assertion := by
  simp only [decAndRun, load_eq h.current, bind, Except.bind, if_pos hzero]
  rfl

/-- A control that is not due is counted down. -/
theorem decAndRun_wait (h : s.Walks passed (e :: togo)) (hwait : 1 < e.ecount) :
    decAndRun write retrigger e.ctl s = .ok (false,
      s.put e.ctl (some ⟨e.ecount - 1, e.action, (togo.head?).map Waiting.ctl⟩)) := by
  have hload := load_eq (h.putCount (e.ecount - 1)).current
  simp only [decAndRun, load_eq h.current, bind, Except.bind]
  rw [if_neg (by omega)]
  simp only [pure, Except.pure]
  rw [if_neg (by omega)]
  dsimp only at hload ⊢
  rw [hload]
  simp only [decide_eq_false (by omega : ¬ e.ecount - 1 = 0)]

/-- A control that is due runs: what its write leaves decides. -/
theorem decAndRun_due (h : s.Walks passed (e :: togo)) (hdue : e.ecount = 1) :
    decAndRun write retrigger e.ctl s =
      ((write e.action s.world).run retrigger
        { s.put e.ctl (some ⟨0, e.action, (togo.head?).map Waiting.ctl⟩) with
          ran := s.ran ++ [(e.ctl, e.action)] }).bind fun s =>
        (s.load e.ctl).map fun ctl => (decide (ctl.ecount = 0), s) := by
  simp only [decAndRun, load_eq h.current, bind, Except.bind]
  rw [if_neg (by omega)]
  simp only [pure, Except.pure]
  rw [if_pos (by omega), hdue]
  rfl

end DecAndRun

/-! ## A walk -/

section Walk

variable {write : A → W → WriteEffect W} {fuel : Nat}

/-- A walk counts a control down that is not due, and goes on. -/
theorem walk_wait (write : A → W → WriteEffect W) (fuel : Nat) (h : s.Walks passed (e :: togo))
    (hwait : 1 < e.ecount) :
    ∃ s', walk write (fuel + 1) (some e.ctl) s =
        walk write fuel ((togo.head?).map Waiting.ctl) s' ∧
      s'.Walks (passed ++ [{ e with ecount := e.ecount - 1 }]) togo ∧
      s'.world = s.world ∧ s'.ran = s.ran ∧ s'.fresh = s.fresh := by
  have hput := h.putCount (e.ecount - 1)
  refine ⟨_, ?_, hput.advance, rfl, rfl, rfl⟩
  rw [walk, decAndRun_wait h hwait]
  have hload := load_eq hput.current
  dsimp only at hload
  simp only [bind, Except.bind, hload]
  rfl

/-- A walk runs and deletes a control that is due, and goes on. -/
theorem walk_done (fuel : Nat) (h : s.Walks passed (e :: togo)) (hdue : e.ecount = 1) {world : W}
    (hwrite : write e.action s.world = .done world) :
    ∃ s', walk write (fuel + 1) (some e.ctl) s =
        walk write fuel ((togo.head?).map Waiting.ctl) s' ∧
      s'.Walks passed togo ∧ s'.world = world ∧ s'.ran = s.ran ++ [(e.ctl, e.action)] ∧
      s'.fresh = s.fresh := by
  have hput := h.putCount 0
  have hran : Walks { s.put e.ctl (some ⟨0, e.action, (togo.head?).map Waiting.ctl⟩) with
      ran := s.ran ++ [(e.ctl, e.action)], world := world } passed
      ({ e with ecount := 0 } :: togo) :=
    ⟨hput.chain, hput.heap_eq, hput.last_eq, hput.nodup, hput.lt_fresh⟩
  obtain ⟨s', hs', hwalks, hworld, hlog, hfresh⟩ := hran.remove
  refine ⟨s', ?_, hwalks, hworld, hlog, hfresh⟩
  have hload := load_eq hran.current
  dsimp only at hload hs'
  rw [walk, decAndRun_due h hdue, hwrite]
  simp only [WriteEffect.run, Except.bind, bind, hload, Except.map]
  rw [if_pos (decide_true _), hs']

/-- A walk fails as the one inside it does. -/
theorem walk_trigger (h : s.Walks passed (e :: togo)) (hdue : e.ecount = 1) {world : W}
    {rest : W → WriteEffect W} (hwrite : write e.action s.world = .trigger world rest)
    {err : EvctlError}
    (hinner : ∀ s', Walks s' [] (passed ++ { e with ecount := 0 } :: togo) →
      walk write fuel s'.eventCtls s' = .error err) :
    walk write (fuel + 1) (some e.ctl) s = .error err := by
  have hput := h.putCount 0
  have hinner' := hinner _ (show Walks
    { s.put e.ctl (some ⟨0, e.action, (togo.head?).map Waiting.ctl⟩) with
      ran := s.ran ++ [(e.ctl, e.action)], world := world, last := .eventCtls } [] _ from
    ⟨hput.chain, hput.heap_eq, rfl, hput.nodup, hput.lt_fresh⟩)
  rw [walk, decAndRun_due h hdue, hwrite]
  simp only [WriteEffect.run, bind, Except.bind]
  rw [hinner']

/-- The start of a walk. -/
theorem Walks.eventCtls_eq (h : s.Walks [] togo) :
    s.eventCtls = (togo.head?).map Waiting.ctl := by
  rw [h.chain.start_eq, List.nil_append, List.head?_map]

private theorem add_square_lt {m n : Nat} (h : m < n) : m + m * m < n * n := by
  have hsquare := Nat.mul_le_mul (Nat.succ_le_of_lt h) (Nat.succ_le_of_lt h)
  rw [Nat.succ_mul, Nat.mul_succ] at hsquare
  omega

/-- The world after some writes, if none of them triggers the event. -/
def settle (write : A → W → WriteEffect W) : List A → W → Option W
  | [], world => some world
  | action :: actions, world =>
    match write action world with
    | .done world => settle write actions world
    | .trigger _ _ => none

/-- A walk whose writes do not trigger the event runs the controls that are due, in their order,
and leaves the others. -/
theorem walk_settles (h : s.Walks passed togo) (hpos : ∀ e ∈ togo, 0 < e.ecount) {world : W}
    (hsettle : settle write ((due togo).map Prod.snd) s.world = some world)
    (hfuel : togo.length < fuel) :
    ∃ s', walk write fuel ((togo.head?).map Waiting.ctl) s = .ok s' ∧
      s'.Walks (passed ++ tick togo) [] ∧ s'.world = world ∧ s'.ran = s.ran ++ due togo ∧
      s'.fresh = s.fresh := by
  induction togo generalizing fuel s passed with
  | nil =>
    obtain ⟨fuel, rfl⟩ : ∃ k, fuel = k + 1 := ⟨fuel - 1, by omega⟩
    refine ⟨s, rfl, ?_, Option.some.inj hsettle, (List.append_nil _).symm, rfl⟩
    rw [tick, List.filter_nil, List.map_nil, List.append_nil]
    exact h
  | cons e togo ih =>
    obtain ⟨fuel, rfl⟩ : ∃ k, fuel = k + 1 := ⟨fuel - 1, by omega⟩
    rw [List.length_cons] at hfuel
    rw [List.head?_cons, Option.map_some]
    have he : 0 < e.ecount := hpos e List.mem_cons_self
    have hrest : ∀ u ∈ togo, 0 < u.ecount := fun u hu => hpos u (List.mem_cons_of_mem e hu)
    by_cases hwait : 1 < e.ecount
    · obtain ⟨s', hwalk, hs', hworld, hran, hfresh⟩ := walk_wait write fuel h hwait
      have hdue := due_cons_wait togo (e := e) (by omega)
      rw [hdue, ← hworld] at hsettle
      obtain ⟨s'', hwalk', hs'', hworld', hran', hfresh'⟩ := ih hs' hrest hsettle
        (Nat.lt_of_succ_lt_succ hfuel)
      refine ⟨s'', hwalk.trans hwalk', ?_, hworld', ?_, hfresh'.trans hfresh⟩
      · rw [tick_cons_wait togo (by omega)]
        rwa [List.append_assoc, List.singleton_append] at hs''
      · rw [hran', hran, hdue]
    · have hone : e.ecount = 1 := by omega
      have hdue := due_cons_due togo hone
      rw [hdue, List.map_cons, settle] at hsettle
      cases hwrite : write e.action s.world with
      | trigger world rest =>
        rw [hwrite] at hsettle
        cases hsettle
      | done world' =>
        rw [hwrite] at hsettle
        obtain ⟨s', hwalk, hs', hworld, hran, hfresh⟩ := walk_done fuel h hone hwrite
        rw [← hworld] at hsettle
        obtain ⟨s'', hwalk', hs'', hworld', hran', hfresh'⟩ := ih hs' hrest hsettle
          (Nat.lt_of_succ_lt_succ hfuel)
        refine ⟨s'', hwalk.trans hwalk', ?_, hworld', ?_, hfresh'.trans hfresh⟩
        · rw [tick_cons_due togo hone]
          exact hs''
        · rw [hran', hran, hdue, List.append_assoc, List.singleton_append]

/-- A walk fails the assertion if it comes upon a control that has run, or if one of its writes
triggers the event. The controls before may run too; a walk that they start comes upon them. -/
theorem walk_fails (n : Nat) {pre post : List (Waiting A)} (h : s.Walks passed (pre ++ post))
    (hpre : ∀ e ∈ passed ++ pre, 0 < e.ecount)
    (hbad : (∃ z rest, post = z :: rest ∧ z.ecount = 0) ∨
      post = [] ∧ settle write ((due pre).map Prod.snd) s.world = none)
    (hn : passed.length + pre.length ≤ n) (hfuel : pre.length + n * n < fuel) :
    walk write fuel (((pre ++ post).head?).map Waiting.ctl) s = .error .assertion := by
  induction n using Nat.strongRecOn generalizing fuel s passed pre post with
  | ind n ihn =>
    induction pre generalizing fuel s passed with
    | nil =>
      rcases hbad with ⟨z, rest, rfl, hz⟩ | ⟨-, hsettle⟩
      · obtain ⟨fuel, rfl⟩ : ∃ k, fuel = k + 1 := ⟨fuel - 1, by omega⟩
        rw [List.nil_append, List.head?_cons, Option.map_some, walk, decAndRun_zero h hz]
        rfl
      · cases hsettle
    | cons e pre ih =>
      obtain ⟨fuel, rfl⟩ : ∃ k, fuel = k + 1 := ⟨fuel - 1, by omega⟩
      rw [List.cons_append, List.head?_cons, Option.map_some]
      rw [List.length_cons] at hn hfuel
      have he : 0 < e.ecount := hpre e (by simp)
      by_cases hwait : 1 < e.ecount
      · obtain ⟨s', hwalk, hs', hworld, -⟩ := walk_wait write fuel h hwait
        rw [due_cons_wait pre (by omega), ← hworld] at hbad
        rw [hwalk]
        refine ih hs' (fun u hu => ?_) hbad
          (by rw [List.length_append, List.length_singleton]; omega) (by omega)
        rw [List.append_assoc, List.singleton_append, List.mem_append, List.mem_cons] at hu
        rcases hu with hu | rfl | hu
        · exact hpre u (List.mem_append_left _ hu)
        · exact Nat.sub_pos_of_lt hwait
        · exact hpre u (by simp [hu])
      · have hone : e.ecount = 1 := by omega
        cases hwrite : write e.action s.world with
        | done world =>
          obtain ⟨s', hwalk, hs', hworld, -⟩ := walk_done fuel h hone hwrite
          rw [due_cons_due pre hone, List.map_cons, settle, hwrite, ← hworld] at hbad
          rw [hwalk]
          refine ih hs' (fun u hu => hpre u ?_) hbad (by omega) (by omega)
          simp only [List.mem_append, List.mem_cons] at hu ⊢
          tauto
        | trigger world rest =>
          apply walk_trigger h hone hwrite
          intro s' hs'
          rw [hs'.eventCtls_eq]
          have hsquare := add_square_lt (show passed.length < n by omega)
          -- the walk inside comes upon the control that is running
          exact ihn passed.length (by omega) hs'
            (fun u hu => hpre u (List.mem_append_left _ hu)) (.inl ⟨_, _, rfl, rfl⟩) (by simp)
            (by omega)

end Walk

/-! ## A new control -/

/-- A control is linked in after the others. -/
theorem scheduleEvctl_walks {l : List (Waiting A)} (h : s.Walks l []) (ecount : Nat) (action : A) :
    ∃ s', s.scheduleEvctl ecount action = .ok s' ∧
      s'.Walks (l ++ [(⟨s.fresh, ecount, action⟩ : Waiting A)]) [] ∧
      s'.world = s.world ∧ s'.ran = s.ran ∧ s'.fresh = s.fresh + 1 := by
  have hold : ∀ u ∈ l, u.ctl < s.fresh := fun u hu => h.lt_fresh u (List.mem_append_left [] hu)
  have hnodup : ((l ++ [(⟨s.fresh, ecount, action⟩ : Waiting A)] ++ []).map Waiting.ctl).Nodup := by
    have hnodup := h.nodup
    rw [List.append_nil] at hnodup ⊢
    rw [List.map_append, List.map_singleton, List.nodup_append]
    refine ⟨hnodup, List.nodup_singleton _, fun t ht t' ht' => ?_⟩
    obtain ⟨u, hu, rfl⟩ := List.mem_map.mp ht
    rw [List.mem_singleton.mp ht']
    exact Nat.ne_of_lt (hold u hu)
  have hlt : ∀ u ∈ l ++ [(⟨s.fresh, ecount, action⟩ : Waiting A)] ++ [], u.ctl < s.fresh + 1 := by
    intro u hu
    rw [List.append_nil, List.mem_append, List.mem_singleton] at hu
    rcases hu with hu | rfl
    · exact Nat.lt_succ_of_lt (hold u hu)
    · exact Nat.lt_succ_self _
  have hchain := h.chain
  rw [List.append_nil] at hchain
  rw [scheduleEvctl]
  rcases List.eq_nil_or_concat l with rfl | ⟨pre, prev, rfl⟩
  · -- the first control
    rw [store_eventCtls (s := { s.put s.fresh (some ⟨ecount, action, none⟩) with
      fresh := s.fresh + 1 }) h.last_eq]
    refine ⟨_, rfl, ⟨?_, fun u hu => ?_, rfl, hnodup, hlt⟩, rfl, rfl, rfl⟩
    · apply Chain.cons
      change Chain _ ((s.put s.fresh (some ⟨ecount, action, none⟩)).next s.fresh) []
      rw [next_put, if_pos rfl]
      exact .nil
    · obtain rfl : u = ⟨s.fresh, ecount, action⟩ := by simpa using hu
      exact ⟨none, (heap_put ..).trans (if_pos rfl)⟩
  · rw [List.concat_eq_append] at *
    obtain ⟨link, hlink⟩ := h.heap_eq prev (by simp)
    have hprev := hold prev (by simp)
    have hother : ∀ u ∈ pre, u.ctl ≠ prev.ctl := by
      have hmid := h.nodup
      rw [List.append_nil, List.map_append, List.map_singleton, List.nodup_append] at hmid
      exact fun u hu => hmid.2.2 u.ctl (List.mem_map_of_mem hu) prev.ctl (List.mem_singleton_self _)
    rw [store_next (s := { s.put s.fresh (some ⟨ecount, action, none⟩) with
      fresh := s.fresh + 1 }) (h.last_eq.trans (tailPtr_concat pre prev))
      (((heap_put ..).trans (if_neg (Nat.ne_of_lt hprev))).trans hlink)]
    refine ⟨_, rfl, ⟨?_, fun u hu => ?_, (tailPtr_concat (pre ++ [prev]) ⟨s.fresh, _, _⟩).symm,
      hnodup, hlt⟩, rfl, rfl, rfl⟩
    · rw [List.append_nil, List.append_assoc, List.singleton_append, List.map_append, List.map_cons,
        List.map_singleton]
      rw [List.map_append, List.map_singleton] at hchain
      refine hchain.relink ?_ fun t ht => ?_
      · change Chain _ (((s.put s.fresh (some ⟨ecount, action, none⟩)).put prev.ctl
          (some ⟨prev.ecount, prev.action, some s.fresh⟩)).next prev.ctl) _
        rw [next_put, if_pos rfl]
        apply Chain.cons
        change Chain _ (((s.put s.fresh (some ⟨ecount, action, none⟩)).put prev.ctl
          (some ⟨prev.ecount, prev.action, some s.fresh⟩)).next s.fresh) _
        rw [next_put, if_neg (Nat.ne_of_gt hprev), next_put, if_pos rfl]
        exact .nil
      · obtain ⟨u, hu, rfl⟩ := List.mem_map.mp ht
        change ((s.put s.fresh (some ⟨ecount, action, none⟩)).put prev.ctl
          (some ⟨prev.ecount, prev.action, some s.fresh⟩)).next u.ctl = _
        rw [next_put, if_neg (hother u hu), next_put, if_neg (Nat.ne_of_lt (hold u (by simp [hu])))]
    · change ∃ next, ((s.put s.fresh (some ⟨ecount, action, none⟩)).put prev.ctl
        (some ⟨prev.ecount, prev.action, some s.fresh⟩)).heap u.ctl = _
      rw [List.append_nil, List.mem_append, List.mem_append, List.mem_singleton,
        List.mem_singleton] at hu
      rcases hu with (hu | rfl) | rfl
      · rw [heap_put, if_neg (hother u hu), heap_put,
          if_neg (Nat.ne_of_lt (hold u (by simp [hu])))]
        exact h.heap_eq u (by simp [hu])
      · rw [heap_put, if_pos rfl]
        exact ⟨_, rfl⟩
      · rw [heap_put, if_neg (Nat.ne_of_gt hprev), heap_put, if_pos rfl]
        exact ⟨_, rfl⟩

end WaitableHooks

end Icarus.Vvp
