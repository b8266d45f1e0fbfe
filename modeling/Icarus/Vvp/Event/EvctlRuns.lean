import Icarus.Core.Runs
import Icarus.Vvp.Event.Evctl

/-!
# Runs of event controls

Against the history of an event: which controls were registered, and on which trigger each of
them is due.
-/

namespace Icarus.Vvp

open Icarus.Core Waiting

variable {W A : Type}

/-- What happens to an event: a control is registered, or the event is triggered in a world. -/
inductive EvctlStep (W A : Type)
  | schedule (ecount : {n : Nat // 0 < n}) (action : A)
  | trigger (world : W)

/-- Enough for any walk through the controls, and those started inside it. -/
def WaitableHooks.walkFuel (s : WaitableHooks W A) : Nat := s.fresh + s.fresh * s.fresh + 1

/-- One thing happens. -/
def WaitableHooks.step (write : A → W → WriteEffect W) (s : WaitableHooks W A) :
    EvctlStep W A → Except EvctlError (WaitableHooks W A)
  | .schedule ecount action => s.scheduleEvctl ecount action
  | .trigger world => { s with world := world }.runWaitingThreads write s.walkFuel

/-! ## Histories -/

/-- What has happened: the number of triggers, and for each control, in the order of their
registration, the trigger it is due on and what it writes. -/
structure EvctlHistory (A : Type) where
  /-- The number of triggers. -/
  triggers : Nat
  /-- The controls. -/
  controls : List (Nat × A)

namespace EvctlHistory

/-- Nothing has happened. -/
def init : EvctlHistory A := ⟨0, []⟩

/-- One thing more. A control is due on the `ecount`-th trigger from now. -/
def step (h : EvctlHistory A) : EvctlStep W A → EvctlHistory A
  | .schedule ecount action =>
    { h with controls := h.controls ++ [(h.triggers + ecount, action)] }
  | .trigger _ => { h with triggers := h.triggers + 1 }

/-- The controls that are due on a trigger, by their numbers. -/
def dueOn (h : EvctlHistory A) (trigger : Nat) : List (Nat × A) :=
  (h.controls.zipIdx.filter fun c => c.1.1 = trigger).map fun c => (c.2, c.1.2)

/-- The controls that are still to run. -/
def waiting (h : EvctlHistory A) : List (Waiting A) :=
  (h.controls.zipIdx.filter fun c => h.triggers < c.1.1).map fun c =>
    ⟨c.2, c.1.1 - h.triggers, c.1.2⟩

/-- The controls that are to have run: those due on each trigger so far. -/
def ran (h : EvctlHistory A) : List (Nat × A) :=
  (List.range h.triggers).flatMap fun t => h.dueOn (t + 1)

variable (h : EvctlHistory A)

theorem waiting_pos : ∀ e ∈ h.waiting, 0 < e.ecount := by
  intro e he
  obtain ⟨c, hc, rfl⟩ := List.mem_map.mp he
  have hlt := (List.mem_filter.mp hc).2
  exact Nat.sub_pos_of_lt (of_decide_eq_true hlt)

theorem length_waiting_le : h.waiting.length ≤ h.controls.length := by
  rw [waiting, List.length_map]
  exact Nat.le_trans (List.length_filter_le _ _) (Nat.le_of_eq List.length_zipIdx)

/-- What the next trigger runs is what is due on it. -/
theorem due_waiting : due h.waiting = h.dueOn (h.triggers + 1) := by
  rw [due, waiting, List.filter_map, List.map_map, List.filter_filter, dueOn]
  congr 1
  apply List.filter_congr
  intro c _
  rw [Function.comp_apply, ← Bool.decide_and, decide_eq_decide]
  dsimp only
  omega

/-- What the next trigger leaves is still to run after it. -/
theorem tick_waiting (world : W) : tick h.waiting = (h.step (.trigger world)).waiting := by
  rw [tick, waiting, List.filter_map, List.map_map, List.filter_filter, waiting, step]
  dsimp only
  have hfilter : h.controls.zipIdx.filter (fun c => decide (h.triggers + 1 < c.1.1)) =
      h.controls.zipIdx.filter (fun c => decide (c.1.1 - h.triggers ≠ 1) &&
        decide (h.triggers < c.1.1)) := by
    apply List.filter_congr
    intro c _
    rw [← Bool.decide_and, decide_eq_decide]
    omega
  rw [hfilter]
  apply List.map_congr_left
  intro c _
  rw [Function.comp_apply, Nat.sub_add_eq]

/-- A control that is registered is the last to run of those due with it. -/
theorem waiting_schedule (ecount : {n : Nat // 0 < n}) (action : A) :
    (h.step (.schedule ecount action : EvctlStep W A)).waiting =
      h.waiting ++ [⟨h.controls.length, ecount, action⟩] := by
  have hpos := ecount.2
  rw [waiting, waiting, step, List.zipIdx_append, List.filter_append, List.map_append]
  congr 1
  rw [List.zipIdx_cons, List.zipIdx_nil, List.filter_cons_of_pos (by simp; omega), List.filter_nil,
    List.map_cons, List.map_nil, Nat.zero_add, Nat.add_sub_cancel_left]

theorem ran_schedule (ecount : {n : Nat // 0 < n}) (action : A) :
    (h.step (.schedule ecount action : EvctlStep W A)).ran = h.ran := by
  have hpos := ecount.2
  rw [ran, ran, step]
  apply List.flatMap_congr
  intro t ht
  have hlt := List.mem_range.mp ht
  dsimp only at hlt
  rw [dueOn, dueOn, List.zipIdx_append, List.filter_append, List.zipIdx_cons, List.zipIdx_nil,
    List.filter_cons_of_neg (by simp; omega), List.filter_nil, List.append_nil]

theorem ran_trigger (world : W) :
    (h.step (.trigger world)).ran = h.ran ++ h.dueOn (h.triggers + 1) := by
  rw [ran, ran, step]
  dsimp only
  rw [List.range_succ, List.flatMap_append, List.flatMap_singleton]
  rfl

end EvctlHistory

/-! ## Runs -/

/-- The controls of a history: those still to run are in the list, and the others have run, each
on the trigger it was due on and after those registered before it. -/
structure WaitableHooks.Follows (h : EvctlHistory A) (s : WaitableHooks W A) : Prop where
  /-- What is in the list. -/
  walks : s.Walks h.waiting []
  /-- What has run. -/
  ran_eq : s.ran = h.ran
  /-- The controls are numbered. -/
  fresh_eq : s.fresh = h.controls.length

namespace WaitableHooks

variable {s : WaitableHooks W A} {h : EvctlHistory A}

theorem init_follows (world : W) : (init world : WaitableHooks W A).Follows .init where
  walks := ⟨.nil, fun _ h => absurd h List.not_mem_nil, rfl, List.nodup_nil,
    fun _ h => absurd h List.not_mem_nil⟩
  ran_eq := rfl
  fresh_eq := rfl

/-- A trigger is a walk through the controls that are still to run. -/
private theorem Follows.start (hs : s.Follows h) (write : A → W → WriteEffect W) (world : W) :
    Walks { s with world := world, last := .eventCtls } [] h.waiting ∧
      s.step write (.trigger world) = walk write s.walkFuel ((h.waiting.head?).map Waiting.ctl)
        { s with world := world, last := .eventCtls } := by
  have hstart := hs.walks.restart
  rw [List.append_nil] at hstart
  refine ⟨⟨hstart.chain, hstart.heap_eq, rfl, hstart.nodup, hstart.lt_fresh⟩, ?_⟩
  rw [← hstart.eventCtls_eq]
  rfl

/-- A registration. -/
theorem Follows.schedule (hs : s.Follows h) (write : A → W → WriteEffect W)
    (ecount : {n : Nat // 0 < n}) (action : A) :
    ∃ s', s.step write (.schedule ecount action) = .ok s' ∧
      s'.Follows (h.step (.schedule ecount action : EvctlStep W A)) := by
  obtain ⟨s', hs', hwalks, -, hran, hfresh⟩ := scheduleEvctl_walks hs.walks ecount action
  refine ⟨s', hs', ?_, ?_, ?_⟩
  · rw [h.waiting_schedule, ← hs.fresh_eq]
    exact hwalks
  · rw [hran, hs.ran_eq, h.ran_schedule]
  · rw [hfresh, hs.fresh_eq, EvctlHistory.step, List.length_append, List.length_singleton]

/-- A trigger whose controls do not trigger the event again. -/
theorem Follows.trigger (hs : s.Follows h) {write : A → W → WriteEffect W} {world world' : W}
    (hsettle : settle write ((h.dueOn (h.triggers + 1)).map Prod.snd) world = some world') :
    ∃ s', s.step write (.trigger world) = .ok s' ∧ s'.Follows (h.step (.trigger world)) ∧
      s'.world = world' := by
  obtain ⟨hwalks, hstep⟩ := hs.start write world
  rw [← h.due_waiting] at hsettle
  have hfuel : h.waiting.length < s.walkFuel := by
    have hlength := h.length_waiting_le
    rw [walkFuel, hs.fresh_eq]
    omega
  obtain ⟨s', hwalk, hleft, hworld, hran, hfresh⟩ :=
    walk_settles hwalks h.waiting_pos hsettle hfuel
  refine ⟨s', hstep.trans hwalk, ⟨?_, ?_, ?_⟩, hworld⟩
  · rwa [List.nil_append, h.tick_waiting world] at hleft
  · rw [hran, hs.ran_eq, h.due_waiting, h.ran_trigger world]
  · exact hfresh.trans hs.fresh_eq

/-- A trigger with a control that triggers the event again fails the assertion of
`dec_and_run`. -/
theorem Follows.retrigger (hs : s.Follows h) {write : A → W → WriteEffect W} {world : W}
    (hsettle : settle write ((h.dueOn (h.triggers + 1)).map Prod.snd) world = none) :
    s.step write (.trigger world) = .error .assertion := by
  obtain ⟨hwalks, hstep⟩ := hs.start write world
  rw [← h.due_waiting] at hsettle
  have hlength := h.length_waiting_le
  rw [← List.append_nil h.waiting] at hwalks
  have hfails := walk_fails s.fresh hwalks h.waiting_pos (.inr ⟨rfl, hsettle⟩)
    (by rw [hs.fresh_eq, List.length_nil]; omega)
    (show _ < s.walkFuel by rw [walkFuel, hs.fresh_eq]; omega)
  rw [List.append_nil] at hfails
  exact hstep.trans hfails

end WaitableHooks

/-- A step of the event and of its history. -/
def evctlStep (write : A → W → WriteEffect W) (x : WaitableHooks W A × EvctlHistory A)
    (l : EvctlStep W A) : Option (WaitableHooks W A × EvctlHistory A) :=
  (x.1.step write l).toOption.map fun s => (s, x.2.step l)

/-- No control that is due on a trigger triggers the event again. -/
def EvctlHistory.Calm (write : A → W → WriteEffect W) (h : EvctlHistory A) : EvctlStep W A → Prop
  | .schedule _ _ => True
  | .trigger world =>
    (WaitableHooks.settle write ((h.dueOn (h.triggers + 1)).map Prod.snd) world).isSome

instance (write : A → W → WriteEffect W) (h : EvctlHistory A) : ∀ l, Decidable (h.Calm write l)
  | .schedule _ _ => inferInstanceAs (Decidable True)
  | .trigger _ => inferInstanceAs (Decidable (_ = true))

/-- The history beside a run is the one of its steps. -/
private theorem run_history {write : A → W → WriteEffect W} {steps : List (EvctlStep W A)}
    {x y : WaitableHooks W A × EvctlHistory A}
    (hrun : Runs.run (evctlStep write) x steps = some y) :
    y.2 = steps.foldl EvctlHistory.step x.2 := by
  induction steps generalizing x with
  | nil =>
    rw [Runs.run_nil, Option.some.injEq] at hrun
    rw [← hrun, List.foldl_nil]
  | cons l steps ih =>
    rw [Runs.run_cons] at hrun
    obtain ⟨u, hu, hrun⟩ := Option.bind_eq_some_iff.mp hrun
    obtain ⟨s, -, rfl⟩ := Option.map_eq_some_iff.mp hu
    exact ih hrun

/-- In a run in which no due control triggers the event again nothing fails: every control runs
once, on the trigger it is due on, those due on the same one in the order of their registration,
and the list has the controls that are still to run. -/
theorem evctl_follows (write : A → W → WriteEffect W) (world : W) (steps : List (EvctlStep W A))
    (hcalm : Runs.Meets (evctlStep write) (fun x l => x.2.Calm write l)
      (.init world, .init) steps) :
    ∃ s, Runs.run (evctlStep write) (.init world, .init) steps =
        some (s, steps.foldl EvctlHistory.step .init) ∧
      s.Follows (steps.foldl EvctlHistory.step .init) := by
  have hstep : ∀ (x : WaitableHooks W A × EvctlHistory A) (l : EvctlStep W A), x.1.Follows x.2 →
      x.2.Calm write l → ∃ y, evctlStep write x l = some y ∧ y.1.Follows y.2 := by
    intro x l hx hl
    cases l with
    | schedule ecount action =>
      obtain ⟨s, hs, hfollows⟩ := hx.schedule write ecount action
      exact ⟨_, by rw [evctlStep, hs]; rfl, hfollows⟩
    | trigger world =>
      obtain ⟨world', hsettle⟩ := Option.isSome_iff_exists.mp hl
      obtain ⟨s, hs, hfollows, -⟩ := hx.trigger hsettle
      exact ⟨_, by rw [evctlStep, hs]; rfl, hfollows⟩
  obtain ⟨⟨s, h⟩, hrun, hfollows⟩ := Runs.exists_run_of_meets hstep
    (WaitableHooks.init_follows world) hcalm
  obtain rfl : h = _ := run_history hrun
  exact ⟨s, hrun, hfollows⟩

/-- A write to a signal of one bit that the event waits for: it triggers the event if the signal
changes. -/
private def writeBit (value : Bool) (signal : Bool) : WriteEffect Bool :=
  if signal = value then .done signal else .trigger value .done

/-- Two controls that wait for a second trigger and for a first, and write what the signal has
then. -/
theorem evctl_follows_example : ∃ s, Runs.run (evctlStep writeBit) (.init false, .init)
      [.schedule ⟨2, by decide⟩ true, .schedule ⟨1, by decide⟩ false, .trigger false,
        .trigger true] = some (s, ⟨2, [(2, true), (1, false)]⟩) ∧
    s.Follows ⟨2, [(2, true), (1, false)]⟩ :=
  evctl_follows writeBit false [.schedule ⟨2, by decide⟩ true, .schedule ⟨1, by decide⟩ false,
    .trigger false, .trigger true] (by decide)

/-- A control that writes the other value triggers the event it has waited for. -/
theorem not_evctl_follows : ¬ ∀ (W A : Type) (write : A → W → WriteEffect W) (world : W)
    (steps : List (EvctlStep W A)),
    ∃ s, Runs.run (evctlStep write) (.init world, .init) steps =
        some (s, steps.foldl EvctlHistory.step .init) ∧
      s.Follows (steps.foldl EvctlHistory.step .init) := by
  intro h
  obtain ⟨s, hrun, -⟩ := h Bool Bool writeBit false
    [.schedule ⟨1, by decide⟩ false, .trigger true]
  cases hrun

end Icarus.Vvp
