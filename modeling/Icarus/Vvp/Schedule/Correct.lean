import Icarus.Vvp.Schedule.Refinement

/-!
# The scheduler over circular lists

The pointer code of `schedule.cc` runs every scheduled event once, at its due
time and region by region. The due time is exact in unwrapped time and holds in
64 bits of `schedule_time`, which can wrap.
-/

namespace Icarus.Vvp.Schedule

open Icarus.Core Icarus.Core.DeltaList

/-- A world whose regions are circular lists threaded through `event_s::next`. -/
abbrev RingWorld := World (EventId → EventId) (Option EventId)

/-- What the scheduler guarantees of the log of a run and of its last state. -/
structure Faithful (w : RingWorld) : Prop where
  /-- No event is executed twice. -/
  once : (w.executed.map Executed.event).Nodup
  /-- An executed event was scheduled, and is executed its delay later. -/
  due : ∀ x ∈ w.executed, ∃ y ∈ w.scheduled, y.event = x.event ∧
    x.elapsed = y.elapsed + y.delay ∧ x.time = (y.time + y.delay) % 2 ^ 64
  /-- Exact execution times never decrease. -/
  sorted : (w.executed.map Executed.elapsed).Pairwise (· ≤ ·)
  /-- Neither does `schedule_time`, before its first wrap. -/
  sortedTime : w.elapsed < 2 ^ 64 → (w.executed.map Executed.time).Pairwise (· ≤ ·)
  /-- The event that is executed next comes from the first nonempty region. -/
  ordered : ∀ e s, step (Fifo.rings EventId) w.sim = some (some e, s) →
    ∃ ctim rest r xs, w.sim.queue.schedList = ctim :: rest ∧
      Ring.Rep w.sim.queue.heap (ctim.payload r) (e :: xs) ∧
      ∀ x ∈ r.earlier, ctim.payload x = none
  /-- When nothing is left, every scheduled event has been executed. -/
  complete : w.sim.queue.schedList = [] →
    (w.executed.map Executed.event).Perm (w.scheduled.map Scheduled.event)
  /-- The loop by itself gets there. -/
  drains : ∃ n w', w.run (Fifo.rings EventId) (List.replicate n .step) = some w' ∧
    w'.sim.queue.schedList = [] ∧
    (w'.executed.map Executed.event).Perm (w.scheduled.map Scheduled.event)

section Transfer

variable {w : RingWorld} {v : ListWorld}

private theorem due_of_rel (h : WorldRel (Fifo.ringSimulation EventId) w v) (hi : Inv v)
    {x : Executed} (hx : x ∈ w.executed) :
    ∃ y ∈ w.scheduled, y.event = x.event ∧
      x.elapsed = y.elapsed + y.delay ∧ x.time = (y.time + y.delay) % 2 ^ 64 := by
  rw [h.executed] at hx
  obtain ⟨y, hy, he, hdue⟩ := hi.executed_due hx
  refine ⟨y, h.scheduled ▸ hy, he, hdue, ?_⟩
  rw [hi.executedClock x hx, hi.scheduledClock y hy, hdue, Nat.mod_add_mod]

private theorem sortedTime_of_rel (h : WorldRel (Fifo.ringSimulation EventId) w v) (hi : Inv v)
    (hlt : w.elapsed < 2 ^ 64) : (w.executed.map Executed.time).Pairwise (· ≤ ·) := by
  have heq : w.executed.map Executed.time = w.executed.map Executed.elapsed := by
    refine List.map_congr_left fun x hx => ?_
    rw [h.executed] at hx
    have hpast := hi.past x hx
    rw [← h.elapsed] at hpast
    rw [hi.executedClock x hx, Nat.mod_eq_of_lt (by omega)]
  rw [heq, h.executed]
  exact hi.sorted

private theorem ordered_of_rel (h : WorldRel (Fifo.ringSimulation EventId) w v) (hi : Inv v)
    {e : EventId} {s : Sim (EventId → EventId) (Option EventId)}
    (hs : step (Fifo.rings EventId) w.sim = some (some e, s)) :
    ∃ ctim rest r xs, w.sim.queue.schedList = ctim :: rest ∧
      Ring.Rep w.sim.queue.heap (ctim.payload r) (e :: xs) ∧
      ∀ x ∈ r.earlier, ctim.payload x = none := by
  have hrel := h.sim.step hi.distinct
  rw [hs] at hrel
  generalize hy : step (Fifo.lists EventId) v.sim = y at hrel
  cases hrel with
  | @some _ y hxy =>
    obtain ⟨out, t⟩ := y
    obtain rfl : some e = out := hxy.1
    obtain ⟨d, ds, r, xs, hcells, hr, hearlier⟩ := (step_move hy).in_order hi.shape
    have hq : List.Forall₂ _ _ _ := h.sim.queue
    rw [hcells] at hq
    obtain ⟨c, cs, hc, hs, hw⟩ := List.forall₂_cons_right_iff.mp hq
    refine ⟨c, cs, r, xs, hw, ?_, ?_⟩
    · have := hc.payload r
      rwa [hr] at this
    · intro x hx
      have := hc.payload x
      rw [hearlier x hx] at this
      exact Ring.Rep.eq_none_iff this |>.mpr rfl

private theorem drains_of_rel (h : WorldRel (Fifo.ringSimulation EventId) w v) (hi : Inv v) :
    ∃ n w', w.run (Fifo.rings EventId) (List.replicate n .step) = some w' ∧
      w'.sim.queue.schedList = [] ∧
      (w'.executed.map Executed.event).Perm (w.scheduled.map Scheduled.event) := by
  obtain ⟨n, v', hrun, hnil, hsched⟩ := hi.drains
  have hrel := h.run hi (List.replicate n .step)
  rw [hrun] at hrel
  generalize hw : w.run (Fifo.rings EventId) (List.replicate n .step) = o at hrel
  cases hrel with
  | @some w' _ hrel =>
    have hq : List.Forall₂ _ _ _ := hrel.sim.queue
    rw [hnil] at hq
    refine ⟨n, w', hw, List.forall₂_nil_right_iff.mp hq, ?_⟩
    rw [hrel.executed, h.scheduled, ← hsched]
    exact (hi.run hrun).complete hnil

/-- A world read as a list world that satisfies the invariant is faithful. -/
theorem faithful_of_rel (h : WorldRel (Fifo.ringSimulation EventId) w v) (hi : Inv v) :
    Faithful w where
  once := by
    rw [h.executed]
    exact hi.executed_nodup
  due x hx := due_of_rel h hi hx
  sorted := by
    rw [h.executed]
    exact hi.sorted
  sortedTime hlt := sortedTime_of_rel h hi hlt
  ordered e s hs := ordered_of_rel h hi hs
  complete hnil := by
    have hq : List.Forall₂ _ _ _ := h.sim.queue
    rw [hnil] at hq
    rw [h.executed, h.scheduled]
    exact hi.complete (List.forall₂_nil_left_iff.mp hq)
  drains := drains_of_rel h hi

end Transfer

/-- Every run of calls and loop steps, from an empty scheduler, is faithful. -/
theorem schedule_simulate_faithful (heap : EventId → EventId) (as : List Action) (w : RingWorld)
    (h : (World.initial heap).run (Fifo.rings EventId) as = some w) : Faithful w := by
  have hrel := (WorldRel.initial (S := Fifo.ringSimulation EventId) heap).run Inv.initial as
  rw [h] at hrel
  generalize hv : (World.initial ()).run (Fifo.lists EventId) as = o at hrel
  cases hrel with
  | some hrel => exact faithful_of_rel hrel (Inv.initial.run hv)

/-- A run that schedules from a running event, in several regions and ahead in time. -/
theorem schedule_simulate_faithful_example :
    ∃ w, (World.initial (fun e => e)).run (Fifo.rings EventId)
        [.call 0 (.event 0 .active), .step, .call 1 (.event 0 .inactive), .call 2 (.nbassign 3),
          .call 3 .vthreadListReady, .step, .step] = some w ∧ Faithful w :=
  ⟨_, rfl, schedule_simulate_faithful (fun e => e)
    [.call 0 (.event 0 .active), .step, .call 1 (.event 0 .inactive), .call 2 (.nbassign 3),
      .call 3 .vthreadListReady, .step, .step] _ rfl⟩

/-- `schedule_time` wraps: an event one unit after time 2^64 - 1 is executed at time zero. -/
theorem schedule_time_wraps :
    ∃ w, (World.initial (fun e => e)).run (Fifo.rings EventId)
        [.call 0 (.event (2 ^ 64 - 1) .active), .step, .step, .step, .call 1 (.event 1 .active),
          .step, .step, .step, .step, .step, .step] = some w ∧
      w.scheduled = [⟨0, 0, 0, 2 ^ 64 - 1⟩, ⟨1, 2 ^ 64 - 1, 2 ^ 64 - 1, 1⟩] ∧
      w.executed = [⟨0, 2 ^ 64 - 1, 2 ^ 64 - 1⟩, ⟨1, 0, 2 ^ 64⟩] ∧
      ¬ (w.executed.map Executed.time).Pairwise (· ≤ ·) :=
  ⟨_, rfl, rfl, rfl, by decide⟩

/-- Both short paths leave the pointers and cells that `schedule_event_` leaves. -/
theorem short_paths_eq_schedule_event (s : Queue (EventId → EventId) (Option EventId))
    (cur : EventId) (delay : Nat) :
    scheduleNbassign (Fifo.rings EventId) s cur delay =
        scheduleEvent (Fifo.rings EventId) s cur delay .nbassign ∧
      scheduleVthreadListReady (Fifo.rings EventId) s cur =
        scheduleEvent (Fifo.rings EventId) s cur 0 .active :=
  ⟨scheduleNbassign_eq (Fifo.rings EventId) s cur delay,
    scheduleVthreadListReady_eq (Fifo.rings EventId) s cur⟩

end Icarus.Vvp.Schedule
