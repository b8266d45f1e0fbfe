import Icarus.Vvp.Schedule.Insertion
import Icarus.Vvp.Schedule.Simulate

/-!
# What one step of the loop can do

Read over lists, a step of `schedule_simulate` advances the clock, runs the first
event of a region, begins the next phase or releases the time cell. `Move` says
so once; whatever holds throughout a run follows its four cases.
-/

namespace Icarus.Vvp.Schedule

open Icarus.Core Icarus.Core.DeltaList

/-- A scheduler whose queues are lists. -/
abbrev ListSim := Sim Unit (List EventId)

/-- The regions that have run out for good in the current cell. -/
def Phase.emptied : Phase → List EventQueue
  | .loop => [.start]
  | .start => []
  | .rosync => .start :: EventQueue.readWrite
  | .delThread => .start :: .rosync :: EventQueue.readWrite

/-- The regions served before `r` in a time step. -/
def EventQueue.earlier (r : EventQueue) : List EventQueue :=
  EventQueue.all.takeWhile (fun x => decide (x ≠ r))

/-! ## Promotion -/

/-- The regions after `r` has been moved into an empty active region. -/
def moved (p : EventQueue → List EventId) (r : EventQueue) : EventQueue → List EventId :=
  if r = .active then p else Function.update (Function.update p .active (p r)) r []

private theorem refill_eq (p : EventQueue → List EventId) (r : EventQueue) (hr : r ≠ .active) :
    refill (Fifo.lists EventId) p r = if p .active = [] then moved p r else p := by
  unfold refill moved
  by_cases ha : p .active = []
  · simp [Fifo.lists, ha, hr]
  · simp [Fifo.lists, ha]

private theorem moved_nil {p : EventQueue → List EventId} {r : EventQueue}
    (ha : p .active = []) (hr : p r = []) : moved p r = p := by
  unfold moved
  by_cases h : r = .active
  · simp only [h, if_true]
  · simp only [h, if_false]
    rw [hr, Function.update_eq_self_iff.mpr, Function.update_eq_self_iff.mpr ha.symm]
    rw [Function.update_eq_self_iff.mpr ha.symm]
    exact hr.symm

private theorem moved_active (p : EventQueue → List EventId) (r : EventQueue) :
    moved p r .active = p r := by
  unfold moved
  by_cases h : r = .active
  · simp only [h, if_true]
  · simp [h, Function.update, Ne.symm h]

/-- The first nonempty read-write region becomes active; without one nothing changes. -/
theorem promote_cases (p : EventQueue → List EventId) :
    (∃ r ∈ EventQueue.readWrite, p r ≠ [] ∧ (∀ x ∈ r.earlier, x ≠ .start → p x = []) ∧
        promote (Fifo.lists EventId) p = moved p r) ∨
      ((∀ r ∈ EventQueue.readWrite, p r = []) ∧ promote (Fifo.lists EventId) p = p) := by
  have hfix : ∀ q : EventQueue → List EventId, q .active ≠ [] → ∀ r, r ≠ .active →
      refill (Fifo.lists EventId) q r = q := by
    intro q hq r hr
    rw [refill_eq q r hr]
    simp only [hq, if_false]
  have hmove : ∀ r, r ≠ .active → p .active = [] →
      refill (Fifo.lists EventId) p r = moved p r := by
    intro r hr ha
    rw [refill_eq p r hr]
    simp only [ha, if_true]
  unfold promote
  by_cases ha : p .active = []
  · by_cases hi : p .inactive = []
    · rw [hmove .inactive (by decide) ha, moved_nil ha hi]
      by_cases hn : p .nbassign = []
      · rw [hmove .nbassign (by decide) ha, moved_nil ha hn, hmove .rwsync (by decide) ha]
        by_cases hw : p .rwsync = []
        · rw [moved_nil ha hw]
          exact Or.inr ⟨by simp [EventQueue.readWrite, ha, hi, hn, hw], rfl⟩
        · exact Or.inl ⟨.rwsync, by decide, hw,
            by simp [EventQueue.earlier, EventQueue.all, ha, hi, hn], rfl⟩
      · rw [hmove .nbassign (by decide) ha, hfix _ (by rwa [moved_active]) .rwsync (by decide)]
        exact Or.inl ⟨.nbassign, by decide, hn,
          by simp [EventQueue.earlier, EventQueue.all, ha, hi], rfl⟩
    · have hne : moved p .inactive .active ≠ [] := by rwa [moved_active]
      rw [hmove .inactive (by decide) ha, hfix _ hne .nbassign (by decide),
        hfix _ hne .rwsync (by decide)]
      exact Or.inl ⟨.inactive, by decide, hi,
        by simp [EventQueue.earlier, EventQueue.all, ha], rfl⟩
  · rw [hfix p ha .inactive (by decide), hfix p ha .nbassign (by decide),
      hfix p ha .rwsync (by decide)]
    exact Or.inl ⟨.active, by decide, ha, by simp [EventQueue.earlier, EventQueue.all], rfl⟩

/-- A move loses no event. -/
private theorem events_moved {p : EventQueue → List EventId} {r : EventQueue}
    (h : r = .active ∨ p .active = []) : (events (moved p r)).Perm (events p) := by
  unfold moved
  by_cases hr : r = .active
  · simp only [hr, if_true]
    exact List.Perm.refl _
  · have ha : p .active = [] := h.resolve_left hr
    simp only [hr, if_false]
    rw [List.perm_iff_count]
    intro e
    cases r <;> simp_all [events, EventQueue.all, Function.update] <;> omega

private theorem active_or_nil {p : EventQueue → List EventId} {r : EventQueue}
    (hrw : r ∈ EventQueue.readWrite) (h : ∀ x ∈ r.earlier, x ≠ .start → p x = []) :
    r = .active ∨ p .active = [] := by
  by_cases hr : r = .active
  · exact Or.inl hr
  · refine Or.inr (h .active ?_ (by decide))
    cases r <;> simp_all [EventQueue.readWrite, EventQueue.earlier, EventQueue.all]

/-- Promotion loses no event. -/
theorem events_promote (p : EventQueue → List EventId) :
    (events (promote (Fifo.lists EventId) p)).Perm (events p) := by
  rcases promote_cases p with ⟨r, hrw, _, hearlier, hp⟩ | ⟨_, hp⟩
  · rw [hp]
    exact events_moved (active_or_nil hrw hearlier)
  · rw [hp]

/-! ## What one step can do -/

/-- The phase that follows once a loop has found its region empty. -/
def Phase.next : Phase → Phase
  | .loop => .rosync
  | .start => .loop
  | .rosync => .delThread
  | .delThread => .loop

/-- Everything a step of the simulation loop can do. -/
inductive Move (s : ListSim) : Option EventId → ListSim → Prop
  /-- The clock moves to the first cell. -/
  | advance (ctim rest) (hcells : s.queue.schedList = ctim :: rest) (hphase : s.phase = .loop)
      (hdelay : 0 < ctim.delay) :
      Move s none ⟨⟨(), { ctim with delay := 0 } :: rest⟩,
        (s.scheduleTime + ctim.delay) % 2 ^ 64, .start⟩
  /-- The first event of a region runs; every earlier region has run out. -/
  | run (ctim rest r e xs p) (hcells : s.queue.schedList = ctim :: rest)
      (hdelay : s.phase = .loop → ctim.delay = 0) (hr : ctim.payload r = e :: xs)
      (hearlier : ∀ x ∈ r.earlier, x ∈ s.phase.emptied ∨ ctim.payload x = [])
      (hevents : (e :: events p).Perm (events ctim.payload))
      (hemptied : ∀ x ∈ s.phase.emptied, p x = ctim.payload x) :
      Move s (some e) ⟨⟨(), { ctim with payload := p } :: rest⟩, s.scheduleTime, s.phase⟩
  /-- The next phase begins. -/
  | turn (ctim rest) (hcells : s.queue.schedList = ctim :: rest) (hphase : s.phase ≠ .delThread)
      (hdelay : s.phase = .loop → ctim.delay = 0)
      (hemptied : ∀ x ∈ s.phase.next.emptied, x ∈ s.phase.emptied ∨ ctim.payload x = []) :
      Move s none ⟨⟨(), ctim :: rest⟩, s.scheduleTime, s.phase.next⟩
  /-- The time cell is released. -/
  | retire (ctim rest) (hcells : s.queue.schedList = ctim :: rest) (hphase : s.phase = .delThread)
      (hempty : ctim.payload .delThread = []) :
      Move s none ⟨⟨(), rest⟩, s.scheduleTime, .loop⟩

theorem pull_lists (heap : Unit) (ctim : EventTime (List EventId))
    (rest : List (EventTime (List EventId))) (r : EventQueue) :
    pull (Fifo.lists EventId) heap ctim rest r =
      match ctim.payload r with
      | [] => none
      | e :: xs => some (e, ⟨(), setQueue ctim r xs :: rest⟩) := by
  unfold pull
  cases ctim.payload r <;> rfl

/-- A region loop either runs the region's first event or leaves the region. -/
private theorem move_serve {s : ListSim} {ctim : EventTime (List EventId)}
    {rest : List (EventTime (List EventId))} (r : EventQueue)
    (hcells : s.queue.schedList = ctim :: rest) (hdelay : s.phase = .loop → ctim.delay = 0)
    (hearlier : ∀ x ∈ r.earlier, x ∈ s.phase.emptied ∨ ctim.payload x = [])
    (hr : r ∉ s.phase.emptied) {e : EventId} {xs : List EventId}
    (hxs : ctim.payload r = e :: xs) :
    Move s (some e) ⟨⟨(), setQueue ctim r xs :: rest⟩, s.scheduleTime, s.phase⟩ := by
  refine Move.run ctim rest r e xs _ hcells hdelay hxs hearlier (events_update_remove hxs) ?_
  intro x hx
  have hne : x ≠ r := fun h => hr (h ▸ hx)
  simp [Function.update, hne]

/-- Every step is one of the moves. -/
theorem step_move {s s' : ListSim} {out : Option EventId}
    (h : step (Fifo.lists EventId) s = some (out, s')) : Move s out s' := by
  obtain ⟨⟨heap, cells⟩, time, phase⟩ := s
  cases cells with
  | nil => simp [step] at h
  | cons ctim rest =>
    cases phase with
    | loop =>
      by_cases hd : 0 < ctim.delay
      · simp only [step, hd, if_true, Option.some.injEq, Prod.mk.injEq] at h
        obtain ⟨rfl, rfl⟩ := h
        exact Move.advance ctim rest rfl rfl hd
      · have hz : ctim.delay = 0 := by omega
        simp only [step, hd, if_false, pull_lists, Option.some.injEq] at h
        rcases promote_cases ctim.payload with ⟨r, hrw, hne, hearlier, hp⟩ | ⟨hrw, hp⟩
        · obtain ⟨e, xs, hxs⟩ := List.exists_cons_of_ne_nil hne
          simp only [hp, moved_active, hxs, serve, Prod.mk.injEq] at h
          obtain ⟨rfl, rfl⟩ := h
          have hevents := (events_update_remove (moved_active ctim.payload r ▸ hxs)).trans
            (events_moved (active_or_nil hrw hearlier))
          refine Move.run ctim rest r e xs _ rfl (fun _ => hz) hxs ?_ hevents ?_
          · intro x hx
            by_cases hs : x = .start
            · exact Or.inl (by simp [Phase.emptied, hs])
            · exact Or.inr (hearlier x hx hs)
          · intro x hx
            obtain rfl : x = .start := by simpa [Phase.emptied] using hx
            cases r <;> simp_all [EventQueue.readWrite, moved, Function.update]
        · simp only [hp, hrw .active (by decide), serve, Prod.mk.injEq] at h
          obtain ⟨rfl, rfl⟩ := h
          refine Move.turn ctim rest rfl (by simp) (fun _ => hz) ?_
          intro x hx
          rcases List.mem_cons.mp hx with rfl | hx
          · exact Or.inl (by simp [Phase.emptied])
          · exact Or.inr (hrw x hx)
    | start =>
      simp only [step, pull_lists, Option.some.injEq] at h
      cases hxs : ctim.payload .start with
      | nil =>
        simp only [hxs, serve, Prod.mk.injEq] at h
        obtain ⟨rfl, rfl⟩ := h
        refine Move.turn ctim rest rfl (by simp) (by simp) ?_
        simpa [Phase.next, Phase.emptied] using hxs
      | cons e xs =>
        simp only [hxs, serve, Prod.mk.injEq] at h
        obtain ⟨rfl, rfl⟩ := h
        have hout : EventQueue.start ∉ Phase.start.emptied := by decide
        exact move_serve .start rfl (by simp) (by simp [EventQueue.earlier, EventQueue.all])
          hout hxs
    | rosync =>
      simp only [step, pull_lists, Option.some.injEq] at h
      cases hxs : ctim.payload .rosync with
      | nil =>
        simp only [hxs, serve, Prod.mk.injEq] at h
        obtain ⟨rfl, rfl⟩ := h
        refine Move.turn ctim rest rfl (by simp) (by simp) ?_
        intro x hx
        by_cases hro : x = .rosync
        · exact Or.inr (hro ▸ hxs)
        · refine Or.inl ?_
          simpa [Phase.next, Phase.emptied, hro] using hx
      | cons e xs =>
        simp only [hxs, serve, Prod.mk.injEq] at h
        obtain ⟨rfl, rfl⟩ := h
        have hall : ∀ x ∈ EventQueue.rosync.earlier, x ∈ Phase.rosync.emptied := by decide
        have hout : EventQueue.rosync ∉ Phase.rosync.emptied := by decide
        exact move_serve .rosync rfl (by simp) (fun x hx => Or.inl (hall x hx)) hout hxs
    | delThread =>
      simp only [step, pull_lists, Option.some.injEq] at h
      cases hxs : ctim.payload .delThread with
      | nil =>
        simp only [hxs, serve, Prod.mk.injEq] at h
        obtain ⟨rfl, rfl⟩ := h
        exact Move.retire ctim rest rfl rfl hxs
      | cons e xs =>
        simp only [hxs, serve, Prod.mk.injEq] at h
        obtain ⟨rfl, rfl⟩ := h
        have hall : ∀ x ∈ EventQueue.delThread.earlier, x ∈ Phase.delThread.emptied := by decide
        have hout : EventQueue.delThread ∉ Phase.delThread.emptied := by decide
        exact move_serve .delThread rfl (by simp) (fun x hx => Or.inl (hall x hx)) hout hxs

end Icarus.Vvp.Schedule
