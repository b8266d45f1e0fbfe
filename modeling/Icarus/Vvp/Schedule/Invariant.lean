import Icarus.Vvp.Schedule.Move

/-!
# What holds throughout a run

The log accounts for every event: what has run together with what is pending is
what was scheduled, each at its due time. The regions that a phase has passed
stay empty, which is what lets a time cell be released without losing an event.
-/

namespace Icarus.Vvp.Schedule

open Icarus.Core Icarus.Core.DeltaList

/-- A world whose queues are lists. -/
abbrev ListWorld := World Unit (List EventId)

/-- The time cells agree with the place in the loop. -/
structure Shape (s : ListSim) : Prop where
  /-- No two cells share a time. -/
  spaced : Spaced s.queue.schedList
  /-- Below the top of the loop the first cell is the current time. -/
  current : s.phase ≠ .loop → ∃ ctim rest, s.queue.schedList = ctim :: rest ∧ ctim.delay = 0
  /-- The regions already passed are empty. -/
  emptied : ∀ ctim rest, s.queue.schedList = ctim :: rest → ctim.delay = 0 →
    ∀ r ∈ s.phase.emptied, ctim.payload r = []

/-- The invariant of a run. -/
structure Inv (w : ListWorld) : Prop where
  /-- What ran and what is pending is what was scheduled, with its due time. -/
  account : ((w.executed.map fun x => (x.event, x.elapsed)) ++
    pending w.elapsed w.sim.queue.schedList).Perm
      (w.scheduled.map fun x => (x.event, x.elapsed + x.delay))
  /-- Events are scheduled once. -/
  nodup : (w.scheduled.map Scheduled.event).Nodup
  /-- `schedule_time` is the elapsed time in 64 bits. -/
  clock : w.sim.scheduleTime = w.elapsed % 2 ^ 64
  /-- So it was at every call. -/
  scheduledClock : ∀ x ∈ w.scheduled, x.time = x.elapsed % 2 ^ 64
  /-- So it was at every event run. -/
  executedClock : ∀ x ∈ w.executed, x.time = x.elapsed % 2 ^ 64
  /-- Events ran in order of time. -/
  sorted : (w.executed.map Executed.elapsed).Pairwise (· ≤ ·)
  /-- No event ran in the future. -/
  past : ∀ x ∈ w.executed, x.elapsed ≤ w.elapsed
  /-- The time cells agree with the place in the loop. -/
  shape : Shape w.sim

/-- An untouched scheduler satisfies the invariant. -/
theorem Inv.initial : Inv (World.initial ()) := by
  constructor <;> simp [World.initial]
  constructor <;> simp [Spaced]

/-! ## Calls -/

private theorem spaced_setQueue (before after : List (EventTime (List EventId)))
    (ctim : EventTime (List EventId)) (r : EventQueue) (xs : List EventId)
    (h : Spaced (before ++ ctim :: after)) : Spaced (before ++ setQueue ctim r xs :: after) := by
  cases before with
  | nil => exact h
  | cons c before =>
    intro d hd
    rcases List.mem_append.mp hd with hm | hm
    · exact h d (List.mem_append_left _ hm)
    · rcases List.mem_cons.mp hm with rfl | hm
      · exact h ctim (List.mem_append_right _ (by simp))
      · exact h d (List.mem_append_right _ (List.mem_cons_of_mem _ hm))

/-- An allowed call puts nothing into a region already passed. -/
theorem Call.Allowed.not_mem_emptied {phase : Phase} {c : Call} (h : c.Allowed phase)
    (hd : c.delay = 0) : c.selectQueue ∉ phase.emptied := by
  obtain ⟨_, hstart, hro, hdel⟩ := h
  have hne : c.selectQueue ≠ .start := fun he => by
    have := hstart he
    omega
  cases phase with
  | loop => simpa [Phase.emptied] using hne
  | start => simp [Phase.emptied]
  | rosync => simpa [Phase.emptied, hne] using hro rfl hd
  | delThread =>
    rw [hdel rfl hd]
    decide

private theorem scheduleEvent_cells (q : Queue Unit (List EventId)) (cur : EventId) (delay : Nat)
    (r : EventQueue) :
    (scheduleEvent (Fifo.lists EventId) q cur delay r).schedList =
      let l := locate (fun _ => []) q.schedList delay
      l.before ++ setQueue l.ctim r (l.ctim.payload r ++ [cur]) :: l.after := rfl

/-- `schedule_event_` keeps the shape when its region has not been passed. -/
theorem Shape.scheduleEvent {s : ListSim} (h : Shape s) (cur : EventId) (delay : Nat)
    (r : EventQueue) (hr : delay = 0 → r ∉ s.phase.emptied) :
    Shape { s with queue := scheduleEvent (Fifo.lists EventId) s.queue cur delay r } := by
  have hspaced := spaced_locate (fun _ => ([] : List EventId)) s.queue.schedList delay h.spaced
  rcases locate_cases (fun _ => ([] : List EventId)) s.queue.schedList delay with
    ⟨hnew, after, hl⟩ | ⟨ctim, rest, hcells, ⟨hd, hl⟩ | ⟨hd, before, hl⟩⟩
  · have hloop : s.phase = .loop := by
      by_contra hne
      obtain ⟨ctim, rest, hcells, hz⟩ := h.current hne
      rcases hnew with hnil | ⟨ctim', rest', hcells', hlt⟩
      · rw [hnil] at hcells
        cases hcells
      · rw [hcells] at hcells'
        cases hcells'
        omega
    constructor
    · rw [hl] at hspaced
      simpa only [scheduleEvent_cells, hl, Located.cells] using
        spaced_setQueue [] _ _ r _ hspaced
    · intro hne
      exact absurd hloop hne
    · intro c cs hc hz x hx
      simp only [scheduleEvent_cells, hl, List.nil_append, List.cons.injEq] at hc
      obtain ⟨rfl, rfl⟩ := hc
      have hz' : delay = 0 := hz
      have hne : x ≠ r := fun he => hr hz' (he ▸ hx)
      simp [setQueue, Function.update, hne]
  · constructor
    · rw [hl] at hspaced
      simpa only [scheduleEvent_cells, hl, Located.cells] using
        spaced_setQueue [] _ _ r _ hspaced
    · intro hne
      obtain ⟨c, cs, hc, hz⟩ := h.current hne
      rw [hcells] at hc
      cases hc
      refine ⟨setQueue ctim r (ctim.payload r ++ [cur]), rest, ?_, hz⟩
      simp only [scheduleEvent_cells, hl, List.nil_append]
    · intro c cs hc hz x hx
      simp only [scheduleEvent_cells, hl, List.nil_append, List.cons.injEq] at hc
      obtain ⟨rfl, rfl⟩ := hc
      have hz' : ctim.delay = 0 := hz
      have hne : x ≠ r := fun he => hr (hd ▸ hz') (he ▸ hx)
      simpa [setQueue, Function.update, hne] using h.emptied ctim rest hcells hz' x hx
  · constructor
    · simpa only [scheduleEvent_cells, Located.cells] using spaced_setQueue _ _ _ r _ hspaced
    · intro hne
      obtain ⟨c, cs, hc, hz⟩ := h.current hne
      rw [hcells] at hc
      cases hc
      let l := locate (fun _ => ([] : List EventId)) s.queue.schedList delay
      refine ⟨ctim, before ++ setQueue l.ctim r (l.ctim.payload r ++ [cur]) :: l.after, ?_, hz⟩
      simp only [scheduleEvent_cells, hl, List.cons_append, l]
    · intro c cs hc hz
      simp only [scheduleEvent_cells, hl, List.cons_append, List.cons.injEq] at hc
      obtain ⟨rfl, rfl⟩ := hc
      exact h.emptied ctim rest hcells hz

/-- `schedule_event_push_` keeps the shape when the active region has not been passed. -/
theorem Shape.scheduleEventPush {s : ListSim} (h : Shape s) (cur : EventId)
    (hr : .active ∉ s.phase.emptied) :
    Shape { s with queue := scheduleEventPush (Fifo.lists EventId) s.queue cur } := by
  have hslow := h.scheduleEvent cur 0 .active (fun _ => hr)
  obtain ⟨⟨heap, cells⟩, time, phase⟩ := s
  cases cells with
  | nil => exact hslow
  | cons ctim rest =>
    by_cases hpos : 0 < ctim.delay
    · simpa only [Schedule.scheduleEventPush, hpos, if_true] using hslow
    · have hz : ctim.delay = 0 := by omega
      simp only [Schedule.scheduleEventPush, hpos, if_false, Fifo.lists]
      constructor
      · exact spaced_setQueue [] _ _ .active _ h.spaced
      · intro _
        exact ⟨_, _, rfl, hz⟩
      · intro c cs hc _ x hx
        obtain ⟨rfl, rfl⟩ := List.cons.inj hc
        have hne : x ≠ .active := fun he => hr (he ▸ hx)
        simpa [setQueue, Function.update, hne] using h.emptied ctim rest rfl hz x hx

/-- Every call adds its event at its due time. -/
theorem pending_perform (c : Call) (t : Nat) (q : Queue Unit (List EventId)) (cur : EventId) :
    (pending t (c.perform (Fifo.lists EventId) q cur).schedList).Perm
      ((cur, t + c.delay) :: pending t q.schedList) := by
  cases c with
  | event delay r => exact pending_scheduleEvent t q cur delay r
  | nbassign delay =>
    simpa only [Call.perform, scheduleNbassign_eq, Call.delay] using
      pending_scheduleEvent t q cur delay .nbassign
  | eventPush => exact pending_scheduleEventPush t q cur
  | vthreadListReady =>
    simpa only [Call.perform, scheduleVthreadListReady_eq, Call.delay] using
      pending_scheduleEvent t q cur 0 .active

/-- Every allowed call keeps the shape. -/
theorem Shape.perform {s : ListSim} (h : Shape s) (c : Call) (cur : EventId)
    (hc : c.Allowed s.phase) :
    Shape { s with queue := c.perform (Fifo.lists EventId) s.queue cur } := by
  have hr := hc.not_mem_emptied
  cases c with
  | event delay r => exact h.scheduleEvent cur delay r hr
  | nbassign delay =>
    simpa only [Call.perform, scheduleNbassign_eq] using
      h.scheduleEvent cur delay .nbassign hr
  | eventPush => exact h.scheduleEventPush cur (hr rfl)
  | vthreadListReady =>
    simpa only [Call.perform, scheduleVthreadListReady_eq] using
      h.scheduleEvent cur 0 .active hr

/-- An allowed call keeps the invariant. -/
theorem Inv.call {w w' : ListWorld} {cur : EventId} {c : Call} (h : Inv w)
    (hc : w.call (Fifo.lists EventId) cur c = some w') : Inv w' := by
  unfold World.call at hc
  split_ifs at hc with hok
  obtain ⟨hfresh, hallowed⟩ := hok
  cases hc
  constructor
  · rw [List.map_append]
    refine (List.Perm.append_left _ (pending_perform c w.elapsed w.sim.queue cur)).trans ?_
    refine List.perm_middle.trans ?_
    refine (List.Perm.cons _ h.account).trans ?_
    exact (List.perm_append_singleton _ _).symm
  · rw [List.map_append, List.nodup_append]
    refine ⟨h.nodup, by simp, ?_⟩
    rintro a ha b hb rfl
    obtain rfl : a = cur := by simpa using hb
    exact hfresh ha
  · exact h.clock
  · intro x hx
    rcases List.mem_append.mp hx with hx | hx
    · exact h.scheduledClock x hx
    · obtain rfl := List.mem_singleton.mp hx
      exact h.clock
  · exact h.executedClock
  · exact h.sorted
  · exact h.past
  · exact h.shape.perform c cur hallowed

/-! ## Steps -/

private theorem events_eq_nil {p : EventQueue → List EventId} (h : ∀ r, p r = []) :
    events p = [] := by
  simp [events, h]

/-- A step keeps the shape. -/
theorem Shape.move {s s' : ListSim} {out : Option EventId} (h : Shape s) (hm : Move s out s') :
    Shape s' := by
  cases hm with
  | advance ctim rest hcells hphase hdelay =>
    refine ⟨?_, fun _ => ⟨_, _, rfl, rfl⟩, by simp [Phase.emptied]⟩
    have := h.spaced
    rw [hcells] at this
    exact this
  | run ctim rest r e xs p hcells hdelay hr hearlier hevents hemptied =>
    refine ⟨?_, ?_, ?_⟩
    · have := h.spaced
      rw [hcells] at this
      exact this
    · intro hne
      obtain ⟨c, cs, hc, hz⟩ := h.current hne
      rw [hcells] at hc
      cases hc
      exact ⟨_, _, rfl, hz⟩
    · intro c cs hc hz x hx
      obtain ⟨rfl, rfl⟩ := List.cons.inj hc
      exact (hemptied x hx).trans (h.emptied ctim rest hcells hz x hx)
  | turn ctim rest hcells hphase hdelay hemptied =>
    have hz : ctim.delay = 0 := by
      by_cases hloop : s.phase = .loop
      · exact hdelay hloop
      · obtain ⟨c, cs, hc, hz⟩ := h.current hloop
        rw [hcells] at hc
        cases hc
        exact hz
    refine ⟨?_, fun _ => ⟨_, _, rfl, hz⟩, ?_⟩
    · rw [← hcells]
      exact h.spaced
    · intro c cs hc _ x hx
      obtain ⟨rfl, rfl⟩ := List.cons.inj hc
      rcases hemptied x hx with hx | hx
      · exact h.emptied ctim rest hcells hz x hx
      · exact hx
  | retire ctim rest hcells hphase hempty =>
    have hs := h.spaced
    rw [hcells] at hs
    have hpos : ∀ c ∈ rest, 0 < c.delay := hs
    refine ⟨fun c hc => hpos c (List.mem_of_mem_tail hc), by simp, ?_⟩
    intro c cs hc hz
    obtain rfl : rest = c :: cs := hc
    have := hpos c (by simp)
    omega

private theorem pending_cons_zero {ctim : EventTime (List EventId)}
    {rest : List (EventTime (List EventId))} (t : Nat) (hz : ctim.delay = 0) :
    pending t (ctim :: rest) = (events ctim.payload).map (fun e => (e, t)) ++ pending t rest := by
  rw [pending_cons, hz, Nat.add_zero]

/-- Unless the clock moves, the first cell is the current time. -/
theorem advance_zero {s : ListSim} {ctim : EventTime (List EventId)}
    {rest : List (EventTime (List EventId))} (h : Shape s)
    (hcells : s.queue.schedList = ctim :: rest) (hdelay : s.phase = .loop → ctim.delay = 0) :
    ctim.delay = 0 ∧ s.advance = 0 := by
  by_cases hloop : s.phase = .loop
  · exact ⟨hdelay hloop, by simp [Sim.advance, hloop, hcells, hdelay hloop]⟩
  · obtain ⟨c, cs, hc, hz⟩ := h.current hloop
    rw [hcells] at hc
    cases hc
    refine ⟨hz, ?_⟩
    unfold Sim.advance
    cases hp : s.phase with
    | loop => exact absurd hp hloop
    | start | rosync | delThread => rfl

/-- A step moves the clock and takes the event it runs off the pending events. -/
theorem pending_move {s s' : ListSim} {out : Option EventId} (t : Nat) (h : Shape s)
    (hm : Move s out s') :
    ((out.toList.map fun e => (e, t + s.advance)) ++
      pending (t + s.advance) s'.queue.schedList).Perm (pending t s.queue.schedList) := by
  cases hm with
  | advance ctim rest hcells hphase hdelay =>
    have ha : s.advance = ctim.delay := by simp [Sim.advance, hphase, hcells]
    rw [ha, hcells, pending_cons_zero _ rfl, pending_cons]
    exact List.Perm.refl _
  | run ctim rest r e xs p hcells hdelay hr hearlier hevents hemptied =>
    obtain ⟨hz, ha⟩ := advance_zero h hcells hdelay
    rw [ha, hcells, Nat.add_zero, pending_cons_zero t hz, pending_cons_zero t (by exact hz)]
    have hmap := (hevents.map fun e => (e, t)).append_right (pending t rest)
    simpa using hmap
  | turn ctim rest hcells hphase hdelay hemptied =>
    obtain ⟨_, ha⟩ := advance_zero h hcells hdelay
    rw [ha, hcells]
    exact List.Perm.refl _
  | retire ctim rest hcells hphase hempty =>
    obtain ⟨hz, ha⟩ := advance_zero h hcells (by simp [hphase])
    have hnil : events ctim.payload = [] := by
      refine events_eq_nil fun r => ?_
      by_cases hr : r = .delThread
      · exact hr ▸ hempty
      · refine h.emptied ctim rest hcells hz r ?_
        rw [hphase]
        cases r <;> first | decide | exact absurd rfl hr
    rw [ha, hcells, pending_cons_zero t hz, hnil]
    exact List.Perm.refl _

/-- A step changes `schedule_time` as it changes the elapsed time, in 64 bits. -/
theorem clock_move {s s' : ListSim} {out : Option EventId} {t : Nat} (h : Shape s)
    (hm : Move s out s') (ht : s.scheduleTime = t % 2 ^ 64) :
    s'.scheduleTime = (t + s.advance) % 2 ^ 64 := by
  cases hm with
  | advance ctim rest hcells hphase hdelay =>
    have ha : s.advance = ctim.delay := by simp [Sim.advance, hphase, hcells]
    simp only [ht, ha, Nat.mod_add_mod]
  | run ctim rest r e xs p hcells hdelay hr hearlier hevents hemptied =>
    rw [(advance_zero h hcells hdelay).2]
    exact ht
  | turn ctim rest hcells hphase hdelay hemptied =>
    rw [(advance_zero h hcells hdelay).2]
    exact ht
  | retire ctim rest hcells hphase hempty =>
    rw [(advance_zero h hcells (by simp [hphase])).2]
    exact ht

/-- A step of the simulation loop keeps the invariant. -/
theorem Inv.step {w w' : ListWorld} (h : Inv w) (hs : w.step (Fifo.lists EventId) = some w') :
    Inv w' := by
  obtain ⟨⟨out, sim⟩, hstep, rfl⟩ := Option.map_eq_some_iff.mp hs
  have hm := step_move hstep
  have hclock := clock_move h.shape hm h.clock
  have hnew : ∀ x ∈ out.toList.map
      (fun e => (⟨e, sim.scheduleTime, w.elapsed + w.sim.advance⟩ : Executed)),
      x.time = sim.scheduleTime ∧ x.elapsed = w.elapsed + w.sim.advance := by
    intro x hx
    obtain ⟨e, _, rfl⟩ := List.mem_map.mp hx
    exact ⟨rfl, rfl⟩
  constructor
  · refine List.Perm.trans ?_ h.account
    rw [List.map_append, List.append_assoc, List.map_map]
    exact List.Perm.append_left _ (pending_move w.elapsed h.shape hm)
  · exact h.nodup
  · exact hclock
  · exact h.scheduledClock
  · intro x hx
    rcases List.mem_append.mp hx with hx | hx
    · exact h.executedClock x hx
    · obtain ⟨ht, he⟩ := hnew x hx
      rw [ht, he]
      exact hclock
  · rw [List.map_append, List.pairwise_append]
    refine ⟨h.sorted, ?_, ?_⟩
    · cases out <;> simp
    · intro a ha b hb
      obtain ⟨x, hx, rfl⟩ := List.mem_map.mp ha
      obtain ⟨y, hy, rfl⟩ := List.mem_map.mp hb
      have := h.past x hx
      rw [(hnew y hy).2]
      omega
  · intro x hx
    rcases List.mem_append.mp hx with hx | hx
    · exact Nat.le_add_right_of_le (h.past x hx)
    · exact (hnew x hx).2.le
  · exact h.shape.move hm

/-- Every action keeps the invariant. -/
theorem Inv.act {w w' : ListWorld} {a : Action} (h : Inv w)
    (ha : w.act (Fifo.lists EventId) a = some w') : Inv w' := by
  cases a with
  | call cur c => exact h.call ha
  | step => exact h.step ha

/-- The invariant holds after every run. -/
theorem Inv.run {w w' : ListWorld} {as : List Action} (h : Inv w)
    (hr : w.run (Fifo.lists EventId) as = some w') : Inv w' := by
  induction as generalizing w with
  | nil =>
    cases hr
    exact h
  | cons a as ih =>
    obtain ⟨v, hv, hr⟩ := Option.bind_eq_some_iff.mp hr
    exact ih (h.act hv) hr

/-! ## Regions in order, and the loop runs out

An event runs only when every earlier region of its time step is empty. Left to
itself the loop uses up a measure of pending events, time cells and phases, so it
reaches an empty `sched_list`, and there everything scheduled has run. -/

/-- An event runs from a region only after all earlier regions of the time step. -/
theorem Move.in_order {s s' : ListSim} {e : EventId} (h : Shape s) (hm : Move s (some e) s') :
    ∃ ctim rest r xs, s.queue.schedList = ctim :: rest ∧ ctim.payload r = e :: xs ∧
      ∀ x ∈ r.earlier, ctim.payload x = [] := by
  cases hm with
  | run ctim rest r _ xs p hcells hdelay hr hearlier hevents hemptied =>
    refine ⟨ctim, rest, r, xs, hcells, hr, ?_⟩
    intro x hx
    rcases hearlier x hx with hx | hx
    · exact h.emptied ctim rest hcells (advance_zero h hcells hdelay).1 x hx
    · exact hx

/-! ## Termination -/

/-- How much of a time step is left to go through. -/
def Sim.rank {H Q : Type} (s : Sim H Q) : Nat :=
  match s.phase with
  | .loop => if s.advance = 0 then 3 else 5
  | .start => 4
  | .rosync => 2
  | .delThread => 1

/-- A bound on the number of steps the loop makes by itself. -/
def World.work (w : ListWorld) : Nat :=
  (pending w.elapsed w.sim.queue.schedList).length + 6 * w.sim.queue.schedList.length + w.sim.rank

private theorem rank_le {H Q : Type} (s : Sim H Q) : s.rank ≤ 5 := by
  unfold Sim.rank
  cases s.phase with
  | loop =>
    simp only
    split_ifs <;> omega
  | start | rosync | delThread => simp

/-- A step of the loop uses up some of the bound. -/
theorem Inv.work_lt {w w' : ListWorld} (h : Inv w) (hs : w.step (Fifo.lists EventId) = some w') :
    w'.work < w.work := by
  obtain ⟨⟨out, sim⟩, hstep, rfl⟩ := Option.map_eq_some_iff.mp hs
  have hm := step_move hstep
  have hlen := (pending_move w.elapsed h.shape hm).length_eq
  rw [List.length_append, List.length_map] at hlen
  unfold World.work
  simp only
  cases hm with
  | advance ctim rest hcells hphase hdelay =>
    have ha : w.sim.advance = ctim.delay := by simp [Sim.advance, hphase, hcells]
    have hne : ¬ ctim.delay = 0 := by omega
    simp only [hcells, Option.toList, List.length_nil, Nat.zero_add, List.length_cons, Sim.rank,
      hphase, ha, hne, if_false] at hlen ⊢
    omega
  | run ctim rest r e xs p hcells hdelay hr hearlier hevents hemptied =>
    obtain ⟨hz, ha⟩ := advance_zero h.shape hcells hdelay
    have hrank : Sim.rank ⟨⟨(), { ctim with payload := p } :: rest⟩, w.sim.scheduleTime,
        w.sim.phase⟩ = w.sim.rank := by
      unfold Sim.rank
      cases hp : w.sim.phase <;> simp [Sim.advance, hp, hcells, hz]
    simp only [hcells, Option.toList, List.length_cons, List.length_nil, hrank] at hlen ⊢
    omega
  | turn ctim rest hcells hphase hdelay hemptied =>
    obtain ⟨hz, ha⟩ := advance_zero h.shape hcells hdelay
    have hrank : Sim.rank ⟨⟨(), ctim :: rest⟩, w.sim.scheduleTime, w.sim.phase.next⟩ <
        w.sim.rank := by
      unfold Sim.rank
      rw [ha]
      cases hp : w.sim.phase with
      | loop | start | rosync => simp [Phase.next, Sim.advance, hz]
      | delThread => exact absurd hp hphase
    simp only [hcells, Option.toList, List.length_nil, Nat.zero_add, List.length_cons] at hlen ⊢
    omega
  | retire ctim rest hcells hphase hempty =>
    have hle := rank_le (⟨⟨(), rest⟩, w.sim.scheduleTime, .loop⟩ : ListSim)
    simp only [hcells, Option.toList, List.length_nil, Nat.zero_add, List.length_cons] at hlen ⊢
    omega

/-- The loop makes a step as long as there is a time cell. -/
theorem step_isSome {H Q : Type} (impl : Fifo EventId H Q) (s : Sim H Q)
    (h : s.queue.schedList ≠ []) : (step impl s).isSome := by
  obtain ⟨ctim, rest, hcells⟩ := List.exists_cons_of_ne_nil h
  unfold step
  rw [hcells]
  cases hp : s.phase with
  | loop =>
    by_cases hd : 0 < ctim.delay <;> simp [hd]
  | start | rosync | delThread => rfl

private theorem run_steps {H Q : Type} (impl : Fifo EventId H Q) {w v w' : World H Q} {n : Nat}
    (hv : w.step impl = some v) (hr : v.run impl (List.replicate n .step) = some w') :
    w.run impl (List.replicate (n + 1) .step) = some w' := by
  rw [List.replicate_succ]
  exact Option.bind_eq_some_iff.mpr ⟨v, hv, hr⟩

private theorem step_scheduled {H Q : Type} (impl : Fifo EventId H Q) {w v : World H Q}
    (hv : w.step impl = some v) : v.scheduled = w.scheduled := by
  obtain ⟨x, _, rfl⟩ := Option.map_eq_some_iff.mp hv
  rfl

/-- Without further calls the loop reaches an empty `sched_list`. -/
theorem Inv.drains {w : ListWorld} (h : Inv w) :
    ∃ n w', w.run (Fifo.lists EventId) (List.replicate n .step) = some w' ∧
      w'.sim.queue.schedList = [] ∧ w'.scheduled = w.scheduled := by
  induction hk : w.work using Nat.strong_induction_on generalizing w with
  | _ k ih =>
    by_cases hnil : w.sim.queue.schedList = []
    · exact ⟨0, w, rfl, hnil, rfl⟩
    · have hsome : (w.step (Fifo.lists EventId)).isSome := by
        simpa [World.step] using step_isSome (Fifo.lists EventId) w.sim hnil
      obtain ⟨v, hs⟩ := Option.isSome_iff_exists.mp hsome
      obtain ⟨n, w', hr, hnil', hsched⟩ := ih _ (hk ▸ h.work_lt hs) (h.step hs) rfl
      exact ⟨n + 1, w', run_steps _ hs hr, hnil', hsched.trans (step_scheduled _ hs)⟩

/-! ## Accounting -/

/-- No event runs twice, and none runs that was not scheduled. -/
theorem Inv.executed_nodup {w : ListWorld} (h : Inv w) :
    (w.executed.map Executed.event).Nodup := by
  have hp := h.account.map Prod.fst
  rw [List.map_append, List.map_map, List.map_map] at hp
  exact (List.nodup_append.mp (hp.nodup_iff.mpr h.nodup)).1

/-- Every event that runs was scheduled and runs at its due time. -/
theorem Inv.executed_due {w : ListWorld} (h : Inv w) {x : Executed} (hx : x ∈ w.executed) :
    ∃ y ∈ w.scheduled, y.event = x.event ∧ x.elapsed = y.elapsed + y.delay := by
  have hm : (x.event, x.elapsed) ∈ w.scheduled.map fun y => (y.event, y.elapsed + y.delay) := by
    refine h.account.mem_iff.mp (List.mem_append_left _ ?_)
    exact List.mem_map.mpr ⟨x, hx, rfl⟩
  obtain ⟨y, hy, he⟩ := List.mem_map.mp hm
  exact ⟨y, hy, congrArg Prod.fst he, (congrArg Prod.snd he).symm⟩

/-- When `sched_list` has run out, what ran is what was scheduled. -/
theorem Inv.complete {w : ListWorld} (h : Inv w) (hnil : w.sim.queue.schedList = []) :
    (w.executed.map Executed.event).Perm (w.scheduled.map Scheduled.event) := by
  have hp := h.account.map Prod.fst
  rw [hnil, pending_nil, List.append_nil, List.map_map, List.map_map] at hp
  exact hp

end Icarus.Vvp.Schedule
