import Icarus.Vvp.Schedule.Queue
import Mathlib.Data.List.Perm.Basic

/-!
# What an insertion does to the queue

The walk of `schedule_event_` opens the list at absolute time `delay` and moves
no event. Read over lists, an insertion therefore adds exactly one pair of event
and due time to the pending events, keeps the current cell current, and leaves
no two cells at one time.
-/

namespace Icarus.Vvp.Schedule

open Icarus.Core Icarus.Core.DeltaList

/-! ## The walk -/

section Walk

variable {β : Type} (empty : β)

private theorem span_settle (ctim : Cell β) (rest : List (Cell β)) (delay : Nat) :
    span (settle empty ctim rest delay).before + (settle empty ctim rest delay).ctim.delay =
      delay := by
  unfold settle
  split_ifs with hlt heq
  · simp
  · simpa using heq
  · simp only [span_cons, span_nil]
    omega

private theorem span_walk (ctim : Cell β) (rest : List (Cell β)) (delay : Nat) :
    span (walk empty ctim rest delay).before + (walk empty ctim rest delay).ctim.delay =
      delay := by
  induction rest generalizing ctim delay with
  | nil => exact span_settle empty ctim [] delay
  | cons next rest ih =>
    simp only [walk]
    by_cases hlt : ctim.delay < delay
    · simp only [hlt, if_true, span_cons]
      have := ih next (delay - ctim.delay)
      omega
    · simp only [hlt, if_false]
      exact span_settle empty ctim (next :: rest) delay

/-- The receiving cell lies `delay` time units from now. -/
theorem span_locate (cells : List (Cell β)) (delay : Nat) :
    span (locate empty cells delay).before + (locate empty cells delay).ctim.delay = delay := by
  cases cells with
  | nil => simp [locate]
  | cons ctim rest =>
    by_cases hlt : delay < ctim.delay
    · simp [locate, hlt]
    · simpa only [locate, hlt, if_false] using span_walk empty ctim rest delay

variable {δ : Type} (f : Nat × β → List δ) (hf : ∀ u, f (u, empty) = [])
include hf

private theorem flatMap_settle (t : Nat) (ctim : Cell β) (rest : List (Cell β)) (delay : Nat)
    (hrest : delay ≤ ctim.delay ∨ rest = []) :
    (absolute t (settle empty ctim rest delay).cells).flatMap f =
      (absolute t (ctim :: rest)).flatMap f := by
  unfold settle
  split_ifs with hlt heq
  · rw [Located.cells, List.nil_append, absolute_split t delay empty ctim rest (by omega)]
    simp [hf]
  · rfl
  · obtain rfl : rest = [] := by
      rcases hrest with h | h
      · omega
      · exact h
    simp [Located.cells, hf]

private theorem flatMap_walk (t : Nat) (ctim : Cell β) (rest : List (Cell β)) (delay : Nat) :
    (absolute t (walk empty ctim rest delay).cells).flatMap f =
      (absolute t (ctim :: rest)).flatMap f := by
  induction rest generalizing t ctim delay with
  | nil => exact flatMap_settle empty f hf t ctim [] delay (Or.inr rfl)
  | cons next rest ih =>
    simp only [walk]
    by_cases hlt : ctim.delay < delay
    · simp only [hlt, if_true]
      have := ih (t + ctim.delay) next (delay - ctim.delay)
      simp only [Located.cells, List.cons_append, absolute_cons, List.flatMap_cons] at this ⊢
      rw [this]
    · simp only [hlt, if_false]
      exact flatMap_settle empty f hf t ctim (next :: rest) delay (Or.inl (by omega))

/-- Opening the list changes nothing that ignores empty cells. -/
theorem flatMap_locate (t : Nat) (cells : List (Cell β)) (delay : Nat) :
    (absolute t (locate empty cells delay).cells).flatMap f = (absolute t cells).flatMap f := by
  cases cells with
  | nil => simp [locate, Located.cells, hf]
  | cons ctim rest =>
    by_cases hlt : delay < ctim.delay
    · have hs := flatMap_settle empty f hf t ctim rest delay (Or.inl (by omega))
      simpa only [settle, locate, hlt, if_true] using hs
    · simpa only [locate, hlt, if_false] using flatMap_walk empty f hf t ctim rest delay

end Walk

section Spacing

variable {β : Type} (empty : β)

private theorem pos_walk (ctim : Cell β) (rest : List (Cell β)) (delay : Nat)
    (hpos : ∀ c ∈ ctim :: rest, 0 < c.delay) (hd : 0 < delay) :
    ∀ c ∈ (walk empty ctim rest delay).cells, 0 < c.delay := by
  induction rest generalizing ctim delay with
  | nil =>
    have hc := hpos ctim (by simp)
    intro c hm
    simp only [walk, settle] at hm
    split_ifs at hm with hlt heq <;> simp only [Located.cells, List.mem_append, List.mem_cons,
      List.not_mem_nil, or_false, false_or] at hm
    · rcases hm with rfl | rfl
      · exact hd
      · simp only
        omega
    · exact hm ▸ hc
    · rcases hm with rfl | rfl
      · exact hc
      · simp only
        omega
  | cons next rest ih =>
    have hc := hpos ctim (by simp)
    have hrest : ∀ c ∈ next :: rest, 0 < c.delay :=
      fun c hm => hpos c (List.mem_cons_of_mem _ hm)
    intro c hm
    simp only [walk] at hm
    by_cases hlt : ctim.delay < delay
    · simp only [hlt, if_true, Located.cells, List.cons_append] at hm
      rcases List.mem_cons.mp hm with rfl | hm
      · exact hc
      · exact ih next (delay - ctim.delay) hrest (by omega) c hm
    · simp only [hlt, if_false, settle] at hm
      split_ifs at hm with hlt' heq
      · simp only [Located.cells, List.nil_append] at hm
        rcases List.mem_cons.mp hm with rfl | hm
        · exact hd
        · rcases List.mem_cons.mp hm with rfl | hm
          · simp only
            omega
          · exact hrest c hm
      · exact hpos c (by simpa [Located.cells] using hm)
      · omega

/-- An insertion never leaves two cells at one time. -/
theorem spaced_locate (cells : List (Cell β)) (delay : Nat) (h : Spaced cells) :
    Spaced (locate empty cells delay).cells := by
  cases cells with
  | nil => simp [locate, Located.cells, Spaced]
  | cons ctim rest =>
    have hrest : ∀ c ∈ rest, 0 < c.delay := h
    by_cases hlt : delay < ctim.delay
    · intro c hm
      simp only [locate, hlt, if_true, Located.cells, List.nil_append, List.tail_cons] at hm
      rcases List.mem_cons.mp hm with rfl | hm
      · simp only
        omega
      · exact hrest c hm
    · simp only [locate, hlt, if_false]
      cases rest with
      | nil =>
        intro c hm
        simp only [walk, settle, hlt, if_false] at hm
        split_ifs at hm with heq
        · simp [Located.cells] at hm
        · obtain rfl : c = ⟨delay - ctim.delay, empty⟩ := by simpa [Located.cells] using hm
          simp only
          omega
      | cons next rest =>
        by_cases hgt : ctim.delay < delay
        · simp only [walk, hgt, if_true]
          intro c hm
          exact pos_walk empty next rest (delay - ctim.delay) hrest (by omega) c hm
        · intro c hm
          have heq : ctim.delay = delay := by omega
          simp only [walk, settle, heq, if_false, if_true, Located.cells, List.nil_append,
            lt_irrefl] at hm
          exact hrest c hm

/-- Where the first cell comes from: it is new, it receives the event, or it is passed. -/
theorem locate_cases (cells : List (Cell β)) (delay : Nat) :
    (((cells = [] ∨ ∃ ctim rest, cells = ctim :: rest ∧ delay < ctim.delay) ∧
        ∃ after, locate empty cells delay = ⟨[], ⟨delay, empty⟩, after⟩) ∨
      ∃ ctim rest, cells = ctim :: rest ∧
        ((ctim.delay = delay ∧ locate empty cells delay = ⟨[], ctim, rest⟩) ∨
          (ctim.delay < delay ∧
            ∃ before, (locate empty cells delay).before = ctim :: before))) := by
  cases cells with
  | nil => exact Or.inl ⟨Or.inl rfl, [], rfl⟩
  | cons ctim rest =>
    by_cases hlt : delay < ctim.delay
    · exact Or.inl ⟨Or.inr ⟨ctim, rest, rfl, hlt⟩,
        { ctim with delay := ctim.delay - delay } :: rest, by simp only [locate, hlt, if_true]⟩
    · refine Or.inr ⟨ctim, rest, rfl, ?_⟩
      by_cases heq : ctim.delay = delay
      · refine Or.inl ⟨heq, ?_⟩
        cases rest <;> simp [locate, walk, settle, heq]
      · have hgt : ctim.delay < delay := by omega
        refine Or.inr ⟨hgt, ?_⟩
        cases rest with
        | nil => exact ⟨[], by simp [locate, walk, settle, hlt, heq]⟩
        | cons next rest =>
          exact ⟨(walk empty next rest (delay - ctim.delay)).before,
            by simp only [locate, walk, hlt, hgt, if_true, if_false]⟩

end Spacing

/-! ## Pending events -/

/-- The events of a time cell, region by region. -/
def events (p : EventQueue → List EventId) : List EventId := EventQueue.all.flatMap p

/-- Every queued event with its due time, for a list of cells that starts at time `t`. -/
def pending (t : Nat) (cells : List (EventTime (List EventId))) : List (EventId × Nat) :=
  (absolute t cells).flatMap fun x => (events x.2).map fun e => (e, x.1)

@[simp] theorem pending_nil (t : Nat) : pending t [] = [] := rfl

theorem pending_cons (t : Nat) (c : EventTime (List EventId))
    (cs : List (EventTime (List EventId))) :
    pending t (c :: cs) =
      (events c.payload).map (fun e => (e, t + c.delay)) ++ pending (t + c.delay) cs := by
  simp [pending]

theorem pending_append (t : Nat) (xs ys : List (EventTime (List EventId))) :
    pending t (xs ++ ys) = pending t xs ++ pending (t + span xs) ys := by
  simp [pending, absolute_append]

theorem mem_events {p : EventQueue → List EventId} {e : EventId} :
    e ∈ events p ↔ ∃ r, e ∈ p r := by
  simp only [events, List.mem_flatMap]
  exact ⟨fun ⟨r, _, hr⟩ => ⟨r, hr⟩, fun ⟨r, hr⟩ => ⟨r, r.mem_all, hr⟩⟩

/-- Replacing one region exchanges exactly its events. -/
theorem events_update (p : EventQueue → List EventId) (r : EventQueue) (xs : List EventId) :
    (events (Function.update p r xs) ++ p r).Perm (events p ++ xs) := by
  rw [List.perm_iff_count]
  intro e
  cases r <;> simp [events, EventQueue.all, Function.update] <;> omega

/-- Adding one event to a region adds it to the cell. -/
theorem events_update_add {p : EventQueue → List EventId} {r : EventQueue} {xs : List EventId}
    {e : EventId} (h : xs.Perm (e :: p r)) :
    (events (Function.update p r xs)).Perm (e :: events p) := by
  have hu := events_update p r xs
  have hc : (events p ++ xs).Perm ((e :: events p) ++ p r) := by
    refine (List.Perm.append_left _ h).trans ?_
    simp
  exact (List.perm_append_right_iff _).mp (hu.trans hc)

/-- Removing one event from a region removes it from the cell. -/
theorem events_update_remove {p : EventQueue → List EventId} {r : EventQueue}
    {xs : List EventId} {e : EventId} (h : p r = e :: xs) :
    (e :: events (Function.update p r xs)).Perm (events p) := by
  have hu := events_update p r xs
  rw [h] at hu
  have hc : (events (Function.update p r xs) ++ e :: xs).Perm
      ((e :: events (Function.update p r xs)) ++ xs) := by
    simp
  exact (List.perm_append_right_iff _).mp (hc.symm.trans hu)

theorem pending_locate (t : Nat) (cells : List (EventTime (List EventId)))
    (delay : Nat) :
    pending t (locate (fun _ => []) cells delay).cells = pending t cells := by
  refine flatMap_locate (fun _ => []) _ ?_ t cells delay
  intro u
  simp [events]

/-- `schedule_event_` adds exactly the new event, due `delay` after the current time. -/
theorem pending_scheduleEvent (t : Nat) (s : Queue Unit (List EventId)) (cur : EventId)
    (delay : Nat) (r : EventQueue) :
    (pending t (scheduleEvent (Fifo.lists EventId) s cur delay r).schedList).Perm
      ((cur, t + delay) :: pending t s.schedList) := by
  rw [← pending_locate t s.schedList delay]
  let l := locate (fun _ => ([] : List EventId)) s.schedList delay
  have hspan : span l.before + l.ctim.delay = delay := span_locate _ s.schedList delay
  change (pending t (l.before ++ setQueue l.ctim r (l.ctim.payload r ++ [cur]) :: l.after)).Perm
    ((cur, t + delay) :: pending t (l.before ++ l.ctim :: l.after))
  simp only [pending_append, pending_cons, setQueue]
  have he : (events (Function.update l.ctim.payload r (l.ctim.payload r ++ [cur]))).Perm
      (cur :: events l.ctim.payload) := events_update_add (by simp)
  have hm := he.map fun e => (e, t + span l.before + l.ctim.delay)
  rw [List.map_cons, Nat.add_assoc t, hspan] at hm
  rw [Nat.add_assoc t, hspan]
  refine (List.Perm.append_left _ (hm.append_right _)).trans ?_
  simp

/-- `schedule_event_push_` adds exactly the new event, due now. -/
theorem pending_scheduleEventPush (t : Nat) (s : Queue Unit (List EventId)) (cur : EventId) :
    (pending t (scheduleEventPush (Fifo.lists EventId) s cur).schedList).Perm
      ((cur, t) :: pending t s.schedList) := by
  obtain ⟨heap, cells⟩ := s
  cases cells with
  | nil => exact pending_scheduleEvent t _ cur 0 .active
  | cons ctim rest =>
    by_cases hpos : 0 < ctim.delay
    · simpa only [scheduleEventPush, hpos, if_true, Nat.add_zero] using
        pending_scheduleEvent t ⟨heap, ctim :: rest⟩ cur 0 .active
    · have hz : ctim.delay = 0 := by omega
      simp only [scheduleEventPush, pending_cons, setQueue, Fifo.lists, hz, lt_irrefl, if_false,
        Nat.add_zero]
      have he := events_update_add (p := ctim.payload) (r := .active) (e := cur)
        (List.Perm.refl (cur :: ctim.payload .active))
      exact (he.map _).append_right _

end Icarus.Vvp.Schedule
