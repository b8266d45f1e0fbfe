import Icarus.Vvp.Event.Transaction
import Icarus.Vvp.Event.Deliver
import Mathlib.Data.List.Perm.Basic

/-!
# Every transaction delivers once

A transaction is free, collecting, or delivering. The invariant reads this off
the free list and the control stack: outside the free list the counter of a
transaction is the number of functors it still waits for, and what its delivery
has passed on and has yet to pass on is what was deferred.
-/

namespace Icarus.Vvp

open Core

variable {Port Context : Type} [DecidableEq Port] [DecidableEq Context]

/-! ## Frames -/

/-- The transaction a frame delivers. -/
def DeferFrame.delivering : DeferFrame Port Context → Option Nat
  | .deliver t _ => some t
  | _ => none

/-- A frame outside every region. -/
def DeferFrame.Outside : DeferFrame Port Context → Prop
  | .store | .functor (some _) => False
  | .functor none | .deliver _ _ => True

/-- The transactions delivered in a stack. -/
def deliveringIn (stack : List (DeferFrame Port Context)) : List Nat :=
  stack.filterMap DeferFrame.delivering

omit [DecidableEq Port] [DecidableEq Context] in
theorem mem_deliveringIn {stack : List (DeferFrame Port Context)} {t : Nat} :
    t ∈ deliveringIn stack ↔ ∃ events, DeferFrame.deliver t events ∈ stack := by
  rw [deliveringIn, List.mem_filterMap]
  constructor
  · rintro ⟨f, hf, hft⟩
    cases f with
    | store => cases hft
    | functor _ => cases hft
    | deliver u events =>
      obtain rfl : u = t := Option.some.inj hft
      exact ⟨events, hf⟩
  · rintro ⟨events, hf⟩
    exact ⟨_, hf, rfl⟩

/-! ## One transaction -/

namespace EventDefer

/-- The history agrees with the flag and the counter. -/
def Counted (d : EventDefer Port Context) : Prop :=
  d.history.ended = d.sourceDone ∧
    d.history.captured = d.history.left + d.pendingFunctors

/-- Nothing has been delivered, and the events are those deferred. -/
def Collecting (d : EventDefer Port Context) : Prop :=
  d.events = DeferCall.runAll d.history.calls ∧ d.history.delivered = []

/-- Some events are still to be delivered, after those that have been. -/
def Passing (d : EventDefer Port Context) (events : List (DeferredVec4Event Port Context)) :
    Prop :=
  d.sourceDone = true ∧ DeferCall.runAll d.history.calls = d.history.delivered ++ events

end EventDefer

/-- A use of a transaction that is over: it delivered all its events, after everything it waited
for. -/
def DeferHistory.Complete (h : DeferHistory Port Context) : Prop :=
  h.ended = true ∧ h.left = h.captured ∧ h.delivered = DeferCall.runAll h.calls

namespace DeferState

/-! ## The invariant -/

/-- The bookkeeping of the transactions, over the free list `l` and the part `rest` of the control
stack below the innermost stores. -/
structure Kept (s : DeferState Port Context) (l : List Nat)
    (rest : List (DeferFrame Port Context)) : Prop where
  /-- The depth counts the innermost stores. -/
  stack_eq : s.stack = List.replicate s.depth .store ++ rest
  /-- The free list. -/
  chain : Chain (fun t => (s.heap t).nextFree) s.freeEventDefer l
  /-- No transaction is free twice, delivered twice, or both. -/
  nodup : (l ++ deliveringIn rest).Nodup
  /-- These transactions exist. -/
  lt : ∀ t ∈ l ++ deliveringIn rest, t < s.heapSize
  /-- They wait for no functor. -/
  idle : ∀ t ∈ l ++ deliveringIn rest, (s.heap t).pendingFunctors = 0
  /-- The current transaction is another one, and exists. -/
  current : ∀ t, s.current = some t → t < s.heapSize ∧ t ∉ l ++ deliveringIn rest
  /-- The counter counts the captured functors that have not left. -/
  pending : ∀ t, (s.heap t).pendingFunctors =
    s.scheduled.count (some t) + rest.count (.functor (some t))
  /-- No functor waits for a transaction that does not exist. -/
  fresh : ∀ t, s.heapSize ≤ t → (s.heap t).pendingFunctors = 0
  /-- The histories agree with the flags and counters. -/
  counted : ∀ t < s.heapSize, t ∉ l → (s.heap t).Counted
  /-- A transaction that is neither free nor delivered collects events. -/
  collecting : ∀ t < s.heapSize, t ∉ l ++ deliveringIn rest → (s.heap t).Collecting
  /-- A delivery has its events in front of it. -/
  passing : ∀ t events, .deliver t events ∈ rest → (s.heap t).Passing events
  /-- The uses that are over delivered everything. -/
  finished : ∀ h ∈ s.finished, h.Complete
  /-- Every use is over, or its transaction is not free. -/
  allocated : s.allocated + l.length = s.heapSize + s.finished.length

/-- A captured functor is being run. -/
def Running (s : DeferState Port Context) (rest : List (DeferFrame Port Context)) : Prop :=
  ∃ t, rest = [.functor (some t)] ∧ s.current = some t ∧ (s.heap t).sourceDone = true

/-- No captured functor is being run, and a current transaction belongs to the stores. -/
def Quiet (s : DeferState Port Context) (rest : List (DeferFrame Port Context)) : Prop :=
  (∀ f ∈ rest, f.Outside) ∧ ∀ t, s.current = some t → 0 < s.depth ∧ (s.heap t).sourceDone = false

/-- A transaction that is neither free nor delivered is current or waits for functors. -/
def Busy (s : DeferState Port Context) (l : List Nat) (rest : List (DeferFrame Port Context)) :
    Prop :=
  ∀ t < s.heapSize, t ∉ l ++ deliveringIn rest →
    s.current = some t ∨ (s.heap t).sourceDone = true ∧ 0 < (s.heap t).pendingFunctors

/-- What holds between the steps of a properly nested run. -/
structure Sound (s : DeferState Port Context) (l : List Nat)
    (rest : List (DeferFrame Port Context)) : Prop extends Kept s l rest where
  /-- What is being executed. -/
  control : Running s rest ∨ Quiet s rest
  /-- Nothing is forgotten. -/
  busy : Busy s l rest

theorem init_sound : Sound (init : DeferState Port Context) [] [] where
  stack_eq := rfl
  chain := .nil
  nodup := List.nodup_nil
  lt _ h := absurd h List.not_mem_nil
  idle _ h := absurd h List.not_mem_nil
  current _ h := nomatch h
  pending _ := rfl
  fresh _ _ := rfl
  counted _ h := absurd h (Nat.not_lt_zero _)
  collecting _ h := absurd h (Nat.not_lt_zero _)
  passing _ _ h := absurd h List.not_mem_nil
  finished _ h := absurd h List.not_mem_nil
  allocated := rfl
  control := .inr ⟨fun _ h => absurd h List.not_mem_nil, fun _ h => nomatch h⟩
  busy _ h := absurd h (Nat.not_lt_zero _)

variable {s s' : DeferState Port Context} {l l' : List Nat}
  {rest rest' : List (DeferFrame Port Context)} {t : Nat}

/-! ## Changes of one transaction -/

/-- A change of a transaction that is neither free nor delivered, which keeps it collecting. -/
private theorem Kept.update (h : Kept s l rest) (ht : t ∉ l ++ deliveringIn rest)
    (hlt : t < s.heapSize)
    (hstack : s'.stack = List.replicate s'.depth .store ++ rest')
    (hdelivering : deliveringIn rest' = deliveringIn rest)
    (hpassing : ∀ u events, .deliver u events ∈ rest' → .deliver u events ∈ rest)
    (hother : ∀ u, u ≠ t → s'.heap u = s.heap u) (hsize : s'.heapSize = s.heapSize)
    (hfree : s'.freeEventDefer = s.freeEventDefer) (hfinished : s'.finished = s.finished)
    (hallocated : s'.allocated = s.allocated)
    (hcurrent : ∀ u, s'.current = some u → u < s.heapSize ∧ u ∉ l ++ deliveringIn rest)
    (hpending : ∀ u, (s'.heap u).pendingFunctors =
      s'.scheduled.count (some u) + rest'.count (.functor (some u)))
    (hcounted : (s'.heap t).Counted) (hcollecting : (s'.heap t).Collecting) :
    Kept s' l rest' where
  stack_eq := hstack
  chain := by
    rw [hfree]
    apply h.chain.congr
    intro u hu
    rw [hother u]
    rintro rfl
    exact ht (List.mem_append_left _ hu)
  nodup := hdelivering ▸ h.nodup
  lt := by
    rw [hdelivering, hsize]
    exact h.lt
  idle := by
    intro u hu
    rw [hdelivering] at hu
    rw [hother u]
    · exact h.idle u hu
    · rintro rfl
      exact ht hu
  current := by
    rw [hdelivering, hsize]
    exact hcurrent
  pending := hpending
  fresh := by
    intro u hu
    rw [hsize] at hu
    rw [hother u]
    · exact h.fresh u hu
    · omega
  counted := by
    intro u hu hul
    rcases eq_or_ne u t with rfl | hne
    · exact hcounted
    · rw [hother u hne]
      exact h.counted u (hsize ▸ hu) hul
  collecting := by
    intro u hu hul
    rw [hdelivering] at hul
    rcases eq_or_ne u t with rfl | hne
    · exact hcollecting
    · rw [hother u hne]
      exact h.collecting u (hsize ▸ hu) hul
  passing := by
    intro u events hu
    have hmem := hpassing u events hu
    rw [hother u]
    · exact h.passing u events hmem
    · rintro rfl
      exact ht (List.mem_append_right _ (mem_deliveringIn.mpr ⟨events, hmem⟩))
  finished := by
    rw [hfinished]
    exact h.finished
  allocated := by
    rw [hallocated, hsize, hfinished]
    exact h.allocated

/-! ## Taking a transaction -/

/-- A transaction that is free, or new, becomes the current one. -/
private theorem Sound.take (h : Sound s l rest) (hcurrent : s.current = none)
    (hdepth : s.depth ≠ 0) (hl : ∀ u, u ∈ l ↔ u ∈ l' ∨ u = t ∧ u < s.heapSize)
    (hnot : t ∉ l' ++ deliveringIn rest) (hnodup : l'.Nodup)
    (hpending : (s.heap t).pendingFunctors = 0) {size : Nat}
    (hsize : ∀ u, u < size ↔ u = t ∨ u < s.heapSize) {free : Option Nat}
    (hchain : Chain (fun u => (s.heap u).nextFree) free l')
    (hallocated : s.allocated + 1 + l'.length = size + s.finished.length) :
    Sound { s with
      current := some t
      freeEventDefer := free
      heap := Function.update s.heap t ⟨0, false, [], none, .empty⟩
      heapSize := size
      allocated := s.allocated + 1 } l' rest := by
  have hquiet : ∀ f ∈ rest, f.Outside := by
    rcases h.control with ⟨u, -, hu, -⟩ | hquiet
    · rw [hcurrent] at hu
      cases hu
    · exact hquiet.1
  have hother : ∀ u, u ≠ t →
      Function.update s.heap t ⟨0, false, [], none, .empty⟩ u = s.heap u := by
    intro u hu
    rw [Function.update_of_ne hu]
  have hself : Function.update s.heap t ⟨0, false, [], none, .empty⟩ t =
      ⟨0, false, [], none, .empty⟩ := Function.update_self ..
  have hmem : ∀ u ∈ l' ++ deliveringIn rest, u ∈ l ++ deliveringIn rest := by
    intro u hu
    rcases List.mem_append.mp hu with hu | hu
    · exact List.mem_append_left _ ((hl u).mpr (.inl hu))
    · exact List.mem_append_right _ hu
  have hne : ∀ u ∈ l' ++ deliveringIn rest, u ≠ t := by
    rintro u hu rfl
    exact hnot hu
  have hfree : ∀ u, u ≠ t → u ∉ l' → u ∉ l := by
    intro u hut hu hul
    rcases (hl u).mp hul with hul | ⟨rfl, -⟩
    · exact hu hul
    · exact hut rfl
  have hkeep : ∀ u, u ≠ t → u ∉ l' ++ deliveringIn rest → u ∉ l ++ deliveringIn rest := by
    intro u hut hu hmem
    rcases List.mem_append.mp hmem with hmem | hmem
    · exact hfree u hut (fun hul => hu (List.mem_append_left _ hul)) hmem
    · exact hu (List.mem_append_right _ hmem)
  have hold : ∀ u, u < size → u ≠ t → u < s.heapSize := fun u hu hut =>
    ((hsize u).mp hu).resolve_left hut
  refine ⟨⟨h.stack_eq, ?_, ?_, ?_, ?_, ?_, ?_, ?_, ?_, ?_, ?_, h.finished, hallocated⟩, ?_, ?_⟩
  · apply hchain.congr
    intro u hu
    dsimp only
    rw [hother u (hne u (List.mem_append_left _ hu))]
  · refine List.nodup_append'.mpr ⟨hnodup, (List.nodup_append'.mp h.nodup).2.1, ?_⟩
    intro u hu
    exact (List.nodup_append'.mp h.nodup).2.2 ((hl u).mpr (.inl hu))
  · intro u hu
    exact (hsize u).mpr (.inr (h.lt u (hmem u hu)))
  · intro u hu
    dsimp only
    rw [hother u (hne u hu)]
    exact h.idle u (hmem u hu)
  · intro u hu
    obtain rfl : t = u := Option.some.inj hu
    exact ⟨(hsize t).mpr (.inl rfl), hnot⟩
  · intro u
    rcases eq_or_ne u t with rfl | hut
    · dsimp only
      rw [hself, ← h.pending, hpending]
    · dsimp only
      rw [hother u hut]
      exact h.pending u
  · intro u hu
    have hnlt : ¬ u < size := Nat.not_lt.mpr hu
    rw [hsize, not_or] at hnlt
    dsimp only
    rw [hother u hnlt.1]
    exact h.fresh u (Nat.le_of_not_lt hnlt.2)
  · intro u hu hul
    rcases eq_or_ne u t with rfl | hut
    · dsimp only
      rw [hself]
      exact ⟨rfl, rfl⟩
    · dsimp only
      rw [hother u hut]
      exact h.counted u (hold u hu hut) (hfree u hut hul)
  · intro u hu hul
    rcases eq_or_ne u t with rfl | hut
    · dsimp only
      rw [hself]
      exact ⟨rfl, rfl⟩
    · dsimp only
      rw [hother u hut]
      exact h.collecting u (hold u hu hut) (hkeep u hut hul)
  · intro u events hu
    have hin := List.mem_append_right l' (mem_deliveringIn.mpr ⟨events, hu⟩)
    dsimp only
    rw [hother u (hne u hin)]
    exact h.passing u events hu
  · right
    refine ⟨hquiet, fun u hu => ?_⟩
    obtain rfl : t = u := Option.some.inj hu
    refine ⟨Nat.pos_of_ne_zero hdepth, ?_⟩
    dsimp only
    rw [hself]
  · intro u hu hul
    rcases eq_or_ne u t with rfl | hut
    · exact .inl rfl
    · right
      dsimp only
      rw [hother u hut]
      rcases h.busy u (hold u hu hut) (hkeep u hut hul) with hcur | hwait
      · rw [hcurrent] at hcur
        cases hcur
      · exact hwait

/-- In an active region there is a current transaction after `active_event_defer`. -/
private theorem Sound.activeEventDefer (h : Sound s l rest) (hactive : s.active = true) :
    ∃ l' t, s.activeEventDefer.2 = some t ∧ s.activeEventDefer.1.current = some t ∧
      s.activeEventDefer.1.depth = s.depth ∧ Sound s.activeEventDefer.1 l' rest := by
  rw [DeferState.activeEventDefer]
  split_ifs with hnew
  · rw [allocEventDefer]
    cases hfree : s.freeEventDefer with
    | some t =>
      have hchain := h.chain
      rw [hfree] at hchain
      obtain ⟨l', rfl, hrest⟩ := hchain.exists_eq_cons
      have hnodup := h.nodup
      rw [List.cons_append, List.nodup_cons] at hnodup
      have hlt : t < s.heapSize := h.lt t List.mem_cons_self
      have hallocated := h.allocated
      rw [List.length_cons] at hallocated
      refine ⟨l', t, rfl, rfl, rfl, h.take hnew.1 hnew.2 ?_ hnodup.1 ?_ ?_ ?_ hrest ?_⟩
      · intro u
        rw [List.mem_cons]
        constructor
        · rintro (rfl | hu)
          · exact .inr ⟨rfl, hlt⟩
          · exact .inl hu
        · rintro (hu | ⟨rfl, -⟩)
          · exact .inr hu
          · exact .inl rfl
      · exact (List.nodup_append'.mp hnodup.2).1
      · exact h.idle t List.mem_cons_self
      · intro u
        constructor
        · exact .inr
        · rintro (rfl | hu)
          · exact hlt
          · exact hu
      · change s.allocated + 1 + l'.length = s.heapSize + s.finished.length
        omega
    | none =>
      have hchain := h.chain
      rw [hfree] at hchain
      obtain rfl := hchain.eq_nil
      have hallocated := h.allocated
      refine ⟨[], s.heapSize, rfl, rfl, rfl, h.take hnew.1 hnew.2 ?_ ?_ List.nodup_nil ?_ ?_
        .nil ?_⟩
      · intro u
        constructor
        · intro hu
          exact .inl hu
        · rintro (hu | ⟨rfl, hu⟩)
          · exact hu
          · exact absurd hu (lt_irrefl _)
      · intro hu
        exact lt_irrefl _ (h.lt _ hu)
      · exact h.fresh _ (le_refl _)
      · intro u
        change u < s.heapSize + 1 ↔ _
        rw [Nat.lt_succ_iff_lt_or_eq]
        exact or_comm
      · change s.allocated + 1 + 0 = s.heapSize + 1 + s.finished.length
        rw [List.length_nil] at hallocated
        omega
  · have hsome : s.current ≠ none := by
      rw [active, Bool.or_eq_true, decide_eq_true_eq] at hactive
      intro hnone
      rcases hactive with hdepth | hcur
      · exact hnew ⟨hnone, hdepth⟩
      · rw [hnone] at hcur
        cases hcur
    obtain ⟨t, ht⟩ := Option.ne_none_iff_exists'.mp hsome
    exact ⟨l, t, ht, ht, rfl, h⟩

/-! ## Finishing a transaction -/

/-- The test of `finish_event_defer` after what a transaction waits for has gone down. -/
private theorem Kept.finishEventDefer (h : Kept s l rest) (hdepth : s.depth = 0)
    (hcurrent : s.current = none) (hrest : ∀ f ∈ rest, f.Outside) (hlt : t < s.heapSize)
    (ht : t ∉ l ++ deliveringIn rest) (hdone : (s.heap t).sourceDone = true)
    (hbusy : ∀ u < s.heapSize, u ∉ l ++ deliveringIn rest → u ≠ t →
      (s.heap u).sourceDone = true ∧ 0 < (s.heap u).pendingFunctors) :
    ∃ rest', Sound (s.finishEventDefer t) l rest' := by
  rw [DeferState.finishEventDefer]
  split_ifs with hwait
  · refine ⟨rest, { h with control := .inr ⟨hrest, fun u hu => ?_⟩, busy := fun u hu hul => .inr ?_ }⟩
    · rw [hcurrent] at hu
      cases hu
    · rcases eq_or_ne u t with rfl | hut
      · refine ⟨hdone, Nat.pos_of_ne_zero ?_⟩
        rcases hwait with hwait | hwait
        · rw [hdone] at hwait
          cases hwait
        · exact hwait
      · exact hbusy u hu hul hut
  · rw [not_or, not_not] at hwait
    have hstack := h.stack_eq
    rw [hdepth, List.replicate_zero, List.nil_append] at hstack
    have hself := modify_heap_self s t fun d => { d with events := [] }
    have hother : ∀ u, u ≠ t →
        (s.modify t fun d => { d with events := [] }).heap u = s.heap u := fun u hu =>
      modify_heap_of_ne s hu _
    -- the list of busy transactions grows by the one that is delivered
    have hgrow : ∀ u, u ∈ l ++ t :: deliveringIn rest ↔ u = t ∨ u ∈ l ++ deliveringIn rest := by
      intro u
      simp only [List.mem_append, List.mem_cons]
      tauto
    refine ⟨.deliver t (s.heap t).events :: rest, ?_⟩
    have hdel : deliveringIn (.deliver t (s.heap t).events :: rest) = t :: deliveringIn rest := rfl
    have hkeep : ∀ u, u ∉ l ++ t :: deliveringIn rest → u ≠ t ∧ u ∉ l ++ deliveringIn rest := by
      intro u hu
      rw [hgrow, not_or] at hu
      exact hu
    refine ⟨⟨?_, ?_, ?_, ?_, ?_, ?_, ?_, ?_, ?_, ?_, ?_, h.finished, h.allocated⟩, ?_, ?_⟩
    · rw [hstack]
      change _ = List.replicate s.depth DeferFrame.store ++ _
      rw [hdepth]
      rfl
    · apply h.chain.congr
      intro u hu
      dsimp only
      rw [hother u]
      rintro rfl
      exact ht (List.mem_append_left _ hu)
    · rw [hdel, List.nodup_middle, List.nodup_cons]
      exact ⟨ht, h.nodup⟩
    · intro u hu
      rw [hdel, hgrow] at hu
      rcases hu with rfl | hu
      · exact hlt
      · exact h.lt u hu
    · intro u hu
      rw [hdel, hgrow] at hu
      rcases eq_or_ne u t with rfl | hut
      · dsimp only
        rw [hself]
        exact hwait.2
      · dsimp only
        rw [hother u hut]
        exact h.idle u (hu.resolve_left hut)
    · intro u hu
      change s.current = some u at hu
      rw [hcurrent] at hu
      cases hu
    · intro u
      have hcount : (DeferFrame.deliver t (s.heap t).events :: rest).count (.functor (some u)) =
          rest.count (.functor (some u)) := List.count_cons_of_ne (by rintro ⟨⟩)
      rw [hcount]
      change _ = s.scheduled.count (some u) + _
      rw [← h.pending]
      rcases eq_or_ne u t with rfl | hut
      · dsimp only
        rw [hself]
      · dsimp only
        rw [hother u hut]
    · intro u hu
      change s.heapSize ≤ u at hu
      dsimp only
      rw [hother u (by omega)]
      exact h.fresh u hu
    · intro u hu hul
      have hcounted := h.counted u hu hul
      rcases eq_or_ne u t with rfl | hut
      · dsimp only
        rw [hself]
        exact hcounted
      · dsimp only
        rw [hother u hut]
        exact hcounted
    · intro u hu hul
      rw [hdel] at hul
      obtain ⟨hut, hul⟩ := hkeep u hul
      dsimp only
      rw [hother u hut]
      exact h.collecting u hu hul
    · intro u events hu
      dsimp only
      rcases List.mem_cons.mp hu with heq | hin
      · obtain ⟨rfl, rfl⟩ : u = t ∧ events = (s.heap t).events := by
          cases heq
          exact ⟨rfl, rfl⟩
        obtain ⟨hevents, hnone⟩ := h.collecting u hlt ht
        rw [hself]
        refine ⟨hdone, ?_⟩
        dsimp only
        rw [hnone, hevents, List.nil_append]
      · rw [hother u]
        · exact h.passing u events hin
        · rintro rfl
          exact ht (List.mem_append_right _ (mem_deliveringIn.mpr ⟨events, hin⟩))
    · right
      refine ⟨?_, fun u hu => ?_⟩
      · intro f hf
        rcases List.mem_cons.mp hf with rfl | hf
        · trivial
        · exact hrest f hf
      · change s.current = some u at hu
        rw [hcurrent] at hu
        cases hu
    · intro u hu hul
      rw [hdel] at hul
      obtain ⟨hut, hul⟩ := hkeep u hul
      right
      dsimp only
      rw [hother u hut]
      exact hbusy u hu hul hut

/-! ## Steps in a region -/

private theorem Sound.begin (h : Sound s l rest) :
    Sound { s.vvpEventDeferBegin with stack := .store :: s.stack } l rest := by
  refine { h with stack_eq := ?_, control := ?_ }
  · change _ = List.replicate (s.depth + 1) DeferFrame.store ++ rest
    rw [List.replicate_succ, List.cons_append, ← h.stack_eq]
  · rcases h.control with hrunning | hquiet
    · exact .inl hrunning
    · exact .inr ⟨hquiet.1, fun t ht => ⟨Nat.succ_pos _, (hquiet.2 t ht).2⟩⟩

/-- A change of the current transaction that keeps it waiting for the same functors. -/
private theorem Sound.modify (h : Sound s l rest) (ht : s.current = some t)
    (f : EventDefer Port Context → EventDefer Port Context) (scheduled : List (Option Nat))
    (hdone : (f (s.heap t)).sourceDone = (s.heap t).sourceDone)
    (hpending : ∀ u, ((s.modify t f).heap u).pendingFunctors =
      scheduled.count (some u) + rest.count (.functor (some u)))
    (hcounted : (s.heap t).Counted → (f (s.heap t)).Counted)
    (hcollecting : (s.heap t).Collecting → (f (s.heap t)).Collecting) :
    Sound { s.modify t f with scheduled := scheduled } l rest := by
  obtain ⟨hlt, hnot⟩ := h.current t ht
  have hself := modify_heap_self s t f
  have hother : ∀ u, u ≠ t → (s.modify t f).heap u = s.heap u := fun u hu =>
    modify_heap_of_ne s hu f
  have hl : t ∉ l := fun hl => hnot (List.mem_append_left _ hl)
  have hsame := modify_heap_keeps s EventDefer.sourceDone hdone
  have hkept : Kept { s.modify t f with scheduled := scheduled } l rest := by
    refine h.update hnot hlt h.stack_eq rfl (fun _ _ hu => hu) hother rfl rfl rfl rfl h.current
      hpending ?_ ?_
    · change ((s.modify t f).heap t).Counted
      rw [hself]
      exact hcounted (h.counted t hlt hl)
    · change ((s.modify t f).heap t).Collecting
      rw [hself]
      exact hcollecting (h.collecting t hlt hnot)
  refine { hkept with control := ?_, busy := ?_ }
  · rcases h.control with ⟨u, hu, hcur, hud⟩ | hquiet
    · exact .inl ⟨u, hu, hcur, (hsame u).trans hud⟩
    · exact .inr ⟨hquiet.1, fun u hu => ⟨(hquiet.2 u hu).1, (hsame u).trans (hquiet.2 u hu).2⟩⟩
  · intro u hu hul
    rcases eq_or_ne u t with rfl | hut
    · exact .inl ht
    · rcases h.busy u hu hul with hcur | hwait
      · exact .inl hcur
      · right
        change ((s.modify t f).heap u).sourceDone = true ∧
          0 < ((s.modify t f).heap u).pendingFunctors
        rw [hother u hut]
        exact hwait

private theorem Sound.receive (h : Sound s l rest) (hactive : s.active = true)
    (call : DeferCall Port Context) : ∃ l', Sound (s.vvpEventDefer call).1 l' rest := by
  obtain ⟨l', t, hresult, hcur, -, hsound⟩ := h.activeEventDefer hactive
  rw [vvpEventDefer]
  generalize s.activeEventDefer = r at hresult hcur hsound
  obtain ⟨s, transaction⟩ := r
  dsimp only at hresult hcur hsound
  subst hresult
  refine ⟨l', hsound.modify hcur (fun d => { d with
    events := call.run d.events
    history := { d.history with calls := d.history.calls ++ [call] } }) s.scheduled rfl ?_ id ?_⟩
  · intro u
    rw [← hsound.pending]
    exact modify_heap_keeps s EventDefer.pendingFunctors rfl u
  · rintro ⟨hevents, hnone⟩
    refine ⟨?_, hnone⟩
    dsimp only
    rw [DeferCall.runAll_concat, hevents]

private theorem Sound.schedule (h : Sound s l rest) : ∃ l', Sound s.scheduleFunctor l' rest := by
  rw [scheduleFunctor]
  cases hactive : s.active with
  | false =>
    rw [if_neg (by simp)]
    refine ⟨l, { h with pending := fun u => ?_ }⟩
    change _ = (s.scheduled ++ [none]).count (some u) + _
    rw [List.count_append, List.count_cons_of_ne (by simp), List.count_nil, Nat.add_zero]
    exact h.pending u
  | true =>
    obtain ⟨l', t, hresult, hcur, -, hsound⟩ := h.activeEventDefer hactive
    rw [if_pos rfl, vvpEventDeferCapture]
    generalize s.activeEventDefer = r at hresult hcur hsound
    obtain ⟨s, transaction⟩ := r
    dsimp only at hresult hcur hsound
    subst hresult
    refine ⟨l', hsound.modify hcur (fun d => { d with
      pendingFunctors := d.pendingFunctors + 1
      history := { d.history with captured := d.history.captured + 1 } })
      (s.scheduled ++ [some t]) rfl ?_ ?_ id⟩
    · intro u
      rw [List.count_append]
      have hpending := hsound.pending u
      rcases eq_or_ne u t with rfl | hut
      · rw [modify_heap_self, List.count_cons_self]
        dsimp only
        rw [hpending, List.count_nil]
        omega
      · rw [modify_heap_of_ne s hut,
          List.count_cons_of_ne (by simpa using Ne.symm hut), List.count_nil, Nat.add_zero]
        exact hpending
    · rintro ⟨hended, hcaptured⟩
      refine ⟨hended, ?_⟩
      dsimp only
      rw [hcaptured, Nat.add_assoc]

/-! ## The end of a region -/

/-- The store on top of the stack is one of those the depth counts. -/
private theorem Sound.depth_of_store (h : Sound s l rest) (hhead : s.stack.head? = some .store) :
    0 < s.depth ∧ s.stack.tail = List.replicate (s.depth - 1) .store ++ rest := by
  have hstack := h.stack_eq
  cases hdepth : s.depth with
  | zero =>
    rw [hdepth, List.replicate_zero, List.nil_append] at hstack
    rw [hstack] at hhead
    have hmem : .store ∈ rest := List.mem_of_head? hhead
    rcases h.control with ⟨t, rfl, -⟩ | hquiet
    · cases hhead
    · exact (hquiet.1 _ hmem).elim
  | succ d =>
    rw [hdepth, List.replicate_succ, List.cons_append] at hstack
    rw [hstack]
    exact ⟨Nat.succ_pos d, rfl⟩

private theorem Sound.end (h : Sound s l rest) (hhead : s.stack.head? = some .store) :
    ∃ s' l' rest', { s with stack := s.stack.tail }.vvpEventDeferEnd = some s' ∧
      Sound s' l' rest' := by
  obtain ⟨hdepth, htail⟩ := h.depth_of_store hhead
  have hkept : Kept { s with stack := s.stack.tail, depth := s.depth - 1 } l rest :=
    { h with stack_eq := htail }
  rw [vvpEventDeferEnd, if_neg (Nat.pos_iff_ne_zero.mp hdepth)]
  dsimp only
  split_ifs with hlast
  · obtain ⟨t, ht⟩ := Option.isSome_iff_exists.mp hlast.2
    obtain ⟨hlt, hnot⟩ := h.current t ht
    rw [vvpEventDeferEnd_, ht]
    dsimp only
    rw [if_neg (not_not.mpr hlast.1)]
    split_ifs with hdone
    · -- a functor is being run, its transaction goes on after the store
      refine ⟨_, l, rest, rfl, { hkept with
        current := fun u hu => h.current u (ht.trans hu), control := .inl ?_, busy := ?_ }⟩
      · rcases h.control with ⟨u, hu, hcur, hud⟩ | hquiet
        · exact ⟨u, hu, ht.symm.trans hcur, hud⟩
        · rw [(hquiet.2 t ht).2] at hdone
          cases hdone
      · intro u hu hul
        rw [← ht]
        exact h.busy u hu hul
    · have hquiet : ∀ f ∈ rest, f.Outside := by
        rcases h.control with ⟨u, -, hu, hud⟩ | hquiet
        · obtain rfl : u = t := Option.some.inj (hu.symm.trans ht)
          exact absurd hud hdone
        · exact hquiet.1
      have hl : t ∉ l := fun hl => hnot (List.mem_append_left _ hl)
      obtain ⟨hcounted, hcaptured⟩ := h.counted t hlt hl
      have hended : Kept (DeferState.modify
          { s with stack := s.stack.tail, depth := s.depth - 1, current := none } t fun d =>
            { d with sourceDone := true, history := { d.history with ended := true } }) l rest := by
        refine hkept.update hnot hlt htail rfl (fun _ _ hu => hu)
          (fun u hu => modify_heap_of_ne _ hu _) rfl rfl rfl rfl (fun _ hu => nomatch hu) ?_ ?_ ?_
        · intro u
          rw [modify_heap_keeps _ EventDefer.pendingFunctors rfl]
          exact h.pending u
        · rw [modify_heap_self]
          exact ⟨rfl, hcaptured⟩
        · rw [modify_heap_self]
          exact h.collecting t hlt hnot
      obtain ⟨rest', hsound⟩ := hended.finishEventDefer hlast.1 rfl hquiet hlt hnot
        (by rw [modify_heap_self]) (by
          intro u hu hul hut
          rw [modify_heap_of_ne _ hut]
          rcases h.busy u hu hul with hcur | hwait
          · exact absurd (Option.some.inj (hcur.symm.trans ht)) hut
          · exact hwait)
      exact ⟨_, l, rest', rfl, hsound⟩
  · refine ⟨_, l, rest, rfl, { hkept with control := ?_, busy := h.busy }⟩
    rcases h.control with hrunning | hquiet
    · exact .inl hrunning
    · refine .inr ⟨hquiet.1, fun t ht => ⟨?_, (hquiet.2 t ht).2⟩⟩
      rw [not_and] at hlast
      by_contra hzero
      exact hlast (Nat.eq_zero_of_not_pos hzero) (Option.isSome_iff_exists.mpr ⟨t, ht⟩)

/-! ## Functors -/

/-- With nothing being executed, a functor taken from the schedule. -/
private theorem Sound.run (h : Sound s l rest) (hstack : s.stack = []) {index : Nat}
    (hindex : index < s.scheduled.length) :
    ∃ s' rest', s.exec (.run index) = some s' ∧ Sound s' l rest' := by
  have hempty : s.depth = 0 ∧ rest = [] := by
    have hnil := h.stack_eq.symm.trans hstack
    rw [List.append_eq_nil_iff, List.replicate_eq_nil_iff] at hnil
    exact hnil
  obtain ⟨hdepth, rfl⟩ := hempty
  have hcurrent : s.current = none := by
    cases hcur : s.current with
    | none => rfl
    | some t =>
      rcases h.control with ⟨u, hu, -⟩ | hquiet
      · cases hu
      · have hpos := (hquiet.2 t hcur).1
        omega
  have hperm := List.getElem_cons_eraseIdx_perm hindex
  have hcount : ∀ u, s.scheduled.count (some u) =
      (s.scheduled.eraseIdx index).count (some u) + [s.scheduled[index]].count (some u) := by
    intro u
    rw [← hperm.count_eq, ← List.singleton_append, List.count_append, Nat.add_comm]
  rw [exec, List.getElem?_eq_getElem hindex, Option.join_some]
  cases hfunctor : s.scheduled[index] with
  | none =>
    rw [hfunctor] at hcount
    have hkept : Kept { s with
        scheduled := s.scheduled.eraseIdx index
        stack := .functor none :: s.stack } l [.functor none] := by
      refine { h with stack_eq := ?_, pending := fun u => ?_, passing := ?_ }
      · rw [hstack]
        change _ = List.replicate s.depth DeferFrame.store ++ _
        rw [hdepth]
        rfl
      · have hpending := h.pending u
        rw [hcount u] at hpending
        simpa using hpending
      · rintro u events hu
        simp at hu
    refine ⟨_, _, rfl, { hkept with control := .inr ⟨?_, ?_⟩, busy := h.busy }⟩
    · intro f hf
      obtain rfl := List.mem_singleton.mp hf
      trivial
    · intro u hu
      change s.current = some u at hu
      rw [hcurrent] at hu
      cases hu
  | some t =>
    rw [hfunctor] at hcount
    have hpos : 0 < (s.heap t).pendingFunctors := by
      rw [h.pending, hcount, List.count_singleton_self]
      omega
    have hlt : t < s.heapSize := by
      by_contra hge
      rw [h.fresh t (Nat.le_of_not_lt hge)] at hpos
      exact lt_irrefl 0 hpos
    have hnot : t ∉ l ++ deliveringIn ([] : List (DeferFrame Port Context)) := by
      intro hmem
      rw [h.idle t hmem] at hpos
      exact lt_irrefl 0 hpos
    have hdone : (s.heap t).sourceDone = true := by
      rcases h.busy t hlt hnot with hcur | hwait
      · rw [hcurrent] at hcur
        cases hcur
      · exact hwait.1
    have hkept : Kept { s with
        scheduled := s.scheduled.eraseIdx index
        stack := .functor (some t) :: s.stack
        current := some t } l [.functor (some t)] := by
      refine { h with
        stack_eq := ?_, pending := fun u => ?_, passing := ?_, current := fun u hu => ?_ }
      · rw [hstack]
        change _ = List.replicate s.depth DeferFrame.store ++ _
        rw [hdepth]
        rfl
      · obtain rfl : t = u := Option.some.inj hu
        exact ⟨hlt, hnot⟩
      · have hpending := h.pending u
        rw [hcount u] at hpending
        rw [hpending]
        rcases eq_or_ne u t with rfl | hut
        · simp
        · simp [Ne.symm hut]
      · rintro u events hu
        simp at hu
    refine ⟨_, _, if_pos ⟨hcurrent, hdepth⟩,
      { hkept with control := .inl ⟨t, rfl, rfl, hdone⟩, busy := ?_ }⟩
    intro u hu hul
    rcases h.busy u hu hul with hcur | hwait
    · rw [hcurrent] at hcur
      cases hcur
    · exact .inr hwait

/-- A functor on top of the stack is the only one, or was not captured. -/
private theorem Sound.functor (h : Sound s l rest) {transaction : Option Nat}
    {stack : List (DeferFrame Port Context)} (hstack : s.stack = .functor transaction :: stack) :
    s.depth = 0 ∧ rest = .functor transaction :: stack := by
  have hrest := h.stack_eq.symm.trans hstack
  cases hdepth : s.depth with
  | zero =>
    rw [hdepth] at hrest
    exact ⟨rfl, hrest⟩
  | succ d =>
    rw [hdepth, List.replicate_succ, List.cons_append] at hrest
    cases hrest

/-- A functor that was captured leaves its transaction. -/
private theorem Sound.leave (h : Sound s l rest) {t : Nat}
    {stack : List (DeferFrame Port Context)} (hstack : s.stack = .functor (some t) :: stack) :
    ∃ s' rest', { s with stack := stack }.vvpEventDeferLeave t = some s' ∧ Sound s' l rest' := by
  obtain ⟨hdepth, rfl⟩ := h.functor hstack
  have hrunning : stack = [] ∧ s.current = some t ∧ (s.heap t).sourceDone = true := by
    rcases h.control with ⟨u, hu, hcur, hud⟩ | hquiet
    · cases hu
      exact ⟨rfl, hcur, hud⟩
    · exact (hquiet.1 _ List.mem_cons_self).elim
  obtain ⟨rfl, hcur, hdone⟩ := hrunning
  obtain ⟨hlt, hnot⟩ := h.current t hcur
  have hl : t ∉ l := fun hl => hnot (List.mem_append_left _ hl)
  have hpending := h.pending t
  rw [List.count_singleton_self] at hpending
  obtain ⟨hended, hcaptured⟩ := h.counted t hlt hl
  rw [vvpEventDeferLeave, if_pos ⟨hcur, by dsimp only; omega⟩]
  have hleft : Kept (DeferState.modify { s with stack := [], current := none } t fun d =>
      { d with
        pendingFunctors := d.pendingFunctors - 1
        history := { d.history with left := d.history.left + 1 } }) l [] := by
    refine h.update hnot hlt ?_ rfl ?_ (fun u hu => modify_heap_of_ne _ hu _) rfl rfl rfl rfl
      (fun _ hu => nomatch hu) ?_ ?_ ?_
    · change [] = List.replicate s.depth DeferFrame.store ++ []
      rw [hdepth]
      rfl
    · intro u events hu
      cases hu
    · intro u
      rcases eq_or_ne u t with rfl | hut
      · rw [modify_heap_self]
        change (s.heap u).pendingFunctors - 1 = s.scheduled.count (some u) + 0
        omega
      · rw [modify_heap_of_ne _ hut]
        have hother := h.pending u
        rw [List.count_cons_of_ne (by simpa using Ne.symm hut)] at hother
        exact hother
    · rw [modify_heap_self]
      refine ⟨hended, ?_⟩
      change (s.heap t).history.captured =
        (s.heap t).history.left + 1 + ((s.heap t).pendingFunctors - 1)
      omega
    · rw [modify_heap_self]
      exact h.collecting t hlt hnot
  obtain ⟨rest', hsound⟩ := hleft.finishEventDefer hdepth rfl (fun f hf => nomatch hf) hlt hnot
    (by rw [modify_heap_self]; exact hdone) (by
      intro u hu hul hut
      rw [modify_heap_of_ne _ hut]
      rcases h.busy u hu hul with hcur' | hwait
      · exact absurd (Option.some.inj (hcur'.symm.trans hcur)) hut
      · exact hwait)
  exact ⟨_, rest', rfl, hsound⟩

/-- A functor that was not captured returns. -/
private theorem Sound.leavePlain (h : Sound s l rest) {stack : List (DeferFrame Port Context)}
    (hstack : s.stack = .functor none :: stack) : Sound { s with stack := stack } l stack := by
  obtain ⟨hdepth, rfl⟩ := h.functor hstack
  have hquiet : Quiet s (.functor none :: stack) := by
    rcases h.control with ⟨u, hu, -⟩ | hquiet
    · cases hu
    · exact hquiet
  refine { h with
    stack_eq := ?_, control := .inr ⟨fun f hf => hquiet.1 f (List.mem_cons_of_mem _ hf), hquiet.2⟩
    pending := fun u => ?_, passing := fun u events hu => ?_ }
  · change stack = List.replicate s.depth DeferFrame.store ++ stack
    rw [hdepth]
    rfl
  · have hpending := h.pending u
    rw [List.count_cons_of_ne (by simp)] at hpending
    exact hpending
  · exact h.passing u events (List.mem_cons_of_mem _ hu)

/-! ## Deliveries -/

/-- A delivery on top of the stack is outside every region. -/
private theorem Sound.delivery (h : Sound s l rest) {t : Nat}
    {events : List (DeferredVec4Event Port Context)} {stack : List (DeferFrame Port Context)}
    (hstack : s.stack = .deliver t events :: stack) :
    s.depth = 0 ∧ s.current = none ∧ rest = .deliver t events :: stack ∧
      ∀ f ∈ stack, f.Outside := by
  have hrest := h.stack_eq.symm.trans hstack
  cases hdepth : s.depth with
  | succ d =>
    rw [hdepth, List.replicate_succ, List.cons_append] at hrest
    cases hrest
  | zero =>
    rw [hdepth, List.replicate_zero, List.nil_append] at hrest
    subst hrest
    rcases h.control with ⟨u, hu, -⟩ | hquiet
    · cases hu
    · refine ⟨rfl, ?_, rfl, fun f hf => hquiet.1 f (List.mem_cons_of_mem _ hf)⟩
      cases hcur : s.current with
      | none => rfl
      | some u =>
        have hpos := (hquiet.2 u hcur).1
        omega

private theorem Sound.deliver (h : Sound s l rest) {t : Nat}
    {cur : DeferredVec4Event Port Context} {events : List (DeferredVec4Event Port Context)}
    {stack : List (DeferFrame Port Context)} (hstack : s.stack = .deliver t (cur :: events) :: stack) :
    Sound { s.modify t fun d =>
      { d with history := { d.history with delivered := d.history.delivered ++ [cur] } } with
      stack := .deliver t events :: stack } l (.deliver t events :: stack) := by
  obtain ⟨hdepth, hcurrent, rfl, houtside⟩ := h.delivery hstack
  have hpending : ∀ u, ((s.modify t fun d => { d with history :=
      { d.history with delivered := d.history.delivered ++ [cur] } }).heap u).pendingFunctors =
      (s.heap u).pendingFunctors := modify_heap_keeps s EventDefer.pendingFunctors rfl
  have hnodup := (List.nodup_append'.mp h.nodup).2.1
  have htop : t ∉ deliveringIn stack := (List.nodup_cons.mp hnodup).1
  have hpass := h.passing t (cur :: events) List.mem_cons_self
  refine ⟨⟨?_, ?_, h.nodup, h.lt, ?_, h.current, ?_, ?_, ?_, ?_, ?_, h.finished, h.allocated⟩,
    ?_, ?_⟩
  · change _ = List.replicate s.depth DeferFrame.store ++ _
    rw [hdepth]
    rfl
  · apply h.chain.congr
    intro u _
    dsimp only
    exact modify_heap_keeps s EventDefer.nextFree rfl u
  · intro u hu
    dsimp only
    rw [hpending]
    exact h.idle u hu
  · intro u
    dsimp only
    rw [hpending, h.pending, List.count_cons_of_ne (by rintro ⟨⟩),
      List.count_cons_of_ne (by rintro ⟨⟩)]
    rfl
  · intro u hu
    dsimp only
    rw [hpending]
    exact h.fresh u hu
  · intro u hu hul
    have hcounted := h.counted u hu hul
    dsimp only
    rcases eq_or_ne u t with rfl | hut
    · rw [modify_heap_self]
      exact hcounted
    · rw [modify_heap_of_ne _ hut]
      exact hcounted
  · intro u hu hul
    dsimp only
    rw [modify_heap_of_ne]
    · exact h.collecting u hu hul
    · rintro rfl
      exact hul (List.mem_append_right _ List.mem_cons_self)
  · intro u events' hu
    dsimp only
    rcases List.mem_cons.mp hu with heq | hin
    · obtain ⟨rfl, rfl⟩ : u = t ∧ events' = events := by
        cases heq
        exact ⟨rfl, rfl⟩
      rw [modify_heap_self]
      refine ⟨hpass.1, ?_⟩
      dsimp only
      rw [hpass.2, List.append_assoc, List.singleton_append]
    · rw [modify_heap_of_ne]
      · exact h.passing u events' (List.mem_cons_of_mem _ hin)
      · rintro rfl
        exact htop (mem_deliveringIn.mpr ⟨events', hin⟩)
  · right
    refine ⟨?_, fun u hu => ?_⟩
    · intro f hf
      rcases List.mem_cons.mp hf with rfl | hf
      · trivial
      · exact houtside f hf
    · change s.current = some u at hu
      rw [hcurrent] at hu
      cases hu
  · intro u hu hul
    dsimp only
    rw [modify_heap_of_ne]
    · exact h.busy u hu hul
    · rintro rfl
      exact hul (List.mem_append_right _ List.mem_cons_self)

/-- A transaction that has delivered goes to the free list. -/
private theorem Sound.recycle (h : Sound s l rest) {t : Nat}
    {stack : List (DeferFrame Port Context)} (hstack : s.stack = .deliver t [] :: stack) :
    Sound (DeferState.recycle { s with stack := stack } t) (t :: l) stack := by
  obtain ⟨hdepth, hcurrent, rfl, houtside⟩ := h.delivery hstack
  have hdel : deliveringIn (.deliver t [] :: stack) = t :: deliveringIn stack := rfl
  have hmem : ∀ u, u ∈ t :: l ++ deliveringIn stack ↔
      u ∈ l ++ deliveringIn (.deliver t [] :: stack) := by
    intro u
    rw [hdel]
    simp only [List.mem_append, List.mem_cons]
    tauto
  have hnodup := h.nodup
  rw [hdel, List.nodup_middle, List.nodup_cons] at hnodup
  have htop : t ∈ l ++ deliveringIn (.deliver t [] :: stack) :=
    List.mem_append_right _ List.mem_cons_self
  have hl : t ∉ l := fun hl => hnodup.1 (List.mem_append_left _ hl)
  obtain ⟨hdone, hall⟩ := h.passing t [] List.mem_cons_self
  obtain ⟨hended, hcaptured⟩ := h.counted t (h.lt t htop) hl
  rw [h.idle t htop, Nat.add_zero] at hcaptured
  rw [List.append_nil] at hall
  have hself : (DeferState.recycle { s with stack := stack } t).heap t =
      { s.heap t with events := [], nextFree := s.freeEventDefer } := by
    rw [recycle_heap, modify_heap_self]
  have hother : ∀ u, u ≠ t → (DeferState.recycle { s with stack := stack } t).heap u = s.heap u := by
    intro u hu
    rw [recycle_heap, modify_heap_of_ne _ hu]
  have hpending : ∀ u, ((DeferState.recycle { s with stack := stack } t).heap u).pendingFunctors =
      (s.heap u).pendingFunctors := by
    intro u
    rw [recycle_heap]
    exact modify_heap_keeps { s with stack := stack } EventDefer.pendingFunctors rfl u
  refine ⟨⟨?_, ?_, ?_, ?_, ?_, ?_, ?_, ?_, ?_, ?_, ?_, ?_, ?_⟩, ?_, ?_⟩
  · change stack = List.replicate s.depth DeferFrame.store ++ stack
    rw [hdepth]
    rfl
  · apply h.chain.push hl
    · rw [hself]
    · intro u hut
      rw [hother u hut]
  · exact List.nodup_cons.mpr hnodup
  · intro u hu
    exact h.lt u ((hmem u).mp hu)
  · intro u hu
    rw [hpending]
    exact h.idle u ((hmem u).mp hu)
  · intro u hu
    change s.current = some u at hu
    rw [hcurrent] at hu
    cases hu
  · intro u
    rw [hpending, h.pending, List.count_cons_of_ne (by rintro ⟨⟩)]
    rfl
  · intro u hu
    rw [hpending]
    exact h.fresh u hu
  · intro u hu hul
    rw [List.mem_cons, not_or] at hul
    rw [hother u hul.1]
    exact h.counted u hu hul.2
  · intro u hu hul
    rw [hmem] at hul
    rw [hother]
    · exact h.collecting u hu hul
    · rintro rfl
      exact hul htop
  · intro u events hu
    rw [hother]
    · exact h.passing u events (List.mem_cons_of_mem _ hu)
    · rintro rfl
      exact hnodup.1 (List.mem_append_right _ (mem_deliveringIn.mpr ⟨events, hu⟩))
  · intro history hhistory
    rcases List.mem_append.mp hhistory with hold | hnew
    · exact h.finished history hold
    · obtain rfl := List.mem_singleton.mp hnew
      exact ⟨hended.trans hdone, hcaptured.symm, hall.symm⟩
  · have hallocated := h.allocated
    change s.allocated + (t :: l).length =
      s.heapSize + (s.finished ++ [(s.heap t).history]).length
    rw [List.length_cons, List.length_append, List.length_singleton]
    omega
  · right
    refine ⟨houtside, fun u hu => ?_⟩
    change s.current = some u at hu
    rw [hcurrent] at hu
    cases hu
  · intro u hu hul
    rw [hmem] at hul
    rw [hother]
    · exact h.busy u hu hul
    · rintro rfl
      exact hul htop

/-! ## Runs -/

/-- Every allowed step passes its assertions and keeps the invariant. -/
theorem exec_sound (h : Sound s l rest) {step : DeferStep Port Context}
    (henabled : s.enabled step = true) :
    ∃ s' l' rest', s.exec step = some s' ∧ Sound s' l' rest' := by
  cases step with
  | begin => exact ⟨_, l, rest, rfl, h.begin⟩
  | «end» =>
    rw [enabled, decide_eq_true_eq] at henabled
    exact h.end henabled
  | receive call =>
    cases hactive : s.active with
    | false =>
      refine ⟨s, l, rest, ?_, h⟩
      rw [exec, hactive]
      rfl
    | true =>
      obtain ⟨l', hsound⟩ := h.receive hactive call
      refine ⟨_, l', rest, ?_, hsound⟩
      rw [exec, hactive]
      rfl
  | schedule =>
    obtain ⟨l', hsound⟩ := h.schedule
    exact ⟨_, l', rest, rfl, hsound⟩
  | run index =>
    rw [enabled, Bool.and_eq_true, decide_eq_true_eq, decide_eq_true_eq] at henabled
    obtain ⟨s', rest', hexec, hsound⟩ := h.run henabled.1 henabled.2
    exact ⟨s', l, rest', hexec, hsound⟩
  | leave =>
    rw [enabled] at henabled
    rw [exec]
    split at henabled
    · rename_i transaction stack hstack
      rw [hstack]
      cases transaction with
      | none => exact ⟨_, l, stack, rfl, h.leavePlain hstack⟩
      | some t =>
        obtain ⟨s', rest', hexec, hsound⟩ := h.leave hstack
        exact ⟨s', l, rest', hexec, hsound⟩
    · cases henabled
  | deliver =>
    rw [enabled] at henabled
    rw [exec]
    split at henabled
    · rename_i t cur events stack hstack
      exact ⟨_, l, _, rfl, h.deliver hstack⟩
    · cases henabled
  | recycle =>
    rw [enabled] at henabled
    rw [exec]
    split at henabled
    · rename_i t stack hstack
      exact ⟨_, t :: l, stack, rfl, h.recycle hstack⟩
    · cases henabled

/-- What a state guarantees about its transactions, those in use and those whose use is over. -/
structure Delivers (s : DeferState Port Context) : Prop where
  /-- No assertion fails in the next step. -/
  asserts : ∀ step, s.enabled step = true → (s.exec step).isSome
  /-- A free transaction is not current, and no functor will enter or leave it. -/
  free : ∀ t, s.OnFreeList t → s.current ≠ some t ∧ (s.heap t).pendingFunctors = 0 ∧
    some t ∉ s.scheduled ∧ .functor (some t) ∉ s.stack
  /-- A use that is over has delivered each of its events once. -/
  finished : ∀ h ∈ s.finished, h.Complete
  /-- A use that is not over has delivered some of them once, and none before it was due. -/
  early : ∀ t < s.heapSize, ¬ s.OnFreeList t →
    (s.heap t).history.delivered <+: DeferCall.runAll (s.heap t).history.calls ∧
      ((s.heap t).history.delivered ≠ [] →
        (s.heap t).history.ended = true ∧ (s.heap t).history.left = (s.heap t).history.captured)
  /-- One that is due is being delivered. -/
  due : ∀ t < s.heapSize, ¬ s.OnFreeList t → (s.heap t).history.ended = true →
    (s.heap t).history.left = (s.heap t).history.captured →
    ∃ events, .deliver t events ∈ s.stack
  /-- When nothing is being executed and no captured functor is scheduled, every use is over. -/
  settled : s.stack = [] → (∀ t, some t ∉ s.scheduled) → s.finished.length = s.allocated

private theorem Sound.onFreeList (h : Sound s l rest) : s.OnFreeList t ↔ t ∈ l := by
  constructor
  · rintro ⟨l', hchain, ht⟩
    rwa [h.chain.unique hchain]
  · intro ht
    exact ⟨l, h.chain, ht⟩

private theorem Sound.mem_stack (h : Sound s l rest) {f : DeferFrame Port Context} (hf : f ≠ .store) :
    f ∈ s.stack ↔ f ∈ rest := by
  rw [h.stack_eq, List.mem_append]
  constructor
  · rintro (hstore | hrest)
    · exact absurd (List.eq_of_mem_replicate hstore) hf
    · exact hrest
  · exact .inr

/-- With nothing being executed and no captured functor scheduled, every transaction is free. -/
private theorem Sound.settled (h : Sound s l rest) (hstack : s.stack = [])
    (hscheduled : ∀ t, some t ∉ s.scheduled) : s.finished.length = s.allocated := by
  have hempty := h.stack_eq.symm.trans hstack
  rw [List.append_eq_nil_iff, List.replicate_eq_nil_iff] at hempty
  obtain ⟨hdepth, rfl⟩ := hempty
  have hall : ∀ t < s.heapSize, t ∈ l := by
    intro t hlt
    by_contra hl
    have hnot : t ∉ l ++ deliveringIn ([] : List (DeferFrame Port Context)) := by
      intro hmem
      rcases List.mem_append.mp hmem with hmem | hmem
      · exact hl hmem
      · cases hmem
    rcases h.busy t hlt hnot with hcur | hwait
    · rcases h.control with ⟨u, hu, -⟩ | hquiet
      · cases hu
      · have hpos := (hquiet.2 t hcur).1
        omega
    · have hpending := h.pending t
      rw [List.count_eq_zero_of_not_mem (hscheduled t), List.count_nil] at hpending
      omega
  have hperm : l.Perm (List.range s.heapSize) := by
    refine (List.perm_ext_iff_of_nodup (List.nodup_append'.mp h.nodup).1 List.nodup_range).mpr ?_
    intro t
    rw [List.mem_range]
    exact ⟨fun ht => h.lt t (List.mem_append_left _ ht), hall t⟩
  have hlength := hperm.length_eq
  rw [List.length_range] at hlength
  have hallocated := h.allocated
  omega

private theorem Sound.delivers (h : Sound s l rest) : s.Delivers where
  asserts := by
    intro step henabled
    obtain ⟨s', -, -, hexec, -⟩ := exec_sound h henabled
    rw [hexec]
    rfl
  free := by
    intro t ht
    have hmem : t ∈ l ++ deliveringIn rest := List.mem_append_left _ (h.onFreeList.mp ht)
    have hpending := h.pending t
    rw [h.idle t hmem] at hpending
    refine ⟨fun hcur => (h.current t hcur).2 hmem, h.idle t hmem, ?_, ?_⟩
    · apply List.count_eq_zero.mp
      omega
    · rw [h.mem_stack (by rintro ⟨⟩)]
      apply List.count_eq_zero.mp
      omega
  finished := h.finished
  early := by
    intro t hlt hfree
    rw [h.onFreeList] at hfree
    by_cases hdel : t ∈ deliveringIn rest
    · obtain ⟨events, hframe⟩ := mem_deliveringIn.mp hdel
      obtain ⟨hdone, hall⟩ := h.passing t events hframe
      obtain ⟨hended, hcaptured⟩ := h.counted t hlt hfree
      rw [h.idle t (List.mem_append_right _ hdel), Nat.add_zero] at hcaptured
      exact ⟨⟨events, hall.symm⟩, fun _ => ⟨hended.trans hdone, hcaptured.symm⟩⟩
    · have hnot : t ∉ l ++ deliveringIn rest := by
        intro hmem
        rcases List.mem_append.mp hmem with hmem | hmem
        · exact hfree hmem
        · exact hdel hmem
      rw [(h.collecting t hlt hnot).2]
      exact ⟨List.nil_prefix, fun hne => absurd rfl hne⟩
  due := by
    intro t hlt hfree hended hleft
    rw [h.onFreeList] at hfree
    obtain ⟨hdone, hcaptured⟩ := h.counted t hlt hfree
    have hidle : (s.heap t).pendingFunctors = 0 := by omega
    rw [hended] at hdone
    by_cases hdel : t ∈ deliveringIn rest
    · obtain ⟨events, hframe⟩ := mem_deliveringIn.mp hdel
      exact ⟨events, (h.mem_stack (by rintro ⟨⟩)).mpr hframe⟩
    · exfalso
      have hnot : t ∉ l ++ deliveringIn rest := by
        intro hmem
        rcases List.mem_append.mp hmem with hmem | hmem
        · exact hfree hmem
        · exact hdel hmem
      rcases h.busy t hlt hnot with hcur | hwait
      · rcases h.control with ⟨u, rfl, hu, -⟩ | hquiet
        · -- the functor that is being run has not left
          obtain rfl : u = t := Option.some.inj (hu.symm.trans hcur)
          have hpending := h.pending u
          rw [List.count_singleton_self] at hpending
          omega
        · rw [(hquiet.2 t hcur).2] at hdone
          cases hdone
      · omega
  settled := h.settled

/-- In every properly nested run no assertion fails, no free transaction is in use, and every
transaction delivers its events once, after its source and the functors it captured. -/
theorem transactions_deliver (steps : List (DeferStep Port Context))
    (s : DeferState Port Context) (hrun : Runs.run step init steps = some s) : s.Delivers := by
  have hsound : ∃ l rest, Sound s l rest := by
    refine @Runs.invariant _ _ _ (fun s => ∃ l rest, Sound s l rest) ?_ _ _ _
      ⟨[], [], init_sound⟩ hrun
    intro s step s' hs hstep
    obtain ⟨l, rest, hs⟩ := hs
    rw [DeferState.step] at hstep
    split_ifs at hstep with henabled
    obtain ⟨t, l', rest', hexec, ht⟩ := exec_sound hs henabled
    obtain rfl : t = s' := Option.some.inj (hexec.symm.trans hstep)
    exact ⟨l', rest', ht⟩
  obtain ⟨l, rest, hs⟩ := hsound
  exact hs.delivers

/-- Two nested stores capture a functor, which defers another input, captures a second functor
and leaves; the second leaves too, and what the delivery calls stores and delivers in turn. -/
theorem transactions_deliver_example : ∃ s : DeferState Nat Nat, Runs.run step init
    [.begin, .receive (.vec4 0 [.one] 0), .begin, .schedule, .end, .end, .run 0,
      .receive (.vec4 1 [.zero] 0), .begin, .schedule, .end, .leave, .run 0, .leave, .deliver,
      .begin, .receive (.vec4 2 [.x] 0), .end, .deliver, .recycle, .deliver, .recycle] = some s ∧
    s.Delivers := by
  obtain ⟨s, hs⟩ := Option.isSome_iff_exists.mp (show (Runs.run step (init : DeferState Nat Nat)
    [.begin, .receive (.vec4 0 [.one] 0), .begin, .schedule, .end, .end, .run 0,
      .receive (.vec4 1 [.zero] 0), .begin, .schedule, .end, .leave, .run 0, .leave, .deliver,
      .begin, .receive (.vec4 2 [.x] 0), .end, .deliver, .recycle, .deliver,
      .recycle]).isSome = true by decide +kernel)
  exact ⟨s, hs, transactions_deliver _ s hs⟩

end DeferState

end Icarus.Vvp
