import Icarus.Vvp.Schedule.Invariant

/-!
# The pointer code runs as its reading does

Any represented family of queues follows the list machine call by call and step
by step. An operation edits one region of one cell; no event is linked twice, so
every other region of every cell is read as before.
-/

namespace Icarus.Vvp.Schedule

open Icarus.Core Icarus.Core.DeltaList

variable {H Q : Type} {impl : Fifo EventId H Q} (S : impl.Simulation)

/-- A time cell read region by region. -/
structure Reads (heap : H) (c : EventTime Q) (d : EventTime (List EventId)) : Prop where
  /-- The deltas agree. -/
  delay : c.delay = d.delay
  /-- Every region is read. -/
  payload : ∀ r, S.holds heap (c.payload r) (d.payload r)

/-- A whole queue read cell by cell. -/
def Represents (q : Queue H Q) (l : Queue Unit (List EventId)) : Prop :=
  List.Forall₂ (Reads S q.heap) q.schedList l.schedList

/-- No event is queued twice. -/
def Distinct (cells : List (EventTime (List EventId))) : Prop :=
  (cells.flatMap fun c => events c.payload).Nodup

private theorem map_fst_pending (t : Nat) (cells : List (EventTime (List EventId))) :
    (pending t cells).map Prod.fst = cells.flatMap fun c => events c.payload := by
  induction cells generalizing t with
  | nil => rfl
  | cons c cs ih =>
    rw [pending_cons, List.map_append, ih, List.flatMap_cons, List.map_map]
    simp [Function.comp_def]

/-- The invariant of a run keeps the pending events distinct. -/
theorem Inv.distinct {w : ListWorld} (h : Inv w) : Distinct w.sim.queue.schedList := by
  have hp := h.account.map Prod.fst
  rw [List.map_append, List.map_map, List.map_map, map_fst_pending] at hp
  exact (List.nodup_append.mp (hp.nodup_iff.mpr h.nodup)).2.1

/-- Pending events have been scheduled. -/
theorem Inv.mem_scheduled {w : ListWorld} (h : Inv w) {e : EventId}
    (he : e ∈ w.sim.queue.schedList.flatMap fun c => events c.payload) :
    e ∈ w.scheduled.map Scheduled.event := by
  have hp := h.account.map Prod.fst
  rw [List.map_append, List.map_map, List.map_map, map_fst_pending] at hp
  exact hp.mem_iff.mp (List.mem_append_right _ he)

/-! ## Editing one region -/

private theorem disjoint_of_nodup_events {p : EventQueue → List EventId} {r x : EventQueue}
    (h : (events p).Nodup) (hne : x ≠ r) : (p r).Disjoint (p x) := by
  have hsymm : Std.Symm (Function.onFun List.Disjoint p) := 
    ⟨fun _ _ hd _ ha hb => hd hb ha⟩
  exact (List.nodup_flatMap.mp h).2.forall r.mem_all x.mem_all (Ne.symm hne)

/-- An operation on one region that leaves disjoint queues alone edits that region only. -/
theorem forall₂_edit {h h' : H} {before after : List (EventTime Q)} {c : EventTime Q}
    {before' after' : List (EventTime (List EventId))} {d : EventTime (List EventId)}
    {r : EventQueue} {q : Q} {xs : List EventId} {P : EventId → Prop}
    (hb : List.Forall₂ (Reads S h) before before') (hc : Reads S h c d)
    (ha : List.Forall₂ (Reads S h) after after') (hn : Distinct (before' ++ d :: after'))
    (hP : ∀ e ∈ (before' ++ d :: after').flatMap fun c => events c.payload, P e)
    (hq : S.holds h' q xs)
    (hframe : ∀ p ys, S.holds h p ys → (∀ e ∈ ys, P e) → (d.payload r).Disjoint ys →
      S.holds h' p ys) :
    List.Forall₂ (Reads S h') (before ++ setQueue c r q :: after)
      (before' ++ setQueue d r xs :: after') := by
  unfold Distinct at hn
  simp only [List.flatMap_append, List.flatMap_cons, List.nodup_append, List.mem_append] at hn hP
  obtain ⟨_, ⟨hd, _, hda⟩, hdb⟩ := hn
  have hr : ∀ e ∈ d.payload r, e ∈ events d.payload := fun e he => mem_events.mpr ⟨r, he⟩
  have hkeep : ∀ {cs : List (EventTime Q)} {ds : List (EventTime (List EventId))},
      List.Forall₂ (Reads S h) cs ds →
      (∀ e ∈ ds.flatMap fun c => events c.payload, P e ∧ e ∉ d.payload r) →
      List.Forall₂ (Reads S h') cs ds := by
    intro cs ds hcs hout
    induction hcs with
    | nil => exact .nil
    | @cons c₁ d₁ cs ds hcd _ ih =>
      have hmem : ∀ x, ∀ e ∈ d₁.payload x, P e ∧ e ∉ d.payload r := by
        intro x e he
        refine hout e (List.mem_flatMap.mpr ⟨d₁, by simp, mem_events.mpr ⟨x, he⟩⟩)
      refine .cons ⟨hcd.delay, fun x => ?_⟩ (ih fun e he => hout e ?_)
      · refine hframe _ _ (hcd.payload x) (fun e he => (hmem x e he).1) ?_
        intro e he hx
        exact (hmem x e hx).2 he
      · rw [List.flatMap_cons]
        exact List.mem_append_right _ he
  refine List.rel_append (hkeep hb ?_) (.cons ⟨hc.delay, ?_⟩ (hkeep ha ?_))
  · intro e he
    exact ⟨hP e (Or.inl he), fun hx => hdb e he e (Or.inl (hr e hx)) rfl⟩
  · intro x
    by_cases hx : x = r
    · subst hx
      simpa [setQueue] using hq
    · simp only [setQueue, Function.update, hx, dite_false]
      refine hframe _ _ (hc.payload x) ?_ (disjoint_of_nodup_events hd hx)
      intro e he
      exact hP e (Or.inr (Or.inl (mem_events.mpr ⟨x, he⟩)))
  · intro e he
    exact ⟨hP e (Or.inr (Or.inr he)), fun hx => hda e (hr e hx) e he rfl⟩

/-! ## Insertions -/

/-- Two openings of a list agree. -/
structure LocatedRel (heap : H) (l : Located (EventQueue → Q))
    (m : Located (EventQueue → List EventId)) : Prop where
  /-- In front of the receiving cell. -/
  before : List.Forall₂ (Reads S heap) l.before m.before
  /-- At the receiving cell. -/
  ctim : Reads S heap l.ctim m.ctim
  /-- Behind the receiving cell. -/
  after : List.Forall₂ (Reads S heap) l.after m.after

private theorem reads_empty (heap : H) (delay : Nat) :
    Reads S heap ⟨delay, fun _ => impl.null⟩ ⟨delay, fun _ => []⟩ :=
  ⟨rfl, fun _ => S.null heap⟩

private theorem located_settle {heap : H} {c : EventTime Q} {d : EventTime (List EventId)}
    {cs : List (EventTime Q)} {ds : List (EventTime (List EventId))} (delay : Nat)
    (hc : Reads S heap c d) (hs : List.Forall₂ (Reads S heap) cs ds) :
    LocatedRel S heap (settle (fun _ => impl.null) c cs delay)
      (settle (fun _ => []) d ds delay) := by
  unfold settle
  rw [hc.delay]
  split_ifs with hlt heq
  · exact ⟨.nil, reads_empty S heap delay, .cons ⟨rfl, hc.payload⟩ hs⟩
  · exact ⟨.nil, hc, hs⟩
  · exact ⟨.cons hc .nil, reads_empty S heap _, .nil⟩

private theorem located_walk {heap : H} {c : EventTime Q} {d : EventTime (List EventId)}
    {cs : List (EventTime Q)} {ds : List (EventTime (List EventId))} (delay : Nat)
    (hc : Reads S heap c d) (hs : List.Forall₂ (Reads S heap) cs ds) :
    LocatedRel S heap (walk (fun _ => impl.null) c cs delay) (walk (fun _ => []) d ds delay) := by
  induction hs generalizing c d delay with
  | nil => exact located_settle S delay hc .nil
  | cons hn hs ih =>
    simp only [walk]
    rw [hc.delay]
    by_cases hlt : d.delay < delay
    · simp only [hlt, if_true]
      obtain ⟨hb, hm, ha⟩ := ih (delay - d.delay) hn
      exact ⟨.cons hc hb, hm, ha⟩
    · simp only [hlt, if_false]
      exact located_settle S delay hc (.cons hn hs)

private theorem located_locate {heap : H} {cs : List (EventTime Q)}
    {ds : List (EventTime (List EventId))} (delay : Nat)
    (hs : List.Forall₂ (Reads S heap) cs ds) :
    LocatedRel S heap (locate (fun _ => impl.null) cs delay) (locate (fun _ => []) ds delay) := by
  cases hs with
  | nil => exact ⟨.nil, reads_empty S heap delay, .nil⟩
  | cons hc hs =>
    simp only [locate]
    rw [hc.delay]
    split_ifs with hlt
    · exact ⟨.nil, reads_empty S heap delay, .cons ⟨rfl, hc.payload⟩ hs⟩
    · exact located_walk S delay hc hs

private theorem events_locate (cells : List (EventTime (List EventId))) (delay : Nat) :
    ((locate (fun _ => []) cells delay).cells.flatMap fun c => events c.payload) =
      cells.flatMap fun c => events c.payload := by
  rw [← map_fst_pending 0, ← map_fst_pending 0, pending_locate]

variable {S}

/-- `schedule_event_` of a fresh event follows the list insertion. -/
theorem Represents.scheduleEvent {q : Queue H Q} {l : Queue Unit (List EventId)}
    (h : Represents S q l) (hn : Distinct l.schedList) {cur : EventId}
    (hcur : cur ∉ l.schedList.flatMap fun c => events c.payload) (delay : Nat) (r : EventQueue) :
    Represents S (scheduleEvent impl q cur delay r)
      (scheduleEvent (Fifo.lists EventId) l cur delay r) := by
  obtain ⟨hb, hc, ha⟩ := located_locate S delay h
  have hev := events_locate l.schedList delay
  have hdist : Distinct (locate (fun _ => []) l.schedList delay).cells := by
    unfold Distinct
    rw [hev]
    exact hn
  have hfresh : cur ∉ (locate (fun _ => []) l.schedList delay).ctim.payload r := by
    intro hm
    refine hcur ?_
    rw [← hev]
    exact List.mem_flatMap.mpr ⟨_, by simp [Located.cells], mem_events.mpr ⟨r, hm⟩⟩
  have hnodup : ((locate (fun _ => []) l.schedList delay).ctim.payload r).Nodup := by
    have hmem : (locate (fun _ => ([] : List EventId)) l.schedList delay).ctim ∈
        (locate (fun _ => []) l.schedList delay).cells := by simp [Located.cells]
    exact (List.nodup_flatMap.mp ((List.nodup_flatMap.mp hdist).1 _ hmem)).1 r r.mem_all
  obtain ⟨henq, hframe⟩ := S.enqueue q.heap _ _ cur (hc.payload r) hnodup hfresh
  refine forall₂_edit S (P := fun e => e ≠ cur) hb hc ha hdist ?_ henq ?_
  · intro e he heq
    have hmem : e ∈ (locate (fun _ => []) l.schedList delay).cells.flatMap
      fun c => events c.payload := he
    rw [hev] at hmem
    exact hcur (heq ▸ hmem)
  · intro p ys hp hys hd
    exact hframe p ys hp (fun hm => hys cur hm rfl) hd

/-- `schedule_event_push_` of a fresh event follows the list insertion. -/
theorem Represents.scheduleEventPush {q : Queue H Q} {l : Queue Unit (List EventId)}
    (h : Represents S q l) (hn : Distinct l.schedList) {cur : EventId}
    (hcur : cur ∉ l.schedList.flatMap fun c => events c.payload) :
    Represents S (scheduleEventPush impl q cur) (scheduleEventPush (Fifo.lists EventId) l cur) := by
  have hslow := h.scheduleEvent hn hcur 0 .active
  obtain ⟨heap, cs⟩ := q
  obtain ⟨_, ds⟩ := l
  cases h with
  | nil => exact hslow
  | @cons c d cs ds hc hs =>
    simp only [Schedule.scheduleEventPush]
    rw [hc.delay]
    by_cases hpos : 0 < d.delay
    · simpa only [hpos, if_true] using hslow
    · simp only [hpos, if_false]
      have hsub : ∀ e ∈ d.payload .active, e ∈ (d :: ds).flatMap fun c => events c.payload :=
        fun e he => List.mem_flatMap.mpr ⟨d, by simp, mem_events.mpr ⟨.active, he⟩⟩
      have hnodup : (d.payload .active).Nodup :=
        (List.nodup_flatMap.mp ((List.nodup_flatMap.mp hn).1 d (by simp))).1 .active
          (EventQueue.mem_all _)
      obtain ⟨hpush, hframe⟩ := S.push heap _ _ cur (hc.payload .active) hnodup
        (fun hm => hcur (hsub cur hm))
      refine forall₂_edit S (P := fun e => e ≠ cur) .nil hc hs hn ?_ hpush ?_
      · intro e he heq
        exact hcur (heq ▸ he)
      · intro p ys hp hys hd
        exact hframe p ys hp (fun hm => hys cur hm rfl) hd

/-- Every call with a fresh event follows its list reading. -/
theorem Represents.perform {q : Queue H Q} {l : Queue Unit (List EventId)}
    (h : Represents S q l) (hn : Distinct l.schedList) {cur : EventId}
    (hcur : cur ∉ l.schedList.flatMap fun c => events c.payload) (c : Call) :
    Represents S (c.perform impl q cur) (c.perform (Fifo.lists EventId) l cur) := by
  cases c with
  | event delay r => exact h.scheduleEvent hn hcur delay r
  | nbassign delay =>
    simpa only [Call.perform, scheduleNbassign_eq] using h.scheduleEvent hn hcur delay .nbassign
  | eventPush => exact h.scheduleEventPush hn hcur
  | vthreadListReady =>
    simpa only [Call.perform, scheduleVthreadListReady_eq] using h.scheduleEvent hn hcur 0 .active

/-! ## Steps -/

variable (S)

private theorem reads_refill {heap : H} {p : EventQueue → Q} {p' : EventQueue → List EventId}
    (h : ∀ r, S.holds heap (p r) (p' r)) (x r : EventQueue) :
    S.holds heap (refill impl p x r) (refill (Fifo.lists EventId) p' x r) := by
  unfold refill
  have hsame : (Fifo.lists EventId).isNull (p' .active) = impl.isNull (p .active) :=
    (S.isNull heap _ _ (h .active)).symm
  rw [hsame]
  split_ifs with hnull
  · by_cases hr : r = x
    · subst hr
      simpa [Fifo.lists] using S.null heap
    · by_cases ha : r = .active
      · subst ha
        simpa [Function.update, hr] using h x
      · simpa [Function.update, hr, ha] using h r
  · exact h r

private theorem reads_promote {heap : H} {c : EventTime Q} {d : EventTime (List EventId)}
    (h : Reads S heap c d) :
    Reads S heap { c with payload := promote impl c.payload }
      { d with payload := promote (Fifo.lists EventId) d.payload } :=
  ⟨h.delay, reads_refill S (reads_refill S (reads_refill S h.payload .inactive) .nbassign)
    .rwsync⟩

/-- Pulling an event off a region follows the list. -/
private theorem pull_rel {heap : H} {c : EventTime Q} {cs : List (EventTime Q)}
    {d : EventTime (List EventId)} {ds : List (EventTime (List EventId))}
    (hc : Reads S heap c d) (hs : List.Forall₂ (Reads S heap) cs ds) (hn : Distinct (d :: ds))
    (u : Unit) (r : EventQueue) :
    Option.Rel (fun x y => x.1 = y.1 ∧ Represents S x.2 y.2) (pull impl heap c cs r)
      (pull (Fifo.lists EventId) u d ds r) := by
  rw [pull_lists]
  unfold pull
  have hr := hc.payload r
  cases hxs : d.payload r with
  | nil =>
    rw [hxs] at hr
    rw [S.dequeue_nil heap _ hr]
    exact .none
  | cons e xs =>
    rw [hxs] at hr
    have hnodup : (d.payload r).Nodup :=
      (List.nodup_flatMap.mp ((List.nodup_flatMap.mp hn).1 d (by simp))).1 r r.mem_all
    obtain ⟨h', q', hdq, hq, hframe⟩ := S.dequeue heap _ e xs hr (hxs ▸ hnodup)
    rw [hdq]
    refine .some ⟨rfl, ?_⟩
    refine forall₂_edit S (P := fun _ => True) .nil hc hs hn (fun _ _ => trivial) hq ?_
    intro p ys hp _ hd
    exact hframe p ys hp (hxs ▸ hd)

/-- A scheduler read as a list scheduler. -/
structure SimRel (s : Sim H Q) (t : ListSim) : Prop where
  /-- The queues. -/
  queue : Represents S s.queue t.queue
  /-- The clocks. -/
  time : s.scheduleTime = t.scheduleTime
  /-- The places in the loop. -/
  phase : s.phase = t.phase

/-- What a step yields, read. -/
private abbrev OutRel (x : Option EventId × Sim H Q) (y : Option EventId × ListSim) : Prop :=
  x.1 = y.1 ∧ SimRel S x.2 y.2

variable {S}

private theorem serve_rel {s done : Sim H Q} {t done' : ListSim}
    {pulled : Option (EventId × Queue H Q)}
    {pulled' : Option (EventId × Queue Unit (List EventId))}
    (htime : s.scheduleTime = t.scheduleTime) (hphase : s.phase = t.phase)
    (h : Option.Rel (fun x y => x.1 = y.1 ∧ Represents S x.2 y.2) pulled pulled')
    (hdone : SimRel S done done') : OutRel S (serve s pulled done) (serve t pulled' done') := by
  cases h with
  | none => exact ⟨rfl, hdone⟩
  | some h =>
    obtain ⟨he, hq⟩ := h
    exact ⟨congrArg some he, hq, htime, hphase⟩

/-- A step of the loop follows the list step. -/
theorem SimRel.step {s : Sim H Q} {t : ListSim} (h : SimRel S s t)
    (hn : Distinct t.queue.schedList) :
    Option.Rel (OutRel S) (step impl s) (step (Fifo.lists EventId) t) := by
  obtain ⟨⟨heap, cells⟩, time, phase⟩ := s
  obtain ⟨⟨u, cells'⟩, time', phase'⟩ := t
  obtain ⟨hq, ht, hp⟩ := h
  simp only at ht hp
  subst ht hp
  cases hq with
  | nil => exact .none
  | @cons c d cs ds hc hs =>
    have hq : List.Forall₂ (Reads S heap) (c :: cs) (d :: ds) := .cons hc hs
    have hserve := pull_rel S hc hs hn u
    cases phase with
    | loop =>
      simp only [Schedule.step]
      rw [hc.delay]
      by_cases hd : 0 < d.delay
      · simp only [hd, if_true]
        exact .some ⟨rfl, .cons ⟨rfl, hc.payload⟩ hs, rfl, rfl⟩
      · simp only [hd, if_false]
        have hpro := reads_promote S hc
        have hdist : Distinct
            ({ d with payload := promote (Fifo.lists EventId) d.payload } :: ds) :=
          (List.Perm.append_right _ (events_promote d.payload)).nodup_iff.mpr hn
        rw [hc.delay] at hpro
        exact .some (serve_rel rfl rfl (pull_rel S hpro hs hdist u .active)
          ⟨.cons hpro hs, rfl, rfl⟩)
    | start => exact .some (serve_rel rfl rfl (hserve .start) ⟨hq, rfl, rfl⟩)
    | rosync => exact .some (serve_rel rfl rfl (hserve .rosync) ⟨hq, rfl, rfl⟩)
    | delThread => exact .some (serve_rel rfl rfl (hserve .delThread) ⟨hs, rfl, rfl⟩)

/-! ## Runs -/

variable (S) in
/-- A world read as a list world, with the same log. -/
structure WorldRel (w : World H Q) (v : ListWorld) : Prop where
  /-- The schedulers. -/
  sim : SimRel S w.sim v.sim
  /-- The elapsed times. -/
  elapsed : w.elapsed = v.elapsed
  /-- The calls logged. -/
  scheduled : w.scheduled = v.scheduled
  /-- The events logged. -/
  executed : w.executed = v.executed

/-- Before the simulation both schedulers are empty. -/
theorem WorldRel.initial (heap : H) : WorldRel S (World.initial heap) (World.initial ()) :=
  ⟨⟨.nil, rfl, rfl⟩, rfl, rfl, rfl⟩

private theorem advance_eq {s : Sim H Q} {t : ListSim} (h : SimRel S s t) :
    s.advance = t.advance := by
  obtain ⟨⟨heap, cells⟩, time, phase⟩ := s
  obtain ⟨⟨u, cells'⟩, time', phase'⟩ := t
  obtain ⟨hq, _, hp⟩ := h
  simp only at hp
  subst hp
  cases hq with
  | nil => cases phase <;> rfl
  | cons hc _ =>
    cases phase with
    | loop => exact hc.delay
    | start | rosync | delThread => rfl

/-- Every action follows the list action. -/
theorem WorldRel.act {w : World H Q} {v : ListWorld} (h : WorldRel S w v) (hi : Inv v)
    (a : Action) :
    Option.Rel (WorldRel S) (w.act impl a) (v.act (Fifo.lists EventId) a) := by
  obtain ⟨hsim, hel, hsched, hexec⟩ := h
  cases a with
  | call cur c =>
    simp only [World.act, World.call]
    have hphase := hsim.phase
    rw [hsched, hphase]
    split_ifs with hok
    · have hfresh : cur ∉ v.sim.queue.schedList.flatMap fun c => events c.payload :=
        fun hm => hok.1 (hi.mem_scheduled hm)
      refine .some ⟨⟨hsim.queue.perform hi.distinct hfresh c, hsim.time, rfl⟩, hel, ?_, hexec⟩
      simp only [hel, hsim.time]
    · exact .none
  | step =>
    simp only [World.act, World.step]
    have hstep := hsim.step hi.distinct
    cases hx : Schedule.step impl w.sim <;>
      cases hy : Schedule.step (Fifo.lists EventId) v.sim <;> rw [hx, hy] at hstep <;>
      cases hstep
    · exact .none
    · rename_i x y hxy
      obtain ⟨hout, hsim'⟩ := hxy
      refine .some ⟨hsim', ?_, hsched, ?_⟩
      · simp only [hel, advance_eq hsim]
      · simp only [hexec, hel, advance_eq hsim, hout, hsim'.time]

/-- A run follows the list run. -/
theorem WorldRel.run {w : World H Q} {v : ListWorld} (h : WorldRel S w v) (hi : Inv v)
    (as : List Action) :
    Option.Rel (WorldRel S) (w.run impl as) (v.run (Fifo.lists EventId) as) := by
  induction as generalizing w v with
  | nil => exact .some h
  | cons a as ih =>
    have hact := h.act hi a
    simp only [World.run, List.foldlM_cons]
    cases hx : w.act impl a <;> cases hy : v.act (Fifo.lists EventId) a <;>
      rw [hx, hy] at hact <;> cases hact
    · exact .none
    · rename_i w' v' hrel
      exact ih hrel (hi.act hy)

end Icarus.Vvp.Schedule
