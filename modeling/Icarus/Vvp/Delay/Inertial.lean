import Icarus.Core.Runs
import Icarus.Vvp.Bits

/-!
# Inertial delays

`vvp_fun_delay` holds the values of its input back for a delay that depends on
the change. A new value removes the pending ones that it comes too early for;
each value that stays has a scheduled `run_run` of its own.
-/

namespace Icarus.Vvp

open Core

/-- `vvp_delay_t`. -/
structure VvpDelay where
  /-- `rise_`. -/
  rise : BitVec 64
  /-- `fall_`. -/
  fall : BitVec 64
  /-- `decay_`. -/
  decay : BitVec 64
  /-- `min_delay_`. -/
  minDelay : BitVec 64
  /-- `ignore_decay_`. -/
  ignoreDecay : Bool
  deriving DecidableEq

namespace VvpDelay

/-- `calculate_min_delay_`. -/
def calculateMinDelay (d : VvpDelay) : VvpDelay :=
  let minDelay := if d.fall < d.rise then d.fall else d.rise
  if d.ignoreDecay then { d with minDelay := minDelay, decay := minDelay }
  else { d with minDelay := if d.decay < minDelay then d.decay else minDelay }

/-- The constructor from two delays. -/
def ofTwo (rise fall : BitVec 64) : VvpDelay :=
  let decay := if fall < rise then fall else rise
  ⟨rise, fall, decay, decay, false⟩

/-- The constructor from three delays. -/
def ofThree (rise fall decay : BitVec 64) : VvpDelay :=
  calculateMinDelay ⟨rise, fall, decay, 0, false⟩

/-- `set_rise`. -/
def setRise (d : VvpDelay) (val : BitVec 64) : VvpDelay :=
  let d := { d with rise := val }
  if val < d.minDelay then
    { d with minDelay := val, decay := if d.ignoreDecay then val else d.decay }
  else d.calculateMinDelay

/-- `set_fall`. -/
def setFall (d : VvpDelay) (val : BitVec 64) : VvpDelay :=
  let d := { d with fall := val }
  if val < d.minDelay then
    { d with minDelay := val, decay := if d.ignoreDecay then val else d.decay }
  else d.calculateMinDelay

/-- `set_decay`; nothing where its assertion fails. -/
def setDecay (d : VvpDelay) (val : BitVec 64) : Option VvpDelay :=
  if d.ignoreDecay then none
  else
    let d := { d with decay := val }
    some (if val < d.minDelay then { d with minDelay := val } else d.calculateMinDelay)

/-- `get_delay`. -/
def getDelay (d : VvpDelay) (old new : Bit4) : BitVec 64 :=
  match old, new with
  | .zero, .zero => 0
  | .zero, .one => d.rise
  | .zero, .x => d.minDelay
  | .zero, .z => d.decay
  | .one, .zero => d.fall
  | .one, .one => 0
  | .one, .x => d.minDelay
  | .one, .z => d.decay
  | .x, .zero => d.fall
  | .x, .one => d.rise
  | .x, .x => 0
  | .x, .z => d.decay
  | .z, .zero => d.fall
  | .z, .one => d.rise
  | .z, .x => d.minDelay
  | .z, .z => 0

end VvpDelay

/-- `event_` of `vvp_fun_delay`. -/
structure DelayEvent where
  /-- `sim_time`. -/
  simTime : BitVec 64
  /-- `ptr_vec4`. -/
  ptrVec4 : Vector4
  deriving DecidableEq

/-- `vvp_fun_delay` for vectors. The list starts with `list_->next`, the entry that `dequeue_`
takes, and ends with `list_`. -/
structure FunDelay where
  /-- `delay_`. -/
  delay : VvpDelay
  /-- `initial_`. -/
  initial : Bool
  /-- `cur_vec4_`. -/
  curVec4 : Vector4
  /-- `list_`. -/
  list : List DelayEvent
  deriving DecidableEq

namespace FunDelay

/-- The larger of the delays of a vector's bits. -/
def maxDelay (useDelay : BitVec 64) : List (BitVec 64) → BitVec 64
  | [] => useDelay
  | tmp :: rest => maxDelay (if useDelay < tmp then tmp else useDelay) rest

/-- The delay that `recv_vec4` uses for a value. -/
def useDelay (f : FunDelay) (simtime : BitVec 64) (bit : Vector4) : BitVec 64 :=
  if f.initial then
    let curVal := f.curVec4.getD 0 .x
    maxDelay (f.delay.getDelay curVal (bit.getD 0 .x))
      (bit.tail.map fun b => f.delay.getDelay curVal b)
  else
    let useVec4 :=
      match f.list with
      | [] => f.curVec4
      | cur :: _ => if cur.simTime = simtime then cur.ptrVec4 else f.curVec4
    maxDelay (f.delay.getDelay (useVec4.getD 0 .x) (bit.getD 0 .x))
      (List.zipWith f.delay.getDelay useVec4.tail bit.tail)

/-- `clean_pulse_events_(use_delay)`: the loop that removes the first entries. -/
def cleanPulse (simtime useDelay : BitVec 64) : List DelayEvent → List DelayEvent
  | [] => []
  | cur :: rest =>
    if cur.simTime + useDelay ≤ useDelay + simtime then cur :: rest
    else cleanPulse simtime useDelay rest

/-- `clean_pulse_events_(use_delay, bit)`: nothing if the new event is to be skipped. -/
def cleanPulseEvents (list : List DelayEvent) (simtime useDelay : BitVec 64) (bit : Vector4) :
    Option (List DelayEvent) :=
  match list with
  | [] => some []
  | cur :: rest =>
    if cur.ptrVec4 = bit then none else some (cleanPulse simtime useDelay (cur :: rest))

end FunDelay

/-- The functor, the simulated time without its wrap-around, the times of the scheduled
`run_run` calls, and the last values that went in and out. -/
structure DelayState where
  /-- The simulated time. -/
  now : Nat
  /-- The functor. -/
  net : FunDelay
  /-- The times of the `run_run` calls not yet made. -/
  pending : List Nat
  /-- The last value received on port 0. -/
  received : Option Vector4
  /-- The last value sent. -/
  sent : Option Vector4
  deriving DecidableEq

/-- What can happen to the functor. -/
inductive DelayStep
  | recvVec4 (bit : Vector4)
  | setRise (val : BitVec 64)
  | setFall (val : BitVec 64)
  | setDecay (val : BitVec 64)
  | advance (time : Nat)
  | runRun
  deriving DecidableEq

namespace DelayState

/-- A new functor at a time. -/
def init (width : Nat) (delay : VvpDelay) (now : Nat) : DelayState :=
  ⟨now, ⟨delay, true, List.replicate width .x, []⟩, [], none, none⟩

/-- `schedule_simtime`. -/
def simtime (s : DelayState) : BitVec 64 := BitVec.ofNat 64 s.now

/-- `send_vec4` of the functor's current value. -/
def send (s : DelayState) (bit : Vector4) : DelayState :=
  { s with net := { s.net with curVec4 := bit, initial := false }, sent := some bit }

/-- `recv_vec4` on port 0. -/
def recvVec4 (s : DelayState) (bit : Vector4) : DelayState :=
  let s := { s with received := some bit }
  let useDelay := s.net.useDelay s.simtime bit
  match FunDelay.cleanPulseEvents s.net.list s.simtime useDelay bit with
  | none => s
  | some list =>
    if useDelay = 0 ∧ list = [] then { s with net := { s.net with list := [] } }.send bit
    else
      { s with
        net := { s.net with list := list ++ [⟨s.simtime + useDelay, bit⟩] }
        pending := (s.now + useDelay.toNat) :: s.pending }

/-- `run_run`. -/
def runRun (s : DelayState) : DelayState :=
  match s.net.list with
  | [] => s
  | cur :: rest =>
    if s.simtime < cur.simTime then s
    else { s with net := { s.net with list := rest } }.send cur.ptrVec4

/-- A step: time advances to no later than the first scheduled call, and a call is made at its
time. -/
def step (s : DelayState) : DelayStep → Option DelayState
  | .recvVec4 bit => some (s.recvVec4 bit)
  | .setRise val => some { s with net := { s.net with delay := s.net.delay.setRise val } }
  | .setFall val => some { s with net := { s.net with delay := s.net.delay.setFall val } }
  | .setDecay val =>
    (s.net.delay.setDecay val).map fun d => { s with net := { s.net with delay := d } }
  | .advance time =>
    if s.now ≤ time ∧ ∀ due ∈ s.pending, time ≤ due then some { s with now := time } else none
  | .runRun =>
    if s.now ∈ s.pending then some { s with pending := s.pending.erase s.now }.runRun else none

/-! ## The event list -/

/-- The entries that `clean_pulse_events_` leaves for a value. -/
def kept (s : DelayState) (bit : Vector4) : List DelayEvent :=
  FunDelay.cleanPulse s.simtime (s.net.useDelay s.simtime bit) s.net.list

/-- The full time of an entry, in the 64-bit epoch of the present time. -/
def due (s : DelayState) (e : DelayEvent) : Nat := s.now / 2 ^ 64 * 2 ^ 64 + e.simTime.toNat

/-- The value that the functor is heading for. -/
def target (s : DelayState) : Option Vector4 :=
  match s.net.list.getLast? with
  | none => s.sent
  | some e => some e.ptrVec4

/-- The event list is in order, every entry has a scheduled call of its own, and the last entry
is the last value received. -/
structure Ordered (s : DelayState) : Prop where
  /-- No entry is overdue. -/
  notOverdue : ∀ e ∈ s.net.list, s.simtime ≤ e.simTime
  /-- The entries are in the order of their times. -/
  sorted : s.net.list.Pairwise fun e e' => e.simTime ≤ e'.simTime
  /-- Every entry has its call. -/
  covered : ∀ time, (s.net.list.map s.due).count time ≤ s.pending.count time
  /-- The last value received is the one to come. -/
  target_eq : s.target = s.received

/-- With no call scheduled the functor is empty and has sent what it received last. -/
def Settled (s : DelayState) : Prop :=
  s.pending = [] → s.net.list = [] ∧ s.sent = s.received

/-- A value is handled right if time does not wrap around before its delay is over and either no
entry is left before it, or it is skipped for the first entry and the last entry has the same
value, or it is put behind entries none of which is due after it. -/
def TakesTurn (s : DelayState) (bit : Vector4) : Prop :=
  s.simtime.toNat + (s.net.useDelay s.simtime bit).toNat < 2 ^ 64 ∧
    ∀ cur ∈ s.net.list.head?,
      if cur.ptrVec4 = bit then s.target = some bit
      else s.kept bit = [] ∨
        ∀ e ∈ s.net.list, e.simTime ≤ s.simtime + s.net.useDelay s.simtime bit

instance (s : DelayState) (bit : Vector4) : Decidable (s.TakesTurn bit) :=
  inferInstanceAs (Decidable (_ ∧ ∀ _ ∈ _, ite _ _ _))

/-- The condition on a step. -/
def Turn (s : DelayState) : DelayStep → Prop
  | .recvVec4 bit => s.TakesTurn bit
  | _ => True

instance (s : DelayState) : ∀ l, Decidable (s.Turn l)
  | .recvVec4 bit => inferInstanceAs (Decidable (s.TakesTurn bit))
  | .setRise _ | .setFall _ | .setDecay _ | .advance _ | .runRun =>
    inferInstanceAs (Decidable True)

instance (s : DelayState) : Decidable s.Settled :=
  inferInstanceAs (Decidable (_ → _ ∧ _))

theorem Ordered.settled {s : DelayState} (h : Ordered s) : Settled s := by
  intro hpending
  have hlist : s.net.list = [] := by
    by_contra hne
    obtain ⟨e, he⟩ := List.exists_mem_of_ne_nil _ hne
    have hcount := h.covered (s.due e)
    rw [hpending, List.count_nil, Nat.le_zero, List.count_eq_zero] at hcount
    exact hcount (List.mem_map_of_mem he)
  refine ⟨hlist, ?_⟩
  have htarget := h.target_eq
  rwa [target, hlist] at htarget

theorem init_ordered (width : Nat) (delay : VvpDelay) (now : Nat) :
    Ordered (init width delay now) where
  notOverdue := by simp [init]
  sorted := List.Pairwise.nil
  covered := by simp [init]
  target_eq := rfl

private theorem cleanPulse_suffix (simtime useDelay : BitVec 64) (list : List DelayEvent) :
    FunDelay.cleanPulse simtime useDelay list <:+ list := by
  induction list with
  | nil => exact List.suffix_rfl
  | cons cur rest ih =>
    rw [FunDelay.cleanPulse]
    split_ifs
    · exact List.suffix_rfl
    · exact ih.trans (List.suffix_cons cur rest)

private theorem count_map_append (s : DelayState) (l l' : List DelayEvent) (time : Nat) :
    ((l ++ l').map s.due).count time = (l.map s.due).count time + (l'.map s.due).count time := by
  rw [List.map_append, List.count_append]

/-- Removing the first entries keeps the others in order and with their calls. -/
private theorem suffix_covered {s : DelayState} (h : Ordered s) {l : List DelayEvent}
    (hl : l <:+ s.net.list) (time : Nat) :
    (l.map s.due).count time ≤ s.pending.count time :=
  ((hl.map s.due).sublist.count_le time).trans (h.covered time)

private theorem mem_pending {s : DelayState} (h : Ordered s) {e : DelayEvent}
    (he : e ∈ s.net.list) : s.due e ∈ s.pending := by
  have hcount := h.covered (s.due e)
  have hpos : 0 < (s.net.list.map s.due).count (s.due e) :=
    List.count_pos_iff.mpr (List.mem_map_of_mem he)
  exact List.count_pos_iff.mp (by omega)

private theorem simtime_toNat (s : DelayState) : s.simtime.toNat = s.now % 2 ^ 64 :=
  BitVec.toNat_ofNat s.now 64

/-! ## The steps -/

private theorem advance_ordered {s : DelayState} (h : Ordered s) {time : Nat}
    (hle : s.now ≤ time) (hpending : ∀ due ∈ s.pending, time ≤ due) :
    Ordered { s with now := time } := by
  have hepoch : ∀ e ∈ s.net.list, time ≤ s.due e ∧ time / 2 ^ 64 = s.now / 2 ^ 64 := by
    intro e he
    have hdue := hpending _ (mem_pending h he)
    have hlt := e.simTime.isLt
    rw [due] at hdue
    refine ⟨hdue, ?_⟩
    omega
  refine ⟨?_, h.sorted, ?_, h.target_eq⟩
  · intro e he
    obtain ⟨hdue, hsame⟩ := hepoch e he
    have hsim := simtime_toNat { s with now := time }
    rw [due] at hdue
    dsimp only at hsim
    rw [BitVec.le_def, hsim]
    omega
  · intro t
    have hmap : s.net.list.map (due { s with now := time }) = s.net.list.map s.due := by
      apply List.map_congr_left
      intro e he
      rw [due, due, (hepoch e he).2]
    rw [hmap]
    exact h.covered t

private theorem runRun_ordered {s : DelayState} (h : Ordered s) :
    Ordered { s with pending := s.pending.erase s.now }.runRun := by
  cases hlist : s.net.list with
  | nil =>
    rw [runRun]
    simp only [hlist]
    refine ⟨by simp [hlist], ?_, by simp [hlist], h.target_eq⟩
    simp [hlist]
  | cons cur rest =>
    have hcur := h.notOverdue cur (by rw [hlist]; exact List.mem_cons_self)
    have hsim := simtime_toNat s
    rw [runRun]
    simp only [hlist]
    split_ifs with hlater
    · -- no entry is due: the call belongs to none of them
      have hnone : s.now ∉ s.net.list.map s.due := by
        rw [List.mem_map]
        rintro ⟨e, he, hdue⟩
        have hle : cur.simTime ≤ e.simTime := by
          have hsorted := h.sorted
          rw [hlist] at hsorted he
          rcases List.mem_cons.mp he with rfl | he
          · exact BitVec.le_refl _
          · exact (List.pairwise_cons.mp hsorted).1 e he
        rw [due] at hdue
        rw [BitVec.lt_def] at hlater
        rw [BitVec.le_def] at hle
        have hlt := e.simTime.isLt
        change (BitVec.ofNat 64 s.now).toNat < _ at hlater
        rw [BitVec.toNat_ofNat] at hlater
        omega
      refine ⟨h.notOverdue, h.sorted, fun time => ?_, h.target_eq⟩
      have hcovered := h.covered time
      rw [List.count_erase]
      by_cases htime : time = s.now
      · subst htime
        exact (List.count_eq_zero.mpr hnone).trans_le (Nat.zero_le _)
      · rw [if_neg (by simpa using Ne.symm htime), Nat.sub_zero]
        exact hcovered
    · have hdue : s.due cur = s.now := by
        rw [BitVec.lt_def, Nat.not_lt] at hlater
        rw [BitVec.le_def, hsim] at hcur
        change _ ≤ (BitVec.ofNat 64 s.now).toNat at hlater
        rw [BitVec.toNat_ofNat] at hlater
        rw [due]
        omega
      have hsorted := h.sorted
      rw [hlist] at hsorted
      refine ⟨fun e he => h.notOverdue e ?_, (List.pairwise_cons.mp hsorted).2, fun time => ?_, ?_⟩
      · rw [hlist]
        exact List.mem_cons_of_mem _ he
      · have hcovered := h.covered time
        rw [hlist, List.map_cons, hdue, List.count_cons] at hcovered
        rw [send, List.count_erase]
        change (rest.map s.due).count time ≤ _
        by_cases htime : time = s.now
        · subst htime
          simp at hcovered ⊢
          omega
        · rw [if_neg (by simpa using Ne.symm htime)] at hcovered ⊢
          omega
      · have htarget := h.target_eq
        rw [target, hlist] at htarget
        cases rest with
        | nil => exact htarget
        | cons e rest => exact htarget

/-- A value put behind entries that are due before it. -/
private theorem append_ordered {s : DelayState} (h : Ordered s) (bit : Vector4)
    {useDelay : BitVec 64} (hwrap : s.simtime.toNat + useDelay.toNat < 2 ^ 64)
    {l : List DelayEvent} (hl : l <:+ s.net.list)
    (hlast : ∀ e ∈ l, e.simTime ≤ s.simtime + useDelay) :
    Ordered { s with
      net := { s.net with list := l ++ [⟨s.simtime + useDelay, bit⟩] }
      pending := (s.now + useDelay.toNat) :: s.pending
      received := some bit } := by
  have hsum : (s.simtime + useDelay).toNat = s.simtime.toNat + useDelay.toNat :=
    BitVec.toNat_add_of_lt hwrap
  have hsim := simtime_toNat s
  refine ⟨?_, ?_, fun time => ?_, ?_⟩
  · intro e he
    rcases List.mem_append.mp he with he | he
    · exact h.notOverdue e (hl.subset he)
    · rw [List.mem_singleton.mp he, BitVec.le_def, hsum]
      exact Nat.le_add_right _ _
  · rw [List.pairwise_append]
    refine ⟨h.sorted.sublist hl.sublist, List.pairwise_singleton _ _, fun e he e' he' => ?_⟩
    rw [List.mem_singleton.mp he']
    exact hlast e he
  · have hnew : s.due ⟨s.simtime + useDelay, bit⟩ = s.now + useDelay.toNat := by
      rw [due, hsum, hsim]
      omega
    change ((l ++ [_]).map s.due).count time ≤ _
    rw [count_map_append, List.map_singleton, hnew, List.count_singleton, List.count_cons]
    exact Nat.add_le_add_right (suffix_covered h hl time) _
  · rw [target, List.getLast?_concat]

private theorem recvVec4_ordered {s : DelayState} (h : Ordered s) {bit : Vector4}
    (hturn : s.TakesTurn bit) : Ordered (s.recvVec4 bit) := by
  obtain ⟨hwrap, hturn⟩ := hturn
  have hsend : Ordered ({ s with
      net := { s.net with list := [] }, received := some bit }.send bit) :=
    ⟨by simp [send], List.Pairwise.nil, by simp [send], rfl⟩
  rw [recvVec4]
  change Ordered (match FunDelay.cleanPulseEvents s.net.list s.simtime
    (s.net.useDelay s.simtime bit) bit with | none => _ | some list => _)
  cases hlist : s.net.list with
  | nil =>
    have happend := append_ordered h bit hwrap List.nil_suffix (by simp)
    rw [FunDelay.cleanPulseEvents]
    dsimp only
    split_ifs with hzero
    · exact hsend
    · exact happend
  | cons cur rest =>
    have hcur := hturn cur (by rw [hlist]; rfl)
    rw [FunDelay.cleanPulseEvents]
    by_cases hskip : cur.ptrVec4 = bit
    · rw [if_pos hskip] at hcur ⊢
      exact ⟨h.notOverdue, h.sorted, h.covered, hcur⟩
    · rw [if_neg hskip] at hcur ⊢
      have hsuffix := cleanPulse_suffix s.simtime (s.net.useDelay s.simtime bit) s.net.list
      rw [← hlist, ← kept]
      dsimp only
      split_ifs with hzero
      · exact hsend
      · apply append_ordered h bit hwrap hsuffix
        intro e he
        rcases hcur with hnone | hlast
        · rw [kept] at hnone
          rw [hnone] at he
          cases he
        · exact hlast e (hsuffix.subset he)

/-- Every step keeps the events in order, an input if it takes its turn. -/
theorem step_ordered {s s' : DelayState} (h : Ordered s) {l : DelayStep} (hturn : s.Turn l)
    (hstep : s.step l = some s') : Ordered s' := by
  cases l with
  | recvVec4 bit =>
    cases hstep
    exact recvVec4_ordered h hturn
  | setRise val =>
    cases hstep
    exact ⟨h.notOverdue, h.sorted, h.covered, h.target_eq⟩
  | setFall val =>
    cases hstep
    exact ⟨h.notOverdue, h.sorted, h.covered, h.target_eq⟩
  | setDecay val =>
    obtain ⟨d, -, rfl⟩ := Option.map_eq_some_iff.mp hstep
    exact ⟨h.notOverdue, h.sorted, h.covered, h.target_eq⟩
  | advance time =>
    rw [step] at hstep
    split_ifs at hstep with hle
    cases hstep
    exact advance_ordered h hle.1 hle.2
  | runRun =>
    rw [step] at hstep
    split_ifs at hstep
    cases hstep
    exact runRun_ordered h

/-- While every input takes its turn, a functor with no call left is empty and has sent the last
value it received. -/
theorem delay_settles (width : Nat) (delay : VvpDelay) (now : Nat) (steps : List DelayStep)
    (s : DelayState) (hturn : Runs.Meets step Turn (init width delay now) steps)
    (hrun : Runs.run step (init width delay now) steps = some s) : Settled s :=
  (Runs.invariant_of_meets (fun _ _ _ hs hl hstep => step_ordered hs hl hstep)
    (init_ordered width delay now) hturn hrun).settled

/-- A second value that comes while the first is due, and waits longer. -/
theorem delay_settles_example : ∃ s, Runs.run step (init 1 (.ofThree 5 2 3) 0)
    [.recvVec4 [.z], .advance 3, .recvVec4 [.one], .runRun, .advance 8, .runRun] = some s ∧
    Settled s :=
  ⟨_, rfl, delay_settles 1 (.ofThree 5 2 3) 0 [.recvVec4 [.z], .advance 3, .recvVec4 [.one],
    .runRun, .advance 8, .runRun] _ (by decide) rfl⟩

/-- With rise 5, fall 2 and decay 3: while the first value is due but not yet sent, a one comes,
then a zero. The zero is put behind the one, its call finds the one in front of it and leaves,
and no call is left for it. -/
theorem delay_leaves_event : ¬ ∀ (width : Nat) (delay : VvpDelay) (now : Nat)
    (steps : List DelayStep) (s : DelayState),
    Runs.run step (init width delay now) steps = some s → Settled s := by
  intro h
  have hrun : ∃ s, Runs.run step (init 1 (.ofThree 5 2 3) 0)
      [.recvVec4 [.z], .advance 3, .recvVec4 [.one], .recvVec4 [.zero], .runRun, .advance 5,
        .runRun, .advance 8, .runRun] = some s ∧ ¬ Settled s :=
    ⟨_, rfl, by decide⟩
  obtain ⟨s, hs, hne⟩ := hrun
  exact hne (h _ _ _ _ s hs)

end DelayState
end Icarus.Vvp
