import Icarus.Vvp.Delay.Modpath

/-!
# Interconnect delays

`vvp_fun_intermodpath` keeps one vector, the newest, and schedules an event for every change of
it. An event sends the vector of the time it is run, not the one it was scheduled for.
-/

namespace Icarus.Vvp

open Core

/-- `vvp_fun_intermodpath` with the events in the scheduler, and what arrived and was sent so
far; the simulated time is counted without its wrap-around. -/
structure Intermodpath where
  /-- The simulated time. -/
  now : Nat
  /-- `cur_vec4_`. -/
  cur : Vector4
  /-- `delay_`. -/
  delay : Fin 12 → BitVec 64
  /-- The times at which its events are due. -/
  scheduled : List Nat
  /-- The vectors that arrived on port 0 with their times, the newest first. -/
  arrived : List (Nat × Vector4)
  /-- The vectors that were sent with their times, the newest first. -/
  sent : List (Nat × Vector4)

namespace Intermodpath

/-- A new functor with one delay for all edges. -/
def init (width : Nat) (d : BitVec 64) : Intermodpath :=
  ⟨0, List.replicate width .x, fun _ => d, [], [], []⟩

/-- The delay of the first bit that changes, as `recv_vec4` finds it; nothing where its assertion
that all bits that change have this delay fails. -/
def useDelay (s : Intermodpath) (bit : Vector4) : Option (BitVec 64) :=
  let delay := fun idx => delayFromEdge (s.cur.getD idx .x) (bit.getD idx .x) s.delay
  if (List.range bit.length).all fun idx =>
      idx = 0 ∨ s.cur.getD idx .x = bit.getD idx .x ∨ delay idx = delay 0
  then some (delay 0) else none

/-- `recv_vec4` on port 0. -/
def recvVec4 (s : Intermodpath) (bit : Vector4) : Option Intermodpath :=
  let s := { s with arrived := (s.now, bit) :: s.arrived }
  if s.cur = bit then some s
  else (s.useDelay bit).map fun delay =>
    { s with cur := bit, scheduled := (s.now + delay.toNat) :: s.scheduled }

/-- `run_run`, by an event that is due. -/
def runRun (s : Intermodpath) : Option Intermodpath :=
  if s.now ∈ s.scheduled then
    some { s with scheduled := s.scheduled.erase s.now, sent := (s.now, s.cur) :: s.sent }
  else none

/-- The time moves on, past no event that is due. -/
def advance (s : Intermodpath) (time : Nat) : Option Intermodpath :=
  if s.now ≤ time ∧ ∀ due ∈ s.scheduled, time ≤ due then some { s with now := time } else none

/-- What may happen to the functor. -/
inductive Action
  | recv (bit : Vector4)
  | run
  | advance (time : Nat)

/-- One step. -/
def step (s : Intermodpath) : Action → Option Intermodpath
  | .recv bit => s.recvVec4 bit
  | .run => s.runRun
  | .advance time => s.advance time

/-- A vector was on the input at a time: it arrived then, or before and nothing after it did
before that time. -/
def OnInput : List (Nat × Vector4) → Nat → Vector4 → Prop
  | [], _, _ => False
  | (since, v) :: earlier, t, bit => since ≤ t ∧ v = bit ∨ t ≤ since ∧ OnInput earlier t bit

instance decidableOnInput : ∀ arrived t bit, Decidable (OnInput arrived t bit)
  | [], _, _ => inferInstanceAs (Decidable False)
  | (since, v) :: earlier, t, bit =>
    have := decidableOnInput earlier t bit
    inferInstanceAs (Decidable (since ≤ t ∧ v = bit ∨ t ≤ since ∧ OnInput earlier t bit))

variable {s s' : Intermodpath} {d : BitVec 64} {arrived : List (Nat × Vector4)} {now t : Nat}
  {bit v : Vector4}

theorem onInput_cons (h : OnInput arrived t v) (ht : t ≤ now) :
    OnInput ((now, bit) :: arrived) t v :=
  .inr ⟨ht, h⟩

theorem onInput_now : OnInput ((now, bit) :: arrived) now bit := .inl ⟨le_refl now, rfl⟩

/-! ## What is sent -/

/-- Every vector that was sent was on the input a delay before. -/
def SentLate (s : Intermodpath) (d : BitVec 64) : Prop :=
  ∀ e ∈ s.sent, d.toNat ≤ e.1 ∧ OnInput s.arrived (e.1 - d.toNat) e.2

/-- A vector that differs from the current one arrives only when it was on the input at the
time every waiting event was scheduled, as it is where all of them were scheduled now. -/
def KeepsWaiting (d : BitVec 64) (s : Intermodpath) : Action → Prop
  | .recv bit => s.cur = bit ∨
      ∀ due ∈ s.scheduled, OnInput ((s.now, bit) :: s.arrived) (due - d.toNat) bit
  | _ => True

instance (d : BitVec 64) (s : Intermodpath) : ∀ a, Decidable (KeepsWaiting d s a)
  | .recv bit => inferInstanceAs (Decidable (s.cur = bit ∨
      ∀ due ∈ s.scheduled, OnInput ((s.now, bit) :: s.arrived) (due - d.toNat) bit))
  | .run => inferInstanceAs (Decidable True)
  | .advance _ => inferInstanceAs (Decidable True)

/-- The current vector was on the input when each waiting event was scheduled. -/
structure Waiting (d : BitVec 64) (s : Intermodpath) : Prop where
  /-- All edges have the delay. -/
  delay : s.delay = fun _ => d
  /-- An event is due a delay after it was scheduled, at a time that is not over. -/
  due : ∀ due ∈ s.scheduled, d.toNat ≤ due ∧ due ≤ s.now + d.toNat
  /-- The current vector was on the input then. -/
  cur : ∀ due ∈ s.scheduled, OnInput s.arrived (due - d.toNat) s.cur
  /-- Nothing was sent before its delay was over. -/
  sent : ∀ e ∈ s.sent, d.toNat ≤ e.1 ∧ e.1 ≤ s.now ∧ OnInput s.arrived (e.1 - d.toNat) e.2

theorem waiting_init (width : Nat) (d : BitVec 64) : Waiting d (init width d) :=
  ⟨rfl, List.forall_mem_nil _, List.forall_mem_nil _, List.forall_mem_nil _⟩

/-- With one delay for all edges the assertion never fails. -/
theorem useDelay_eq_some (h : s.delay = fun _ => d) (bit : Vector4) :
    s.useDelay bit = some d := by
  unfold useDelay
  rw [h]
  refine if_pos (List.all_eq_true.mpr fun idx _ => ?_)
  exact decide_eq_true (.inr (.inr rfl))

theorem Waiting.recvVec4 (h : Waiting d s) (bit : Vector4) :
    s.recvVec4 bit = some (if s.cur = bit then { s with arrived := (s.now, bit) :: s.arrived }
      else { s with
        arrived := (s.now, bit) :: s.arrived
        cur := bit
        scheduled := (s.now + d.toNat) :: s.scheduled }) := by
  unfold Intermodpath.recvVec4
  have hdelay := useDelay_eq_some (s := { s with arrived := (s.now, bit) :: s.arrived }) h.delay bit
  simp only [hdelay]
  split_ifs <;> rfl

theorem Waiting.sent_arrived (h : Waiting d s) (bit : Vector4) :
    ∀ e ∈ s.sent, d.toNat ≤ e.1 ∧ e.1 ≤ s.now ∧
      OnInput ((s.now, bit) :: s.arrived) (e.1 - d.toNat) e.2 := by
  intro e he
  obtain ⟨hle, hnow, hon⟩ := h.sent e he
  exact ⟨hle, hnow, onInput_cons hon ((Nat.sub_le _ _).trans hnow)⟩

theorem Waiting.recv (h : Waiting d s) (hkeeps : KeepsWaiting d s (.recv bit))
    (hstep : s.recvVec4 bit = some s') : Waiting d s' := by
  rw [h.recvVec4, Option.some.injEq] at hstep
  subst hstep
  split_ifs with hcur
  · refine ⟨h.delay, h.due, fun due hdue => ?_, h.sent_arrived bit⟩
    have hlate := (h.due due hdue).2
    exact onInput_cons (h.cur due hdue) (by omega)
  · have hnow : s.now + d.toNat - d.toNat = s.now := Nat.add_sub_cancel _ _
    refine ⟨h.delay, ?_, ?_, h.sent_arrived bit⟩
    · intro due hdue
      rcases List.mem_cons.mp hdue with rfl | hdue
      · exact ⟨Nat.le_add_left _ _, le_refl _⟩
      · exact h.due due hdue
    · intro due hdue
      rcases List.mem_cons.mp hdue with rfl | hdue
      · rw [hnow]
        exact onInput_now
      · exact (hkeeps.resolve_left hcur) due hdue

theorem Waiting.runRun (h : Waiting d s) (hstep : s.runRun = some s') : Waiting d s' := by
  unfold Intermodpath.runRun at hstep
  split_ifs at hstep with hmem
  rw [Option.some.injEq] at hstep
  subst hstep
  refine ⟨h.delay, fun due hdue => h.due due (List.mem_of_mem_erase hdue),
    fun due hdue => h.cur due (List.mem_of_mem_erase hdue), fun e he => ?_⟩
  rcases List.mem_cons.mp he with rfl | he
  · exact ⟨(h.due s.now hmem).1, le_refl _, h.cur s.now hmem⟩
  · exact h.sent e he

theorem Waiting.advance (h : Waiting d s) (hstep : s.advance t = some s') : Waiting d s' := by
  unfold Intermodpath.advance at hstep
  split_ifs at hstep with htime
  rw [Option.some.injEq] at hstep
  subst hstep
  refine ⟨h.delay, fun due hdue => ?_, h.cur, fun e he => ?_⟩
  · have hdue := h.due due hdue
    exact ⟨hdue.1, hdue.2.trans (Nat.add_le_add_right htime.1 _)⟩
  · have hsent := h.sent e he
    exact ⟨hsent.1, hsent.2.1.trans htime.1, hsent.2.2⟩

theorem Waiting.step {a : Action} (h : Waiting d s) (hkeeps : KeepsWaiting d s a)
    (hstep : s.step a = some s') : Waiting d s' := by
  cases a with
  | recv bit => exact h.recv hkeeps hstep
  | run => exact h.runRun hstep
  | advance t => exact h.advance hstep

/-- No vector is sent before its delay is over, in a run in which none arrives that was not on
the input when the waiting events were scheduled. -/
theorem sentLate_of_keepsWaiting (width : Nat) (d : BitVec 64) (actions : List Action)
    (s : Intermodpath) (hkeeps : Runs.Meets step (KeepsWaiting d) (init width d) actions)
    (hrun : Runs.run step (init width d) actions = some s) : s.SentLate d := by
  have hwaiting : Waiting d s :=
    Runs.invariant_of_meets (fun _ _ _ h hkeeps hstep => h.step hkeeps hstep)
      (waiting_init width d) hkeeps hrun
  intro e he
  obtain ⟨hle, -, hon⟩ := hwaiting.sent e he
  exact ⟨hle, hon⟩

/-- A change after the first event has run. -/
theorem sentLate_of_keepsWaiting_changes : ∃ s, Runs.run step (init 1 10)
    [.recv [.one], .advance 10, .run, .advance 12, .recv [.zero], .advance 22, .run] = some s ∧
      s.sent = [(22, [.zero]), (10, [.one])] ∧ s.SentLate 10 := by
  have hkeeps : Runs.Meets step (KeepsWaiting 10) (init 1 10)
      [.recv [.one], .advance 10, .run, .advance 12, .recv [.zero], .advance 22, .run] := by decide
  exact ⟨_, rfl, rfl, sentLate_of_keepsWaiting 1 10 _ _ hkeeps rfl⟩

/-- A change after 3 of 10 units of time is sent after 10 instead of 13. -/
theorem sent_before_delay : ∃ s, Runs.run step (init 1 10)
    [.recv [.one], .advance 3, .recv [.zero], .advance 10, .run] = some s ∧ ¬ s.SentLate 10 := by
  refine ⟨_, rfl, fun h => ?_⟩
  exact absurd (h (10, [.zero]) List.mem_cons_self).2 (by decide)

end Intermodpath

end Icarus.Vvp
