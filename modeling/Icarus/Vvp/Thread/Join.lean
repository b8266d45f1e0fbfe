import Icarus.Vvp.Thread.Step

/-!
# Joining children

A thread that is blocked in a `%join` has a child that has not ended, and goes
on when one of its children has, which is reaped for it. The end of `do_disable`
wakes the parent of a detached thread just as that of a child, so this fails
where a detached child of a joining thread is disabled, and only there.
-/

namespace Icarus.Vvp

open Core

namespace VThreads

variable {s s' : VThreads} {t : Nat}

/-- A thread goes on past a `%join` in a step: it was blocked, or it has just executed one. -/
def PastJoin (s s' : VThreads) (l : ThreadStep) (t : Nat) : Prop :=
  (s'.threads t).iAmJoining = false ∧ (s'.threads t).iHaveEnded = false ∧
    ((s.threads t).iAmJoining = true ∨ l = .op t .join)

/-- A thread that is blocked has children, all of them running. -/
theorem Blocked.joining (hb : Blocked s) (hj : (s.threads t).iAmJoining = true) :
    ∃ c ∈ (s.threads t).children, (s.threads c).iHaveEnded = false := by
  obtain ⟨-, -, -, -, hne, hlive⟩ := (hb t).joining hj
  obtain ⟨c, hc⟩ := List.exists_mem_of_ne_nil _ hne
  exact ⟨c, hc, hlive c hc⟩

/-- A thread that is blocked has been created. -/
theorem Blocked.lt_next (h : Forest s) (hb : Blocked s) (hj : (s.threads t).iAmJoining = true) :
    t < s.next := by
  by_contra hle
  exact ((hb t).joining hj).children (h.fresh t (Nat.le_of_not_lt hle)).1

/-- The end of a detached child that is disabled releases the parent from its `%join`. -/
private theorem Disables.releases {thr p : Nat} (hd : Disables s thr s') (h : Forest s)
    (hb : Blocked s) (hp : (s.threads thr).parent = some p)
    (hdet : (s.threads thr).iAmDetached = true) (hj : (s.threads p).iAmJoining = true) :
    (s'.threads p).iAmJoining = false ∧ (s'.threads p).iHaveEnded = false ∧ ¬ Joined s s' p := by
  have hself := (hd.woken p hp hj).1
  rw [hdet, withoutMember, if_pos rfl] at hself
  refine ⟨?_, ?_, ?_⟩
  · rw [hself]
  · rw [hself]
    exact ((hb p).joining hj).ended
  · rintro ⟨-, -, -, -, -, -, hset⟩
    rw [hself] at hset
    have hmem := h.mem_detached hp hdet
    rw [← hset] at hmem
    exact (h.nodup p).2.not_mem_erase hmem

/-- A step releases every thread from its `%join` as it should exactly if it disables no detached
child of a joining thread. -/
theorem step_joined (addr : Nat → Nat) (h : Forest s) (hb : Blocked s) {l : ThreadStep}
    (hstep : step addr s l = some s') :
    (∀ t, PastJoin s s' l t → Joined s s' t) ↔ JoinOk s l := by
  constructor
  · intro hall cur htarget p hp hbad
    obtain ⟨u, d, hd, rfl⟩ := step_disables addr h hb htarget hstep
    obtain ⟨hj, he, hnot⟩ := hd.releases h hb hp hbad.1 hbad.2
    exact hnot (hall p ⟨hj, he, .inl hbad.2⟩)
  · rintro hok t ⟨hj', he', hj | rfl⟩
    · exact (step_fair addr h hb hstep).resumed hok t (hb.lt_next h hj) hj hj' he'
    · unfold step at hstep
      cases hidle : s.disabling with
      | some d =>
        rw [hidle] at hstep
        cases hstep
      | none =>
        rw [hidle] at hstep
        dsimp only at hstep
        split_ifs at hstep with hrun
        exact (doJoinOpcode_calm h hb (executing_of_canRun hrun) hstep).2 hj'

theorem init_blocked : Blocked init := fun _ =>
  .of_flags rfl (fun hw => absurd hw Bool.false_ne_true) fun _ => rfl

/-- What holds of every state reached. -/
theorem run_fair (addr : Nat → Nat) {ls : List ThreadStep}
    (hrun : Runs.run (step addr) init ls = some s) : Forest s ∧ Blocked s := by
  have hsteps : ∀ s l s', Forest s ∧ Blocked s → step addr s l = some s' →
      Forest s' ∧ Blocked s' := by
    intro s l s' hs hstep
    have hfair := step_fair addr hs.1 hs.2 hstep
    exact ⟨hfair.forest, hfair.blocked⟩
  exact Runs.invariant hsteps ⟨init_forest, init_blocked⟩ hrun

/-- In every state reached a thread that is blocked in a `%join` has a child that has not ended.
A step releases each thread from its `%join` with one child reaped, and no detached one, exactly
if it disables no detached child of a thread that is blocked in a `%join`. -/
theorem join_reaps_child (addr : Nat → Nat) {ls : List ThreadStep}
    (hrun : Runs.run (step addr) init ls = some s) :
    (∀ t, (s.threads t).iAmJoining = true →
      ∃ c ∈ (s.threads t).children, (s.threads c).iHaveEnded = false) ∧
    ∀ l s', step addr s l = some s' →
      ((∀ t, PastJoin s s' l t → Joined s s' t) ↔ JoinOk s l) := by
  obtain ⟨h, hb⟩ := run_fair addr hrun
  exact ⟨fun _ => hb.joining, fun _ _ => step_joined addr h hb⟩

instance (s s' : VThreads) (l : ThreadStep) (t : Nat) : Decidable (PastJoin s s' l t) :=
  inferInstanceAs (Decidable (_ ∧ _ ∧ _))

instance (s s' : VThreads) (t : Nat) : Decidable (Joined s s' t) :=
  inferInstanceAs (Decidable (∃ c ∈ (s.threads t).children, _ ∧ _ ∧ _ ∧ _ ∧ _))

/-- A thread joins its child, which ends. -/
theorem join_reaps_child_run : ∃ s s', Runs.run (step id) init
      [.create 0 false, .run 0, .op 0 (.fork 1), .op 0 .join, .run 1] = some s ∧
    step id s (.op 1 .end) = some s' ∧ PastJoin s s' (.op 1 .end) 0 ∧ Joined s s' 0 := by
  obtain ⟨s, s', hrun, hstep, hok, hpast⟩ := Runs.exists_step_of_any (step id) init
    [.create 0 false, .run 0, .op 0 (.fork 1), .op 0 .join, .run 1] (.op 1 .end)
    (fun s s' => JoinOk s (.op 1 .end) ∧ PastJoin s s' (.op 1 .end) 0) (by decide +kernel)
  have hjoin := ((join_reaps_child id hrun).2 _ s' hstep).mpr hok
  exact ⟨s, s', hrun, hstep, hpast, hjoin 0 hpast⟩

/-- A thread is released from a `%join` though its only child goes on: another thread has disabled
one that it had detached. -/
theorem detached_disable_releases : ¬ ∀ ls s l s', Runs.run (step id) init ls = some s →
    step id s l = some s' → ∀ t, PastJoin s s' l t → Joined s s' t := by
  intro hall
  obtain ⟨s, s', hrun, hstep, hpast, hnot⟩ := Runs.exists_step_of_any (step id) init
    [.create 0 false, .run 0, .op 0 (.fork 1), .op 0 (.joinDetach 1), .op 0 (.fork 2),
      .op 0 .join, .create 3 false, .run 3, .op 3 (.disable 1)] .disableNext
    (fun s s' => PastJoin s s' .disableNext 0 ∧ ¬ Joined s s' 0) (by decide +kernel)
  exact hnot (hall _ _ _ _ hrun hstep 0 hpast)

/-! ## Waiting for detached children

A thread that is suspended in a `%wait/fork` has a detached child that has not
ended, as long as every detached child that ends leaves the set of its parent.
`%end` sees to that; `do_disable` does not, and wakes nobody but a thread that
is joining. -/

/-- A thread that waits has a detached child that is running. -/
theorem Blocked.waiting (hb : Blocked s) (hlive : Live s) (hw : (s.threads t).iAmWaiting = true)
    (he : (s.threads t).iHaveEnded = false) :
    ∃ d ∈ (s.threads t).detachedChildren, (s.threads d).iHaveEnded = false := by
  obtain ⟨-, -, hne⟩ := (hb t).waiting hw he
  obtain ⟨d, hd⟩ := List.exists_mem_of_ne_nil _ hne
  exact ⟨d, hd, hlive t he d hd⟩

/-- A step takes every detached child that ends from the set of its parent exactly if it does not
disable one whose parent is neither joining nor ended. -/
theorem step_live (addr : Nat → Nat) (h : Forest s) (hb : Blocked s) (hlive : Live s)
    {l : ThreadStep} (hstep : step addr s l = some s') : Live s' ↔ WaitOk s l := by
  constructor
  · intro hlive' cur htarget p hp hdet he
    obtain ⟨u, d, hd, rfl⟩ := step_disables addr h hb htarget hstep
    by_contra hj
    have hzombie := (hd.zombie p hp (Bool.eq_false_of_not_eq_true hj)).1
    have hne := hlive' p (by rw [hzombie]; exact he) cur (by
      rw [hzombie]
      exact h.mem_detached hp hdet)
    cases hd.self.1.symm.trans hne
  · intro hok
    exact (step_fair addr h hb hstep).live hok hlive

/-- A thread whose last detached child goes away is woken. -/
theorem step_waitedFor (addr : Nat → Nat) (h : Forest s) (hb : Blocked s) (hlive : Live s)
    {l : ThreadStep} (hok : WaitOk s l) (hstep : step addr s l = some s')
    (hw : (s.threads t).iAmWaiting = true) (he' : (s'.threads t).iHaveEnded = false)
    (hlt : t < s.next) : (s'.threads t).iAmWaiting = false ∧ WaitedFor s s' t ∨
      (s'.threads t).iAmWaiting = true ∧
        ∃ d ∈ (s'.threads t).detachedChildren, (s'.threads d).iHaveEnded = false := by
  have hfair := step_fair addr h hb hstep
  cases hw' : (s'.threads t).iAmWaiting with
  | false => exact .inl ⟨rfl, hfair.woken t hlt hw hw' he'⟩
  | true => exact .inr ⟨rfl, hfair.blocked.waiting (hfair.live hok hlive) hw' he'⟩

theorem init_live : Live init := fun _ _ _ hd => absurd hd List.not_mem_nil

/-- What holds of every state reached by steps that meet the condition. -/
theorem run_live (addr : Nat → Nat) {ls : List ThreadStep}
    (hok : Runs.Meets (step addr) WaitOk init ls) (hrun : Runs.run (step addr) init ls = some s) :
    Forest s ∧ Blocked s ∧ Live s := by
  have hsteps : ∀ s l s', Forest s ∧ Blocked s ∧ Live s → WaitOk s l →
      step addr s l = some s' → Forest s' ∧ Blocked s' ∧ Live s' := by
    rintro s l s' ⟨h, hb, hlive⟩ hok hstep
    have hfair := step_fair addr h hb hstep
    exact ⟨hfair.forest, hfair.blocked, hfair.live hok hlive⟩
  exact Runs.invariant_of_meets hsteps ⟨init_forest, init_blocked, init_live⟩ hok hrun

/-- In every run whose steps disable no detached child of a thread that is neither joining nor
ended, a thread that is suspended in a `%wait/fork` has a detached child that has not ended. The
next such step leaves it suspended with one that has not ended, or schedules it once when it has
none; and it takes each detached child that ends from the set of its parent. -/
theorem wait_fork_woken (addr : Nat → Nat) {ls : List ThreadStep}
    (hok : Runs.Meets (step addr) WaitOk init ls) (hrun : Runs.run (step addr) init ls = some s) :
    (∀ t, (s.threads t).iAmWaiting = true → (s.threads t).iHaveEnded = false →
      ∃ d ∈ (s.threads t).detachedChildren, (s.threads d).iHaveEnded = false) ∧
    ∀ l s', step addr s l = some s' → (Live s' ↔ WaitOk s l) ∧
      (WaitOk s l → ∀ t < s.next, (s.threads t).iAmWaiting = true →
        (s'.threads t).iHaveEnded = false → (s'.threads t).iAmWaiting = false ∧ WaitedFor s s' t ∨
          (s'.threads t).iAmWaiting = true ∧
            ∃ d ∈ (s'.threads t).detachedChildren, (s'.threads d).iHaveEnded = false) := by
  obtain ⟨h, hb, hlive⟩ := run_live addr hok hrun
  refine ⟨fun _ => hb.waiting hlive, fun l s' hstep => ⟨step_live addr h hb hlive hstep, ?_⟩⟩
  intro hok' t hlt hw he'
  exact step_waitedFor addr h hb hlive hok' hstep hw he' hlt

/-- A thread waits for its only detached child, which ends. -/
theorem wait_fork_woken_run : ∃ s s', Runs.run (step id) init
      [.create 0 false, .run 0, .op 0 (.fork 1), .op 0 (.joinDetach 1), .op 0 .waitFork,
        .run 1] = some s ∧
    step id s (.op 1 .end) = some s' ∧ (s.threads 0).iAmWaiting = true ∧
    (s'.threads 0).iAmWaiting = false ∧ WaitedFor s s' 0 := by
  obtain ⟨s, s', hrun, hstep, hok, hlt, hw, he', hw'⟩ := Runs.exists_step_of_any (step id) init
    [.create 0 false, .run 0, .op 0 (.fork 1), .op 0 (.joinDetach 1), .op 0 .waitFork, .run 1]
    (.op 1 .end) (fun s s' => WaitOk s (.op 1 .end) ∧ 0 < s.next ∧
      (s.threads 0).iAmWaiting = true ∧ (s'.threads 0).iHaveEnded = false ∧
      (s'.threads 0).iAmWaiting = false) (by decide +kernel)
  have hmeets : Runs.Meets (step id) WaitOk init
      [.create 0 false, .run 0, .op 0 (.fork 1), .op 0 (.joinDetach 1), .op 0 .waitFork,
        .run 1] := by decide +kernel
  refine ⟨s, s', hrun, hstep, hw, hw', ?_⟩
  rcases ((wait_fork_woken id hmeets hrun).2 _ s' hstep).2 hok 0 hlt hw he' with hgone | hstays
  · exact hgone.2
  · cases hw'.symm.trans hstays.1

/-- A thread waits for detached children though its only one has ended: another thread has
disabled it. -/
theorem detached_disable_forgotten : ¬ ∀ ls s l s', Runs.run (step id) init ls = some s →
    step id s l = some s' → ∀ t, (s'.threads t).iAmWaiting = true →
      (s'.threads t).iHaveEnded = false →
        ∃ d ∈ (s'.threads t).detachedChildren, (s'.threads d).iHaveEnded = false := by
  intro hall
  obtain ⟨s, s', hrun, hstep, hw, he, hnone⟩ := Runs.exists_step_of_any (step id) init
    [.create 0 false, .run 0, .op 0 (.fork 1), .op 0 (.joinDetach 1), .op 0 .waitFork,
      .create 2 false, .run 2, .op 2 (.disable 1), .disableNext] .disableNext
    (fun _ s' => (s'.threads 0).iAmWaiting = true ∧ (s'.threads 0).iHaveEnded = false ∧
      ¬ ∃ d ∈ (s'.threads 0).detachedChildren, (s'.threads d).iHaveEnded = false)
    (by decide +kernel)
  exact hnone (hall _ _ _ _ hrun hstep 0 hw he)

end VThreads

end Icarus.Vvp
