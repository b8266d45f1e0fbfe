import Icarus.Vvp.Thread.Disable

/-!
# Blocked threads

A thread that is blocked in a `%join` has children, none of which has ended, and
one that is suspended in a `%wait/fork` has detached children. Each opcode keeps
this; what it does to a thread it wakes is stated with it.
-/

namespace Icarus.Vvp

namespace VThreads

variable {s s' : VThreads} {thr t p : Nat}

/-- What holds of a thread that is blocked in a `%join`. -/
structure JoinBlocked (s : VThreads) (t : Nat) : Prop where
  /-- It has not ended. -/
  ended : (s.threads t).iHaveEnded = false
  /-- It is not scheduled. -/
  scheduled : (s.threads t).isScheduled = false
  /-- It is not suspended in a `%wait/fork`. -/
  waiting : (s.threads t).iAmWaiting = false
  /-- It does not wait for an event. -/
  event : (s.threads t).waitingForEvent = false
  /-- It has children. -/
  children : (s.threads t).children ≠ []
  /-- None of them has ended. -/
  live : ∀ c ∈ (s.threads t).children, (s.threads c).iHaveEnded = false

/-- What holds of a thread that is suspended in a `%wait/fork`. -/
structure WaitBlocked (s : VThreads) (t : Nat) : Prop where
  /-- It is not scheduled. -/
  scheduled : (s.threads t).isScheduled = false
  /-- It does not wait for an event. -/
  event : (s.threads t).waitingForEvent = false
  /-- It has detached children. -/
  detached : (s.threads t).detachedChildren ≠ []

/-- The flags by which a thread is blocked are right. -/
structure BlockedAt (s : VThreads) (t : Nat) : Prop where
  /-- `i_am_joining`. -/
  joining : (s.threads t).iAmJoining = true → JoinBlocked s t
  /-- `i_am_waiting`, until the thread is disabled. -/
  waiting : (s.threads t).iAmWaiting = true → (s.threads t).iHaveEnded = false → WaitBlocked s t
  /-- A thread that has ended has no children. -/
  childless : (s.threads t).iHaveEnded = true → (s.threads t).children = []

/-- The flags are right for every thread. -/
def Blocked (s : VThreads) : Prop := ∀ t, BlockedAt s t

/-- What `BlockedAt` reads of a thread. -/
def blockView (t : VThread) : Bool × Bool × Bool × Bool × Bool × List Nat × List Nat :=
  (t.iAmJoining, t.iHaveEnded, t.isScheduled, t.iAmWaiting, t.waitingForEvent, t.children,
    t.detachedChildren)

/-- Nothing that matters to a thread has changed. -/
theorem BlockedAt.congr (h : BlockedAt s t)
    (hview : blockView (s'.threads t) = blockView (s.threads t))
    (hchildren : (s.threads t).iAmJoining = true → ∀ c ∈ (s.threads t).children,
      (s'.threads c).iHaveEnded = (s.threads c).iHaveEnded) : BlockedAt s' t := by
  simp only [blockView, Prod.mk.injEq] at hview
  obtain ⟨hj, he, hs, hw, hv, hc, hd⟩ := hview
  constructor
  · intro hjoin
    rw [hj] at hjoin
    obtain ⟨h₁, h₂, h₃, h₄, h₅, h₆⟩ := h.joining hjoin
    refine ⟨he.trans h₁, hs.trans h₂, hw.trans h₃, hv.trans h₄, hc.symm ▸ h₅, fun c hmem => ?_⟩
    rw [hc] at hmem
    exact (hchildren hjoin c hmem).trans (h₆ c hmem)
  · intro hwait hend
    rw [hw] at hwait
    rw [he] at hend
    obtain ⟨h₁, h₂, h₃⟩ := h.waiting hwait hend
    exact ⟨hs.trans h₁, hv.trans h₂, hd.symm ▸ h₃⟩
  · intro hend
    rw [he] at hend
    exact hc.trans (h.childless hend)

/-- A thread that is neither joining nor waiting is not blocked. -/
theorem BlockedAt.of_flags (hj : (s.threads t).iAmJoining = false)
    (hw : (s.threads t).iAmWaiting = true → (s.threads t).iHaveEnded = true)
    (hc : (s.threads t).iHaveEnded = true → (s.threads t).children = []) : BlockedAt s t := by
  constructor
  · intro hjoin
    rw [hj] at hjoin
    cases hjoin
  · intro hwait hend
    rw [hw hwait] at hend
    cases hend
  · exact hc

theorem Blocked.joinsSome (h : Blocked s) : JoinsSome s := fun t ht => ((h t).joining ht).children

/-- Every detached child of a thread that has not ended is running. -/
def Live (s : VThreads) : Prop :=
  ∀ t, (s.threads t).iHaveEnded = false → ∀ d ∈ (s.threads t).detachedChildren,
    (s.threads d).iHaveEnded = false

/-- A thread goes on past a `%join`: one child that has ended is reaped for it. -/
def Joined (s s' : VThreads) (t : Nat) : Prop :=
  ∃ c ∈ (s.threads t).children, (s.threads c).iAmDetached = false ∧
    (s'.threads c).iHaveEnded = true ∧ (s'.threads c).reaped = true ∧
    (s'.threads t).children = (s.threads t).children.erase c ∧
    (s'.threads t).detachedChildren = (s.threads t).detachedChildren

/-- A thread goes on past a `%wait/fork`: it is scheduled once, and has no detached children. -/
def WaitedFor (s s' : VThreads) (t : Nat) : Prop :=
  (s.threads t).isScheduled = false ∧ (s'.threads t).isScheduled = true ∧
    (s'.threads t).detachedChildren = []

/-- What a step does to the threads that are blocked. The conditions are those under which joins
and waits are as they should be. -/
structure Fair (s s' : VThreads) (joinOk waitOk : Prop) : Prop where
  /-- The forest is kept. -/
  forest : Forest s'
  /-- The flags are right. -/
  blocked : Blocked s'
  /-- What a thread that is released from a `%join` has joined. -/
  resumed : joinOk → ∀ t < s.next, (s.threads t).iAmJoining = true →
    (s'.threads t).iAmJoining = false → (s'.threads t).iHaveEnded = false → Joined s s' t
  /-- What a thread that is released from a `%wait/fork` has waited for. -/
  woken : ∀ t < s.next, (s.threads t).iAmWaiting = true → (s'.threads t).iAmWaiting = false →
    (s'.threads t).iHaveEnded = false → WaitedFor s s' t
  /-- A detached child that ends leaves its parent. -/
  live : waitOk → Live s → Live s'

/-- A step that releases no thread. -/
structure Calm (s s' : VThreads) : Prop where
  /-- The forest is kept. -/
  forest : Forest s'
  /-- The flags are right. -/
  blocked : Blocked s'
  /-- No thread is forgotten. -/
  next_le : s.next ≤ s'.next
  /-- A thread goes on joining, or is disabled. -/
  joining : ∀ t < s.next, (s.threads t).iAmJoining = true →
    (s'.threads t).iAmJoining = true ∨ (s'.threads t).iHaveEnded = true
  /-- So does one that is waiting. -/
  waiting : ∀ t < s.next, (s.threads t).iAmWaiting = true →
    (s'.threads t).iAmWaiting = true ∨ (s'.threads t).iHaveEnded = true
  /-- What has ended stays so. -/
  ended : ∀ t < s.next, (s.threads t).iHaveEnded = true → (s'.threads t).iHaveEnded = true
  /-- A detached child that ends leaves its parent. -/
  live : Live s → Live s'

theorem Calm.refl (h : Forest s) (hb : Blocked s) : Calm s s :=
  ⟨h, hb, le_refl _, fun _ _ => .inl, fun _ _ => .inl, fun _ _ => id, id⟩

theorem Calm.trans {s'' : VThreads} (h : Calm s s') (h' : Calm s' s'') : Calm s s'' where
  forest := h'.forest
  blocked := h'.blocked
  next_le := h.next_le.trans h'.next_le
  joining := by
    intro t hlt ht
    rcases h.joining t hlt ht with hj | he
    · exact h'.joining t (hlt.trans_le h.next_le) hj
    · exact .inr (h'.ended t (hlt.trans_le h.next_le) he)
  waiting := by
    intro t hlt ht
    rcases h.waiting t hlt ht with hw | he
    · exact h'.waiting t (hlt.trans_le h.next_le) hw
    · exact .inr (h'.ended t (hlt.trans_le h.next_le) he)
  ended t hlt ht := h'.ended t (hlt.trans_le h.next_le) (h.ended t hlt ht)
  live hlive := h'.live (h.live hlive)

theorem Calm.fair (h : Calm s s') (P Q : Prop) : Fair s s' P Q where
  forest := h.forest
  blocked := h.blocked
  resumed := by
    intro _ t hlt hj hj' he
    rcases h.joining t hlt hj with hj'' | he'
    · rw [hj''] at hj'
      cases hj'
    · rw [he'] at he
      cases he
  woken := by
    intro t hlt hw hw' he
    rcases h.waiting t hlt hw with hw'' | he'
    · rw [hw''] at hw'
      cases hw'
    · rw [he'] at he
      cases he
  live _ := h.live

/-- A change of flags of one thread that does not release it. -/
theorem Calm.of_modify (h : Forest s) (hb : Blocked s) {f : VThread → VThread}
    (hlinks : SameLinks (s.threads thr) (f (s.threads thr)))
    (hended : (f (s.threads thr)).iHaveEnded = (s.threads thr).iHaveEnded)
    (hjoining : (s.threads thr).iAmJoining = true → (f (s.threads thr)).iAmJoining = true)
    (hwaiting : (s.threads thr).iAmWaiting = true → (f (s.threads thr)).iAmWaiting = true)
    (hblocked : BlockedAt (s.modify thr f) thr) : Calm s (s.modify thr f) := by
  have hsame := modify_keeps s VThread.iHaveEnded hended
  refine ⟨h.modify hlinks, fun t => ?_, le_refl _, fun t _ ht => .inl ?_, fun t _ ht => .inl ?_,
    fun t _ ht => (hsame t).trans ht, fun hlive t ht d hd => ?_⟩
  · rcases eq_or_ne t thr with rfl | hne
    · exact hblocked
    · exact (hb t).congr (congrArg blockView (modify_of_ne s hne f)) fun _ c _ => hsame c
  · rcases eq_or_ne t thr with rfl | hne
    · rw [modify_self]
      exact hjoining ht
    · rw [modify_of_ne s hne]
      exact ht
  · rcases eq_or_ne t thr with rfl | hne
    · rw [modify_self]
      exact hwaiting ht
    · rw [modify_of_ne s hne]
      exact ht
  · rw [hsame] at ht ⊢
    rw [modify_keeps s VThread.detachedChildren hlinks.detachedChildren] at hd
    exact hlive t ht d hd

/-! ## Reaping -/

/-- What reaping a thread leaves as it is. -/
private theorem Forest.reap_same (h : Forest s) (hchildren : (s.threads thr).children = [])
    (hreaped : (s.threads thr).reaped = false) (t : Nat) :
    ((s.vthreadReap thr).threads t).iAmJoining = (s.threads t).iAmJoining ∧
      ((s.vthreadReap thr).threads t).iAmWaiting = (s.threads t).iAmWaiting ∧
      ((s.vthreadReap thr).threads t).iHaveEnded = (s.threads t).iHaveEnded ∧
      ((s.vthreadReap thr).threads t).detachedChildren.Sublist (s.threads t).detachedChildren ∧
      ((s.threads thr).parent ≠ some t →
        blockView ((s.vthreadReap thr).threads t) = blockView (s.threads t)) := by
  rw [h.threads_reap hchildren hreaped]
  split_ifs with heq hp
  · rw [heq]
    exact ⟨rfl, rfl, rfl, .refl _, fun _ => rfl⟩
  · rw [withoutMember]
    split_ifs
    · exact ⟨rfl, rfl, rfl, List.erase_sublist, fun hne => absurd hp hne⟩
    · exact ⟨rfl, rfl, rfl, .refl _, fun hne => absurd hp hne⟩
  · exact ⟨rfl, rfl, rfl, .refl _, fun _ => rfl⟩
  · exact ⟨rfl, rfl, rfl, .refl _, fun _ => rfl⟩

/-- Reaping a thread keeps the flags right if its parent is not blocked. -/
private theorem Blocked.reap (h : Forest s) (hb : Blocked s)
    (hchildren : (s.threads thr).children = []) (hreaped : (s.threads thr).reaped = false)
    (hparent : ∀ p, (s.threads thr).parent = some p →
      (s.threads p).iAmJoining = false ∧ (s.threads p).iAmWaiting = false) :
    Blocked (s.vthreadReap thr) := by
  intro t
  obtain ⟨hj, hw, he, -, hview⟩ := h.reap_same hchildren hreaped t
  by_cases hp : (s.threads thr).parent = some t
  · obtain ⟨hjf, hwf⟩ := hparent t hp
    refine .of_flags (hj.trans hjf) (fun hwt => ?_) fun ht => ?_
    · rw [hw, hwf] at hwt
      cases hwt
    · have hnil := (hb t).childless (he ▸ ht)
      rw [h.threads_reap hchildren hreaped, if_pos hp, withoutMember]
      split_ifs with heq
      · exact hchildren
      · exact hnil
      · dsimp only
        rw [hnil]
        rfl
  · exact (hb t).congr (hview hp) fun _ c _ => (h.reap_same hchildren hreaped c).2.2.1

theorem Calm.reap (h : Forest s) (hb : Blocked s)
    (hchildren : (s.threads thr).children = []) (hreaped : (s.threads thr).reaped = false)
    (hended : (s.threads thr).iHaveEnded = true)
    (hparent : ∀ p, (s.threads thr).parent = some p →
      (s.threads p).iAmJoining = false ∧ (s.threads p).iAmWaiting = false) :
    Calm s (s.vthreadReap thr) := by
  have hsame := h.reap_same hchildren hreaped
  refine ⟨h.reap hchildren hreaped hended, hb.reap h hchildren hreaped hparent,
    (vthreadReap_next s thr).ge, fun t _ ht => .inl ((hsame t).1.trans ht),
    fun t _ ht => .inl ((hsame t).2.1.trans ht), fun t _ ht => (hsame t).2.2.1.trans ht,
    fun hlive t ht d hd => ?_⟩
  rw [(hsame t).2.2.1] at ht
  rw [(hsame d).2.2.1]
  exact hlive t ht d ((hsame t).2.2.2.1.subset hd)

/-! ## Disabling -/

/-- A thread that has not ended is left alone, or only loses its parent. -/
private theorem Disables.left_alone (hd : Disables s thr s') (ht : t ≠ thr)
    (hp : (s.threads thr).parent ≠ some t) (hne : (s'.threads t).iHaveEnded = false) :
    (s'.threads t).iAmJoining = (s.threads t).iAmJoining ∧
      blockView (s'.threads t) = blockView (s.threads t) := by
  rcases hd.others t ht hp with hch | hch | ⟨-, hch⟩
  · rw [hch.1] at hne
    cases hne
  · rw [hch]
    exact ⟨rfl, rfl⟩
  · rw [hch]
    exact ⟨rfl, rfl⟩

/-- A detached child that has ended and is still in a set is the one disabled, and nobody was
waiting for it in a `%join`. -/
private theorem Disables.still_detached (hd : Disables s thr s') (h : Forest s) (hb : Blocked s)
    (hlive : Live s) (hne : (s'.threads t).iHaveEnded = false) {d : Nat}
    (hdm : d ∈ (s'.threads t).detachedChildren) (hde : (s'.threads d).iHaveEnded = true) :
    d = thr ∧ (s.threads thr).parent = some t ∧ (s.threads thr).iAmDetached = true ∧
      (s.threads t).iHaveEnded = false ∧ (s.threads t).iAmJoining = false := by
  have ht : t ≠ thr := by
    rintro rfl
    rw [hd.self.1] at hne
    cases hne
  have hold : (s.threads t).iHaveEnded = false ∧ d ∈ (s.threads t).detachedChildren ∧
      ((s.threads thr).parent = some t → (s.threads thr).iAmDetached = true →
        (s.threads t).iAmJoining = true → d ≠ thr) := by
    by_cases hp : (s.threads thr).parent = some t
    · cases hj : (s.threads t).iAmJoining with
      | true =>
        rw [(hd.woken t hp hj).1] at hdm
        refine ⟨((hb t).joining hj).ended, ?_, fun _ hdet _ => ?_⟩
        · rw [withoutMember] at hdm
          split_ifs at hdm
          · exact List.mem_of_mem_erase hdm
          · exact hdm
        · rintro rfl
          rw [hdet, withoutMember, if_pos rfl] at hdm
          exact (h.nodup t).2.not_mem_erase hdm
      | false =>
        rw [(hd.zombie t hp hj).1] at hne hdm
        exact ⟨hne, hdm, fun _ _ hj' => absurd hj' Bool.false_ne_true⟩
    · have hview := (hd.left_alone ht hp hne).2
      simp only [blockView, Prod.mk.injEq] at hview
      rw [hview.2.1] at hne
      rw [hview.2.2.2.2.2.2] at hdm
      exact ⟨hne, hdm, fun hp' => absurd hp' hp⟩
  obtain ⟨htl, hmem, hnot⟩ := hold
  obtain ⟨hdp, hdd⟩ := h.detached t d (h.not_reaped htl) hmem
  rcases hd.ended d hde with hold | rfl | ⟨p, -, hdf, -⟩
  · rw [hlive t htl d hmem] at hold
    cases hold
  · refine ⟨rfl, hdp, hdd, htl, ?_⟩
    cases hj : (s.threads t).iAmJoining with
    | false => rfl
    | true => exact absurd rfl (hnot hdp hdd hj)
  · rw [hdd] at hdf
    cases hdf

/-- Disabling a thread that a `%join` is not waiting for in vain. -/
theorem Disables.fair (hd : Disables s thr s') (h : Forest s) (hb : Blocked s) :
    Fair s s' (∀ p, (s.threads thr).parent = some p →
        ¬ ((s.threads thr).iAmDetached = true ∧ (s.threads p).iAmJoining = true))
      (∀ p, (s.threads thr).parent = some p → (s.threads thr).iAmDetached = true →
        (s.threads p).iHaveEnded = false → (s.threads p).iAmJoining = true) := by
  obtain ⟨hend, hjoin, hempty⟩ := hd.self
  refine ⟨hd.forest, ?_, ?_, ?_, ?_⟩
  · intro t
    rcases eq_or_ne t thr with rfl | ht
    · exact .of_flags hjoin (fun _ => hend) fun _ => hempty
    by_cases hp : (s.threads thr).parent = some t
    · cases hj : (s.threads t).iAmJoining with
      | true =>
        have hw := ((hb t).joining hj).waiting
        have hself := (hd.woken t hp hj).1
        apply BlockedAt.of_flags
        · rw [hself, withoutMember]
          split_ifs <;> rfl
        · intro hwait
          rw [hself, withoutMember] at hwait
          split_ifs at hwait <;> exact absurd hwait (by simp [hw])
        · intro hte
          rw [hself, (withoutMember_flags _ _ _).2.2.2] at hte
          dsimp only at hte
          rw [((hb t).joining hj).ended] at hte
          cases hte
      | false =>
        refine (hb t).congr (congrArg blockView (hd.zombie t hp hj).1) fun hj' => ?_
        rw [hj] at hj'
        cases hj'
    · cases hne : (s'.threads t).iHaveEnded with
      | true =>
        rcases hd.others t ht hp with hch | hch | ⟨-, hch⟩
        · exact .of_flags hch.2.1 (fun _ => hch.1) fun _ => hch.2.2
        · refine (hb t).congr (congrArg blockView hch) fun hj => ?_
          rw [hch, ((hb t).joining hj).ended] at hne
          cases hne
        · refine (hb t).congr (by rw [hch]; rfl) fun hj => ?_
          rw [hch] at hne
          dsimp only at hne
          rw [((hb t).joining hj).ended] at hne
          cases hne
      | false =>
        obtain ⟨-, hview⟩ := hd.left_alone ht hp hne
        refine (hb t).congr hview fun hj c hc => ?_
        rw [((hb t).joining hj).live c hc]
        have hparent := (h.child t c hc).1
        by_contra hce
        rcases hd.ended c (Bool.eq_true_of_not_eq_false hce) with hold | rfl | ⟨p, hcp, -, hpe⟩
        · rw [((hb t).joining hj).live c hc] at hold
          cases hold
        · exact hp hparent
        · obtain rfl : t = p := Option.some.inj (hparent.symm.trans hcp)
          rw [hne] at hpe
          cases hpe
  · intro hok t _ hj hj' hne
    have ht : t ≠ thr := by
      rintro rfl
      rw [hend] at hne
      cases hne
    by_cases hp : (s.threads thr).parent = some t
    · have hdet : (s.threads thr).iAmDetached = false := by
        cases hdt : (s.threads thr).iAmDetached with
        | false => rfl
        | true => exact absurd ⟨hdt, hj⟩ (hok t hp)
      obtain ⟨hself, hr⟩ := hd.woken t hp hj
      rw [hdet, withoutMember] at hself
      refine ⟨thr, h.mem_children hp hdet, hdet, hend, hr, ?_, ?_⟩
      · rw [hself]
        rfl
      · rw [hself]
        rfl
    · rw [(hd.left_alone ht hp hne).1, hj] at hj'
      cases hj'
  · intro t _ hw hw' hne
    have ht : t ≠ thr := by
      rintro rfl
      rw [hend] at hne
      cases hne
    by_cases hp : (s.threads thr).parent = some t
    · cases hj : (s.threads t).iAmJoining with
      | true =>
        rw [((hb t).joining hj).waiting] at hw
        cases hw
      | false =>
        rw [(hd.zombie t hp hj).1, hw] at hw'
        cases hw'
    · have hview := (hd.left_alone ht hp hne).2
      simp only [blockView, Prod.mk.injEq] at hview
      rw [hview.2.2.2.1, hw] at hw'
      cases hw'
  · intro hok hlive t hne d hdm
    by_contra hde
    obtain ⟨-, hp, hdet, htl, hj⟩ := hd.still_detached h hb hlive hne hdm
      (Bool.eq_true_of_not_eq_false hde)
    rw [hok t hp hdet htl] at hj
    cases hj

/-! ## The opcodes -/

/-- A thread that executes an opcode. -/
structure Executing (s : VThreads) (thr : Nat) : Prop where
  /-- It exists. -/
  lt : thr < s.next
  /-- It has not ended. -/
  ended : (s.threads thr).iHaveEnded = false
  /-- It is not scheduled. -/
  scheduled : (s.threads thr).isScheduled = false
  /-- It is not blocked in a `%join`. -/
  joining : (s.threads thr).iAmJoining = false
  /-- It is not suspended in a `%wait/fork`. -/
  waiting : (s.threads thr).iAmWaiting = false
  /-- It does not wait for an event. -/
  event : (s.threads thr).waitingForEvent = false

theorem executing_of_canRun (h : s.canRun thr = true) : Executing s thr := by
  simp only [canRun, Bool.and_eq_true, decide_eq_true_eq, Bool.not_eq_true'] at h
  obtain ⟨⟨⟨⟨⟨hlt, he⟩, hs⟩, hj⟩, hw⟩, hv⟩ := h
  exact ⟨hlt, he, hs, hj, hw, hv⟩

/-- One detached child disabled and reaped. -/
private theorem disableFork_child (h : Forest s) (hb : Blocked s) (hx : Executing s thr) {child : Nat}
    (hmem : child ∈ (s.threads thr).detachedChildren) (hd : Disables s child s') :
    Calm s (s'.vthreadReap child) ∧ (s'.vthreadReap child).next = s.next ∧
      (s'.vthreadReap child).threads thr =
        { s.threads thr with
          detachedChildren := (s.threads thr).detachedChildren.erase child } := by
  obtain ⟨hparent, hdet⟩ := h.detached thr child (h.not_reaped hx.ended) hmem
  have hne : child ≠ thr := (Nat.ne_of_lt (h.parent_lt thr child hparent).1).symm
  obtain ⟨hthr, hparent', hdet'⟩ := hd.zombie thr hparent hx.joining
  obtain ⟨hend, hjoin, hempty⟩ := hd.self
  have hlive := hd.forest.not_reaped_of_parent hparent'
  have hblocked := (hd.fair h hb).blocked
  have hsame := hd.forest.reap_same hempty hlive
  have hself : (s'.vthreadReap child).threads thr =
      { s.threads thr with
        detachedChildren := (s.threads thr).detachedChildren.erase child } := by
    rw [hd.forest.threads_reap hempty hlive, if_neg hne.symm, if_pos hparent', hdet', hdet, hthr,
      withoutMember, if_pos rfl]
  -- a thread that was blocked is another one, and is left alone or ended
  have hothers : ∀ t, t ≠ thr → (s'.threads t).iHaveEnded = true ∨
      (s'.threads t).iAmJoining = (s.threads t).iAmJoining ∧
        (s'.threads t).iAmWaiting = (s.threads t).iAmWaiting := by
    intro t ht
    rcases eq_or_ne t child with rfl | htc
    · exact .inl hend
    · have hp : (s.threads child).parent ≠ some t := by
        rw [hparent]
        intro heq
        exact ht (Option.some.inj heq).symm
      rcases hd.others t htc hp with hch | hch | ⟨-, hch⟩
      · exact .inl hch.1
      · rw [hch]
        exact .inr ⟨rfl, rfl⟩
      · rw [hch]
        exact .inr ⟨rfl, rfl⟩
  have hnext : (s'.vthreadReap child).next = s.next := (vthreadReap_next _ _).trans hd.next
  refine ⟨⟨hd.forest.reap hempty hlive hend, hblocked.reap hd.forest hempty hlive ?_, hnext.ge,
    ?_, ?_, ?_, ?_⟩, hnext, hself⟩
  · intro p hp
    obtain rfl : thr = p := Option.some.inj (hparent'.symm.trans hp)
    rw [hthr]
    exact ⟨hx.joining, hx.waiting⟩
  · intro t _ ht
    have htne : t ≠ thr := by
      rintro rfl
      rw [hx.joining] at ht
      cases ht
    rw [(hsame t).1, (hsame t).2.2.1]
    rcases hothers t htne with he | ⟨hj, -⟩
    · exact .inr he
    · exact .inl (hj.trans ht)
  · intro t _ ht
    have htne : t ≠ thr := by
      rintro rfl
      rw [hx.waiting] at ht
      cases ht
    rw [(hsame t).2.1, (hsame t).2.2.1]
    rcases hothers t htne with he | ⟨-, hw⟩
    · exact .inr he
    · exact .inl (hw.trans ht)
  · intro t _ ht
    rw [(hsame t).2.2.1]
    rcases eq_or_ne t thr with rfl | htne
    · rw [hthr]
      exact ht
    rcases eq_or_ne t child with rfl | htc
    · exact hend
    · refine (hd.others t htc ?_).ended ht
      rw [hparent]
      intro heq
      exact htne (Option.some.inj heq).symm
  · intro hl t ht d hdm
    rw [(hsame t).2.2.1] at ht
    rw [(hsame d).2.2.1]
    by_contra hde
    obtain ⟨rfl, hp, -⟩ := hd.still_detached h hb hl ht ((hsame t).2.2.2.1.subset hdm)
      (Bool.eq_true_of_not_eq_false hde)
    obtain rfl : thr = t := Option.some.inj (hparent.symm.trans hp)
    rw [hself] at hdm
    exact (h.nodup thr).2.not_mem_erase hdm

/-- A thread of which only the children have changed goes on executing. -/
theorem Executing.of_eq (hx : Executing s thr) (hnext : s'.next = s.next) {c d : List Nat}
    (heq : s'.threads thr = { s.threads thr with children := c, detachedChildren := d }) :
    Executing s' thr := by
  refine ⟨hnext ▸ hx.lt, ?_, ?_, ?_, ?_, ?_⟩ <;> rw [heq]
  · exact hx.ended
  · exact hx.scheduled
  · exact hx.joining
  · exact hx.waiting
  · exact hx.event

/-- A thread that has not been reaped is disabled. -/
theorem doDisable_done (target : Nat) (h : Forest s) (hb : Blocked s) (hlt : thr < s.next)
    (hlive : (s.threads thr).reaped = false) :
    ∃ r, doDisable target s.next s thr = some r ∧ Disables s thr r.1 ∧ Keeps s r.1 ∧
      (r.2 = true → (r.1.threads target).iHaveEnded = true) := by
  obtain ⟨r, hcall, hdisables⟩ := doDisable_spec target s.next s thr h hb.joinsSome hlive hlt
    (Nat.le_add_left _ _) fun p _ hj => ((hb p).joining hj).scheduled
  exact ⟨r, hcall, hdisables, doDisable_keeps _ hcall⟩

theorem disableForkLoop_done (n : Nat) (h : Forest s) (hb : Blocked s)
    (hx : Executing s thr) (hlength : (s.threads thr).detachedChildren.length = n) :
    ∃ s', disableForkLoop thr n s = some s' ∧ Calm s s' ∧ Keeps s s' := by
  induction n generalizing s with
  | zero =>
    rw [disableForkLoop, if_pos (List.length_eq_zero_iff.mp hlength)]
    exact ⟨s, rfl, .refl h hb, .refl s⟩
  | succ n ih =>
    obtain ⟨child, rest, hset⟩ := List.exists_cons_of_length_eq_add_one hlength
    have hmem : child ∈ (s.threads thr).detachedChildren := hset ▸ List.mem_cons_self
    obtain ⟨hparent, -⟩ := h.detached thr child (h.not_reaped hx.ended) hmem
    obtain ⟨r, hcall, hdisables, hkeeps, hflag⟩ := doDisable_done thr h hb
      (h.parent_lt thr child hparent).2.1 (h.not_reaped_of_parent hparent)
    obtain ⟨hcalm, hnext, hself⟩ := disableFork_child h hb hx hmem hdisables
    -- the thread itself is not disabled with its child
    have hnot : ¬ r.2 = true := by
      intro hend
      have hended := hflag hend
      rw [(hdisables.zombie thr hparent hx.joining).1, hx.ended] at hended
      exact Bool.false_ne_true hended
    obtain ⟨s', hloop, hcalm', hkeeps'⟩ := ih hcalm.forest hcalm.blocked (hx.of_eq hnext hself) (by
      rw [hself, List.length_erase_of_mem hmem, hlength, Nat.add_sub_cancel])
    refine ⟨s', ?_, hcalm.trans hcalm', (hkeeps.trans (vthreadReap_keeps r.1 child)).trans hkeeps'⟩
    rw [disableForkLoop, hset]
    dsimp only
    rw [if_neg (not_not.mpr hparent), hcall, Option.bind_some, if_neg hnot]
    exact hloop

theorem ofDisableFork_calm (h : Forest s) (hb : Blocked s) (hx : Executing s thr)
    (hop : s.ofDisableFork thr = some s') : Calm s s' := by
  rw [ofDisableFork] at hop
  split_ifs at hop
  obtain ⟨u, hloop, hcalm, -⟩ := disableForkLoop_done _ h hb hx rfl
  cases hloop.symm.trans hop
  exact hcalm

/-- A child that has ended, reaped by the thread that executes. -/
theorem Executing.reap (hx : Executing s thr) (h : Forest s) (hb : Blocked s) {child : Nat}
    (hmem : child ∈ (s.threads thr).children) (hended : (s.threads child).iHaveEnded = true) :
    Calm s (s.vthreadReap child) ∧ (s.vthreadReap child).next = s.next ∧
      (s.vthreadReap child).threads thr =
        { s.threads thr with children := (s.threads thr).children.erase child } ∧
      ((s.vthreadReap child).threads child).reaped = true := by
  obtain ⟨hparent, hdet⟩ := h.child thr child hmem
  have hempty := (hb child).childless hended
  have hlive := h.not_reaped_of_parent hparent
  have hne : child ≠ thr := (Nat.ne_of_lt (h.parent_lt thr child hparent).1).symm
  refine ⟨.reap h hb hempty hlive hended ?_, vthreadReap_next _ _, ?_, ?_⟩
  · intro p hp
    obtain rfl : thr = p := Option.some.inj (hparent.symm.trans hp)
    exact ⟨hx.joining, hx.waiting⟩
  · rw [h.threads_reap hempty hlive, if_neg hne.symm, if_pos hparent, hdet]
    rfl
  · rw [h.threads_reap hempty hlive, if_pos rfl]

/-- `%join` reaps a child that has ended, or blocks the thread. -/
theorem doJoinOpcode_calm (h : Forest s) (hb : Blocked s) (hx : Executing s thr)
    (hop : s.doJoinOpcode thr = some s') :
    Calm s s' ∧ ((s'.threads thr).iAmJoining = false → Joined s s' thr) := by
  rw [doJoinOpcode] at hop
  split_ifs at hop with hassert
  split at hop
  · rename_i cur hfind
    have hmem := List.mem_of_find?_eq_some hfind
    have hended := List.find?_some hfind
    obtain ⟨hcalm, -, hself, hreaped⟩ := hx.reap h hb hmem hended
    rw [doJoin, if_pos (h.child thr cur hmem).1] at hop
    cases hop
    refine ⟨hcalm, fun _ => ⟨cur, hmem, (h.child thr cur hmem).2, hcalm.ended cur
      (h.lt_of_child hmem).2 hended, hreaped,
      ?_, ?_⟩⟩
    · rw [hself]
    · rw [hself]
  · rename_i hfind
    rw [List.find?_eq_none] at hfind
    cases hop
    have hnil : (s.threads thr).children ≠ [] := by
      intro hnil
      simp [hnil] at hassert
    refine ⟨.of_modify h hb ⟨rfl, rfl, rfl, rfl, rfl, rfl, id⟩ rfl (fun _ => rfl) id
      ⟨fun _ => ⟨?_, ?_, ?_, ?_, ?_, ?_⟩, fun hw => ?_, fun he => ?_⟩, fun hfalse => ?_⟩
    · rw [modify_self]
      exact hx.ended
    · rw [modify_self]
      exact hx.scheduled
    · rw [modify_self]
      exact hx.waiting
    · rw [modify_self]
      exact hx.event
    · rw [modify_self]
      exact hnil
    · intro c hc
      rw [modify_self] at hc
      rw [modify_keeps s VThread.iHaveEnded rfl]
      exact Bool.eq_false_of_not_eq_true (hfind c hc)
    · rw [modify_self] at hw
      dsimp only at hw
      rw [hx.waiting] at hw
      cases hw
    · rw [modify_self] at he
      dsimp only at he
      rw [hx.ended] at he
      cases he
    · rw [modify_self] at hfalse
      cases hfalse

end VThreads

end Icarus.Vvp
