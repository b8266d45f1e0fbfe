import Icarus.Vvp.Thread.End

/-!
# What a step does to the blocked threads

`%fork`, `%join/detach`, `%wait/fork` and the changes of the flags of one thread
leave every other thread as blocked as it was. A `%disable` and a `%disable/flow`
disable a thread wherever it stands, and the end of `do_disable` is not as careful
as `%end` about a detached thread. The two conditions on the thread that is
disabled are those under which no thread is released wrongly from a `%join`, or
forgotten in a `%wait/fork`.
-/

namespace Icarus.Vvp

namespace VThreads

variable {s s' : VThreads} {thr t p : Nat}

/-! ## Detaching -/

/-- A child that has not ended, detached by the thread that executes. -/
private theorem detach_calm (h : Forest s) (hb : Blocked s) (hx : Executing s thr) {child : Nat}
    (hmem : child ∈ (s.threads thr).children) (hended : (s.threads child).iHaveEnded = false)
    (addr : Nat → Nat) (hs' : s' = (s.modify child fun c => { c with iAmDetached := true }).modify
      thr fun t =>
        { t with
          children := t.children.erase child
          detachedChildren := setInsert addr child t.detachedChildren }) :
    Calm s s' ∧ Executing s' thr := by
  have hne : thr ≠ child := Nat.ne_of_lt (h.lt_of_child hmem).1
  have hforest : Forest s' := hs' ▸ h.detach hmem addr (h.not_reaped hx.ended)
  have hthr : s'.threads thr = { s.threads thr with
      children := (s.threads thr).children.erase child
      detachedChildren := setInsert addr child (s.threads thr).detachedChildren } := by
    rw [hs', modify_self, modify_of_ne s hne]
  have hview : ∀ t, t ≠ thr → blockView (s'.threads t) = blockView (s.threads t) := by
    intro t ht
    rw [hs', modify_of_ne _ ht]
    exact modify_keeps s blockView rfl t
  have hended' : ∀ t, (s'.threads t).iHaveEnded = (s.threads t).iHaveEnded := by
    intro t
    rw [hs', modify_keeps _ VThread.iHaveEnded rfl, modify_keeps _ VThread.iHaveEnded rfl]
  have hflags : ∀ t, (s'.threads t).iAmJoining = (s.threads t).iAmJoining ∧
      (s'.threads t).iAmWaiting = (s.threads t).iAmWaiting := by
    intro t
    rw [hs', modify_keeps _ VThread.iAmJoining rfl, modify_keeps _ VThread.iAmJoining rfl,
      modify_keeps _ VThread.iAmWaiting rfl, modify_keeps _ VThread.iAmWaiting rfl]
    exact ⟨rfl, rfl⟩
  have hnext : s'.next = s.next := by rw [hs']; rfl
  refine ⟨⟨hforest, fun t => ?_, hnext.ge, fun t _ ht => .inl ((hflags t).1.trans ht),
    fun t _ ht => .inl ((hflags t).2.trans ht), fun t _ ht => (hended' t).trans ht,
    fun hlive t ht d hd => ?_⟩, ?_⟩
  · rcases eq_or_ne t thr with rfl | htne
    · refine .of_flags ((hflags t).1.trans hx.joining) (fun hw => ?_) fun he => ?_
      · rw [(hflags t).2, hx.waiting] at hw
        cases hw
      · rw [hended', hx.ended] at he
        cases he
    · exact (hb t).congr (hview t htne) fun _ c _ => hended' c
  · rw [hended'] at ht ⊢
    rcases eq_or_ne t thr with rfl | htne
    · rw [hthr] at hd
      rcases (mem_setInsert addr).mp hd with rfl | hd
      · exact hended
      · exact hlive t ht d hd
    · have hsets := hview t htne
      simp only [blockView, Prod.mk.injEq] at hsets
      rw [hsets.2.2.2.2.2.2] at hd
      exact hlive t ht d hd
  · exact hx.of_eq hnext hthr

theorem joinDetachLoop_done (addr : Nat → Nat) (n : Nat) (h : Forest s) (hb : Blocked s)
    (hx : Executing s thr) (hlength : (s.threads thr).children.length = n) :
    ∃ s', joinDetachLoop addr thr n s = some s' ∧ Calm s s' ∧ Keeps s s' := by
  induction n generalizing s with
  | zero =>
    rw [joinDetachLoop, if_pos (List.length_eq_zero_iff.mp hlength)]
    exact ⟨s, rfl, .refl h hb, .refl s⟩
  | succ n ih =>
    obtain ⟨child, rest, hset⟩ := List.exists_cons_of_length_eq_add_one hlength
    have hmem : child ∈ (s.threads thr).children := hset ▸ List.mem_cons_self
    have hlength' : ((s.threads thr).children.erase child).length = n := by
      rw [List.length_erase_of_mem hmem, hlength, Nat.add_sub_cancel]
    rw [joinDetachLoop, hset]
    dsimp only
    rw [if_neg (not_not.mpr (h.child thr child hmem).1)]
    split_ifs with hended
    · obtain ⟨hcalm, hnext, hself, -⟩ := hx.reap h hb hmem hended
      obtain ⟨s', hloop, hcalm', hkeeps⟩ :=
        ih hcalm.forest hcalm.blocked (hx.of_eq hnext hself) (by rw [hself]; exact hlength')
      exact ⟨s', hloop, hcalm.trans hcalm', (vthreadReap_keeps s child).trans hkeeps⟩
    · obtain ⟨hcalm, hx'⟩ :=
        detach_calm h hb hx hmem (Bool.eq_false_of_not_eq_true hended) addr rfl
      have hne : thr ≠ child := Nat.ne_of_lt (h.lt_of_child hmem).1
      obtain ⟨s', hloop, hcalm', hkeeps⟩ := ih hcalm.forest hcalm.blocked hx'
        (by rw [modify_self, modify_of_ne s hne]; exact hlength')
      refine ⟨s', hloop, hcalm.trans hcalm', Keeps.trans (Keeps.modify s ?_) ((Keeps.modify _ ?_).trans hkeeps)⟩
      · exact ⟨rfl, rfl, id, id, .inl⟩
      · exact ⟨rfl, rfl, id, id, .inl⟩

theorem ofJoinDetach_calm (addr : Nat → Nat) {count : Nat} (h : Forest s) (hb : Blocked s)
    (hx : Executing s thr) (hop : s.ofJoinDetach addr thr count = some s') : Calm s s' := by
  rw [ofJoinDetach] at hop
  split_ifs at hop with hcount
  obtain ⟨u, hloop, hcalm, -⟩ := joinDetachLoop_done addr count h hb hx (not_not.mp hcount).symm
  cases hloop.symm.trans hop
  exact hcalm

/-! ## Flags -/

/-- A change of the flags of a thread that is neither joining nor waiting. -/
theorem Calm.of_free (h : Forest s) (hb : Blocked s) {f : VThread → VThread}
    (hlinks : SameLinks (s.threads thr) (f (s.threads thr)))
    (hended : (f (s.threads thr)).iHaveEnded = (s.threads thr).iHaveEnded)
    (hj : (f (s.threads thr)).iAmJoining = (s.threads thr).iAmJoining)
    (hw : (f (s.threads thr)).iAmWaiting = (s.threads thr).iAmWaiting)
    (hj' : (s.threads thr).iAmJoining = false)
    (hw' : (s.threads thr).iAmWaiting = true → (s.threads thr).iHaveEnded = true) :
    Calm s (s.modify thr f) := by
  refine .of_modify h hb hlinks hended (fun ht => hj.trans ht) (fun ht => hw.trans ht) ?_
  refine .of_flags ?_ (fun ht => ?_) fun ht => ?_
  · rw [modify_self, hj, hj']
  · rw [modify_self] at ht ⊢
    rw [hended]
    exact hw' (hw ▸ ht)
  · rw [modify_self] at ht ⊢
    rw [hlinks.children]
    exact (hb thr).childless (hended ▸ ht)

/-- A thread that is scheduled, or waits for an event, is not blocked. -/
theorem Blocked.free (hb : Blocked s)
    (hbusy : (s.threads thr).isScheduled = true ∨ (s.threads thr).waitingForEvent = true) :
    (s.threads thr).iAmJoining = false ∧
      ((s.threads thr).iAmWaiting = true → (s.threads thr).iHaveEnded = true) := by
  constructor
  · by_contra hj
    obtain ⟨-, hs, -, hv, -⟩ := (hb thr).joining (Bool.eq_true_of_not_eq_false hj)
    rw [hs, hv] at hbusy
    simp at hbusy
  · intro hw
    by_contra he
    obtain ⟨hs, hv, -⟩ := (hb thr).waiting hw (Bool.eq_false_of_not_eq_true he)
    rw [hs, hv] at hbusy
    simp at hbusy

theorem ofWaitFork_calm (h : Forest s) (hb : Blocked s) (hx : Executing s thr)
    (hop : s.ofWaitFork thr = some s') : Calm s s' := by
  rw [ofWaitFork] at hop
  split_ifs at hop with hassert hset
  · cases hop
    exact .refl h hb
  · cases hop
    refine .of_modify h hb ⟨rfl, rfl, rfl, rfl, rfl, rfl, id⟩ rfl id (fun _ => rfl) ⟨?_, ?_, ?_⟩
    · intro hj
      rw [modify_self] at hj
      exact absurd (hx.joining.symm.trans hj) Bool.false_ne_true
    · intro _ _
      constructor
      · rw [modify_self]
        exact hx.scheduled
      · rw [modify_self]
        exact hx.event
      · rw [modify_self]
        exact hset
    · intro he
      rw [modify_self] at he
      exact absurd (hx.ended.symm.trans he) Bool.false_ne_true

/-! ## New threads -/

/-- A new thread. Its parent, if it has one, is the only other thread that changes. -/
theorem Calm.add (h : Forest s) (hb : Blocked s) (hforest : Forest s')
    (hnext : s'.next = s.next + 1) (hnew : (s'.threads s.next).iAmJoining = false ∧
      (s'.threads s.next).iAmWaiting = false ∧ (s'.threads s.next).iHaveEnded = false ∧
      (s'.threads s.next).detachedChildren = [])
    (hother : ∀ t, t ≠ s.next → s'.threads t = s.threads t ∨
      Executing s t ∧ s'.threads t = { s.threads t with children := (s'.threads t).children }) :
    Calm s s' := by
  obtain ⟨hj, hw, he, hd⟩ := hnew
  have hflags : ∀ t, t ≠ s.next → (s'.threads t).iAmJoining = (s.threads t).iAmJoining ∧
      (s'.threads t).iAmWaiting = (s.threads t).iAmWaiting ∧
      (s'.threads t).iHaveEnded = (s.threads t).iHaveEnded ∧
      (s'.threads t).detachedChildren = (s.threads t).detachedChildren := by
    intro t ht
    rcases hother t ht with hsame | ⟨-, hsame⟩ <;> rw [hsame] <;> exact ⟨rfl, rfl, rfl, rfl⟩
  refine ⟨hforest, fun t => ?_, by omega, fun t hlt ht => .inl ?_, fun t hlt ht => .inl ?_,
    fun t hlt ht => ?_, fun hlive t ht d hdm => ?_⟩
  · rcases eq_or_ne t s.next with rfl | hne
    · refine .of_flags hj (fun ht => ?_) fun ht => ?_
      · rw [hw] at ht
        cases ht
      · rw [he] at ht
        cases ht
    · rcases hother t hne with hsame | ⟨hx, -⟩
      · refine (hb t).congr (congrArg blockView hsame) fun _ c hc => ?_
        exact (hflags c (by have hlt := (h.lt_of_child hc).2; omega)).2.2.1
      · obtain ⟨hjt, hwt, het, -⟩ := hflags t hne
        refine .of_flags (hjt.trans hx.joining) (fun ht => ?_) fun ht => ?_
        · rw [hwt, hx.waiting] at ht
          cases ht
        · rw [het, hx.ended] at ht
          cases ht
  · exact (hflags t (by omega)).1.trans ht
  · exact (hflags t (by omega)).2.1.trans ht
  · exact (hflags t (by omega)).2.2.1.trans ht
  · rcases eq_or_ne t s.next with rfl | hne
    · rw [hd] at hdm
      cases hdm
    · obtain ⟨-, -, het, hdt⟩ := hflags t hne
      rw [het] at ht
      rw [hdt] at hdm
      have hdn : d ≠ s.next := by
        have hlt := (h.parent_lt t d (h.detached t d (h.not_reaped ht) hdm).1).2.1
        omega
      rw [(hflags d hdn).2.2.1]
      exact hlive t ht d hdm

theorem ofFork_calm (addr : Nat → Nat) (scope : Nat) (h : Forest s) (hb : Blocked s)
    (hx : Executing s thr) : Calm s (s.ofFork addr thr scope) := by
  have hself : (s.ofFork addr thr scope).threads s.next =
      { vthreadNew scope with
        parent := some thr
        iAmInFunction := (s.threads thr).iAmInFunction
        isScheduled := !(s.threads thr).iAmInFunction } := Function.update_self ..
  have hother : ∀ t, t ≠ s.next → (s.ofFork addr thr scope).threads t =
      if some thr = some t then { s.threads t with
        children := setInsert addr s.next (s.threads t).children } else s.threads t := by
    intro t ht
    refine (Function.update_of_ne ht _ _).trans ?_
    rcases eq_or_ne t thr with rfl | hne
    · rw [if_pos rfl, modify_self]
    · rw [if_neg (fun heq => hne (Option.some.inj heq).symm), modify_of_ne s hne]
  have hforest : Forest (s.ofFork addr thr scope) := by
    refine h.add addr (some thr) scope (fun p hp => ?_) rfl rfl rfl rfl rfl rfl rfl hself
      hother rfl
    obtain rfl := Option.some.inj hp
    exact ⟨hx.lt, h.not_reaped hx.ended⟩
  refine .add h hb hforest rfl ?_ fun t ht => ?_
  · rw [hself]
    exact ⟨rfl, rfl, rfl, rfl⟩
  · rw [hother t ht]
    split_ifs with heq
    · obtain rfl := Option.some.inj heq
      exact .inr ⟨hx, rfl⟩
    · exact .inl rfl

/-! ## Conditions on a step -/

/-- The thread that a step of a `%disable` or a `%disable/flow` disables. -/
def disableTarget (s : VThreads) (l : ThreadStep) : Option Nat :=
  match s.disabling, l with
  | some (_, scope, _), .disableNext => (s.scopes scope).head?
  | none, .op thr (.disableFlow scope) => flowTarget s scope s.next thr
  | _, _ => none

/-- The thread disabled is not a detached child of a thread that is blocked in a `%join`. -/
def JoinOk (s : VThreads) (l : ThreadStep) : Prop :=
  ∀ cur ∈ disableTarget s l, ∀ p ∈ (s.threads cur).parent,
    ¬ ((s.threads cur).iAmDetached = true ∧ (s.threads p).iAmJoining = true)

/-- The thread disabled is not a detached child, unless its parent has ended, or is blocked in a
`%join`. -/
def WaitOk (s : VThreads) (l : ThreadStep) : Prop :=
  ∀ cur ∈ disableTarget s l, ∀ p ∈ (s.threads cur).parent, (s.threads cur).iAmDetached = true →
    (s.threads p).iHaveEnded = false → (s.threads p).iAmJoining = true

instance (s : VThreads) (l : ThreadStep) : Decidable (JoinOk s l) :=
  inferInstanceAs (Decidable (∀ cur ∈ disableTarget s l, ∀ p ∈ (s.threads cur).parent,
    ¬ ((s.threads cur).iAmDetached = true ∧ (s.threads p).iAmJoining = true)))

instance (s : VThreads) (l : ThreadStep) : Decidable (WaitOk s l) :=
  inferInstanceAs (Decidable (∀ cur ∈ disableTarget s l, ∀ p ∈ (s.threads cur).parent,
    (s.threads cur).iAmDetached = true → (s.threads p).iHaveEnded = false →
      (s.threads p).iAmJoining = true))

/-! ## Disabling -/

/-- The thread that a `%disable/flow` disables exists, and has not been reaped. -/
theorem flowTarget_valid (h : Forest s) {scope n cur : Nat} (hlt : thr < s.next)
    (hlive : (s.threads thr).reaped = false) (hcur : flowTarget s scope n thr = some cur) :
    cur < s.next ∧ (s.threads cur).reaped = false := by
  induction n generalizing thr with
  | zero => cases hcur
  | succ n ih =>
    rw [flowTarget] at hcur
    split_ifs at hcur
    · cases hcur
      exact ⟨hlt, hlive⟩
    · obtain ⟨p, hp, hcur⟩ := Option.bind_eq_some_iff.mp hcur
      obtain ⟨hpt, htn, hpl⟩ := h.parent_lt p thr hp
      exact ih (hpt.trans htn) hpl hcur

/-- The thread that a step disables is disabled. -/
theorem step_disables (addr : Nat → Nat) (h : Forest s) (hb : Blocked s) {l : ThreadStep}
    {cur : Nat} (htarget : disableTarget s l = some cur) (hstep : step addr s l = some s') :
    ∃ u d, Disables s cur u ∧ s' = { u with disabling := d } := by
  have hcalls : ∀ target, cur < s.next → (s.threads cur).reaped = false →
      ∃ r, doDisable target s.next s cur = some r ∧ Disables s cur r.1 := fun target hlt hlive =>
    doDisable_spec target s.next s cur h hb.joinsSome hlive hlt (Nat.le_add_left _ _)
      fun p _ hj => ((hb p).joining hj).scheduled
  unfold step at hstep
  cases hidle : s.disabling with
  | some d =>
    obtain ⟨thr, scope, flag⟩ := d
    rw [hidle] at hstep
    dsimp only at hstep
    split_ifs at hstep with hl
    rw [not_not] at hl
    simp only [disableTarget, hidle, hl] at htarget
    obtain ⟨rest, hset⟩ := List.head?_eq_some_iff.mp htarget
    obtain ⟨hlt, -, hlive⟩ := (h.scope scope).2 cur (hset ▸ List.mem_cons_self)
    obtain ⟨r, hcall, hd⟩ := hcalls thr hlt hlive
    rw [hset] at hstep
    dsimp only at hstep
    rw [hcall, Option.map_some, Option.some_inj] at hstep
    exact ⟨r.1, _, hd, hstep.symm⟩
  | none =>
    obtain ⟨thr, scope, rfl, hcur⟩ : ∃ thr scope, l = .op thr (.disableFlow scope) ∧
        flowTarget s scope s.next thr = some cur := by
      cases l with
      | op thr op =>
        cases op with
        | disableFlow scope =>
          simp only [disableTarget, hidle] at htarget
          exact ⟨thr, scope, rfl, htarget⟩
        | _ => simp only [disableTarget, hidle, reduceCtorEq] at htarget
      | _ => simp only [disableTarget, hidle, reduceCtorEq] at htarget
    rw [hidle] at hstep
    dsimp only at hstep
    split_ifs at hstep with hrun
    have hx := executing_of_canRun hrun
    obtain ⟨hlt, hlive⟩ := flowTarget_valid h hx.lt (h.not_reaped hx.ended) hcur
    obtain ⟨r, hcall, hd⟩ := hcalls thr hlt hlive
    rw [exec, ofDisableFlow, hcur, Option.bind_some, hcall, Option.map_some,
      Option.some_inj] at hstep
    exact ⟨r.1, r.1.disabling, hd, hstep.symm⟩

/-- What a step says does not depend on the `%disable` that goes on after it. -/
private theorem Fair.disabling {u : VThreads} {P Q : Prop} (h : Fair s u P Q)
    (d : Option (Nat × Nat × Bool)) : Fair s { u with disabling := d } P Q where
  forest := h.forest.congr rfl (fun _ => .refl _) fun _ => .refl _
  blocked t := (h.blocked t).congr rfl fun _ _ _ => rfl
  resumed := h.resumed
  woken := h.woken
  live := h.live

/-! ## Steps -/

private theorem create_fair (addr : Nat → Nat) (scope : Nat) (inFunction : Bool) (h : Forest s)
    (hb : Blocked s) (hs' : s' = { s with
      threads := Function.update s.threads s.next
        { vthreadNew scope with iAmInFunction := inFunction, isScheduled := true }
      next := s.next + 1
      scopes := Function.update s.scopes scope (setInsert addr s.next (s.scopes scope))
      disabling := none }) :
    Calm s s' := by
  have hself : s'.threads s.next =
      { vthreadNew scope with iAmInFunction := inFunction, isScheduled := true } := by
    rw [hs']
    exact Function.update_self ..
  have hother : ∀ t, t ≠ s.next → s'.threads t = s.threads t := by
    intro t ht
    rw [hs']
    exact Function.update_of_ne ht _ _
  have hforest : Forest s' := by
    refine h.add addr none scope nofun rfl rfl rfl rfl rfl rfl ?_ hself (fun t ht => ?_) ?_
    · rw [hs']
    · rw [hother t ht, if_neg nofun]
    · rw [hs']
  refine .add h hb hforest ?_ ?_ fun t ht => .inl (hother t ht)
  · rw [hs']
  · rw [hself]
    exact ⟨rfl, rfl, rfl, rfl⟩

/-- An opcode that disables no thread by a `%disable`. -/
private theorem exec_fair (addr : Nat → Nat) {op : ThreadOp} (h : Forest s) (hb : Blocked s)
    (hx : Executing s thr) (hflow : ∀ scope, op = .disableFlow scope →
      flowTarget s scope s.next thr = none) (hexec : s.exec addr thr op = some s') :
    Fair s s' True True := by
  cases op with
  | fork scope =>
    rw [exec, Option.some_inj] at hexec
    subst hexec
    exact (ofFork_calm addr scope h hb hx).fair _ _
  | join => exact (doJoinOpcode_calm h hb hx hexec).1.fair _ _
  | joinDetach count => exact (ofJoinDetach_calm addr h hb hx hexec).fair _ _
  | waitFork => exact (ofWaitFork_calm h hb hx hexec).fair _ _
  | disable scope =>
    rw [exec, Option.some_inj] at hexec
    subst hexec
    exact ((Calm.refl h hb).fair _ _).disabling _
  | disableFlow scope =>
    rw [exec, ofDisableFlow, hflow scope rfl] at hexec
    cases hexec
  | disableFork => exact (ofDisableFork_calm h hb hx hexec).fair _ _
  | «end» => exact ofEnd_fair h hb hx hexec
  | delay =>
    rw [exec, scheduleVthread, hx.scheduled, if_neg Bool.false_ne_true, Option.some_inj] at hexec
    subst hexec
    exact (Calm.of_free h hb ⟨rfl, rfl, rfl, rfl, rfl, rfl, id⟩ rfl rfl rfl hx.joining
      fun hw => absurd (hx.waiting.symm.trans hw) Bool.false_ne_true).fair _ _
  | wait =>
    rw [exec, Option.some_inj] at hexec
    subst hexec
    exact (Calm.of_free h hb ⟨rfl, rfl, rfl, rfl, rfl, rfl, id⟩ rfl rfl rfl hx.joining
      fun hw => absurd (hx.waiting.symm.trans hw) Bool.false_ne_true).fair _ _

/-- A step that disables no thread by a `%disable`. -/
private theorem step_fair_of_none (addr : Nat → Nat) {l : ThreadStep} (h : Forest s) (hb : Blocked s)
    (htarget : disableTarget s l = none) (hstep : step addr s l = some s') :
    Fair s s' True True := by
  unfold step at hstep
  cases hidle : s.disabling with
  | some d =>
    obtain ⟨thr, scope, flag⟩ := d
    rw [hidle] at hstep
    dsimp only at hstep
    split_ifs at hstep with hl
    rw [not_not] at hl
    simp only [disableTarget, hidle, hl] at htarget
    rw [List.head?_eq_none_iff.mp htarget] at hstep
    dsimp only at hstep
    rw [Option.some_inj] at hstep
    subst hstep
    exact ((Calm.refl h hb).fair _ _).disabling _
  | none =>
    rw [hidle] at hstep
    dsimp only at hstep
    cases l with
    | create scope inFunction =>
      dsimp only at hstep
      rw [Option.some_inj] at hstep
      exact (create_fair addr scope inFunction h hb hstep.symm).fair _ _
    | run thr =>
      dsimp only at hstep
      split_ifs at hstep with hs
      rw [Option.some_inj] at hstep
      subst hstep
      obtain ⟨hj, hw⟩ := hb.free (.inl (Bool.eq_true_of_not_eq_false hs))
      exact (Calm.of_free h hb ⟨rfl, rfl, rfl, rfl, rfl, rfl, id⟩ rfl rfl rfl hj hw).fair _ _
    | wake thr =>
      dsimp only at hstep
      split_ifs at hstep with hs
      rw [Option.some_inj] at hstep
      subst hstep
      obtain ⟨hj, hw⟩ := hb.free (.inr (Bool.eq_true_of_not_eq_false hs))
      exact (Calm.of_free h hb ⟨rfl, rfl, rfl, rfl, rfl, rfl, id⟩ rfl rfl rfl hj hw).fair _ _
    | op thr op =>
      dsimp only at hstep
      split_ifs at hstep with hrun
      refine exec_fair addr h hb (executing_of_canRun hrun) (fun scope hop => ?_) hstep
      subst hop
      simpa only [disableTarget, hidle] using htarget
    | disableNext => cases hstep

/-- Every step keeps the forest and the flags, and is fair to the blocked threads. -/
theorem step_fair (addr : Nat → Nat) {l : ThreadStep} (h : Forest s) (hb : Blocked s)
    (hstep : step addr s l = some s') : Fair s s' (JoinOk s l) (WaitOk s l) := by
  cases htarget : disableTarget s l with
  | none =>
    exact (step_fair_of_none addr h hb htarget hstep).mono (fun _ => trivial) fun _ => trivial
  | some cur =>
    obtain ⟨u, d, hd, rfl⟩ := step_disables addr h hb htarget hstep
    exact ((hd.fair h hb).mono (fun hok p hp => hok cur htarget p hp)
      fun hok p hp => hok cur htarget p hp).disabling d

end VThreads

end Icarus.Vvp
