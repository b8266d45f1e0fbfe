import Icarus.Vvp.Thread.Forest

/-!
# What disabling a thread does

`do_disable` ends a thread and all its children below, wakes a parent that is
blocked in a `%join`, and leaves every other thread alone, except that the
detached children of what has been reaped lose their parent. The induction is on
the depth; a child is younger than its parent, so the number of threads bounds it.
-/

namespace Icarus.Vvp

namespace VThreads

variable {s s' s'' : VThreads} {thr u p : Nat}

/-! ## What becomes of the others -/

/-- A thread has been ended, or left alone, or it has lost the parent it was detached from. -/
def Changed (t t' : VThread) : Prop :=
  t'.iHaveEnded = true ∧ t'.iAmJoining = false ∧ t'.children = [] ∨ t' = t ∨
    t.iAmDetached = true ∧ t' = { t with parent := none, iAmDetached := false }

theorem Changed.refl (t : VThread) : Changed t t := .inr (.inl rfl)

theorem Changed.trans {t t' t'' : VThread} (h : Changed t t') (h' : Changed t' t'') :
    Changed t t'' := by
  rcases h' with h' | rfl | ⟨hd, rfl⟩
  · exact .inl h'
  · exact h
  · rcases h with h | rfl | ⟨-, rfl⟩
    · exact .inl h
    · exact .inr (.inr ⟨hd, rfl⟩)
    · cases hd

theorem Changed.ended {t t' : VThread} (h : Changed t t') (ht : t.iHaveEnded = true) :
    t'.iHaveEnded = true := by
  rcases h with h | rfl | ⟨-, rfl⟩
  · exact h.1
  · exact ht
  · exact ht

/-- A thread has ended only with the parent it was a child of. -/
def EndedBelow (s s' : VThreads) (u : Nat) : Prop :=
  ∃ p, (s.threads u).parent = some p ∧ (s.threads u).iAmDetached = false ∧
    (s'.threads p).iHaveEnded = true

/-- What the loop over the children of a thread does. -/
structure ChildrenDisabled (s : VThreads) (thr : Nat) (s' : VThreads) : Prop where
  /-- The forest is kept. -/
  forest : Forest s'
  /-- No thread is created. -/
  next : s'.next = s.next
  /-- The thread itself loses its children, and the flag that it is joining one. -/
  self : s'.threads thr = { s.threads thr with
    children := []
    iAmJoining := (s.threads thr).iAmJoining && decide ((s.threads thr).children = []) }
  /-- Older threads are left alone. -/
  older : ∀ u < thr, s'.threads u = s.threads u
  /-- So are the others, unless they end or are detached. -/
  others : ∀ u, u ≠ thr → Changed (s.threads u) (s'.threads u)
  /-- Those end that are children of one that has ended. -/
  ended : ∀ u, (s'.threads u).iHaveEnded = true →
    (s.threads u).iHaveEnded = true ∨ EndedBelow s s' u

/-- What disabling a thread does. -/
structure Disables (s : VThreads) (thr : Nat) (s' : VThreads) : Prop where
  /-- The forest is kept. -/
  forest : Forest s'
  /-- No thread is created. -/
  next : s'.next = s.next
  /-- The thread has ended and has no children. -/
  self : (s'.threads thr).iHaveEnded = true ∧ (s'.threads thr).iAmJoining = false ∧
    (s'.threads thr).children = []
  /-- Older threads are left alone, except for the parent. -/
  older : ∀ u < thr, (s.threads thr).parent ≠ some u → s'.threads u = s.threads u
  /-- So are the others, unless they end or are detached. -/
  others : ∀ u, u ≠ thr → (s.threads thr).parent ≠ some u → Changed (s.threads u) (s'.threads u)
  /-- A parent that is not joining will do so. -/
  zombie : ∀ p, (s.threads thr).parent = some p → (s.threads p).iAmJoining = false →
    s'.threads p = s.threads p ∧ (s'.threads thr).parent = some p ∧
      (s'.threads thr).iAmDetached = (s.threads thr).iAmDetached
  /-- A parent that is joining is woken, and the thread taken from the set it is in. -/
  woken : ∀ p, (s.threads thr).parent = some p → (s.threads p).iAmJoining = true →
    s'.threads p = withoutMember { s.threads p with
      iAmJoining := false
      isScheduled := (s.threads p).isScheduled || !(s.threads p).iHaveEnded }
        (s.threads thr).iAmDetached thr ∧ (s'.threads thr).reaped = true
  /-- Those end that are children of one that has ended. -/
  ended : ∀ u, (s'.threads u).iHaveEnded = true →
    (s.threads u).iHaveEnded = true ∨ u = thr ∨ EndedBelow s s' u

theorem vthreadReap_next (s : VThreads) (thr : Nat) : (s.vthreadReap thr).next = s.next := by
  rw [vthreadReap]
  cases (s.threads thr).parent <;> rfl

/-- Reaping leaves a thread alone, or detaches it, unless it is the parent. -/
private theorem Forest.reap_changed (h : Forest s) (hchildren : (s.threads thr).children = [])
    (hreaped : (s.threads thr).reaped = false) (hended : (s.threads thr).iHaveEnded = true)
    (hjoining : (s.threads thr).iAmJoining = false)
    (hparent : (s.threads thr).parent ≠ some u) :
    Changed (s.threads u) ((s.vthreadReap thr).threads u) := by
  rw [h.threads_reap hchildren hreaped]
  split_ifs with heq hmem
  · exact .inl ⟨hended, hjoining, hchildren⟩
  · exact .inr (.inr ⟨(h.detached thr u hreaped hmem).2, rfl⟩)
  · exact .refl _

/-- Reaping ends no thread. -/
private theorem Forest.reap_ended (h : Forest s) (hchildren : (s.threads thr).children = [])
    (hreaped : (s.threads thr).reaped = false) (u : Nat) :
    ((s.vthreadReap thr).threads u).iHaveEnded = (s.threads u).iHaveEnded := by
  rw [h.threads_reap hchildren hreaped]
  split_ifs with heq
  · rw [heq]
  · exact (withoutMember_flags _ _ _).2.2.2
  · rfl
  · rfl

/-- A thread with a parent has not been reaped. -/
theorem Forest.not_reaped_of_parent (h : Forest s) (hp : (s.threads thr).parent = some p) :
    (s.threads thr).reaped = false := by
  cases hr : (s.threads thr).reaped with
  | false => rfl
  | true =>
    rw [(h.reaped thr hr).2] at hp
    cases hp

/-! ## The loop over the children -/

/-- One child disabled and reaped. -/
private theorem disabled_child (h : Forest s) {tmp : Nat} {rest : List Nat}
    (hended : (s.threads thr).iHaveEnded = true)
    (hchildren : (s.threads thr).children = tmp :: rest)
    (hdisables : Disables (s.modify thr fun t => { t with iAmJoining := false }) tmp s') :
    Forest (s'.vthreadReap tmp) ∧ (s'.vthreadReap tmp).next = s.next ∧
      (s'.vthreadReap tmp).threads thr =
        { s.threads thr with children := rest, iAmJoining := false } ∧
      (∀ u < thr, (s'.vthreadReap tmp).threads u = s.threads u) ∧
      (∀ u, u ≠ thr → Changed (s.threads u) ((s'.vthreadReap tmp).threads u)) ∧
      ∀ u, ((s'.vthreadReap tmp).threads u).iHaveEnded = true →
        (s.threads u).iHaveEnded = true ∨ EndedBelow s (s'.vthreadReap tmp) u := by
  have hmem : tmp ∈ (s.threads thr).children := hchildren ▸ List.mem_cons_self
  obtain ⟨hparent, hdetached⟩ := h.child thr tmp hmem
  have hlt := (h.parent_lt thr tmp hparent).1
  have hne : tmp ≠ thr := (Nat.ne_of_lt hlt).symm
  have hstart : ∀ u, u ≠ thr →
      (s.modify thr fun t => { t with iAmJoining := false }).threads u = s.threads u := fun u hu =>
    modify_of_ne s hu _
  have hlinks : ∀ u, ((s.modify thr fun t => { t with iAmJoining := false }).threads u).parent =
      (s.threads u).parent ∧ ((s.modify thr fun t => { t with iAmJoining := false }).threads
        u).iAmDetached = (s.threads u).iAmDetached ∧ ((s.modify thr fun t =>
          { t with iAmJoining := false }).threads u).iHaveEnded = (s.threads u).iHaveEnded :=
    fun u => ⟨modify_keeps s VThread.parent rfl u, modify_keeps s VThread.iAmDetached rfl u,
      modify_keeps s VThread.iHaveEnded rfl u⟩
  have hparent' : ((s.modify thr fun t => { t with iAmJoining := false }).threads tmp).parent =
      some thr := (hlinks tmp).1.trans hparent
  obtain ⟨hthr, htmp, hdet⟩ := hdisables.zombie thr hparent' (by rw [modify_self])
  rw [modify_self] at hthr
  rw [(hlinks tmp).2.1, hdetached] at hdet
  obtain ⟨hend, hjoin, hempty⟩ := hdisables.self
  have hlive := hdisables.forest.not_reaped_of_parent htmp
  have hreap := hdisables.forest.threads_reap hempty hlive
  have hself : (s'.vthreadReap tmp).threads thr =
      { s.threads thr with children := rest, iAmJoining := false } := by
    rw [hreap thr, if_neg hne.symm, if_pos htmp, hdet, hthr, withoutMember, hchildren]
    simp
  have hsame := hdisables.forest.reap_ended hempty hlive
  refine ⟨hdisables.forest.reap hempty hlive hend, ?_, hself, ?_, ?_, ?_⟩
  · rw [vthreadReap_next, hdisables.next]
    rfl
  · intro u hu
    have hnot : u ∉ (s'.threads tmp).detachedChildren := by
      intro hmem
      have hgt := (hdisables.forest.parent_lt tmp u
        (hdisables.forest.detached tmp u hlive hmem).1).1
      omega
    have hup : (s'.threads tmp).parent ≠ some u := by
      rw [htmp]
      intro heq
      obtain rfl := Option.some.inj heq
      exact lt_irrefl thr hu
    have hup' : ((s.modify thr fun t => { t with iAmJoining := false }).threads tmp).parent ≠
        some u := by
      rw [(hlinks tmp).1, hparent, ← htmp]
      exact hup
    rw [hreap u, if_neg (by omega), if_neg hup, if_neg hnot,
      hdisables.older u (by omega) hup', hstart u (by omega)]
  · intro u hu
    have hup : (s'.threads tmp).parent ≠ some u := by
      rw [htmp]
      intro heq
      exact hu (Option.some.inj heq).symm
    have hchanged := hdisables.forest.reap_changed hempty hlive hend hjoin hup
    rcases eq_or_ne u tmp with rfl | hut
    · rw [hreap u, if_pos rfl]
      exact .inl ⟨hend, hjoin, hempty⟩
    · have hup' : ((s.modify thr fun t => { t with iAmJoining := false }).threads tmp).parent ≠
          some u := by
        rw [(hlinks tmp).1, hparent, ← htmp]
        exact hup
      have hother := hdisables.others u hut hup'
      rw [hstart u hu] at hother
      exact hother.trans hchanged
  · intro u hu
    have hbelow : ∀ p, (s'.threads p).iHaveEnded = true →
        ((s'.vthreadReap tmp).threads p).iHaveEnded = true := fun p hp => (hsame p).trans hp
    rw [hsame u] at hu
    rcases hdisables.ended u hu with hold | rfl | ⟨p, hp, hd, hpe⟩
    · exact .inl ((hlinks u).2.2.symm.trans hold)
    · refine .inr ⟨thr, hparent, hdetached, hbelow thr ?_⟩
      rw [hthr]
      exact hended
    · exact .inr ⟨p, (hlinks u).1.symm.trans hp, (hlinks u).2.1.symm.trans hd, hbelow p hpe⟩

/-- A thread that is joining has children. -/
def JoinsSome (s : VThreads) : Prop :=
  ∀ t, (s.threads t).iAmJoining = true → (s.threads t).children ≠ []

private theorem Changed.joinsSome {t t' : VThread} (h : Changed t t')
    (ht : t.iAmJoining = true → t.children ≠ []) (ht' : t'.iAmJoining = true) :
    t'.children ≠ [] := by
  rcases h with ⟨-, hj, -⟩ | rfl | ⟨-, rfl⟩
  · rw [hj] at ht'
    cases ht'
  · exact ht ht'
  · exact ht ht'

private theorem disableLoop_spec {disable : VThreads → Nat → Option (VThreads × Bool)}
    {bound : Nat} (hdisable : ∀ s tmp, Forest s → JoinsSome s → s.next = bound → thr < tmp →
      tmp < bound → (s.threads tmp).parent = some thr → (s.threads thr).iAmJoining = false →
      ∃ r, disable s tmp = some r ∧ Disables s tmp r.1) (n : Nat) (s : VThreads) (flag : Bool)
    (h : Forest s) (hjoins : JoinsSome s) (hnext : s.next = bound)
    (hended : (s.threads thr).iHaveEnded = true)
    (hlength : (s.threads thr).children.length = n) :
    ∃ r, disableLoop disable thr n s flag = some r ∧ ChildrenDisabled s thr r.1 := by
  induction n generalizing s flag with
  | zero =>
    have hchildren : (s.threads thr).children = [] := List.length_eq_zero_iff.mp hlength
    refine ⟨(s, flag), ?_, h, rfl, ?_, fun _ _ => rfl, fun _ _ => .refl _, fun _ hu => .inl hu⟩
    · rw [disableLoop, if_pos hchildren]
    · rw [decide_eq_true hchildren, Bool.and_true, ← hchildren]
  | succ n ih =>
    obtain ⟨tmp, rest, hchildren⟩ := List.exists_cons_of_length_eq_add_one hlength
    have hmem : tmp ∈ (s.threads thr).children := hchildren ▸ List.mem_cons_self
    have hparent := (h.child thr tmp hmem).1
    obtain ⟨hlt, hltn, -⟩ := h.parent_lt thr tmp hparent
    have hne : tmp ≠ thr := (Nat.ne_of_lt hlt).symm
    have hstart : Forest (s.modify thr fun t => { t with iAmJoining := false }) :=
      h.modify ⟨rfl, rfl, rfl, rfl, rfl, rfl, id⟩
    have hjoins' : JoinsSome (s.modify thr fun t => { t with iAmJoining := false }) := by
      intro t ht
      rcases eq_or_ne t thr with rfl | htne
      · rw [modify_self] at ht
        cases ht
      · rw [modify_of_ne s htne] at ht ⊢
        exact hjoins t ht
    obtain ⟨⟨s₁, flag₁⟩, hcall, hdisables⟩ := hdisable _ tmp hstart hjoins' hnext hlt
      (hnext ▸ hltn) (by rw [modify_of_ne s hne]; exact hparent) (by rw [modify_self])
    obtain ⟨hforest, hnext', hself, holder, hothers, hended'⟩ :=
      disabled_child h hended hchildren hdisables
    have hjoins₁ : JoinsSome (s₁.vthreadReap tmp) := by
      intro t ht
      rcases eq_or_ne t thr with rfl | htne
      · rw [hself] at ht
        cases ht
      · exact (hothers t htne).joinsSome (hjoins t) ht
    rw [hchildren, List.length_cons, Nat.succ_inj] at hlength
    obtain ⟨r, hloop, hrest⟩ := ih (s₁.vthreadReap tmp) (flag || flag₁) hforest hjoins₁
      (hnext'.trans hnext) (by rw [hself]; exact hended) (by rw [hself]; exact hlength)
    refine ⟨r, ?_, hrest.forest, hrest.next.trans hnext', ?_, ?_, ?_, ?_⟩
    · rw [disableLoop, hchildren]
      dsimp only
      rw [if_neg (not_not.mpr hparent), hcall]
      exact hloop
    · rw [hrest.self, hself, hchildren]
      simp
    · intro u hu
      rw [hrest.older u hu]
      exact holder u hu
    · intro u hu
      exact (hothers u hu).trans (hrest.others u hu)
    · intro u hu
      -- what has ended stays ended
      have hstays : ∀ p, ((s₁.vthreadReap tmp).threads p).iHaveEnded = true →
          (r.1.threads p).iHaveEnded = true := by
        intro p hp
        rcases eq_or_ne p thr with rfl | hpne
        · rw [hrest.self]
          exact hp
        · exact (hrest.others p hpne).ended hp
      by_cases hmid : ((s₁.vthreadReap tmp).threads u).iHaveEnded = true
      · rcases hended' u hmid with hold | ⟨p, hp, hd, hpe⟩
        · exact .inl hold
        · exact .inr ⟨p, hp, hd, hstays p hpe⟩
      · rcases hrest.ended u hu with hold | ⟨p, hp, hd, hpe⟩
        · exact absurd hold hmid
        · rcases eq_or_ne u thr with rfl | hut
          · rw [hself] at hmid
            exact absurd hended hmid
          · rcases hothers u hut with ⟨hue, -⟩ | hsame | ⟨-, hlost⟩
            · exact absurd hue hmid
            · rw [hsame] at hp hd
              exact .inr ⟨p, hp, hd, hpe⟩
            · rw [hlost] at hp
              cases hp

/-! ## The parent -/

/-- A parent woken from a `%join`. -/
def woken (p : VThread) : VThread :=
  { p with iAmJoining := false, isScheduled := p.isScheduled || !p.iHaveEnded }

/-- A thread that has ended is taken from a parent that is joining. -/
private theorem leaveParent_joining (h : Forest s) (hp : (s.threads thr).parent = some p)
    (hjoining : (s.threads p).iAmJoining = true) (hscheduled : (s.threads p).isScheduled = false) :
    s.leaveParent thr = some ((s.modify p woken).vthreadReap thr) := by
  have hne : thr ≠ p := (Nat.ne_of_lt (h.parent_lt p thr hp).1).symm
  have hjoin : (s.modify p woken).doJoin p thr = some ((s.modify p woken).vthreadReap thr) := by
    rw [doJoin, modify_of_ne s hne, if_pos hp]
  rw [leaveParent, hp]
  dsimp only
  rw [if_pos hjoining, modify_self]
  dsimp only
  split_ifs with hended
  · have hsame : (s.modify p fun t => { t with iAmJoining := false }) = s.modify p woken := by
      rw [modify, modify, woken, hended, Bool.not_true, Bool.or_false]
    rw [hsame, Option.bind_some, hjoin]
  · rw [scheduleVthread, modify_self, if_neg (by simp [hscheduled]), modify_modify]
    have hsame : (s.modify p fun t => { t with iAmJoining := false, isScheduled := true }) =
        s.modify p woken := by
      rw [modify, modify, woken, Bool.eq_false_of_not_eq_true hended, Bool.not_false, Bool.or_true]
    rw [hsame, Option.bind_some, hjoin]

/-- The flags set at the beginning of `do_disable`. -/
private theorem disables_of_children {s₁ s₂ : VThreads} (h : Forest s) (hjoins : JoinsSome s)
    (hreaped : (s.threads thr).reaped = false)
    (hother : ∀ u, u ≠ thr → s₁.threads u = s.threads u)
    (hself : s₁.threads thr = { s.threads thr with iWasDisabled := true, iHaveEnded := true })
    (hnext : s₁.next = s.next) (hloop : ChildrenDisabled s₁ thr s₂)
    (hscheduled : ∀ p, (s.threads thr).parent = some p → (s.threads p).iAmJoining = true →
      (s.threads p).isScheduled = false) :
    ∃ s', s₂.leaveParent thr = some s' ∧ Disables s thr s' := by
  have hself₂ := hloop.self
  rw [hself] at hself₂
  have hjoin₂ : (s₂.threads thr).iAmJoining = false := by
    rw [hself₂]
    dsimp only
    rw [Bool.and_eq_false_iff]
    cases hj : (s.threads thr).iAmJoining with
    | false => exact .inl rfl
    | true => exact .inr (decide_eq_false (hjoins thr hj))
  have hparent₂ : (s₂.threads thr).parent = (s.threads thr).parent := by rw [hself₂]
  have hdet₂ : (s₂.threads thr).iAmDetached = (s.threads thr).iAmDetached := by rw [hself₂]
  have hend₂ : (s₂.threads thr).iHaveEnded = true := by rw [hself₂]
  have hempty₂ : (s₂.threads thr).children = [] := by rw [hself₂]
  have hreaped₂ : (s₂.threads thr).reaped = false := by
    rw [hself₂]
    exact hreaped
  have hchanged : ∀ u, u ≠ thr → Changed (s.threads u) (s₂.threads u) := by
    intro u hu
    have hchanged := hloop.others u hu
    rwa [hother u hu] at hchanged
  have holder : ∀ u < thr, s₂.threads u = s.threads u := by
    intro u hu
    rw [hloop.older u hu, hother u (by omega)]
  have hended : ∀ u, (s₂.threads u).iHaveEnded = true →
      (s.threads u).iHaveEnded = true ∨ u = thr ∨ EndedBelow s s₂ u := by
    intro u hu
    rcases eq_or_ne u thr with rfl | hne
    · exact .inr (.inl rfl)
    · rcases hloop.ended u hu with hold | ⟨p, hp, hd, hpe⟩
      · rw [hother u hne] at hold
        exact .inl hold
      · rw [hother u hne] at hp hd
        exact .inr (.inr ⟨p, hp, hd, hpe⟩)
  have hnext₂ : s₂.next = s.next := hloop.next.trans hnext
  cases hp : (s.threads thr).parent with
  | none =>
    have hp₂ : (s₂.threads thr).parent = none := hparent₂.trans hp
    have hleave : s₂.leaveParent thr = some (s₂.vthreadReap thr) := by rw [leaveParent, hp₂]
    have hreap := hloop.forest.threads_reap hempty₂ hreaped₂
    have hsame := hloop.forest.reap_ended hempty₂ hreaped₂
    refine ⟨_, hleave, hloop.forest.reap hempty₂ hreaped₂ hend₂, ?_, ?_, ?_, ?_, ?_, ?_, ?_⟩
    · rw [vthreadReap_next, hnext₂]
    · rw [hreap thr, if_pos rfl]
      exact ⟨hend₂, hjoin₂, hempty₂⟩
    · intro u hu _
      have hnot : u ∉ (s₂.threads thr).detachedChildren := by
        intro hmem
        have hgt := (hloop.forest.parent_lt thr u
          (hloop.forest.detached thr u hreaped₂ hmem).1).1
        omega
      rw [hreap u, if_neg (by omega), hp₂, if_neg nofun, if_neg hnot, holder u hu]
    · intro u hu _
      exact (hchanged u hu).trans (hloop.forest.reap_changed hempty₂ hreaped₂ hend₂ hjoin₂
        (by rw [hp₂]; exact nofun))
    · intro p hsome
      cases hp.symm.trans hsome
    · intro p hsome
      cases hp.symm.trans hsome
    · intro u hu
      rw [hsame u] at hu
      rcases hended u hu with hold | heq | ⟨p, hup, hd, hpe⟩
      · exact .inl hold
      · exact .inr (.inl heq)
      · exact .inr (.inr ⟨p, hup, hd, (hsame p).trans hpe⟩)
  | some p =>
    have hp₂ : (s₂.threads thr).parent = some p := hparent₂.trans hp
    have hlt := (h.parent_lt p thr hp).1
    have hpp : s₂.threads p = s.threads p := holder p hlt
    cases hjoining : (s.threads p).iAmJoining with
    | false =>
      have hleave : s₂.leaveParent thr = some s₂ := by
        rw [leaveParent, hp₂]
        dsimp only
        rw [hpp, hjoining]
        rfl
      refine ⟨_, hleave, hloop.forest, hnext₂, ⟨hend₂, hjoin₂, hempty₂⟩,
        fun u hu _ => holder u hu, fun u hu _ => hchanged u hu, ?_, ?_, hended⟩
      · intro q hq _
        obtain rfl : p = q := Option.some.inj (hp.symm.trans hq)
        exact ⟨hpp, hp₂, hdet₂⟩
      · intro q hq hj
        obtain rfl : p = q := Option.some.inj (hp.symm.trans hq)
        rw [hjoining] at hj
        cases hj
    | true =>
      have hleave := leaveParent_joining hloop.forest hp₂ (by rw [hpp]; exact hjoining)
        (by rw [hpp]; exact hscheduled p hp hjoining)
      have hne : thr ≠ p := by omega
      have hforest : Forest (s₂.modify p woken) :=
        hloop.forest.modify ⟨rfl, rfl, rfl, rfl, rfl, rfl, id⟩
      have hthr : (s₂.modify p woken).threads thr = s₂.threads thr := modify_of_ne s₂ hne _
      have hempty₃ : ((s₂.modify p woken).threads thr).children = [] := by rw [hthr, hempty₂]
      have hreaped₃ : ((s₂.modify p woken).threads thr).reaped = false := by rw [hthr, hreaped₂]
      have hreap := hforest.threads_reap hempty₃ hreaped₃
      have hsame := hforest.reap_ended hempty₃ hreaped₃
      have hended₃ : ∀ u, ((s₂.modify p woken).threads u).iHaveEnded =
          (s₂.threads u).iHaveEnded := modify_keeps s₂ VThread.iHaveEnded rfl
      rw [hthr] at hreap
      refine ⟨_, hleave, hforest.reap hempty₃ hreaped₃ (by rw [hthr, hend₂]), ?_, ?_, ?_, ?_, ?_, ?_,
        ?_⟩
      · rw [vthreadReap_next]
        exact hnext₂
      · rw [hreap thr, if_pos rfl]
        exact ⟨hend₂, hjoin₂, hempty₂⟩
      · intro u hu hup
        rw [hp] at hup
        have hup' : u ≠ p := fun heq => hup (congrArg some heq.symm)
        have hnot : u ∉ (s₂.threads thr).detachedChildren := by
          intro hmem
          have hgt := (hloop.forest.parent_lt thr u
            (hloop.forest.detached thr u hreaped₂ hmem).1).1
          omega
        rw [hreap u, if_neg (by omega), hp₂, if_neg hup, if_neg hnot, modify_of_ne s₂ hup',
          holder u hu]
      · intro u hu hup
        rw [hp] at hup
        have hup' : u ≠ p := fun heq => hup (congrArg some heq.symm)
        have hreaps := hforest.reap_changed hempty₃ hreaped₃ (by rw [hthr, hend₂])
          (by rw [hthr, hjoin₂]) (by rw [hthr, hp₂]; exact hup)
        rw [modify_of_ne s₂ hup'] at hreaps
        exact (hchanged u hu).trans hreaps
      · intro q hq hj
        obtain rfl : p = q := Option.some.inj (hp.symm.trans hq)
        rw [hjoining] at hj
        cases hj
      · intro q hq _
        obtain rfl : p = q := Option.some.inj (hp.symm.trans hq)
        rw [hreap p, if_neg hne.symm, if_pos hp₂, modify_self, hdet₂, hpp, hreap thr, if_pos rfl]
        exact ⟨rfl, rfl⟩
      · intro u hu
        rw [hsame u, hended₃ u] at hu
        rcases hended u hu with hold | heq | ⟨q, hup, hd, hpe⟩
        · exact .inl hold
        · exact .inr (.inl heq)
        · exact .inr (.inr ⟨q, hup, hd, (hsame q).trans ((hended₃ q).trans hpe)⟩)

/-! ## The recursion -/

/-- Disabling is done at a depth not above the number of threads. -/
theorem doDisable_spec (target depth : Nat) (s : VThreads) (thr : Nat) (h : Forest s)
    (hjoins : JoinsSome s) (hreaped : (s.threads thr).reaped = false)
    (hlt : thr < s.next) (hdepth : s.next ≤ thr + depth)
    (hscheduled : ∀ p, (s.threads thr).parent = some p → (s.threads p).iAmJoining = true →
      (s.threads p).isScheduled = false) :
    ∃ r, doDisable target depth s thr = some r ∧ Disables s thr r.1 := by
  induction depth generalizing s thr with
  | zero => omega
  | succ depth ih =>
    have hother : ∀ u, u ≠ thr → ((s.leaveScope thr).modify thr fun t =>
        { t with iWasDisabled := true, iHaveEnded := true }).threads u = s.threads u :=
      fun u hu => modify_of_ne _ hu _
    have hself : ((s.leaveScope thr).modify thr fun t =>
        { t with iWasDisabled := true, iHaveEnded := true }).threads thr =
        { s.threads thr with iWasDisabled := true, iHaveEnded := true } := modify_self ..
    have hstart : Forest ((s.leaveScope thr).modify thr fun t =>
        { t with iWasDisabled := true, iHaveEnded := true }) := by
      refine h.congr rfl (leaveScope_sublist s thr) fun t => ?_
      rcases eq_or_ne t thr with rfl | hne
      · rw [hself]
        exact ⟨rfl, rfl, rfl, rfl, rfl, rfl, fun _ => rfl⟩
      · rw [hother t hne]
        exact .refl _
    have hjoins' : JoinsSome ((s.leaveScope thr).modify thr fun t =>
        { t with iWasDisabled := true, iHaveEnded := true }) := by
      intro t ht
      rcases eq_or_ne t thr with rfl | hne
      · rw [hself] at ht ⊢
        exact hjoins t ht
      · rw [hother t hne] at ht ⊢
        exact hjoins t ht
    have hdisable : ∀ s₁ tmp, Forest s₁ → JoinsSome s₁ → s₁.next = s.next → thr < tmp →
        tmp < s.next → (s₁.threads tmp).parent = some thr →
        (s₁.threads thr).iAmJoining = false →
        ∃ r, doDisable target depth s₁ tmp = some r ∧ Disables s₁ tmp r.1 := by
      intro s₁ tmp h₁ hjoins₁ hnext₁ hgt hltn hparent hfalse
      refine ih s₁ tmp h₁ hjoins₁ (h₁.not_reaped_of_parent hparent) (by omega) (by omega) ?_
      intro p hp hj
      obtain rfl : thr = p := Option.some.inj (hparent.symm.trans hp)
      rw [hfalse] at hj
      cases hj
    obtain ⟨r, hloop, hchildren⟩ := disableLoop_spec hdisable _ _ false hstart hjoins' rfl
      (by rw [hself]) rfl
    obtain ⟨s', hleave, hdisables⟩ := disables_of_children h hjoins hreaped hother hself rfl
      hchildren hscheduled
    refine ⟨(s', r.2 || decide (thr = target)), ?_, hdisables⟩
    rw [doDisable, hloop, Option.bind_some, hleave, Option.map_some]

/-! ## Flags that are kept -/

/-- What disabling threads does to the flags of one. -/
def Loses (t t' : VThread) : Prop :=
  t'.iAmWaiting = t.iAmWaiting ∧ t'.waitingForEvent = t.waitingForEvent ∧
    (t.iHaveEnded = true → t'.iHaveEnded = true) ∧ (t'.iAmJoining = true → t.iAmJoining = true) ∧
    (t'.isScheduled = true → t.isScheduled = true ∨ t.iAmJoining = true)

theorem Loses.refl (t : VThread) : Loses t t := ⟨rfl, rfl, id, id, .inl⟩

/-- What disabling threads does to the flags of all. -/
def Keeps (s s' : VThreads) : Prop := ∀ t, Loses (s.threads t) (s'.threads t)

theorem Keeps.refl (s : VThreads) : Keeps s s := fun _ => .refl _

theorem Keeps.trans (h : Keeps s s') (h' : Keeps s' s'') : Keeps s s'' := by
  intro t
  obtain ⟨hw, hv, he, hj, hs⟩ := h t
  obtain ⟨hw', hv', he', hj', hs'⟩ := h' t
  exact ⟨hw'.trans hw, hv'.trans hv, he' ∘ he, hj ∘ hj', fun h => (hs' h).elim hs (.inr ∘ hj)⟩

theorem Keeps.modify (s : VThreads) {f : VThread → VThread}
    (hf : Loses (s.threads thr) (f (s.threads thr))) : Keeps s (s.modify thr f) := by
  intro t
  rcases eq_or_ne t thr with rfl | hne
  · rw [modify_self]
    exact hf
  · rw [modify_of_ne s hne]
    exact .refl _

theorem Keeps.modifyAll (s : VThreads) (set : List Nat) {f : VThread → VThread}
    (hf : ∀ t, Loses t (f t)) : Keeps s (s.modifyAll set f) := by
  intro t
  rw [modifyAll_threads]
  split_ifs
  · exact hf _
  · exact .refl _

theorem vthreadReap_keeps (s : VThreads) (thr : Nat) : Keeps s (s.vthreadReap thr) := by
  have hsets : ∀ u : VThreads, Keeps u ((u.leaveScope thr).modify thr fun t =>
      { t with parent := none, reaped := true, deleted := !t.isScheduled && !t.waitingForEvent }) :=
    fun u => .modify (u.leaveScope thr) ⟨rfl, rfl, id, id, .inl⟩
  have hchildren := Keeps.modifyAll s (s.threads thr).children
    (f := fun child => { child with parent := (s.threads thr).parent })
    fun t => ⟨rfl, rfl, id, id, .inl⟩
  have hdetached := fun u : VThreads => Keeps.modifyAll u (s.threads thr).detachedChildren
    (f := fun child => { child with parent := none, iAmDetached := false })
    fun t => ⟨rfl, rfl, id, id, .inl⟩
  refine (hchildren.trans (hdetached _)).trans (Keeps.trans ?_ (hsets _))
  split
  · exact .refl _
  · refine .modify _ ?_
    split_ifs <;> exact ⟨rfl, rfl, id, id, .inl⟩

theorem leaveParent_keeps (h : s.leaveParent thr = some s') : Keeps s s' := by
  rw [leaveParent] at h
  split at h
  · cases h
    exact vthreadReap_keeps s thr
  · next parent _ =>
    split_ifs at h with hjoining
    · obtain ⟨u, hu, hjoin⟩ := Option.bind_eq_some_iff.mp h
      rw [doJoin] at hjoin
      split_ifs at hjoin
      cases hjoin
      refine Keeps.trans ?_ (vthreadReap_keeps u thr)
      split_ifs at hu
      · cases hu
        exact .modify s ⟨rfl, rfl, id, nofun, .inl⟩
      · rw [scheduleVthread] at hu
        split_ifs at hu
        cases hu
        rw [modify_modify]
        exact .modify s ⟨rfl, rfl, id, nofun, fun _ => .inr hjoining⟩
    · cases h
      exact .refl s

private theorem disableLoop_keeps {target : Nat} {disable : VThreads → Nat → Option (VThreads × Bool)}
    (hdisable : ∀ s tmp r, disable s tmp = some r →
      Keeps s r.1 ∧ (r.2 = true → (r.1.threads target).iHaveEnded = true))
    (n : Nat) {s : VThreads} {flag : Bool} {r : VThreads × Bool}
    (hflag : flag = true → (s.threads target).iHaveEnded = true)
    (h : disableLoop disable thr n s flag = some r) :
    Keeps s r.1 ∧ (r.2 = true → (r.1.threads target).iHaveEnded = true) := by
  induction n generalizing s flag with
  | zero =>
    rw [disableLoop] at h
    split_ifs at h
    cases h
    exact ⟨.refl s, hflag⟩
  | succ n ih =>
    rw [disableLoop] at h
    split at h
    · cases h
      exact ⟨.refl s, hflag⟩
    · next tmp _ _ =>
      split_ifs at h
      obtain ⟨r₁, hcall, hrest⟩ := Option.bind_eq_some_iff.mp h
      obtain ⟨hkeeps, htarget⟩ := hdisable _ tmp r₁ hcall
      have hmodify : Keeps s (s.modify thr fun t => { t with iAmJoining := false }) :=
        .modify s ⟨rfl, rfl, id, nofun, .inl⟩
      have hstep := (hmodify.trans hkeeps).trans (vthreadReap_keeps r₁.1 tmp)
      have hflag' : (flag || r₁.2) = true →
          ((r₁.1.vthreadReap tmp).threads target).iHaveEnded = true := by
        intro hor
        rcases (Bool.or_eq_true _ _).mp hor with hold | hnew
        · exact (hstep target).2.2.1 (hflag hold)
        · exact (vthreadReap_keeps r₁.1 tmp target).2.2.1 (htarget hnew)
      obtain ⟨hkeeps', htarget'⟩ := ih hflag' hrest
      exact ⟨hstep.trans hkeeps', htarget'⟩

/-- The flag that `do_disable` returns is set only if the thread that is looked for has ended. -/
theorem doDisable_keeps {target : Nat} (depth : Nat) {s : VThreads} {r : VThreads × Bool}
    (h : doDisable target depth s thr = some r) :
    Keeps s r.1 ∧ (r.2 = true → (r.1.threads target).iHaveEnded = true) := by
  induction depth generalizing s thr r with
  | zero => cases h
  | succ depth ih =>
    rw [doDisable] at h
    obtain ⟨r₁, hloop, hleave⟩ := Option.bind_eq_some_iff.mp h
    obtain ⟨s', hparent, rfl⟩ := Option.map_eq_some_iff.mp hleave
    have hmodify : Keeps s ((s.leaveScope thr).modify thr fun t =>
        { t with iWasDisabled := true, iHaveEnded := true }) :=
      .modify (s.leaveScope thr) ⟨rfl, rfl, fun _ => rfl, id, .inl⟩
    obtain ⟨hkeeps, htarget⟩ := disableLoop_keeps (fun _ _ _ hcall => ih hcall) _
      (fun hfalse => absurd hfalse Bool.false_ne_true) hloop
    have hleft := leaveParent_keeps hparent
    refine ⟨(hmodify.trans hkeeps).trans hleft, fun hor => (hleft target).2.2.1 ?_⟩
    rcases (Bool.or_eq_true _ _).mp hor with hloop | hself
    · exact htarget hloop
    · obtain rfl := of_decide_eq_true hself
      refine (hkeeps thr).2.2.1 ?_
      rw [modify_self]

end VThreads

end Icarus.Vvp
