import Icarus.Vvp.Thread.Fork

/-!
# The forest of threads

The two sets of a thread and the parent pointers and flags of their members
agree at all times, and a child is younger than its parent. Every operation on
threads is made of changes of the flags, reaping, detaching and forking, and
each of these keeps the forest.
-/

namespace Icarus.Vvp

theorem mem_setInsert (addr : Nat → Nat) {thr u : Nat} {set : List Nat} :
    u ∈ setInsert addr thr set ↔ u = thr ∨ u ∈ set := List.mem_orderedInsert _

theorem nodup_setInsert (addr : Nat → Nat) {thr : Nat} {set : List Nat} (hnot : thr ∉ set)
    (hset : set.Nodup) : (setInsert addr thr set).Nodup := by
  rw [setInsert, (List.perm_orderedInsert _ thr set).nodup_iff, List.nodup_cons]
  exact ⟨hnot, hset⟩

namespace VThreads

variable {s s' : VThreads} {thr p : Nat}

/-- The sets, the parents and the flags of all threads agree. -/
structure Forest (s : VThreads) : Prop where
  /-- A member of the children has the thread as its parent. -/
  child : ∀ t c, c ∈ (s.threads t).children →
    (s.threads c).parent = some t ∧ (s.threads c).iAmDetached = false
  /-- So has a detached one. -/
  detached : ∀ t c, (s.threads t).reaped = false → c ∈ (s.threads t).detachedChildren →
    (s.threads c).parent = some t ∧ (s.threads c).iAmDetached = true
  /-- A thread is in the set of its parent that its flag says. -/
  mem : ∀ t c, (s.threads c).parent = some t →
    c ∈ if (s.threads c).iAmDetached then (s.threads t).detachedChildren
      else (s.threads t).children
  /-- A detached thread has a parent, until it is reaped. -/
  parent_of_detached : ∀ c, (s.threads c).reaped = false → (s.threads c).iAmDetached = true →
    (s.threads c).parent ≠ none
  /-- A parent is older, and has not been reaped. -/
  parent_lt : ∀ t c, (s.threads c).parent = some t →
    t < c ∧ c < s.next ∧ (s.threads t).reaped = false
  /-- The sets have no member twice. -/
  nodup : ∀ t, (s.threads t).children.Nodup ∧ (s.threads t).detachedChildren.Nodup
  /-- A thread that has been reaped has ended and has no parent. -/
  reaped : ∀ t, (s.threads t).reaped = true →
    (s.threads t).iHaveEnded = true ∧ (s.threads t).parent = none
  /-- Threads to come have no relatives. -/
  fresh : ∀ t, s.next ≤ t → (s.threads t).children = [] ∧ (s.threads t).detachedChildren = []
  /-- The set of a scope has some of its threads, none of them reaped. -/
  scope : ∀ c, (s.scopes c).Nodup ∧ ∀ t ∈ s.scopes c,
    t < s.next ∧ (s.threads t).parentScope = c ∧ (s.threads t).reaped = false

theorem init_forest : Forest init where
  child _ _ h := absurd h List.not_mem_nil
  detached _ _ _ h := absurd h List.not_mem_nil
  mem _ _ h := nomatch h
  parent_of_detached _ _ h := nomatch h
  parent_lt _ _ h := nomatch h
  nodup _ := ⟨List.nodup_nil, List.nodup_nil⟩
  reaped _ h := nomatch h
  fresh _ _ := ⟨rfl, rfl⟩
  scope _ := ⟨List.nodup_nil, fun _ h => absurd h List.not_mem_nil⟩

namespace Forest

/-- A child is in the children, a detached one in the other set. -/
theorem mem_children (h : Forest s) {t c : Nat} (hc : (s.threads c).parent = some t)
    (hdetached : (s.threads c).iAmDetached = false) : c ∈ (s.threads t).children := by
  have hmem := h.mem t c hc
  rw [hdetached] at hmem
  exact hmem

theorem mem_detached (h : Forest s) {t c : Nat} (hc : (s.threads c).parent = some t)
    (hdetached : (s.threads c).iAmDetached = true) : c ∈ (s.threads t).detachedChildren := by
  have hmem := h.mem t c hc
  rw [hdetached] at hmem
  exact hmem

/-- Relatives are younger. -/
theorem lt_of_child (h : Forest s) {t c : Nat} (hc : c ∈ (s.threads t).children) :
    t < c ∧ c < s.next :=
  have hlt := h.parent_lt t c (h.child t c hc).1
  ⟨hlt.1, hlt.2.1⟩

/-- A thread that has not ended has not been reaped. -/
theorem not_reaped (h : Forest s) {t : Nat} (ht : (s.threads t).iHaveEnded = false) :
    (s.threads t).reaped = false := by
  cases hr : (s.threads t).reaped with
  | false => rfl
  | true =>
    rw [(h.reaped t hr).1] at ht
    cases ht

end Forest

/-! ## Changes of the flags -/

/-- A thread with the same relatives, which has not come back to life. -/
structure SameLinks (t t' : VThread) : Prop where
  /-- `parent`. -/
  parent : t'.parent = t.parent
  /-- `parent_scope`. -/
  parentScope : t'.parentScope = t.parentScope
  /-- `children`. -/
  children : t'.children = t.children
  /-- `detached_children`. -/
  detachedChildren : t'.detachedChildren = t.detachedChildren
  /-- `i_am_detached`. -/
  iAmDetached : t'.iAmDetached = t.iAmDetached
  /-- It has been reaped as before. -/
  reaped : t'.reaped = t.reaped
  /-- It has ended if it had. -/
  iHaveEnded : t.iHaveEnded = true → t'.iHaveEnded = true

theorem SameLinks.refl (t : VThread) : SameLinks t t := ⟨rfl, rfl, rfl, rfl, rfl, rfl, id⟩

/-- A change of flags keeps the forest. -/
theorem Forest.congr (h : Forest s) (hnext : s'.next = s.next)
    (hscopes : ∀ c, (s'.scopes c).Sublist (s.scopes c))
    (hlinks : ∀ t, SameLinks (s.threads t) (s'.threads t)) : Forest s' where
  child := by
    intro t c hc
    rw [(hlinks t).children] at hc
    rw [(hlinks c).parent, (hlinks c).iAmDetached]
    exact h.child t c hc
  detached := by
    intro t c ht hc
    rw [(hlinks t).reaped] at ht
    rw [(hlinks t).detachedChildren] at hc
    rw [(hlinks c).parent, (hlinks c).iAmDetached]
    exact h.detached t c ht hc
  mem := by
    intro t c hc
    rw [(hlinks c).parent] at hc
    rw [(hlinks c).iAmDetached, (hlinks t).detachedChildren, (hlinks t).children]
    exact h.mem t c hc
  parent_of_detached := by
    intro c hr hc
    rw [(hlinks c).reaped] at hr
    rw [(hlinks c).iAmDetached] at hc
    rw [(hlinks c).parent]
    exact h.parent_of_detached c hr hc
  parent_lt := by
    intro t c hc
    rw [(hlinks c).parent] at hc
    rw [(hlinks t).reaped, hnext]
    exact h.parent_lt t c hc
  nodup := by
    intro t
    rw [(hlinks t).children, (hlinks t).detachedChildren]
    exact h.nodup t
  reaped := by
    intro t ht
    rw [(hlinks t).reaped] at ht
    rw [(hlinks t).parent]
    exact ⟨(hlinks t).iHaveEnded (h.reaped t ht).1, (h.reaped t ht).2⟩
  fresh := by
    intro t ht
    rw [hnext] at ht
    rw [(hlinks t).children, (hlinks t).detachedChildren]
    exact h.fresh t ht
  scope := by
    intro c
    refine ⟨(h.scope c).1.sublist (hscopes c), fun t ht => ?_⟩
    rw [hnext, (hlinks t).parentScope, (hlinks t).reaped]
    exact (h.scope c).2 t ((hscopes c).subset ht)

theorem Forest.modify (h : Forest s) {f : VThread → VThread}
    (hf : SameLinks (s.threads thr) (f (s.threads thr))) : Forest (s.modify thr f) := by
  refine h.congr rfl (fun _ => .refl _) fun t => ?_
  rcases eq_or_ne t thr with rfl | hne
  · rw [modify_self]
    exact hf
  · rw [modify_of_ne s hne]
    exact SameLinks.refl _

/-! ## Reaping -/

theorem leaveScope_sublist (s : VThreads) (thr c : Nat) :
    ((s.leaveScope thr).scopes c).Sublist (s.scopes c) := by
  rw [leaveScope_scopes]
  rcases eq_or_ne c (s.threads thr).parentScope with rfl | hne
  · rw [Function.update_self]
    exact List.erase_sublist
  · rw [Function.update_of_ne hne]

/-- Reaping takes the thread out of its scope. -/
theorem vthreadReap_scopes (s : VThreads) (thr : Nat) :
    (s.vthreadReap thr).scopes = (s.leaveScope thr).scopes := by
  have hscope : ∀ s' : VThreads, s'.scopes = s.scopes →
      (s'.threads thr).parentScope = (s.threads thr).parentScope →
      (s'.leaveScope thr).scopes = (s.leaveScope thr).scopes := by
    intro s' hscopes hparent
    rw [leaveScope_scopes, leaveScope_scopes, hscopes, hparent]
  rw [vthreadReap, modify_scopes]
  have hmid := modifyAll_keeps s (s.threads thr).children VThread.parentScope
    (f := fun child => { child with parent := (s.threads thr).parent }) (fun _ => rfl) thr
  have hlow := (modifyAll_keeps _ (s.threads thr).detachedChildren VThread.parentScope
    (f := fun child => { child with parent := none, iAmDetached := false })
    (fun _ => rfl) thr).trans hmid
  cases hp : (s.threads thr).parent with
  | none =>
    rw [hp] at hlow
    exact hscope _ rfl hlow
  | some p =>
    rw [hp] at hlow
    exact hscope _ rfl ((modify_keeps _ VThread.parentScope (by split_ifs <;> rfl) thr).trans hlow)

/-- The set of a parent after one of its members has gone. -/
def withoutMember (p : VThread) (detached : Bool) (thr : Nat) : VThread :=
  if detached then { p with detachedChildren := p.detachedChildren.erase thr }
  else { p with children := p.children.erase thr }

theorem mem_children_withoutMember {p : VThread} {detached : Bool} {c : Nat} (hc : c ≠ thr) :
    c ∈ (withoutMember p detached thr).children ↔ c ∈ p.children := by
  rw [withoutMember]
  split_ifs
  · rfl
  · exact List.mem_erase_of_ne hc

theorem mem_detached_withoutMember {p : VThread} {detached : Bool} {c : Nat} (hc : c ≠ thr) :
    c ∈ (withoutMember p detached thr).detachedChildren ↔ c ∈ p.detachedChildren := by
  rw [withoutMember]
  split_ifs
  · exact List.mem_erase_of_ne hc
  · rfl

/-- Only the two sets of the parent change. -/
theorem withoutMember_flags (p : VThread) (detached : Bool) (thr : Nat) :
    (withoutMember p detached thr).parent = p.parent ∧
      (withoutMember p detached thr).iAmDetached = p.iAmDetached ∧
      (withoutMember p detached thr).reaped = p.reaped ∧
      (withoutMember p detached thr).iHaveEnded = p.iHaveEnded := by
  rw [withoutMember]
  split_ifs <;> exact ⟨rfl, rfl, rfl, rfl⟩

namespace Forest

/-- What reaping a thread without children does to each thread. -/
theorem threads_reap (h : Forest s) (hchildren : (s.threads thr).children = [])
    (hreaped : (s.threads thr).reaped = false) (u : Nat) :
    (s.vthreadReap thr).threads u =
      if u = thr then
        { s.threads thr with
          parent := none, reaped := true,
          deleted := !(s.threads thr).isScheduled && !(s.threads thr).waitingForEvent }
      else if (s.threads thr).parent = some u then
        withoutMember (s.threads u) (s.threads thr).iAmDetached thr
      else if u ∈ (s.threads thr).detachedChildren then
        { s.threads u with parent := none, iAmDetached := false }
      else s.threads u := by
  have hparent : (s.threads thr).parent ≠ some thr :=
    fun hself => lt_irrefl thr (h.parent_lt thr thr hself).1
  have hself : thr ∉ (s.threads thr).detachedChildren :=
    fun hmem => hparent (h.detached thr thr hreaped hmem).1
  have hfree : ∀ p, (s.threads thr).parent = some p → p ∉ (s.threads thr).detachedChildren := by
    intro p hp hmem
    have hlt := (h.parent_lt p thr hp).1
    have hgt := (h.parent_lt thr p (h.detached thr p hreaped hmem).1).1
    omega
  rw [vthreadReap, hchildren, modifyAll_nil]
  dsimp only
  cases hp : (s.threads thr).parent with
  | none =>
    rcases eq_or_ne u thr with rfl | hne
    · rw [if_pos rfl, modify_self, leaveScope_threads, modifyAll_threads, if_neg hself]
    · have hnone : (none : Option Nat) ≠ some u := nofun
      rw [if_neg hne, modify_of_ne _ hne, leaveScope_threads, modifyAll_threads, if_neg hnone]
  | some p =>
    rw [hp] at hparent
    have hpne : p ≠ thr := fun heq => hparent (congrArg some heq)
    dsimp only
    rcases eq_or_ne u thr with rfl | hne
    · rw [if_pos rfl, modify_self, leaveScope_threads, modify_of_ne _ (Ne.symm hpne),
        modifyAll_threads, if_neg hself]
    · rw [if_neg hne, modify_of_ne _ hne, leaveScope_threads]
      rcases eq_or_ne u p with rfl | hup
      · rw [if_pos rfl, modify_self, modifyAll_threads, if_neg (hfree u hp)]
        rfl
      · rw [if_neg (fun heq => hup (Option.some.inj heq).symm), modify_of_ne _ hup,
          modifyAll_threads]

/-- Reaping a thread that has ended and has no children keeps the forest. -/
theorem reap (h : Forest s) (hchildren : (s.threads thr).children = [])
    (hreaped : (s.threads thr).reaped = false) (hended : (s.threads thr).iHaveEnded = true) :
    Forest (s.vthreadReap thr) := by
  have hthreads := h.threads_reap hchildren hreaped
  have hself := hthreads thr
  rw [if_pos rfl] at hself
  -- the links upwards of the others, except for the detached children
  have hup : ∀ c, c ≠ thr → c ∉ (s.threads thr).detachedChildren →
      ((s.vthreadReap thr).threads c).parent = (s.threads c).parent ∧
        ((s.vthreadReap thr).threads c).iAmDetached = (s.threads c).iAmDetached ∧
        ((s.vthreadReap thr).threads c).reaped = (s.threads c).reaped := by
    intro c hc hnot
    rw [hthreads c, if_neg hc, if_neg hnot]
    split_ifs
    · have hflags := withoutMember_flags (s.threads c) (s.threads thr).iAmDetached thr
      exact ⟨hflags.1, hflags.2.1, hflags.2.2.1⟩
    · exact ⟨rfl, rfl, rfl⟩
  have hnext : (s.vthreadReap thr).next = s.next := by
    rw [vthreadReap]
    cases (s.threads thr).parent <;> rfl
  -- a thread that still has a parent
  have hstill : ∀ t c, ((s.vthreadReap thr).threads c).parent = some t →
      c ≠ thr ∧ c ∉ (s.threads thr).detachedChildren ∧ t ≠ thr ∧
        (s.threads c).parent = some t := by
    intro t c hc
    have hne : c ≠ thr := by
      rintro rfl
      rw [hself] at hc
      cases hc
    have hnot : c ∉ (s.threads thr).detachedChildren := by
      intro hmem
      have hparent : (s.threads thr).parent ≠ some c := by
        intro hp
        have hlt := (h.parent_lt c thr hp).1
        have hgt := (h.parent_lt thr c (h.detached thr c hreaped hmem).1).1
        omega
      rw [hthreads c, if_neg hne, if_neg hparent, if_pos hmem] at hc
      cases hc
    rw [(hup c hne hnot).1] at hc
    refine ⟨hne, hnot, ?_, hc⟩
    rintro rfl
    have hmem := h.mem t c hc
    split_ifs at hmem
    · exact hnot hmem
    · rw [hchildren] at hmem
      cases hmem
  -- the sets of the others, except for the reaped thread itself
  have hsets : ∀ t c, t ≠ thr → c ≠ thr →
      (c ∈ ((s.vthreadReap thr).threads t).children ↔ c ∈ (s.threads t).children) ∧
        (c ∈ ((s.vthreadReap thr).threads t).detachedChildren ↔
          c ∈ (s.threads t).detachedChildren) := by
    intro t c ht hc
    rw [hthreads t, if_neg ht]
    split_ifs
    · exact ⟨mem_children_withoutMember hc, mem_detached_withoutMember hc⟩
    · exact ⟨Iff.rfl, Iff.rfl⟩
    · exact ⟨Iff.rfl, Iff.rfl⟩
  -- the reaped thread is in no set
  have hgone : ∀ t, t ≠ thr → thr ∉ ((s.vthreadReap thr).threads t).children ∧
      (((s.vthreadReap thr).threads t).reaped = false →
        thr ∉ ((s.vthreadReap thr).threads t).detachedChildren) := by
    intro t ht
    rw [hthreads t, if_neg ht]
    split_ifs with hp hmem
    · have hflags := withoutMember_flags (s.threads t) (s.threads thr).iAmDetached thr
      rw [hflags.2.2.1, withoutMember]
      cases hd : (s.threads thr).iAmDetached with
      | true =>
        refine ⟨fun hc => ?_, fun _ hc => (h.nodup t).2.not_mem_erase hc⟩
        rw [(h.child t thr hc).2] at hd
        cases hd
      | false =>
        refine ⟨fun hc => (h.nodup t).1.not_mem_erase hc, fun hr hc => ?_⟩
        rw [(h.detached t thr hr hc).2] at hd
        cases hd
    · exact ⟨fun hc => hp (h.child t thr hc).1, fun hr hc => hp (h.detached t thr hr hc).1⟩
    · exact ⟨fun hc => hp (h.child t thr hc).1, fun hr hc => hp (h.detached t thr hr hc).1⟩
  have hkeep : ∀ t, t ≠ thr →
      ((s.vthreadReap thr).threads t).reaped = (s.threads t).reaped ∧
        ((s.vthreadReap thr).threads t).iHaveEnded = (s.threads t).iHaveEnded := by
    intro t ht
    rw [hthreads t, if_neg ht]
    split_ifs
    · have hflags := withoutMember_flags (s.threads t) (s.threads thr).iAmDetached thr
      exact ⟨hflags.2.2.1, hflags.2.2.2⟩
    · exact ⟨rfl, rfl⟩
    · exact ⟨rfl, rfl⟩
  constructor
  · intro t c hc
    have ht : t ≠ thr := by
      rintro rfl
      rw [hself, hchildren] at hc
      cases hc
    have hne : c ≠ thr := by
      rintro rfl
      exact (hgone t ht).1 hc
    have hlinks := h.child t c ((hsets t c ht hne).1.mp hc)
    have hnot : c ∉ (s.threads thr).detachedChildren := by
      intro hmem
      rw [(h.detached thr c hreaped hmem).2] at hlinks
      cases hlinks.2
    obtain ⟨hparent, hdetached, -⟩ := hup c hne hnot
    rw [hparent, hdetached]
    exact hlinks
  · intro t c hr hc
    have ht : t ≠ thr := by
      rintro rfl
      rw [hself] at hr
      cases hr
    have hne : c ≠ thr := by
      rintro rfl
      exact (hgone t ht).2 hr hc
    rw [(hkeep t ht).1] at hr
    have hlinks := h.detached t c hr ((hsets t c ht hne).2.mp hc)
    have hnot : c ∉ (s.threads thr).detachedChildren := by
      intro hmem
      rw [(h.detached thr c hreaped hmem).1] at hlinks
      exact ht (Option.some.inj hlinks.1).symm
    obtain ⟨hparent, hdetached, -⟩ := hup c hne hnot
    rw [hparent, hdetached]
    exact hlinks
  · intro t c hc
    obtain ⟨hne, hnot, ht, hparent⟩ := hstill t c hc
    have hmem := h.mem t c hparent
    rw [(hup c hne hnot).2.1]
    split_ifs at hmem ⊢
    · exact (hsets t c ht hne).2.mpr hmem
    · exact (hsets t c ht hne).1.mpr hmem
  · intro c hr hc
    have hne : c ≠ thr := by
      rintro rfl
      rw [hself] at hr
      cases hr
    have hparent : c ∉ (s.threads thr).detachedChildren := by
      intro hmem
      have hpc : (s.threads thr).parent ≠ some c := by
        intro hp
        have hlt := (h.parent_lt c thr hp).1
        have hgt := (h.parent_lt thr c (h.detached thr c hreaped hmem).1).1
        omega
      rw [hthreads c, if_neg hne, if_neg hpc, if_pos hmem] at hc
      cases hc
    obtain ⟨hp, hd, hre⟩ := hup c hne hparent
    rw [hre] at hr
    rw [hd] at hc
    rw [hp]
    exact h.parent_of_detached c hr hc
  · intro t c hc
    obtain ⟨-, -, ht, hparent⟩ := hstill t c hc
    rw [hnext, (hkeep t ht).1]
    exact h.parent_lt t c hparent
  · intro t
    rw [hthreads t]
    split_ifs
    · exact h.nodup thr
    · rw [withoutMember]
      split_ifs
      · exact ⟨(h.nodup t).1, (h.nodup t).2.erase thr⟩
      · exact ⟨(h.nodup t).1.erase thr, (h.nodup t).2⟩
    · exact h.nodup t
    · exact h.nodup t
  · intro t hr
    rcases eq_or_ne t thr with rfl | hne
    · rw [hself]
      exact ⟨hended, rfl⟩
    · rw [(hkeep t hne).1] at hr
      have hold := h.reaped t hr
      refine ⟨(hkeep t hne).2.trans hold.1, ?_⟩
      rw [hthreads t, if_neg hne]
      split_ifs
      · rw [(withoutMember_flags _ _ _).1]
        exact hold.2
      · rfl
      · exact hold.2
  · intro t ht
    rw [hnext] at ht
    have hold := h.fresh t ht
    rw [hthreads t]
    split_ifs with heq
    · rw [heq] at hold
      exact hold
    · rw [withoutMember]
      split_ifs
      · exact ⟨hold.1, by rw [hold.2]; rfl⟩
      · exact ⟨by rw [hold.1]; rfl, hold.2⟩
    · exact hold
    · exact hold
  · intro c
    obtain ⟨hnodup, hmembers⟩ := h.scope c
    have hscopes := vthreadReap_scopes s thr
    refine ⟨?_, fun t ht => ?_⟩
    · rw [hscopes]
      exact hnodup.sublist (leaveScope_sublist s thr c)
    · rw [hscopes] at ht
      have hne : t ≠ thr := by
        rintro rfl
        have hin := (leaveScope_sublist s t c).subset ht
        rw [leaveScope_scopes, (hmembers t hin).2.1, Function.update_self] at ht
        exact hnodup.not_mem_erase ht
      obtain ⟨hlt, hscope, hr⟩ := hmembers t ((leaveScope_sublist s thr c).subset ht)
      rw [hnext, (hkeep t hne).1]
      refine ⟨hlt, ?_, hr⟩
      rw [hthreads t, if_neg hne]
      split_ifs
      · rw [withoutMember]
        split_ifs <;> exact hscope
      · exact hscope
      · exact hscope

end Forest

/-! ## Detaching and forking -/

/-- A child moved to the detached ones. -/
theorem Forest.detach (h : Forest s) {child : Nat} (hmem : child ∈ (s.threads thr).children)
    (addr : Nat → Nat) (hlive : (s.threads thr).reaped = false) :
    Forest ((s.modify child fun c => { c with iAmDetached := true }).modify thr fun t =>
      { t with
        children := t.children.erase child
        detachedChildren := setInsert addr child t.detachedChildren }) := by
  obtain ⟨hparent, hdet⟩ := h.child thr child hmem
  obtain ⟨hlt, hltn, -⟩ := h.parent_lt thr child hparent
  have hne : thr ≠ child := by omega
  have hout : child ∉ (s.threads thr).detachedChildren := by
    intro hin
    rw [(h.detached thr child hlive hin).2] at hdet
    cases hdet
  obtain ⟨u, hu⟩ : ∃ u : VThreads, u = (s.modify child fun c =>
      { c with iAmDetached := true }).modify thr fun t =>
        { t with
          children := t.children.erase child
          detachedChildren := setInsert addr child t.detachedChildren } := ⟨_, rfl⟩
  rw [← hu]
  have hthr : u.threads thr = { s.threads thr with
      children := (s.threads thr).children.erase child
      detachedChildren := setInsert addr child (s.threads thr).detachedChildren } := by
    rw [hu, modify_self, modify_of_ne s hne]
  have hchild : u.threads child = { s.threads child with iAmDetached := true } := by
    rw [hu, modify_of_ne _ hne.symm, modify_self]
  have hother : ∀ t, t ≠ thr → t ≠ child → u.threads t = s.threads t := by
    intro t ht hc
    rw [hu, modify_of_ne _ ht, modify_of_ne s hc]
  have hnext : u.next = s.next := by rw [hu]; rfl
  have hscopes : u.scopes = s.scopes := by rw [hu]; rfl
  have hkeep : ∀ t, (u.threads t).parent = (s.threads t).parent ∧
      (u.threads t).reaped = (s.threads t).reaped ∧
      (u.threads t).iHaveEnded = (s.threads t).iHaveEnded ∧
      (u.threads t).parentScope = (s.threads t).parentScope := by
    intro t
    rcases eq_or_ne t thr with rfl | ht
    · rw [hthr]
      exact ⟨rfl, rfl, rfl, rfl⟩
    · rcases eq_or_ne t child with rfl | hc
      · rw [hchild]
        exact ⟨rfl, rfl, rfl, rfl⟩
      · rw [hother t ht hc]
        exact ⟨rfl, rfl, rfl, rfl⟩
  have hdetached : ∀ t, t ≠ child → (u.threads t).iAmDetached = (s.threads t).iAmDetached := by
    intro t hc
    rcases eq_or_ne t thr with rfl | ht
    · rw [hthr]
    · rw [hother t ht hc]
  have hsets : ∀ t, t ≠ thr → (u.threads t).children = (s.threads t).children ∧
      (u.threads t).detachedChildren = (s.threads t).detachedChildren := by
    intro t ht
    rcases eq_or_ne t child with rfl | hc
    · rw [hchild]
      exact ⟨rfl, rfl⟩
    · rw [hother t ht hc]
      exact ⟨rfl, rfl⟩
  constructor
  · intro t c hc
    have hold : c ∈ (s.threads t).children ∧ c ≠ child := by
      rcases eq_or_ne t thr with rfl | ht
      · rw [hthr] at hc
        refine ⟨List.mem_of_mem_erase hc, ?_⟩
        rintro rfl
        exact (h.nodup t).1.not_mem_erase hc
      · rw [(hsets t ht).1] at hc
        refine ⟨hc, ?_⟩
        rintro rfl
        exact ht (Option.some.inj ((h.child t c hc).1.symm.trans hparent))
    rw [(hkeep c).1, hdetached c hold.2]
    exact h.child t c hold.1
  · intro t c hr hc
    rw [(hkeep t).2.1] at hr
    rw [(hkeep c).1]
    rcases eq_or_ne c child with rfl | hcc
    · rw [hchild]
      refine ⟨?_, rfl⟩
      rcases eq_or_ne t thr with rfl | ht
      · exact hparent
      · rw [(hsets t ht).2] at hc
        exact (h.detached t c hr hc).1
    · rw [hdetached c hcc]
      rcases eq_or_ne t thr with rfl | ht
      · rw [hthr] at hc
        exact h.detached t c hr (((mem_setInsert addr).mp hc).resolve_left hcc)
      · rw [(hsets t ht).2] at hc
        exact h.detached t c hr hc
  · intro t c hc
    rw [(hkeep c).1] at hc
    rcases eq_or_ne c child with rfl | hcc
    · obtain rfl : thr = t := Option.some.inj (hparent.symm.trans hc)
      rw [hchild, if_pos rfl, hthr]
      exact (mem_setInsert addr).mpr (.inl rfl)
    · have hmem' := h.mem t c hc
      rw [hdetached c hcc]
      rcases eq_or_ne t thr with rfl | ht
      · rw [hthr]
        split_ifs at hmem' ⊢
        · exact (mem_setInsert addr).mpr (.inr hmem')
        · exact (List.mem_erase_of_ne hcc).mpr hmem'
      · rw [(hsets t ht).1, (hsets t ht).2]
        exact hmem'
  · intro c hr hc
    rw [(hkeep c).2.1] at hr
    rw [(hkeep c).1]
    rcases eq_or_ne c child with rfl | hcc
    · rw [hparent]
      exact nofun
    · rw [hdetached c hcc] at hc
      exact h.parent_of_detached c hr hc
  · intro t c hc
    rw [(hkeep c).1] at hc
    rw [(hkeep t).2.1, hnext]
    exact h.parent_lt t c hc
  · intro t
    rcases eq_or_ne t thr with rfl | ht
    · rw [hthr]
      exact ⟨(h.nodup t).1.erase child, nodup_setInsert addr hout (h.nodup t).2⟩
    · rw [(hsets t ht).1, (hsets t ht).2]
      exact h.nodup t
  · intro t hr
    rw [(hkeep t).2.1] at hr
    rw [(hkeep t).1, (hkeep t).2.2.1]
    exact h.reaped t hr
  · intro t ht
    rw [hnext] at ht
    have htne : t ≠ thr := by omega
    rw [(hsets t htne).1, (hsets t htne).2]
    exact h.fresh t ht
  · intro c
    rw [hscopes]
    refine ⟨(h.scope c).1, fun t ht => ?_⟩
    rw [hnext, (hkeep t).2.1, (hkeep t).2.2.2]
    exact (h.scope c).2 t ht

/-- A new thread, of its own or the child of another one. -/
theorem Forest.add (h : Forest s) (addr : Nat → Nat) (parent : Option Nat) (scope : Nat)
    (hparent : ∀ p, parent = some p → p < s.next ∧ (s.threads p).reaped = false)
    {child : VThread} (hp : child.parent = parent) (hs : child.parentScope = scope)
    (hc : child.children = []) (hd : child.detachedChildren = []) (hdet : child.iAmDetached = false)
    (hr : child.reaped = false) (hnext : s'.next = s.next + 1)
    (hself : s'.threads s.next = child)
    (hother : ∀ t, t ≠ s.next → s'.threads t =
      if parent = some t then { s.threads t with
        children := setInsert addr s.next (s.threads t).children } else s.threads t)
    (hscopes : s'.scopes = Function.update s.scopes scope (setInsert addr s.next (s.scopes scope))) :
    Forest s' := by
  have hkeep : ∀ t, t ≠ s.next → (s'.threads t).parent = (s.threads t).parent ∧
      (s'.threads t).iAmDetached = (s.threads t).iAmDetached ∧
      (s'.threads t).reaped = (s.threads t).reaped ∧
      (s'.threads t).iHaveEnded = (s.threads t).iHaveEnded ∧
      (s'.threads t).parentScope = (s.threads t).parentScope ∧
      (s'.threads t).detachedChildren = (s.threads t).detachedChildren := by
    intro t ht
    rw [hother t ht]
    split_ifs <;> exact ⟨rfl, rfl, rfl, rfl, rfl, rfl⟩
  have hchildren : ∀ t, t ≠ s.next → ∀ c, c ∈ (s'.threads t).children ↔
      c ∈ (s.threads t).children ∨ parent = some t ∧ c = s.next := by
    intro t ht c
    rw [hother t ht]
    split_ifs with heq
    · rw [mem_setInsert, or_comm]
      constructor
      · rintro (hm | rfl)
        · exact .inl hm
        · exact .inr ⟨heq, rfl⟩
      · rintro (hm | ⟨-, rfl⟩)
        · exact .inl hm
        · exact .inr rfl
    · constructor
      · exact .inl
      · rintro (hm | ⟨heq', -⟩)
        · exact hm
        · exact absurd heq' heq
  have hnew : ∀ t c, c ∈ (s.threads t).children → c ≠ s.next := by
    intro t c hm
    have hlt := (h.lt_of_child hm).2
    omega
  constructor
  · intro t c hm
    rcases eq_or_ne t s.next with rfl | ht
    · rw [hself, hc] at hm
      cases hm
    · rcases (hchildren t ht c).mp hm with hm | ⟨heq, rfl⟩
      · obtain ⟨hcp, hcd, -⟩ := hkeep c (hnew t c hm)
        rw [hcp, hcd]
        exact h.child t c hm
      · rw [hself]
        exact ⟨hp.trans heq, hdet⟩
  · intro t c hre hm
    rcases eq_or_ne t s.next with rfl | ht
    · rw [hself, hd] at hm
      cases hm
    · obtain ⟨-, -, htr, -, -, htd⟩ := hkeep t ht
      rw [htr] at hre
      rw [htd] at hm
      have hcne : c ≠ s.next := by
        have hlt := (h.parent_lt t c (h.detached t c hre hm).1).2.1
        omega
      obtain ⟨hcp, hcd, -⟩ := hkeep c hcne
      rw [hcp, hcd]
      exact h.detached t c hre hm
  · intro t c hcp
    rcases eq_or_ne c s.next with rfl | hcne
    · rw [hself, hp] at hcp
      have htne : t ≠ s.next := by
        have hlt := (hparent t hcp).1
        omega
      rw [hself, hdet]
      exact (hchildren t htne s.next).mpr (.inr ⟨hcp, rfl⟩)
    · obtain ⟨hcp', hcd, -⟩ := hkeep c hcne
      rw [hcp'] at hcp
      have htne : t ≠ s.next := by
        have hlt := h.parent_lt t c hcp
        omega
      have hmem := h.mem t c hcp
      rw [hcd, (hkeep t htne).2.2.2.2.2]
      split_ifs at hmem ⊢
      · exact hmem
      · exact (hchildren t htne c).mpr (.inl hmem)
  · intro c hre hcd
    rcases eq_or_ne c s.next with rfl | hcne
    · rw [hself, hdet] at hcd
      cases hcd
    · obtain ⟨hcp, hcd', hcr, -⟩ := hkeep c hcne
      rw [hcr] at hre
      rw [hcd'] at hcd
      rw [hcp]
      exact h.parent_of_detached c hre hcd
  · intro t c hcp
    rcases eq_or_ne c s.next with rfl | hcne
    · rw [hself, hp] at hcp
      obtain ⟨hlt, htr⟩ := hparent t hcp
      rw [hnext, (hkeep t (by omega)).2.2.1]
      exact ⟨hlt, Nat.lt_succ_self _, htr⟩
    · rw [(hkeep c hcne).1] at hcp
      obtain ⟨hlt, hltn, htr⟩ := h.parent_lt t c hcp
      rw [hnext, (hkeep t (by omega)).2.2.1]
      exact ⟨hlt, by omega, htr⟩
  · intro t
    rcases eq_or_ne t s.next with rfl | ht
    · rw [hself, hc, hd]
      exact ⟨List.nodup_nil, List.nodup_nil⟩
    · rw [hother t ht]
      split_ifs
      · exact ⟨nodup_setInsert addr (fun hm => hnew t _ hm rfl) (h.nodup t).1, (h.nodup t).2⟩
      · exact h.nodup t
  · intro t hre
    rcases eq_or_ne t s.next with rfl | ht
    · rw [hself, hr] at hre
      cases hre
    · obtain ⟨htp, -, htr, hte, -⟩ := hkeep t ht
      rw [htr] at hre
      rw [htp, hte]
      exact h.reaped t hre
  · intro t ht
    rw [hnext] at ht
    have htne : t ≠ s.next := by omega
    have hold : parent ≠ some t := by
      intro heq
      have hlt := (hparent t heq).1
      omega
    rw [hother t htne, if_neg hold]
    exact h.fresh t (by omega)
  · intro c
    rw [hscopes]
    have hmem : ∀ t ∈ s.scopes c, t ≠ s.next := by
      intro t ht
      have hlt := ((h.scope c).2 t ht).1
      omega
    have hold : ∀ t ∈ s.scopes c, t < s'.next ∧ (s'.threads t).parentScope = c ∧
        (s'.threads t).reaped = false := by
      intro t ht
      obtain ⟨-, -, htr, -, hts, -⟩ := hkeep t (hmem t ht)
      obtain ⟨hlt, hsc, hre⟩ := (h.scope c).2 t ht
      rw [hnext, htr, hts]
      exact ⟨by omega, hsc, hre⟩
    rcases eq_or_ne c scope with rfl | hcs
    · rw [Function.update_self]
      refine ⟨nodup_setInsert addr (fun ht => hmem _ ht rfl) (h.scope c).1, fun t ht => ?_⟩
      rcases (mem_setInsert addr).mp ht with rfl | ht
      · rw [hself, hnext]
        exact ⟨Nat.lt_succ_self _, hs, hr⟩
      · exact hold t ht
    · rw [Function.update_of_ne hcs]
      exact ⟨(h.scope c).1, hold⟩

/-! ## Ending -/

/-- The detached children of a thread lose their parent. -/
theorem Forest.dismiss (h : Forest s) (hlive : (s.threads thr).reaped = false) (hlt : thr < s.next)
    (hnext : s'.next = s.next) (hscopes : s'.scopes = s.scopes)
    (hself : s'.threads thr =
      { s.threads thr with iHaveEnded := true, detachedChildren := [] })
    (hother : ∀ t, t ≠ thr → s'.threads t =
      if t ∈ (s.threads thr).detachedChildren then
        { s.threads t with parent := none, iAmDetached := false } else s.threads t) :
    Forest s' := by
  have hkeep : ∀ t, t ∉ (s.threads thr).detachedChildren →
      (s'.threads t).parent = (s.threads t).parent ∧
        (s'.threads t).iAmDetached = (s.threads t).iAmDetached := by
    intro t ht
    rcases eq_or_ne t thr with rfl | hne
    · rw [hself]
      exact ⟨rfl, rfl⟩
    · rw [hother t hne, if_neg ht]
      exact ⟨rfl, rfl⟩
  have hsame : ∀ t, (s'.threads t).children = (s.threads t).children ∧
      (s'.threads t).reaped = (s.threads t).reaped ∧
      (s'.threads t).parentScope = (s.threads t).parentScope ∧
      (t ≠ thr → (s'.threads t).detachedChildren = (s.threads t).detachedChildren) := by
    intro t
    rcases eq_or_ne t thr with rfl | hne
    · rw [hself]
      exact ⟨rfl, rfl, rfl, fun heq => absurd rfl heq⟩
    · rw [hother t hne]
      split_ifs <;> exact ⟨rfl, rfl, rfl, fun _ => rfl⟩
  have hin : ∀ c, c ∈ (s.threads thr).detachedChildren →
      (s'.threads c).parent = none ∧ (s'.threads c).iAmDetached = false := by
    intro c hc
    have hne : c ≠ thr := by
      rintro rfl
      exact lt_irrefl c (h.parent_lt c c (h.detached c c hlive hc).1).1
    rw [hother c hne, if_pos hc]
    exact ⟨rfl, rfl⟩
  constructor
  · intro t c hc
    rw [(hsame t).1] at hc
    have hlinks := h.child t c hc
    have hnot : c ∉ (s.threads thr).detachedChildren := by
      intro hmem
      rw [(h.detached thr c hlive hmem).2] at hlinks
      cases hlinks.2
    rw [(hkeep c hnot).1, (hkeep c hnot).2]
    exact hlinks
  · intro t c hr hc
    rw [(hsame t).2.1] at hr
    have hne : t ≠ thr := by
      rintro rfl
      rw [hself] at hc
      cases hc
    rw [(hsame t).2.2.2 hne] at hc
    have hlinks := h.detached t c hr hc
    have hnot : c ∉ (s.threads thr).detachedChildren := by
      intro hmem
      rw [(h.detached thr c hlive hmem).1] at hlinks
      exact hne (Option.some.inj hlinks.1).symm
    rw [(hkeep c hnot).1, (hkeep c hnot).2]
    exact hlinks
  · intro t c hc
    have hnot : c ∉ (s.threads thr).detachedChildren := by
      intro hmem
      rw [(hin c hmem).1] at hc
      cases hc
    rw [(hkeep c hnot).1] at hc
    have hmem := h.mem t c hc
    rw [(hkeep c hnot).2, (hsame t).1]
    split_ifs at hmem ⊢
    · rw [(hsame t).2.2.2]
      · exact hmem
      · rintro rfl
        exact hnot hmem
    · exact hmem
  · intro c hr hd
    rw [(hsame c).2.1] at hr
    have hnot : c ∉ (s.threads thr).detachedChildren := by
      intro hmem
      rw [(hin c hmem).2] at hd
      cases hd
    rw [(hkeep c hnot).2] at hd
    rw [(hkeep c hnot).1]
    exact h.parent_of_detached c hr hd
  · intro t c hc
    have hnot : c ∉ (s.threads thr).detachedChildren := by
      intro hmem
      rw [(hin c hmem).1] at hc
      cases hc
    rw [(hkeep c hnot).1] at hc
    rw [hnext, (hsame t).2.1]
    exact h.parent_lt t c hc
  · intro t
    rw [(hsame t).1]
    rcases eq_or_ne t thr with rfl | hne
    · rw [hself]
      exact ⟨(h.nodup t).1, List.nodup_nil⟩
    · rw [(hsame t).2.2.2 hne]
      exact h.nodup t
  · intro t hr
    rw [(hsame t).2.1] at hr
    have hne : t ≠ thr := by
      rintro rfl
      rw [hlive] at hr
      cases hr
    obtain ⟨he, hp⟩ := h.reaped t hr
    rw [hother t hne]
    split_ifs
    · exact ⟨he, rfl⟩
    · exact ⟨he, hp⟩
  · intro t ht
    rw [hnext] at ht
    rw [(hsame t).1, (hsame t).2.2.2 (by omega)]
    exact h.fresh t ht
  · intro c
    rw [hscopes]
    refine ⟨(h.scope c).1, fun t ht => ?_⟩
    rw [hnext, (hsame t).2.1, (hsame t).2.2.1]
    exact (h.scope c).2 t ht

/-- A detached thread leaves its parent. -/
theorem Forest.unlink (h : Forest s) (hp : (s.threads thr).parent = some p)
    (hdet : (s.threads thr).iAmDetached = true) {f : VThread → VThread}
    (hf : SameLinks { s.threads p with
      detachedChildren := (s.threads p).detachedChildren.erase thr } (f (s.threads p))) :
    Forest ((s.modify p f).modify thr fun t => { t with iAmDetached := false, parent := none }) := by
  have hne : p ≠ thr := Nat.ne_of_lt (h.parent_lt p thr hp).1
  obtain ⟨u, hu⟩ : ∃ u : VThreads, u = (s.modify p f).modify thr fun t =>
      { t with iAmDetached := false, parent := none } := ⟨_, rfl⟩
  rw [← hu]
  have hself : u.threads thr = { s.threads thr with iAmDetached := false, parent := none } := by
    rw [hu, modify_self, modify_of_ne s hne.symm]
  have hparent : u.threads p = f (s.threads p) := by
    rw [hu, modify_of_ne _ hne, modify_self]
  have hother : ∀ t, t ≠ p → t ≠ thr → u.threads t = s.threads t := by
    intro t htp ht
    rw [hu, modify_of_ne _ ht, modify_of_ne s htp]
  have hnext : u.next = s.next := by rw [hu]; rfl
  have hscopes : u.scopes = s.scopes := by rw [hu]; rfl
  have hsame : ∀ t, (u.threads t).children = (s.threads t).children ∧
      (u.threads t).reaped = (s.threads t).reaped ∧
      (u.threads t).parentScope = (s.threads t).parentScope ∧
      ((s.threads t).iHaveEnded = true → (u.threads t).iHaveEnded = true) ∧
      (t ≠ thr → (u.threads t).parent = (s.threads t).parent ∧
        (u.threads t).iAmDetached = (s.threads t).iAmDetached) ∧
      ∀ c, c ≠ thr → (c ∈ (u.threads t).detachedChildren ↔
        c ∈ (s.threads t).detachedChildren) := by
    intro t
    rcases eq_or_ne t thr with rfl | ht
    · rw [hself]
      exact ⟨rfl, rfl, rfl, id, fun heq => absurd rfl heq, fun _ _ => Iff.rfl⟩
    · rcases eq_or_ne t p with rfl | htp
      · rw [hparent]
        refine ⟨hf.children, hf.reaped, hf.parentScope, hf.iHaveEnded,
          fun _ => ⟨hf.parent, hf.iAmDetached⟩, fun c hc => ?_⟩
        rw [hf.detachedChildren]
        exact List.mem_erase_of_ne hc
      · rw [hother t htp ht]
        exact ⟨rfl, rfl, rfl, id, fun _ => ⟨rfl, rfl⟩, fun _ _ => Iff.rfl⟩
  have hgone : ∀ t, (u.threads t).reaped = false → thr ∉ (u.threads t).detachedChildren := by
    intro t hr hmem
    rw [(hsame t).2.1] at hr
    rcases eq_or_ne t p with rfl | htp
    · rw [hparent, hf.detachedChildren] at hmem
      exact (h.nodup t).2.not_mem_erase hmem
    · have hold : thr ∈ (s.threads t).detachedChildren := by
        rcases eq_or_ne t thr with rfl | ht
        · rw [hself] at hmem
          exact hmem
        · rw [hother t htp ht] at hmem
          exact hmem
      exact htp (Option.some.inj ((h.detached t thr hr hold).1.symm.trans hp))
  constructor
  · intro t c hc
    rw [(hsame t).1] at hc
    have hcne : c ≠ thr := by
      rintro rfl
      rw [(h.child t c hc).2] at hdet
      cases hdet
    obtain ⟨hcp, hcd⟩ := (hsame c).2.2.2.2.1 hcne
    rw [hcp, hcd]
    exact h.child t c hc
  · intro t c hr hc
    have hcne : c ≠ thr := by
      rintro rfl
      exact hgone t hr hc
    rw [(hsame t).2.1] at hr
    rw [(hsame t).2.2.2.2.2 c hcne] at hc
    obtain ⟨hcp, hcd⟩ := (hsame c).2.2.2.2.1 hcne
    rw [hcp, hcd]
    exact h.detached t c hr hc
  · intro t c hc
    have hcne : c ≠ thr := by
      rintro rfl
      rw [hself] at hc
      cases hc
    obtain ⟨hcp, hcd⟩ := (hsame c).2.2.2.2.1 hcne
    rw [hcp] at hc
    have hmem := h.mem t c hc
    rw [hcd, (hsame t).1]
    split_ifs at hmem ⊢
    · exact ((hsame t).2.2.2.2.2 c hcne).mpr hmem
    · exact hmem
  · intro c hr hd
    have hcne : c ≠ thr := by
      rintro rfl
      rw [hself] at hd
      cases hd
    obtain ⟨hcp, hcd⟩ := (hsame c).2.2.2.2.1 hcne
    rw [(hsame c).2.1] at hr
    rw [hcd] at hd
    rw [hcp]
    exact h.parent_of_detached c hr hd
  · intro t c hc
    have hcne : c ≠ thr := by
      rintro rfl
      rw [hself] at hc
      cases hc
    rw [((hsame c).2.2.2.2.1 hcne).1] at hc
    rw [hnext, (hsame t).2.1]
    exact h.parent_lt t c hc
  · intro t
    rw [(hsame t).1]
    refine ⟨(h.nodup t).1, ?_⟩
    rcases eq_or_ne t p with rfl | htp
    · rw [hparent, hf.detachedChildren]
      exact (h.nodup t).2.erase thr
    · rcases eq_or_ne t thr with rfl | ht
      · rw [hself]
        exact (h.nodup t).2
      · rw [hother t htp ht]
        exact (h.nodup t).2
  · intro t hr
    rw [(hsame t).2.1] at hr
    obtain ⟨he, hpn⟩ := h.reaped t hr
    refine ⟨(hsame t).2.2.2.1 he, ?_⟩
    rcases eq_or_ne t thr with rfl | ht
    · rw [hself]
    · rw [((hsame t).2.2.2.2.1 ht).1]
      exact hpn
  · intro t ht
    rw [hnext] at ht
    obtain ⟨hlt, hltn, -⟩ := h.parent_lt p thr hp
    rw [(hsame t).1, hother t (by omega) (by omega)]
    exact h.fresh t ht
  · intro c
    rw [hscopes]
    refine ⟨(h.scope c).1, fun t ht => ?_⟩
    rw [hnext, (hsame t).2.1, (hsame t).2.2.1]
    exact (h.scope c).2 t ht

end VThreads

end Icarus.Vvp
