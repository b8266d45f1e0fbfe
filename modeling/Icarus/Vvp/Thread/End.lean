import Icarus.Vvp.Thread.Blocked

/-!
# What `%end` does

A thread that ends dismisses its detached children. If it is a child of a thread
that is joining it does to it what disabling does; a detached one leaves the set
of its parent, and wakes it if it was the last one waited for.
-/

namespace Icarus.Vvp

namespace VThreads

variable {s s' : VThreads} {thr t p : Nat}

/-! ## The detached children -/

theorem dismissed_self (h : Forest s) (hx : Executing s thr) :
    (dismissed s thr).threads thr =
      { s.threads thr with iHaveEnded := true, detachedChildren := [] } := by
  have hself : thr ∉ (s.threads thr).detachedChildren := by
    intro hmem
    exact lt_irrefl thr (h.parent_lt thr thr (h.detached thr thr (h.not_reaped hx.ended) hmem).1).1
  rw [dismissed, modify_self, modifyAll_threads, if_neg hself, modify_self]

private theorem dismissed_other (hne : t ≠ thr) : (dismissed s thr).threads t =
    if t ∈ (s.threads thr).detachedChildren then
      { s.threads t with parent := none, iAmDetached := false } else s.threads t := by
  rw [dismissed, modify_of_ne _ hne, modifyAll_threads, modify_of_ne s hne]

private theorem Forest.dismissed (h : Forest s) (hx : Executing s thr) :
    Forest (dismissed s thr) :=
  h.dismiss (h.not_reaped hx.ended) hx.lt rfl rfl (dismissed_self h hx) fun _ => dismissed_other

/-- A parent is not among the detached children. -/
theorem dismissed_parent (h : Forest s) (hx : Executing s thr)
    (hp : (s.threads thr).parent = some p) : (dismissed s thr).threads p = s.threads p := by
  have hlt := (h.parent_lt p thr hp).1
  have hnot : p ∉ (s.threads thr).detachedChildren := by
    intro hmem
    have hgt := (h.parent_lt thr p (h.detached thr p (h.not_reaped hx.ended) hmem).1).1
    omega
  rw [dismissed_other (Nat.ne_of_lt hlt), if_neg hnot]

private theorem dismissed_changed (h : Forest s) (hx : Executing s thr) (hne : t ≠ thr) :
    Changed (s.threads t) ((dismissed s thr).threads t) := by
  rw [dismissed_other hne]
  split_ifs with hmem
  · exact .inr (.inr ⟨(h.detached thr t (h.not_reaped hx.ended) hmem).2, rfl⟩)
  · exact .refl _

private theorem dismissed_ended (hne : t ≠ thr) :
    ((dismissed s thr).threads t).iHaveEnded = (s.threads t).iHaveEnded := by
  rw [dismissed_other hne]
  split_ifs <;> rfl

/-- Only younger threads lose their parent. -/
private theorem dismissed_older (h : Forest s) (hx : Executing s thr) (hlt : t < thr) :
    (dismissed s thr).threads t = s.threads t := by
  have hnot : t ∉ (s.threads thr).detachedChildren := by
    intro hmem
    have hgt := (h.parent_lt thr t (h.detached thr t (h.not_reaped hx.ended) hmem).1).1
    omega
  rw [dismissed_other (Nat.ne_of_lt hlt), if_neg hnot]

/-- Reaping a thread that has neither children nor a parent changes no other one. -/
private theorem Forest.reap_orphan (h : Forest s) (hchildren : (s.threads thr).children = [])
    (hreaped : (s.threads thr).reaped = false) (hparent : (s.threads thr).parent = none)
    (hdetached : (s.threads thr).detachedChildren = []) (hne : t ≠ thr) :
    (s.vthreadReap thr).threads t = s.threads t := by
  rw [h.threads_reap hchildren hreaped, if_neg hne, hparent, hdetached, if_neg nofun,
    if_neg List.not_mem_nil]

/-! ## The parent -/

/-- `%end` of a thread whose parent is not waiting for its detached children. -/
private theorem ofEnd_disables (h : Forest s) (hb : Blocked s) (hx : Executing s thr)
    (hdet : (s.threads thr).iAmDetached = false) (hop : s.ofEnd thr = some s') :
    Disables s thr s' := by
  have hself := dismissed_self h hx
  have hforest := h.dismissed hx
  have hended : ∀ t, ((dismissed s thr).threads t).iHaveEnded = true →
      (s.threads t).iHaveEnded = true ∨ t = thr := by
    intro t ht
    rcases eq_or_ne t thr with rfl | hne
    · exact .inr rfl
    · rw [dismissed_ended hne] at ht
      exact .inl ht
  rw [ofEnd, hx.event, if_neg Bool.false_ne_true] at hop
  dsimp only at hop
  rw [hself] at hop
  dsimp only at hop
  have hchildren : (s.threads thr).children = [] := by
    by_contra hne
    rw [if_pos hne] at hop
    cases hop
  rw [if_neg (not_not.mpr hchildren), hdet] at hop
  have hempty : ((dismissed s thr).threads thr).children = [] := by rw [hself, hchildren]
  have hlive : ((dismissed s thr).threads thr).reaped = false := by
    rw [hself]
    exact h.not_reaped hx.ended
  have hend : ((dismissed s thr).threads thr).iHaveEnded = true := by rw [hself]
  have hjoin : ((dismissed s thr).threads thr).iAmJoining = false := by rw [hself, hx.joining]
  cases hp : (s.threads thr).parent with
  | none =>
    rw [hp] at hop
    dsimp only at hop
    rw [if_neg Bool.false_ne_true, Option.some_inj] at hop
    have hother : ∀ t, t ≠ thr → s'.threads t = (dismissed s thr).threads t := by
      intro t ht
      rw [← hop]
      exact hforest.reap_orphan hempty hlive (by rw [hself, hp]) (by rw [hself]) ht
    have hthr : (s'.threads thr).iHaveEnded = true ∧ (s'.threads thr).iAmJoining = false ∧
        (s'.threads thr).children = [] := by
      rw [← hop, hforest.threads_reap hempty hlive, if_pos rfl]
      exact ⟨hend, hjoin, hempty⟩
    refine ⟨hop ▸ hforest.reap hempty hlive hend, ?_, hthr, ?_, ?_, ?_, ?_, ?_⟩
    · rw [← hop, vthreadReap_next]
      rfl
    · intro u hu _
      rw [hother u (Nat.ne_of_lt hu), dismissed_older h hx hu]
    · intro u hu _
      rw [hother u hu]
      exact dismissed_changed h hx hu
    · intro p hsome
      cases hp.symm.trans hsome
    · intro p hsome
      cases hp.symm.trans hsome
    · intro u hu
      rcases eq_or_ne u thr with rfl | hne
      · exact .inr (.inl rfl)
      · rw [hother u hne, dismissed_ended hne] at hu
        exact .inl hu
  | some p =>
    rw [hp] at hop
    dsimp only at hop
    have hparent := dismissed_parent h hx hp
    have hplt := (h.parent_lt p thr hp).1
    rw [if_neg Bool.false_ne_true, hparent] at hop
    cases hj : (s.threads p).iAmJoining with
    | false =>
      rw [hj, if_neg Bool.false_ne_true, Option.some_inj] at hop
      subst hop
      refine ⟨hforest, rfl, ⟨hend, hjoin, hempty⟩, fun u hu _ => dismissed_older h hx hu,
        fun u hu _ => dismissed_changed h hx hu, ?_, ?_, fun u hu => ?_⟩
      · intro q hq _
        obtain rfl : p = q := Option.some.inj (hp.symm.trans hq)
        refine ⟨hparent, ?_, ?_⟩
        · rw [hself]
          exact hp
        · rw [hself]
      · intro q hq hjq
        obtain rfl : p = q := Option.some.inj (hp.symm.trans hq)
        cases hj.symm.trans hjq
      · rcases hended u hu with hold | heq
        · exact .inl hold
        · exact .inr (.inl heq)
    | true =>
      obtain ⟨hpe, hps, -⟩ := (hb p).joining hj
      rw [hj, if_pos rfl, scheduleVthread, modify_self, hparent, hps,
        if_neg Bool.false_ne_true, Option.bind_some, modify_modify, doJoin,
        modify_of_ne _ (Nat.ne_of_gt hplt), hself, hp, if_pos rfl, Option.some_inj] at hop
      obtain ⟨u, hu⟩ : ∃ u : VThreads, u = (dismissed s thr).modify p fun t =>
          { t with iAmJoining := false, isScheduled := true } := ⟨_, rfl⟩
      have hthr : u.threads thr = (dismissed s thr).threads thr := by
        rw [hu, modify_of_ne _ (Nat.ne_of_gt hplt)]
      have huforest : Forest u := hu ▸ hforest.modify ⟨rfl, rfl, rfl, rfl, rfl, rfl, id⟩
      rw [← hu] at hop
      have hreap := @Forest.threads_reap u thr huforest (by rw [hthr, hempty]) (by rw [hthr, hlive])
      rw [hthr, hself, hp, hdet] at hreap
      dsimp only at hreap
      have hother : ∀ t, t ≠ thr → t ≠ p → s'.threads t = (dismissed s thr).threads t := by
        intro t ht htp
        rw [← hop, hreap t, if_neg ht, if_neg (fun heq => htp (Option.some.inj heq).symm),
          if_neg List.not_mem_nil, hu, modify_of_ne _ htp]
      have hs'thr := hreap thr
      rw [if_pos rfl, hop] at hs'thr
      have hs'p := hreap p
      rw [if_neg (Nat.ne_of_lt hplt), if_pos rfl, hop, hu, modify_self, hparent] at hs'p
      refine ⟨?_, ?_, ?_, ?_, ?_, ?_, ?_, ?_⟩
      · rw [← hop]
        exact huforest.reap (by rw [hthr, hempty]) (by rw [hthr, hlive]) (by rw [hthr, hend])
      · rw [← hop, vthreadReap_next, hu]
        rfl
      · rw [hs'thr]
        exact ⟨rfl, hx.joining, hchildren⟩
      · intro t ht hpt
        rw [hother t (Nat.ne_of_lt ht) (fun heq => hpt (heq ▸ hp)), dismissed_older h hx ht]
      · intro t ht hpt
        rw [hother t ht (fun heq => hpt (heq ▸ hp))]
        exact dismissed_changed h hx ht
      · intro q hq hjq
        obtain rfl : p = q := Option.some.inj (hp.symm.trans hq)
        cases hj.symm.trans hjq
      · intro q hq _
        obtain rfl : p = q := Option.some.inj (hp.symm.trans hq)
        have hscheduled : ((s.threads p).isScheduled || !(s.threads p).iHaveEnded) = true := by
          rw [hpe, Bool.not_false, Bool.or_true]
        rw [hs'p, hs'thr, hscheduled, hdet]
        exact ⟨rfl, rfl⟩
      · intro t ht
        rcases eq_or_ne t thr with rfl | hne
        · exact .inr (.inl rfl)
        · rcases eq_or_ne t p with rfl | htp
          · rw [hs'p, (withoutMember_flags _ _ _).2.2.2] at ht
            exact .inl ht
          · rw [hother t hne htp, dismissed_ended hne] at ht
            exact .inl ht

/-- The parent of a detached thread that has ended: it is woken if that was the last one. -/
private def leftBy (p : VThread) (thr : Nat) : VThread :=
  let set := p.detachedChildren.erase thr
  { p with
    detachedChildren := set
    iAmWaiting := p.iAmWaiting && decide (set ≠ [])
    isScheduled := p.isScheduled || p.iAmWaiting && decide (set = []) }

private theorem leftBy_last {p : VThread} (hw : p.iAmWaiting = true)
    (hset : p.detachedChildren.erase thr = []) : leftBy p thr = { p with
      detachedChildren := p.detachedChildren.erase thr, iAmWaiting := false, isScheduled := true } := by
  simp [leftBy, hw, hset]

private theorem leftBy_more {p : VThread}
    (hmore : (p.iAmWaiting && decide (p.detachedChildren.erase thr = [])) = false) :
    leftBy p thr = { p with detachedChildren := p.detachedChildren.erase thr } := by
  cases hw : p.iAmWaiting with
  | false => simp [leftBy, hw]
  | true =>
    rw [hw, Bool.true_and, decide_eq_false_iff_not] at hmore
    simp [leftBy, hw, hmore]

private theorem modify_congr (p : Nat) {f g : VThread → VThread}
    (hfg : f (s.threads p) = g (s.threads p)) : s.modify p f = s.modify p g := by
  rw [modify, modify, hfg]

/-- `%end` of a detached thread. -/
private theorem ofEnd_detached (h : Forest s) (hx : Executing s thr)
    (hdet : (s.threads thr).iAmDetached = true) (hop : s.ofEnd thr = some s') :
    ∃ p, (s.threads thr).parent = some p ∧ Forest s' ∧ (s'.threads thr).iHaveEnded = true ∧
      (s'.threads thr).iAmJoining = false ∧ (s'.threads thr).children = [] ∧
      s'.threads p = leftBy (s.threads p) thr ∧
      ((s.threads p).iAmWaiting = true → (s'.threads p).iAmWaiting = false →
        (s.threads p).isScheduled = false) ∧
      ∀ t, t ≠ thr → t ≠ p → s'.threads t = (dismissed s thr).threads t := by
  have hself := dismissed_self h hx
  have hforest := h.dismissed hx
  rw [ofEnd, hx.event, if_neg Bool.false_ne_true] at hop
  dsimp only at hop
  rw [hself] at hop
  dsimp only at hop
  have hchildren : (s.threads thr).children = [] := by
    by_contra hne
    rw [if_pos hne] at hop
    cases hop
  rw [if_neg (not_not.mpr hchildren), hdet] at hop
  cases hp : (s.threads thr).parent with
  | none =>
    rw [hp] at hop
    cases hop
  | some p =>
    rw [hp] at hop
    dsimp only at hop
    rw [if_pos rfl, modify_self, dismissed_parent h hx hp] at hop
    dsimp only at hop
    have hne : thr ≠ p := Nat.ne_of_gt (h.parent_lt p thr hp).1
    -- the change of the parent, and that it was possible
    obtain ⟨hwake, hop⟩ : ((s.threads p).iAmWaiting = true → (leftBy (s.threads p) thr).iAmWaiting =
        false → (s.threads p).isScheduled = false) ∧
        ((((dismissed s thr).modify p fun p => leftBy p thr).modify thr fun t =>
          { t with iAmDetached := false, parent := none }).vthreadReap thr) = s' := by
      cases hw : ((s.threads p).iAmWaiting && decide ((s.threads p).detachedChildren.erase thr = []))
        with
      | false =>
        rw [hw, if_neg Bool.false_ne_true, Option.map_some, Option.some_inj] at hop
        have hmore := leftBy_more hw
        refine ⟨fun hwait hstop => ?_, ?_⟩
        · rw [hmore] at hstop
          cases hwait.symm.trans hstop
        · rw [← hop, modify_congr p (f := fun p => leftBy p thr)]
          rw [dismissed_parent h hx hp]
          exact hmore
      | true =>
        rw [hw, if_pos rfl, scheduleVthread, modify_self, modify_self,
          dismissed_parent h hx hp] at hop
        dsimp only at hop
        cases hs : (s.threads p).isScheduled with
        | true =>
          rw [hs] at hop
          cases hop
        | false =>
          rw [hs, if_neg Bool.false_ne_true, Option.map_some, Option.some_inj, modify_modify,
            modify_modify] at hop
          refine ⟨fun _ _ => rfl, ?_⟩
          rw [Bool.and_eq_true, decide_eq_true_eq] at hw
          rw [← hop, modify_congr p (f := fun p => leftBy p thr)]
          rw [dismissed_parent h hx hp]
          exact leftBy_last hw.1 hw.2
    obtain ⟨u, hu⟩ : ∃ u : VThreads, u = ((dismissed s thr).modify p fun p =>
        leftBy p thr).modify thr fun t => { t with iAmDetached := false, parent := none } := ⟨_, rfl⟩
    rw [← hu] at hop
    have hthr : u.threads thr = { s.threads thr with
        iHaveEnded := true, detachedChildren := [], iAmDetached := false, parent := none } := by
      rw [hu, modify_self, modify_of_ne _ hne, hself]
    have huforest : Forest u := by
      rw [hu]
      apply hforest.unlink (p := p)
      · rw [hself]
        exact hp
      · rw [hself]
        exact hdet
      · exact ⟨rfl, rfl, rfl, rfl, rfl, rfl, id⟩
    have hempty : (u.threads thr).children = [] := by rw [hthr, ← hchildren]
    have hlive : (u.threads thr).reaped = false := by
      rw [hthr]
      exact h.not_reaped hx.ended
    have horphan : ∀ t, t ≠ thr → s'.threads t = u.threads t := by
      intro t ht
      rw [← hop]
      exact huforest.reap_orphan hempty hlive (by rw [hthr]) (by rw [hthr]) ht
    have hp' : s'.threads p = leftBy (s.threads p) thr := by
      rw [horphan p hne.symm, hu, modify_of_ne _ hne.symm, modify_self, dismissed_parent h hx hp]
    have hs'thr := huforest.threads_reap hempty hlive thr
    rw [if_pos rfl, hop, hthr] at hs'thr
    refine ⟨p, rfl, hop ▸ huforest.reap hempty hlive (by rw [hthr]), ?_, ?_, ?_, hp', ?_, ?_⟩
    · rw [hs'thr]
    · rw [hs'thr]
      exact hx.joining
    · rw [hs'thr]
      exact hchildren
    · rw [hp']
      exact hwake
    · intro t ht htp
      rw [horphan t ht, hu, modify_of_ne _ ht, modify_of_ne _ htp]

private theorem leftBy_flags (p : VThread) (thr : Nat) :
    (leftBy p thr).iAmJoining = p.iAmJoining ∧ (leftBy p thr).iHaveEnded = p.iHaveEnded ∧
      (leftBy p thr).children = p.children ∧ (leftBy p thr).waitingForEvent = p.waitingForEvent ∧
      (leftBy p thr).detachedChildren = p.detachedChildren.erase thr :=
  ⟨rfl, rfl, rfl, rfl, rfl⟩

/-- The parent of a detached thread that ends is as blocked as it should be. -/
private theorem leftBy_blocked (hb : Blocked s) (hp : s'.threads p = leftBy (s.threads p) thr)
    (hsame : (s.threads p).iAmJoining = true → ∀ c ∈ (s.threads p).children,
      (s'.threads c).iHaveEnded = (s.threads c).iHaveEnded) : BlockedAt s' p := by
  obtain ⟨hj, he, hc, hv, hset⟩ := leftBy_flags (s.threads p) thr
  rw [← hp] at hj he hc hv hset
  cases hmore : (s.threads p).iAmWaiting &&
      decide ((s.threads p).detachedChildren.erase thr = []) with
  | true =>
    rw [Bool.and_eq_true, decide_eq_true_eq] at hmore
    have hlast := leftBy_last hmore.1 hmore.2
    have hfree : (s.threads p).iAmJoining = false := by
      by_contra hjp
      have hw := ((hb p).joining (Bool.eq_true_of_not_eq_false hjp)).waiting
      cases hw.symm.trans hmore.1
    refine .of_flags (hj.trans hfree) (fun hw => ?_) fun hend => ?_
    · rw [hp, hlast] at hw
      cases hw
    · rw [hc]
      exact (hb p).childless (he ▸ hend)
  | false =>
    have hleft := leftBy_more hmore
    constructor
    · intro hjp
      rw [hj] at hjp
      obtain ⟨h₁, h₂, h₃, h₄, h₅, h₆⟩ := (hb p).joining hjp
      refine ⟨he.trans h₁, ?_, ?_, hv.trans h₄, hc.symm ▸ h₅, fun c hmem => ?_⟩
      · rw [hp, hleft]
        exact h₂
      · rw [hp, hleft]
        exact h₃
      · rw [hc] at hmem
        exact (hsame hjp c hmem).trans (h₆ c hmem)
    · intro hw hend
      rw [hp, hleft] at hw
      rw [he] at hend
      obtain ⟨h₁, h₂, -⟩ := (hb p).waiting hw hend
      refine ⟨?_, hv.trans h₂, ?_⟩
      · rw [hp, hleft]
        exact h₁
      · rw [hset]
        rw [hw, Bool.true_and, decide_eq_false_iff_not] at hmore
        exact hmore
    · intro hend
      rw [he] at hend
      exact hc.trans ((hb p).childless hend)

theorem Fair.mono {P P' Q Q' : Prop} (h : Fair s s' P Q) (hP : P' → P) (hQ : Q' → Q) :
    Fair s s' P' Q' :=
  ⟨h.forest, h.blocked, fun hP' => h.resumed (hP hP'), h.woken, fun hQ' => h.live (hQ hQ')⟩

/-- `%end` releases the thread that was waiting for the one that ends. -/
theorem ofEnd_fair (h : Forest s) (hb : Blocked s) (hx : Executing s thr)
    (hop : s.ofEnd thr = some s') : Fair s s' True True := by
  cases hdet : (s.threads thr).iAmDetached with
  | false =>
    refine ((ofEnd_disables h hb hx hdet hop).fair h hb).mono (fun _ p _ hbad => ?_)
      fun _ p _ hbad => ?_
    · cases hdet.symm.trans hbad.1
    · cases hdet.symm.trans hbad
  | true =>
    obtain ⟨p, hp, hforest, hend, hjoin, hempty, hself, hwake, hother⟩ := ofEnd_detached h hx hdet hop
    have hflags : ∀ t, t ≠ thr → (s'.threads t).iAmJoining = (s.threads t).iAmJoining ∧
        (s'.threads t).iHaveEnded = (s.threads t).iHaveEnded ∧
        (t ≠ p → blockView (s'.threads t) = blockView (s.threads t)) := by
      intro t ht
      rcases eq_or_ne t p with rfl | htp
      · rw [hself]
        exact ⟨rfl, rfl, fun hne => absurd rfl hne⟩
      · rw [hother t ht htp, dismissed_other ht]
        split_ifs <;> exact ⟨rfl, rfl, fun _ => rfl⟩
    -- a child of a thread that is joining is not the detached one
    have hsame : ∀ t c, c ∈ (s.threads t).children →
        (s'.threads c).iHaveEnded = (s.threads c).iHaveEnded := by
      intro t c hc
      refine (hflags c ?_).2.1
      rintro rfl
      cases (h.child t c hc).2.symm.trans hdet
    refine ⟨hforest, fun t => ?_, fun _ t _ hj hj' he => ?_, fun t _ hw hw' he => ?_,
      fun _ hlive t ht d hd => ?_⟩
    · rcases eq_or_ne t thr with rfl | ht
      · exact .of_flags hjoin (fun _ => hend) fun _ => hempty
      · rcases eq_or_ne t p with rfl | htp
        · exact leftBy_blocked hb hself fun _ => hsame t
        · exact (hb t).congr ((hflags t ht).2.2 htp) fun _ => hsame t
    · have ht : t ≠ thr := by
        rintro rfl
        cases hx.joining.symm.trans hj
      cases ((hflags t ht).1.trans hj).symm.trans hj'
    · have ht : t ≠ thr := by
        rintro rfl
        cases hx.waiting.symm.trans hw
      rcases eq_or_ne t p with rfl | htp
      · refine ⟨hwake hw hw', ?_, ?_⟩
        · cases hmore : (s.threads t).iAmWaiting &&
              decide ((s.threads t).detachedChildren.erase thr = []) with
          | false =>
            rw [hself, leftBy_more hmore] at hw'
            cases hw.symm.trans hw'
          | true =>
            rw [Bool.and_eq_true, decide_eq_true_eq] at hmore
            rw [hself, leftBy_last hw hmore.2]
        · by_contra hset
          rw [hself] at hset hw'
          change (s.threads t).detachedChildren.erase thr ≠ [] at hset
          rw [leftBy, hw, Bool.true_and] at hw'
          exact of_decide_eq_false hw' hset
      · have hview := (hflags t ht).2.2 htp
        simp only [blockView, Prod.mk.injEq] at hview
        cases (hview.2.2.2.1.trans hw).symm.trans hw'
    · have htne : t ≠ thr := by
        rintro rfl
        cases hend.symm.trans ht
      rw [(hflags t htne).2.1] at ht
      have hr := h.not_reaped ht
      have hold : d ∈ (s.threads t).detachedChildren ∧ d ≠ thr := by
        rcases eq_or_ne t p with rfl | htp
        · rw [hself] at hd
          refine ⟨List.mem_of_mem_erase hd, ?_⟩
          rintro rfl
          exact (h.nodup t).2.not_mem_erase hd
        · have hview := (hflags t htne).2.2 htp
          simp only [blockView, Prod.mk.injEq] at hview
          rw [hview.2.2.2.2.2.2] at hd
          refine ⟨hd, ?_⟩
          rintro rfl
          exact htp (Option.some.inj ((h.detached t d hr hd).1.symm.trans hp))
      rw [(hflags d hold.2).2.1]
      exact hlive t ht d hold.1

end VThreads

end Icarus.Vvp
