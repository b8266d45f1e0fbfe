import Icarus.Vvp.Island.Enables

/-!
# What a pass reads and what it leaves alone

The ports that are connected by branches, enabled or not, form a region. What a pass sends to the
ports of a region depends on their inputs and on the states of the branches between them. A port at
a branch is sent a value if it has an input, whatever the states are.
-/

namespace Icarus.Vvp.Island

open Icarus.Core

variable {s : Mesh} {islandGetValue : String → Vector8}

/-- No branch leads out of the ports. -/
def Region (s : Mesh) (C : String → Prop) : Prop :=
  ∀ e, s.HasEnd e → C (s.portOf e) → C (s.portOf e.other)

/-- A branch leads out of the other ports neither. -/
theorem Region.not_other {C : String → Prop} (hC : Region s C) {e : BranchPtr} (he : s.HasEnd e)
    (h : ¬ C (s.portOf e)) : ¬ C (s.portOf e.other) := fun hother => by
  have := hC e.other (hasEnd_other.mpr he) hother
  rw [BranchPtr.other_other] at this
  exact h this

/-! ## The ports that are visited -/

/-- The port is at a branch and has an input. -/
def Sent (s : Mesh) (islandGetValue : String → Vector8) (p : String) : Prop :=
  islandGetValue p ≠ [] ∧ ∃ e, s.HasEnd e ∧ s.portOf e = p

/-- What resolution does to a run: it visits ports that are to be sent a value. -/
structure Grows (s : Mesh) (islandGetValue : String → Vector8) (r r' : Run) : Prop where
  /-- The states of the branches stay. -/
  state : r'.state = r.state
  /-- Nothing is sent. -/
  outvalue : r'.outvalue = r.outvalue
  /-- Visited ports stay visited. -/
  kept : ∀ p, r.value p ≠ [] → r'.value p ≠ []
  /-- A port that is visited has an input. -/
  fresh : ∀ p, r'.value p ≠ [] → r.value p ≠ [] ∨ Sent s islandGetValue p

theorem Grows.refl (r : Run) : Grows s islandGetValue r r :=
  ⟨rfl, rfl, fun _ => id, fun _ => Or.inl⟩

theorem Grows.trans {r r' r'' : Run} (h : Grows s islandGetValue r r')
    (h' : Grows s islandGetValue r' r'') : Grows s islandGetValue r r'' :=
  ⟨h'.state.trans h.state, h'.outvalue.trans h.outvalue, fun p hp => h'.kept p (h.kept p hp),
    fun p hp => (h'.fresh p hp).elim (h.fresh p) Or.inr⟩

theorem Grows.setValue {r : Run} {e : BranchPtr} (he : s.HasEnd e) {v : Vector8}
    (hkept : r.value (s.portOf e) ≠ [] → v ≠ [])
    (hfresh : v ≠ [] → r.value (s.portOf e) ≠ [] ∨ islandGetValue (s.portOf e) ≠ []) :
    Grows s islandGetValue r (r.setValue (s.portOf e) v) := by
  refine ⟨rfl, rfl, fun p hp => ?_, fun p hp => ?_⟩
  · rw [setValue_value]
    by_cases hport : p = s.portOf e
    · subst hport
      rw [Function.update_self]
      exact hkept hp
    · rwa [Function.update_of_ne hport]
  · rw [setValue_value] at hp
    by_cases hport : p = s.portOf e
    · subst hport
      rw [Function.update_self] at hp
      exact (hfresh hp).imp_right fun hinput => ⟨hinput, e, he, rfl⟩
    · rw [Function.update_of_ne hport] at hp
      exact Or.inl hp

/-- A cascade of pushes visits ports. -/
theorem grows_push (hs : s.Linked) {depth : Nat} {r r' : Run} {task : String × BranchPtr}
    (he : s.HasEnd task.2)
    (h : pushValueThroughBranch s islandGetValue depth r task = some r') :
    Grows s islandGetValue r r' := by
  refine Cascade.run_keeps (P := Grows s islandGetValue r) (T := fun t => s.HasEnd t.2) ?_
    (.refl r) he h
  rintro u ⟨val, cur⟩ u' next hu he hstep
  obtain ⟨v, -, rfl, hkept, hfresh, hnext⟩ := pushStep_cases hs he hstep
  exact ⟨hu.trans (.setValue (hasEnd_other.mpr he) hkept hfresh), fun t ht => (hnext t ht).1⟩

/-- What the visit of a port does: an unvisited port has its input, which is pushed through the
branches at the port. -/
theorem visitPort_cases (hs : s.Linked) {side : BranchPtr} (he : s.HasEnd side) :
    ∃ conn : List BranchPtr, (∀ e, e ∈ conn ↔ s.HasEnd e ∧ s.portOf e = s.portOf side) ∧ ∀ depth r,
      visitPort s islandGetValue depth r side =
        if r.value (s.portOf side) = [] then
          if islandGetValue (s.portOf side) = [] then
            some (r.setValue (s.portOf side) (islandGetValue (s.portOf side)))
          else (conn.map fun idx => (s.portOf side, idx)).foldlM
            (pushValueThroughBranch s islandGetValue depth)
            (r.setValue (s.portOf side) (islandGetValue (s.portOf side)))
        else some r := by
  obtain ⟨conn, hconn, hmem⟩ := hs.collectNode he
  refine ⟨conn, hmem, fun depth r => ?_⟩
  rw [visitPort]
  dsimp only
  rw [hconn, Option.bind_eq_bind, Option.bind_some, setValue_value, Function.update_self, ite_not,
    pushValueThroughBranches]

/-- The visit of a port at a branch. -/
theorem grows_visitPort (hs : s.Linked) {depth : Nat} {r r' : Run} {side : BranchPtr}
    (he : s.HasEnd side) (h : visitPort s islandGetValue depth r side = some r') :
    Grows s islandGetValue r r' ∧
      (islandGetValue (s.portOf side) ≠ [] → r'.value (s.portOf side) ≠ []) := by
  obtain ⟨conn, hmem, hvisit⟩ := @visitPort_cases s islandGetValue hs side he
  rw [hvisit] at h
  split_ifs at h with hold hinput
  · obtain rfl := Option.some_inj.mp h
    exact ⟨.setValue he (absurd hold) fun hv => Or.inr hv, fun hne => absurd hinput hne⟩
  · have hfirst : Grows s islandGetValue r
        (r.setValue (s.portOf side) (islandGetValue (s.portOf side))) :=
      .setValue he (absurd hold) fun hv => Or.inr hv
    have hends : ∀ task ∈ conn.map fun idx => (s.portOf side, idx), s.HasEnd task.2 := by
      intro task htask
      obtain ⟨e, hconn, rfl⟩ := List.mem_map.mp htask
      exact ((hmem e).mp hconn).1
    have hrest := @Cascade.foldlM_keeps _ _ (pushValueThroughBranch s islandGetValue depth)
      (Grows s islandGetValue (r.setValue (s.portOf side) (islandGetValue (s.portOf side)))) _
      (fun u task u' hu htask hpush => hu.trans (grows_push hs htask hpush)) _ _ _ (.refl _) hends h
    refine ⟨hfirst.trans hrest, fun _ => hrest.kept _ ?_⟩
    rwa [setValue_value, Function.update_self]
  · obtain rfl := Option.some_inj.mp h
    exact ⟨.refl r, fun _ => hold⟩

/-- The resolution of branches visits their ports. -/
theorem grows_resolution (hs : s.Linked) {depth : Nat} {order : List Nat} :
    ∀ {r r' : Run}, (∀ i ∈ order, i < s.branches.length) →
      order.foldlM (runResolution s islandGetValue depth) r = some r' →
      Grows s islandGetValue r r' ∧ ∀ e : BranchPtr, e.ptr ∈ order →
        islandGetValue (s.portOf e) ≠ [] → r'.value (s.portOf e) ≠ [] := by
  induction order with
  | nil =>
    intro r r' _ h
    obtain rfl : r = r' := Option.some_inj.mp h
    exact ⟨.refl r, fun _ he => absurd he List.not_mem_nil⟩
  | cons branch order ih =>
    intro r r' horder h
    obtain ⟨hb, horder⟩ := List.forall_mem_cons.mp horder
    rw [List.foldlM_cons] at h
    obtain ⟨u, hfirst, hrest⟩ := Option.bind_eq_some_iff.mp h
    obtain ⟨w, ha, hb'⟩ := Option.bind_eq_some_iff.mp hfirst
    obtain ⟨hgrow₁, hvisit₁⟩ := @grows_visitPort s islandGetValue hs _ _ _ ⟨branch, false⟩ hb ha
    obtain ⟨hgrow₂, hvisit₂⟩ := @grows_visitPort s islandGetValue hs _ _ _ ⟨branch, true⟩ hb hb'
    obtain ⟨hgrow, hvisit⟩ := ih horder hrest
    refine ⟨(hgrow₁.trans hgrow₂).trans hgrow, fun e he hinput => ?_⟩
    rcases List.mem_cons.mp he with heq | hmem
    · obtain ⟨ptr, port⟩ := e
      obtain rfl : ptr = branch := heq
      cases port with
      | false => exact hgrow.kept _ (hgrow₂.kept _ (hvisit₁ hinput))
      | true => exact hgrow.kept _ (hvisit₂ hinput)
    · exact hvisit e hmem hinput

/-! ## Regions -/

/-- Runs agree on a region: on the values of its ports and the states of its branches. -/
structure Agree (s : Mesh) (C : String → Prop) (r t : Run) : Prop where
  /-- The values of the ports. -/
  value : ∀ p, C p → r.value p = t.value p
  /-- The states of the branches. -/
  state : ∀ e, s.HasEnd e → C (s.portOf e) → r.state e.ptr = t.state e.ptr

section Region

variable {C : String → Prop} {r t : Run}

theorem Agree.symm (h : Agree s C r t) : Agree s C t r :=
  ⟨fun p hp => (h.value p hp).symm, fun e he hp => (h.state e he hp).symm⟩

theorem Agree.setValue (h : Agree s C r t) (p : String) (v : Vector8) :
    Agree s C (r.setValue p v) (t.setValue p v) := by
  refine ⟨fun q hq => ?_, h.state⟩
  rw [setValue_value, setValue_value]
  by_cases hport : q = p
  · subst hport
    rw [Function.update_self, Function.update_self]
  · rw [Function.update_of_ne hport, Function.update_of_ne hport]
    exact h.value q hq

/-- A port outside of the region does not matter. -/
theorem Agree.outside (h : Agree s C r t) {p : String} (hp : ¬ C p) (v : Vector8) :
    Agree s C (r.setValue p v) t := by
  refine ⟨fun q hq => ?_, h.state⟩
  have hne : q ≠ p := fun heq => hp (heq ▸ hq)
  rw [setValue_value, Function.update_of_ne hne]
  exact h.value q hq

/-- A push from a port in a region, or in the others. -/
def Task (s : Mesh) (C : String → Prop) (task : String × BranchPtr) : Prop :=
  s.HasEnd task.2 ∧ task.1 = s.portOf task.2 ∧ C (s.portOf task.2)

theorem task_connections {conn : List BranchPtr} {side : BranchPtr}
    (hmem : ∀ e, e ∈ conn ↔ s.HasEnd e ∧ s.portOf e = s.portOf side) (hp : C (s.portOf side)) :
    ∀ task ∈ conn.map fun idx => (s.portOf side, idx), Task s C task := by
  intro task htask
  obtain ⟨e, hconn, rfl⟩ := List.mem_map.mp htask
  obtain ⟨he, hport⟩ := (hmem e).mp hconn
  exact ⟨he, hport.symm, hport.symm ▸ hp⟩

/-- Pushes inside a region do the same to runs that agree on it. -/
theorem agree_push (hs : s.Linked) (hC : Region s C) {depth : Nat} {r t r' : Run}
    {task : String × BranchPtr} (h : Agree s C r t) (htask : Task s C task)
    (hr : pushValueThroughBranch s islandGetValue depth r task = some r') :
    ∃ t', pushValueThroughBranch s islandGetValue depth t task = some t' ∧ Agree s C r' t' := by
  refine Cascade.run_sim (R := Agree s C) (T := Task s C) ?_ depth r t task r' h htask hr
  rintro r t ⟨val, cur⟩ r' next h ⟨he, hval, hp⟩ hstep
  dsimp only at he hval hp
  obtain ⟨v, hchange, rfl, -, -, hnext⟩ := pushStep_cases hs he hstep
  have hdst := hC cur he hp
  refine ⟨t.setValue (s.portOf cur.other) v, ?_, h.setValue _ v, fun task htask => ?_⟩
  · rw [pushStep_eq_pushChange, ← h.state cur he hp, ← h.value _ hdst, hval, ← h.value _ hp,
      ← hval, hchange]
    rfl
  · obtain ⟨hend, hfst, hport⟩ := hnext task htask
    exact ⟨hend, hfst, hport ▸ hdst⟩

/-- Pushes outside of a region leave it alone. -/
theorem agree_push_outside (hs : s.Linked) (hC : Region s C) {depth : Nat} {r t r' : Run}
    {task : String × BranchPtr} (h : Agree s C r t) (htask : Task s (fun p => ¬ C p) task)
    (hr : pushValueThroughBranch s islandGetValue depth r task = some r') : Agree s C r' t := by
  refine Cascade.run_keeps (P := fun r => Agree s C r t) (T := Task s fun p => ¬ C p) ?_ h htask hr
  rintro r ⟨val, cur⟩ r' next h ⟨he, hval, hp⟩ hstep
  obtain ⟨v, -, rfl, -, -, hnext⟩ := pushStep_cases hs he hstep
  have hdst := hC.not_other he hp
  refine ⟨h.outside hdst v, fun task htask => ?_⟩
  obtain ⟨hend, hfst, hport⟩ := hnext task htask
  exact ⟨hend, hfst, fun hq => hdst (hport ▸ hq)⟩

/-- A visit outside of a region leaves it alone. -/
theorem agree_visitPort_outside (hs : s.Linked) (hC : Region s C) {depth : Nat} {r t r' : Run}
    {side : BranchPtr} (he : s.HasEnd side) (hp : ¬ C (s.portOf side)) (h : Agree s C r t)
    (hr : visitPort s islandGetValue depth r side = some r') : Agree s C r' t := by
  obtain ⟨conn, hmem, hvisit⟩ := @visitPort_cases s islandGetValue hs side he
  rw [hvisit] at hr
  split_ifs at hr
  · obtain rfl := Option.some_inj.mp hr
    exact h.outside hp _
  · exact Cascade.foldlM_keeps (P := fun r => Agree s C r t)
      (fun u task u' hu htask hpush => agree_push_outside hs hC hu htask hpush) (h.outside hp _)
      (@task_connections s (fun p => ¬ C p) _ _ hmem hp) hr
  · obtain rfl := Option.some_inj.mp hr
    exact h

/-- A visit inside a region does the same to runs that agree on it. -/
theorem agree_visitPort_inside (hs : s.Linked) (hC : Region s C) {depth : Nat} {r t r' : Run}
    {side : BranchPtr} (he : s.HasEnd side) (hp : C (s.portOf side)) (h : Agree s C r t)
    (hr : visitPort s islandGetValue depth r side = some r') :
    ∃ t', visitPort s islandGetValue depth t side = some t' ∧ Agree s C r' t' := by
  obtain ⟨conn, hmem, hvisit⟩ := @visitPort_cases s islandGetValue hs side he
  have hpushes : ∀ r t task r', Agree s C r t → Task s C task →
      pushValueThroughBranch s islandGetValue depth r task = some r' →
      ∃ t', pushValueThroughBranch s islandGetValue depth t task = some t' ∧ Agree s C r' t' :=
    fun r t task r' h htask hpush => agree_push hs hC h htask hpush
  rw [hvisit] at hr
  rw [hvisit, ← h.value _ hp]
  split_ifs at hr ⊢
  · obtain rfl := Option.some_inj.mp hr
    exact ⟨_, rfl, h.setValue _ _⟩
  · exact Cascade.foldlM_sim hpushes _ (h.setValue _ _) (task_connections hmem hp) hr
  · obtain rfl := Option.some_inj.mp hr
    exact ⟨t, rfl, h⟩

/-- A visit does the same to runs that agree on a region. -/
theorem agree_visitPort (hs : s.Linked) (hC : Region s C) {depth : Nat} {r t r' t' : Run}
    {side : BranchPtr} (he : s.HasEnd side) (h : Agree s C r t)
    (hr : visitPort s islandGetValue depth r side = some r')
    (ht : visitPort s islandGetValue depth t side = some t') : Agree s C r' t' := by
  by_cases hp : C (s.portOf side)
  · obtain ⟨u, hu, hagree⟩ := agree_visitPort_inside hs hC he hp h hr
    obtain rfl : u = t' := Option.some_inj.mp (hu.symm.trans ht)
    exact hagree
  · have hr' := agree_visitPort_outside hs hC he hp h hr
    exact (agree_visitPort_outside hs hC he hp hr'.symm ht).symm

/-- The resolution of branches does the same to runs that agree on a region. -/
theorem agree_resolution (hs : s.Linked) (hC : Region s C) {depth : Nat} {order : List Nat} :
    ∀ {r t r' t' : Run}, (∀ i ∈ order, i < s.branches.length) → Agree s C r t →
      order.foldlM (runResolution s islandGetValue depth) r = some r' →
      order.foldlM (runResolution s islandGetValue depth) t = some t' → Agree s C r' t' := by
  induction order with
  | nil =>
    intro r t r' t' _ h hr ht
    obtain rfl : r = r' := Option.some_inj.mp hr
    obtain rfl : t = t' := Option.some_inj.mp ht
    exact h
  | cons branch order ih =>
    intro r t r' t' horder h hr ht
    obtain ⟨hb, horder⟩ := List.forall_mem_cons.mp horder
    rw [List.foldlM_cons] at hr ht
    obtain ⟨r₂, hr₂, hr⟩ := Option.bind_eq_some_iff.mp hr
    obtain ⟨t₂, ht₂, ht⟩ := Option.bind_eq_some_iff.mp ht
    obtain ⟨r₁, hr₁, hr₂⟩ := Option.bind_eq_some_iff.mp hr₂
    obtain ⟨t₁, ht₁, ht₂⟩ := Option.bind_eq_some_iff.mp ht₂
    have hfirst := @agree_visitPort s islandGetValue C hs hC _ _ _ _ _ ⟨branch, false⟩ hb h hr₁ ht₁
    have hsecond :=
      @agree_visitPort s islandGetValue C hs hC _ _ _ _ _ ⟨branch, true⟩ hb hfirst hr₂ ht₂
    exact ih horder hsecond hr ht

/-- Whether it ends depends on the states of the branches alone. -/
theorem resolution_ends (hs : s.Linked) {depth : Nat} {order : List Nat} :
    ∀ {r t r' : Run}, (∀ i ∈ order, i < s.branches.length) → Agree s (fun _ => True) r t →
      order.foldlM (runResolution s islandGetValue depth) r = some r' →
      ∃ t', order.foldlM (runResolution s islandGetValue depth) t = some t' := by
  intro r t r' horder h hr
  have hall : Region s fun _ => True := fun _ _ => id
  have hbranch : ∀ r t branch r', Agree s (fun _ => True) r t → branch < s.branches.length →
      runResolution s islandGetValue depth r branch = some r' →
      ∃ t', runResolution s islandGetValue depth t branch = some t' ∧
        Agree s (fun _ => True) r' t' := by
    intro r t branch r' h hb hr
    obtain ⟨r₁, hr₁, hr₂⟩ := Option.bind_eq_some_iff.mp hr
    obtain ⟨t₁, ht₁, h₁⟩ :=
      @agree_visitPort_inside s islandGetValue _ hs hall _ _ _ _ ⟨branch, false⟩ hb trivial h hr₁
    obtain ⟨t₂, ht₂, h₂⟩ :=
      @agree_visitPort_inside s islandGetValue _ hs hall _ _ _ _ ⟨branch, true⟩ hb trivial h₁ hr₂
    exact ⟨t₂, Option.bind_eq_some_iff.mpr ⟨t₁, ht₁, ht₂⟩, h₂⟩
  obtain ⟨t', ht', -⟩ := Cascade.foldlM_sim hbranch order h horder hr
  exact ⟨t', ht'⟩

end Region

end Icarus.Vvp.Island
