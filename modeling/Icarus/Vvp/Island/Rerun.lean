import Icarus.Vvp.Island.Frame

/-!
# Passes of a tran island

The states of the branches decide what a pass sends, and what it sends decides their states in the
next pass. The state of a branch depends on the branches that are connected with its enable input.
-/

namespace Icarus.Vvp.Island

open Icarus.Core

instance tranStateFintype : Fintype TranState :=
  ⟨{.disabled, .enabled, .unknown}, fun x => by cases x <;> decide⟩

theorem card_tranState : Fintype.card TranState = 3 := rfl

variable {s : Mesh} {enable : Nat → Enable} {islandGetValue : String → Vector8} {order : List Nat}

/-! ## One pass -/

/-- More depth changes nothing. -/
theorem resolutionPass_mono {depth depth' : Nat} (hle : depth ≤ depth') {r r' : Run}
    (h : resolutionPass s islandGetValue depth order r = some r') :
    resolutionPass s islandGetValue depth' order r = some r' := by
  have hpushes : ∀ r val conn r', pushValueThroughBranches s islandGetValue depth r val conn =
      some r' → pushValueThroughBranches s islandGetValue depth' r val conn = some r' :=
    fun r val conn r' => Cascade.foldlM_mono (fun _ _ _ => Cascade.run_mono hle) _
  have hvisit : ∀ r side r', visitPort s islandGetValue depth r side = some r' →
      visitPort s islandGetValue depth' r side = some r' := by
    intro r side r' h
    rw [visitPort] at h ⊢
    split_ifs at h ⊢ with hold
    · obtain ⟨conn, hconn, h⟩ := Option.bind_eq_some_iff.mp h
      refine Option.bind_eq_some_iff.mpr ⟨conn, hconn, ?_⟩
      dsimp only at h ⊢
      split_ifs at h ⊢
      · exact hpushes _ _ _ _ h
      · exact h
    · exact h
  obtain ⟨u, hu, hout⟩ := Option.map_eq_some_iff.mp h
  refine Option.map_eq_some_iff.mpr
    ⟨u, Cascade.foldlM_mono (fun r branch r' h => ?_) order hu, hout⟩
  obtain ⟨w, hfirst, hsecond⟩ := Option.bind_eq_some_iff.mp h
  exact Option.bind_eq_some_iff.mpr ⟨w, hvisit _ _ _ hfirst, hvisit _ _ _ hsecond⟩

theorem rerun_mono {depth depth' : Nat} (hle : depth ≤ depth') {r : Run} {t : Run × Bool}
    (h : rerun s enable islandGetValue order depth r = some t) :
    rerun s enable islandGetValue order depth' r = some t := by
  obtain ⟨u, hu, ht⟩ := Option.map_eq_some_iff.mp h
  exact Option.map_eq_some_iff.mpr ⟨u, resolutionPass_mono hle hu, ht⟩

theorem state_runOutputs (s : Mesh) (order : List Nat) (r : Run) :
    (order.foldl (runOutput s) r).state = r.state := by
  have hport : ∀ r side, (outputPort s r side).state = r.state := by
    intro r side
    simp only [outputPort]
    split_ifs <;> rfl
  induction order generalizing r with
  | nil => rfl
  | cons branch order ih => rw [List.foldl_cons, ih, runOutput, hport, hport]

/-- What a pass does to unvisited ports: the ports that are at branches and have inputs are sent
what they have been resolved to. -/
theorem resolutionPass_spec (hs : s.Linked) (horder : ∀ i, i ∈ order ↔ i < s.branches.length)
    {depth : Nat} {r r' : Run} (hfresh : ∀ p, r.value p = [])
    (h : resolutionPass s islandGetValue depth order r = some r') :
    r'.state = r.state ∧ (∀ p, r'.value p = []) ∧
      (∀ p, ¬ Sent s islandGetValue p → r'.outvalue p = r.outvalue p) ∧
      ∃ u, order.foldlM (runResolution s islandGetValue depth) r = some u ∧
        ∀ p, Sent s islandGetValue p → u.value p ≠ [] ∧ r'.outvalue p = u.value p := by
  obtain ⟨u, hu, rfl⟩ := Option.map_eq_some_iff.mp h
  obtain ⟨hgrow, hvisit⟩ := grows_resolution hs (fun i hi => (horder i).mp hi) hu
  obtain ⟨hsends, hsent⟩ := runOutputs_spec s order u
  have hvisited : ∀ p, u.value p ≠ [] ↔ Sent s islandGetValue p := by
    intro p
    constructor
    · exact fun hp => (hgrow.fresh p hp).resolve_left fun hne => hne (hfresh p)
    · rintro ⟨hinput, e, he, rfl⟩
      exact hvisit e ((horder e.ptr).mpr he) hinput
  refine ⟨(state_runOutputs s order u).trans hgrow.state, fun p => ?_, fun p hp => ?_, u, hu,
    fun p hp => ⟨(hvisited p).mpr hp, ?_⟩⟩
  · by_cases hp : Sent s islandGetValue p
    · obtain ⟨-, e, he, rfl⟩ := hp
      exact hsent e ((horder e.ptr).mpr he)
    · exact hsends.unvisited (not_not.mp fun hne => hp ((hvisited p).mp hne))
  · rcases hsends p with ⟨-, hout⟩ | ⟨hne, -, -⟩
    · rw [hout, hgrow.outvalue]
    · exact absurd ((hvisited p).mp hne) hp
  · have hne := (hvisited p).mpr hp
    obtain ⟨-, e, he, rfl⟩ := hp
    have hnil := hsent e ((horder e.ptr).mpr he)
    rcases hsends (s.portOf e) with ⟨hvalue, -⟩ | ⟨-, -, hout⟩
    · rw [hvalue] at hnil
      exact absurd hnil hne
    · exact hout

/-- The state of a branch after its enable input is tested again. -/
def testedState (enable : Nat → Enable) (r : Run) (branch : Nat) : TranState :=
  match (enable branch).en with
  | none => r.state branch
  | some ep =>
    if r.outvalue ep = [] then r.state branch
    else (enable branch).stateOf (firstBit (r.outvalue ep))

/-- It depends on the old one and on the values that have been sent. -/
theorem testedState_congr {r t : Run} {branch : Nat} (hout : r.outvalue = t.outvalue)
    (hstate : r.state branch = t.state branch) :
    testedState enable r branch = testedState enable t branch := by
  unfold testedState
  rw [hout, hstate]

theorem rerunTestEnabled_eq (r : Run) (branch : Nat) :
    rerunTestEnabled enable r branch =
      ({ r with state := Function.update r.state branch (testedState enable r branch) },
        decide (testedState enable r branch ≠ r.state branch)) := by
  unfold rerunTestEnabled testedState
  cases (enable branch).en with
  | none => simp
  | some ep =>
    dsimp only
    split_ifs <;> simp

/-- A branch that has been tested may be tested again. -/
theorem testedState_update (r : Run) (branch k : Nat) :
    testedState enable
      { r with state := Function.update r.state branch (testedState enable r branch) } k =
      testedState enable r k := by
  by_cases hk : k = branch
  · subst hk
    unfold testedState
    cases (enable k).en with
    | none => simp
    | some ep =>
      dsimp only
      split_ifs <;> simp
  · exact testedState_congr rfl (Function.update_of_ne hk ..)

/-- The tests give the branches their states, and tell whether one has changed. -/
theorem rerunTests_spec (r : Run) :
    (rerunTests enable order r).1 =
        { r with state := fun k => if k ∈ order then testedState enable r k else r.state k } ∧
      ((rerunTests enable order r).2 = true ↔ ∃ k ∈ order, testedState enable r k ≠ r.state k) := by
  have hloop : ∀ (order : List Nat) (r : Run) (changed : Bool),
      let t := order.foldl (fun t branch =>
        let u := rerunTestEnabled enable t.1 branch
        (u.1, t.2 || u.2)) (r, changed)
      t.1 = { r with state := fun k =>
          if k ∈ order then testedState enable r k else r.state k } ∧
        (t.2 = true ↔ changed = true ∨ ∃ k ∈ order, testedState enable r k ≠ r.state k) := by
    intro order
    induction order with
    | nil => simp
    | cons branch order ih =>
      intro r changed
      dsimp only at ih ⊢
      rw [List.foldl_cons, rerunTestEnabled_eq]
      obtain ⟨hstate, hflag⟩ := ih
        { r with state := Function.update r.state branch (testedState enable r branch) }
        (changed || decide (testedState enable r branch ≠ r.state branch))
      simp only [testedState_update, Function.update_apply] at hstate hflag
      refine ⟨?_, ?_⟩
      · rw [hstate]
        congr 1
        funext k
        by_cases hk : k = branch
        · subst hk
          simp
        · simp [hk]
      · rw [hflag, Bool.or_eq_true, decide_eq_true_eq, or_assoc]
        have hrest : (∃ k ∈ order, testedState enable r k ≠
            if k = branch then testedState enable r branch else r.state k) ↔
            ∃ k ∈ order, k ≠ branch ∧ testedState enable r k ≠ r.state k := by
          refine exists_congr fun k => and_congr_right fun _ => ?_
          by_cases hk : k = branch
          · subst hk
            simp
          · simp [hk]
        rw [hrest, List.exists_mem_cons_iff]
        refine or_congr_right ⟨?_, ?_⟩
        · rintro (h | ⟨k, hk, -, h⟩)
          · exact Or.inl h
          · exact Or.inr ⟨k, hk, h⟩
        · rintro (h | ⟨k, hk, h⟩)
          · exact Or.inl h
          · by_cases hsame : k = branch
            · exact Or.inl (hsame ▸ h)
            · exact Or.inr ⟨k, hk, hsame, h⟩
  simpa [rerunTests] using hloop order r false

/-! ## Runs -/

/-- Ports are connected by branches, enabled or not. -/
def Connected (s : Mesh) : String → String → Prop :=
  Relation.ReflTransGen fun p q => ∃ e, s.HasEnd e ∧ s.portOf e = p ∧ s.portOf e.other = q

/-- The states of the branches. -/
def states (s : Mesh) (r : Run) : Fin s.branches.length → TranState := fun k => r.state k

/-- The branches with an enable input can be ordered so that each input is connected only with such
branches that come before its own. -/
def Ordered (s : Mesh) (enable : Nat → Enable) : Prop :=
  ∃ rank : Nat → Nat, ∀ k < s.branches.length, ∀ ep, (enable k).en = some ep →
    ∀ e, s.HasEnd e → Connected s ep (s.portOf e) → (enable e.ptr).en ≠ none → rank e.ptr < rank k

/-- What holds between passes. -/
structure Between (s : Mesh) (enable : Nat → Enable) (islandGetValue : String → Vector8)
    (out : String → Vector8) (r : Run) : Prop where
  /-- No port is visited. -/
  fresh : ∀ p, r.value p = []
  /-- The other ports have been sent what they had before. -/
  unsent : ∀ p, ¬ Sent s islandGetValue p → r.outvalue p = out p
  /-- Branches without an enable input are enabled. -/
  always : ∀ k < s.branches.length, (enable k).en = none → r.state k = .enabled

section Passes

variable (hs : s.Linked) (horder : ∀ i, i ∈ order ↔ i < s.branches.length)
  {out : String → Vector8}
include hs horder

/-- What a pass and the tests after it do. -/
theorem rerun_spec {depth : Nat} {r r' : Run} {changed : Bool}
    (h : Between s enable islandGetValue out r)
    (hrerun : rerun s enable islandGetValue order depth r = some (r', changed)) :
    Between s enable islandGetValue out r' ∧
      (∀ k < s.branches.length, r'.state k = testedState enable { r' with state := r.state } k) ∧
      (changed = true ↔ ∃ k < s.branches.length, r'.state k ≠ r.state k) ∧
      ∃ u, order.foldlM (runResolution s islandGetValue depth) r = some u ∧
        ∀ p, Sent s islandGetValue p → u.value p ≠ [] ∧ r'.outvalue p = u.value p := by
  obtain ⟨w, hw, heq⟩ := Option.map_eq_some_iff.mp hrerun
  obtain ⟨hstate, hfresh, hunsent, hsent⟩ := resolutionPass_spec hs horder h.fresh hw
  obtain ⟨htests, hflag⟩ := @rerunTests_spec enable order w
  rw [heq] at htests hflag
  dsimp only at htests hflag
  have hvalue : r'.value = w.value := by rw [htests]
  have hout : r'.outvalue = w.outvalue := by rw [htests]
  have htested : ∀ k < s.branches.length, r'.state k = testedState enable w k := by
    intro k hk
    rw [htests]
    dsimp only
    rw [if_pos ((horder k).mpr hk)]
  have hnew : ∀ k < s.branches.length,
      r'.state k = testedState enable { r' with state := r.state } k := fun k hk =>
    (htested k hk).trans (testedState_congr hout.symm (congrFun hstate k))
  refine ⟨⟨fun p => hvalue ▸ hfresh p, fun p hp => ?_, fun k hk hnone => ?_⟩, hnew, ?_, ?_⟩
  · rw [hout, hunsent p hp, h.unsent p hp]
  · rw [hnew k hk, testedState, hnone]
    exact h.always k hk hnone
  · rw [hflag]
    refine exists_congr fun k => ?_
    rw [horder]
    refine and_congr_right fun hk => ?_
    rw [htested k hk, hstate]
  · rw [hout]
    exact hsent

/-- Runs that agree on the states of the branches in a region send its ports the same values. -/
theorem outvalue_eq_of_region {C : String → Prop} (hC : Region s C) {r t r' t' : Run}
    {b c : Bool} (hr : Between s enable islandGetValue out r)
    (ht : Between s enable islandGetValue out t)
    (hstates : ∀ e, s.HasEnd e → C (s.portOf e) → r.state e.ptr = t.state e.ptr)
    (hmade : Settling.Made (rerun s enable islandGetValue order) r r' b)
    (hmade' : Settling.Made (rerun s enable islandGetValue order) t t' c) {p : String} (hp : C p) :
    r'.outvalue p = t'.outvalue p := by
  obtain ⟨d, hmade⟩ := hmade
  obtain ⟨d', hmade'⟩ := hmade'
  obtain ⟨hr', -, -, u, hu, hsent⟩ :=
    rerun_spec hs horder hr (rerun_mono (le_max_left d d') hmade)
  obtain ⟨ht', -, -, w, hw, hsent'⟩ :=
    rerun_spec hs horder ht (rerun_mono (le_max_right d d') hmade')
  by_cases hsend : Sent s islandGetValue p
  · have hagree : Agree s C r t := ⟨fun p _ => by rw [hr.fresh, ht.fresh], hstates⟩
    have hvalue := (agree_resolution hs hC (fun i hi => (horder i).mp hi) hagree hu hw).value p hp
    rw [(hsent p hsend).2, (hsent' p hsend).2, hvalue]
  · rw [hr'.unsent p hsend, ht'.unsent p hsend]

/-- What a pass does depends on the states of the branches alone. -/
theorem rerun_keyed : Settling.Keyed (Settling.Made (rerun s enable islandGetValue order))
    (states s) (Between s enable islandGetValue out) := by
  intro r t r' t' b c hr ht hstates hmade hmade'
  have hsame : ∀ k < s.branches.length, r.state k = t.state k :=
    fun k hk => congrFun hstates ⟨k, hk⟩
  have hout : r'.outvalue = t'.outvalue := funext fun p =>
    outvalue_eq_of_region hs horder (C := fun _ => True) (fun _ _ => id) hr ht
      (fun e he _ => hsame e.ptr he) hmade hmade' trivial
  obtain ⟨d, hmade⟩ := hmade
  obtain ⟨d', hmade'⟩ := hmade'
  obtain ⟨-, hnew, hflag, -⟩ := rerun_spec hs horder hr hmade
  obtain ⟨-, hnew', hflag', -⟩ := rerun_spec hs horder ht hmade'
  have hnext : ∀ k < s.branches.length, r'.state k = t'.state k := by
    intro k hk
    rw [hnew k hk, hnew' k hk]
    exact testedState_congr hout (hsame k hk)
  refine ⟨?_, funext fun k => hnext k k.isLt⟩
  rw [Bool.eq_iff_iff, hflag, hflag']
  refine exists_congr fun k => and_congr_right fun hk => ?_
  rw [hnext k hk, hsame k hk]

/-- The state of a branch is kept by all passes, or it is the one that the connected branches give
it. -/
theorem states_part {rank : Nat → Nat} (hrank : ∀ k < s.branches.length, ∀ ep,
      (enable k).en = some ep → ∀ e, s.HasEnd e → Connected s ep (s.portOf e) →
        (enable e.ptr).en ≠ none → rank e.ptr < rank k)
    (k : Fin s.branches.length) :
    (∀ r r', Between s enable islandGetValue out r →
        Settling.Made (rerun s enable islandGetValue order) r r' true →
        states s r' k = states s r k) ∨
      ∀ r t r' t', Between s enable islandGetValue out r → Between s enable islandGetValue out t →
        Settling.Made (rerun s enable islandGetValue order) r r' true →
        Settling.Made (rerun s enable islandGetValue order) t t' true →
        (∀ l : Fin s.branches.length, rank l < rank k → states s r l = states s t l) →
        states s r' k = states s t' k := by
  have hnew : ∀ r r', Between s enable islandGetValue out r →
      Settling.Made (rerun s enable islandGetValue order) r r' true →
      Between s enable islandGetValue out r' ∧
        states s r' k = testedState enable { r' with state := r.state } k := by
    rintro r r' hr ⟨d, hmade⟩
    obtain ⟨hr', hnew, -⟩ := rerun_spec hs horder hr hmade
    exact ⟨hr', hnew k k.isLt⟩
  cases hen : (enable k).en with
  | none =>
    refine Or.inl fun r r' hr hmade => ?_
    rw [(hnew r r' hr hmade).2, testedState, hen]
    rfl
  | some ep =>
    by_cases hkeep : ¬ Sent s islandGetValue ep ∧ out ep = []
    · refine Or.inl fun r r' hr hmade => ?_
      obtain ⟨hr', hstate⟩ := hnew r r' hr hmade
      rw [hstate, testedState, hen]
      dsimp only
      rw [if_pos ((hr'.unsent ep hkeep.1).trans hkeep.2)]
      rfl
    · refine Or.inr fun r t r' t' hr ht hmade hmade' hlower => ?_
      obtain ⟨hr', hstate⟩ := hnew r r' hr hmade
      obtain ⟨ht', hstate'⟩ := hnew t t' ht hmade'
      have hregion : Region s (Connected s ep) := fun e he hp => hp.tail ⟨e, he, rfl, rfl⟩
      have hout : r'.outvalue ep = t'.outvalue ep := by
        refine outvalue_eq_of_region hs horder hregion hr ht (fun e he hp => ?_) hmade hmade' .refl
        by_cases hnone : (enable e.ptr).en = none
        · rw [hr.always _ he hnone, ht.always _ he hnone]
        · exact hlower ⟨e.ptr, he⟩ (hrank k k.isLt ep hen e he hp hnone)
      have hne : r'.outvalue ep ≠ [] := by
        by_cases hsent : Sent s islandGetValue ep
        · obtain ⟨d, hmade⟩ := hmade
          obtain ⟨-, -, -, u, -, hsends⟩ := rerun_spec hs horder hr hmade
          rw [(hsends ep hsent).2]
          exact (hsends ep hsent).1
        · rw [hr'.unsent ep hsent]
          exact fun hnil => hkeep ⟨hsent, hnil⟩
      rw [hstate, hstate', testedState, testedState, hen]
      dsimp only
      rw [← hout, if_neg hne, if_neg hne]

omit hs in
/-- The first tests leave the ports alone, and enable the branches without an enable input. -/
theorem between_start (invalue : String → Vector8) {r : Run} (hfresh : ∀ p, r.value p = []) :
    Between s enable islandGetValue r.outvalue
      (order.foldl (runTestEnabled enable invalue) r) := by
  have hloop : ∀ (order : List Nat) (r : Run),
      let t := order.foldl (runTestEnabled enable invalue) r
      t.value = r.value ∧ t.outvalue = r.outvalue ∧
        ∀ k, (enable k).en = none → k ∈ order ∨ r.state k = .enabled → t.state k = .enabled := by
    intro order
    induction order with
    | nil => exact fun r => ⟨rfl, rfl, fun k _ h => h.resolve_left List.not_mem_nil⟩
    | cons branch order ih =>
      intro r
      obtain ⟨hvalue, hout, hstate⟩ := ih (runTestEnabled enable invalue r branch)
      refine ⟨hvalue, hout, fun k hnone hk => hstate k hnone ?_⟩
      by_cases hsame : k = branch
      · subst hsame
        refine Or.inr ?_
        simp only [runTestEnabled, hnone, Function.update_self]
      · refine hk.imp (fun hmem => (List.mem_cons.mp hmem).resolve_left hsame) fun henabled => ?_
        simp only [runTestEnabled]
        rwa [Function.update_of_ne hsame]
  obtain ⟨hvalue, hout, hstate⟩ := hloop order r
  exact ⟨fun p => by rw [hvalue, hfresh], fun p _ => by rw [hout],
    fun k hk hnone => hstate k hnone (Or.inl ((horder k).mpr hk))⟩

end Passes

end Icarus.Vvp.Island
