import Icarus.Vvp.Island.Rerun
import Mathlib.Data.Fintype.BigOperators

/-!
# Whether a run of a tran island ends

A run ends unless states come back, which they may do: a branch that is disabled by the value that
it lets through is enabled again by the value that is left. They do not if every enable input is
connected only with branches that are settled before it. Apart from that, a single pass may push
values for ever where values of several strengths meet.
-/

namespace Icarus.Vvp.Island

open Icarus.Core

variable {s : Mesh} {enable : Nat → Enable} {islandGetValue : String → Vector8} {order : List Nat}

section Main

variable (s : Mesh) (enable : Nat → Enable) (invalue islandGetValue : String → Vector8)
  (order : List Nat)

/-- A pass that is made, as it changes the state of a branch. -/
def Repeats (r r' : Run) : Prop :=
  Settling.Made (rerun s enable islandGetValue order) r r' true

/-- Passes bring back the states that the branches have had before one of them. -/
def StatesRecur (r : Run) : Prop :=
  Settling.Recurs (Settling.Made (rerun s enable islandGetValue order)) (states s)
    (order.foldl (runTestEnabled enable invalue) r)

/-- With enough depth for the recursion so many passes are enough. -/
def EndsWithin (passes : Nat) (r : Run) : Prop :=
  ∃ enough, ∀ depth, enough ≤ depth →
    ∃ r', runIsland s enable invalue islandGetValue order depth passes r = some r'

end Main

/-- A run that ends brings back no states. -/
theorem not_statesRecur {invalue : String → Vector8} (hs : s.Linked)
    (horder : ∀ i, i ∈ order ↔ i < s.branches.length) {depth passes : Nat} {r r' : Run}
    (hstart : ∀ p, r.value p = [])
    (h : runIsland s enable invalue islandGetValue order depth passes r = some r') :
    ¬ StatesRecur s enable invalue islandGetValue order r := by
  obtain ⟨m, -, hsettles⟩ := Settling.settlesIn_of_loop h
  refine hsettles.not_recurs (rerun_keyed hs horder) ?_ (between_start horder invalue hstart)
  rintro t t' ht ⟨depth, hrerun⟩
  exact (rerun_spec hs horder ht hrerun).1

/-- Where the pushes of each pass end, a run ends unless states come back, after at most as many
passes as there are states; otherwise it never does. States do not come back if the enable inputs
can be ordered. -/
theorem runIsland_right {ports : List String} {calls : List (Branch × String × String)}
    (hbuild : Mesh.build ports calls = some s) (enable : Nat → Enable)
    (invalue : String → Vector8) (horder : order.Perm s.branches) {r : Run}
    (hstart : ∀ p, r.value p = [])
    (hpush : ∀ t, Relation.ReflTransGen (Repeats s enable islandGetValue order)
        (order.foldl (runTestEnabled enable invalue) r) t →
      ∃ depth t', resolutionPass s islandGetValue depth order t = some t') :
    (EndsWithin s enable invalue islandGetValue order (3 ^ calls.length) r ↔
        ¬ StatesRecur s enable invalue islandGetValue order r) ∧
      (StatesRecur s enable invalue islandGetValue order r → ∀ depth passes,
        runIsland s enable invalue islandGetValue order depth passes r = none) ∧
      (Ordered s enable → ¬ StatesRecur s enable invalue islandGetValue order r) := by
  have hbuilt := Mesh.built_of_build hbuild
  have hmem : ∀ i, i ∈ order ↔ i < s.branches.length := by
    intro i
    rw [horder.mem_iff, hbuilt.mem_branches, hbuilt.length_branches]
  let start := order.foldl (runTestEnabled enable invalue) r
  let Inv (t : Run) : Prop := Between s enable islandGetValue r.outvalue t ∧
    Relation.ReflTransGen (Repeats s enable islandGetValue order) start t
  have hinv : ∀ t t', Inv t → Settling.Made (rerun s enable islandGetValue order) t t' true →
      Inv t' := by
    rintro t t' ⟨ht, hreach⟩ hmade
    refine ⟨?_, hreach.tail hmade⟩
    obtain ⟨depth, hmade⟩ := hmade
    exact (rerun_spec hbuilt.linked hmem ht hmade).1
  have hfirst : Inv start := ⟨between_start hmem invalue hstart, .refl⟩
  have htotal : ∀ t, Inv t → ∃ t' b,
      Settling.Made (rerun s enable islandGetValue order) t t' b := by
    rintro t ⟨-, hreach⟩
    obtain ⟨depth, t', hpass⟩ := hpush t hreach
    exact ⟨_, _, depth, by rw [rerun, hpass]; rfl⟩
  have hcard : Fintype.card (Fin s.branches.length → TranState) = 3 ^ calls.length := by
    rw [Fintype.card_fun, card_tranState, Fintype.card_fin, hbuilt.length_branches]
  have hnever : StatesRecur s enable invalue islandGetValue order r → ∀ depth passes,
      runIsland s enable invalue islandGetValue order depth passes r = none := by
    intro hrecurs depth passes
    by_contra hsome
    obtain ⟨r', hr'⟩ := Option.ne_none_iff_exists'.mp hsome
    exact not_statesRecur hbuilt.linked hmem hstart hr' hrecurs
  refine ⟨⟨?_, fun hnot => ?_⟩, hnever, ?_⟩
  · rintro ⟨enough, hends⟩ hrecurs
    obtain ⟨r', hr'⟩ := hends enough le_rfl
    rw [hnever hrecurs] at hr'
    cases hr'
  · obtain ⟨m, hm, hsettles⟩ :=
      (Settling.settles_or_recurs htotal hinv hfirst).resolve_right hnot
    have hmono : ∀ d d' t u, d ≤ d' → rerun s enable islandGetValue order d t = some u →
        rerun s enable islandGetValue order d' t = some u := fun _ _ _ _ hle => rerun_mono hle
    obtain ⟨enough, hloop⟩ := hsettles.loop hmono
    exact ⟨enough, fun depth hdepth => hloop depth hdepth _ (hcard ▸ hm)⟩
  · rintro ⟨rank, hrank⟩
    have hchange : ∀ t t', Inv t →
        Settling.Made (rerun s enable islandGetValue order) t t' true →
        states s t' ≠ states s t := by
      rintro t t' ht ⟨depth, hmade⟩ hsame
      obtain ⟨-, -, hflag, -⟩ := rerun_spec hbuilt.linked hmem ht.1 hmade
      obtain ⟨k, hk, hne⟩ := hflag.mp rfl
      exact hne (congrFun hsame ⟨k, hk⟩)
    refine Settling.not_recurs_of_rank (fun k : Fin s.branches.length => rank k) (fun k => ?_)
      hchange hinv hfirst
    refine (states_part hbuilt.linked hmem hrank k).imp (fun h t t' ht => h t t' ht.1) ?_
    exact fun h t u t' u' ht hu => h t u t' u' ht.1 hu.1

/-! ## Runs that end, and runs that do not -/

/-- Two ports at one branch, with a pull 0 on the one and a strong 1 on the other. -/
def duo : Mesh :=
  (Mesh.build ["p", "q", "e"] [(⟨"", "", 0, 0, 0, false⟩, "p", "q")]).getD (.new [])

/-- The inputs of its ports. -/
def duoInput (port : String) : Vector8 :=
  if port = "p" then [.ofBit4 .zero 5 5] else [.ofBit4 .one 6 6]

private theorem duo_linked : duo.Linked :=
  (@Mesh.built_of_build ["p", "q", "e"] [(⟨"", "", 0, 0, 0, false⟩, "p", "q")] duo rfl).linked

private theorem duo_push {t : Run} (ht : ∀ p, t.value p = []) :
    ∃ depth t', resolutionPass duo duoInput depth [0] t = some t' := by
  have hclosed : ∀ x : TranState, ([0].foldlM (runResolution duo duoInput 9)
      ⟨fun _ => x, fun _ => [], fun _ => []⟩).isSome = true := by decide +kernel
  obtain ⟨u, hu⟩ := Option.isSome_iff_exists.mp (hclosed (t.state 0))
  have hagree : Agree duo (fun _ => True) ⟨fun _ => t.state 0, fun _ => [], fun _ => []⟩ t := by
    refine ⟨fun p _ => (ht p).symm, fun e he _ => ?_⟩
    have hzero : e.ptr = 0 := Nat.lt_one_iff.mp he
    rw [hzero]
  obtain ⟨w, hw⟩ := resolution_ends duo_linked
    (fun i hi => by rw [List.mem_singleton.mp hi]; exact Nat.one_pos) hagree hu
  exact ⟨9, _, by rw [resolutionPass, hw]; rfl⟩

private theorem duo_horder (i : Nat) : i ∈ [0] ↔ i < duo.branches.length :=
  List.mem_singleton.trans Nat.lt_one_iff.symm

/-- Between passes no port is visited. -/
private theorem duo_reach {enable : Nat → Enable} {r t : Run} (hr : ∀ p, r.value p = [])
    (h : Relation.ReflTransGen (Repeats duo enable duoInput [0]) r t) : ∀ p, t.value p = [] := by
  induction h with
  | refl => exact hr
  | tail _ hrepeats ih =>
    obtain ⟨depth, hrerun⟩ := hrepeats
    obtain ⟨w, hw, heq⟩ := Option.map_eq_some_iff.mp hrerun
    obtain ⟨htests, -⟩ := @rerunTests_spec enable [0] w
    rw [heq] at htests
    dsimp only at htests
    rw [htests]
    exact (resolutionPass_spec duo_linked duo_horder ih hw).2.1

/-- A port without a branch is connected with no other. -/
theorem connected_eq {p q : String} (hp : ∀ e, s.HasEnd e → s.portOf e ≠ p)
    (h : Connected s p q) : q = p := by
  induction h with
  | refl => rfl
  | tail _ hedge ih =>
    obtain ⟨e, he, hport, -⟩ := hedge
    exact absurd (hport.trans ih) (hp e he)

/-- The branch is enabled from outside. -/
theorem runIsland_right_duo : EndsWithin duo (fun _ => ⟨some "e", true⟩) duoInput duoInput [0]
    (3 ^ 1) ⟨fun _ => .disabled, fun _ => [], fun _ => []⟩ := by
  obtain ⟨hends, -, hordered⟩ := @runIsland_right duo duoInput [0] ["p", "q", "e"]
    [(⟨"", "", 0, 0, 0, false⟩, "p", "q")] rfl (fun _ => ⟨some "e", true⟩) duoInput (.refl _)
    ⟨fun _ => .disabled, fun _ => [], fun _ => []⟩ (fun _ => rfl)
    (fun t ht => duo_push (duo_reach (fun _ => rfl) ht))
  refine hends.mpr (hordered ⟨fun _ => 0, fun k hk ep hep e he hport => ?_⟩)
  have hnone : ∀ e, duo.HasEnd e → duo.portOf e ≠ "e" := by
    rintro ⟨ptr, port⟩ he
    obtain rfl : ptr = 0 := Nat.lt_one_iff.mp he
    cases port <;> decide
  obtain rfl : "e" = ep := Option.some_inj.mp hep
  exact absurd (connected_eq hnone hport) (hnone e he)

/-- Two ports that an unknown and a resistive branch join, and a third one behind an unknown
branch. -/
private def trio : Mesh :=
  (Mesh.build ["p", "q", "r", "e"] [(⟨"", "", 0, 0, 0, false⟩, "p", "q"),
    (⟨"", "", 0, 0, 0, true⟩, "p", "q"), (⟨"", "", 0, 0, 0, false⟩, "p", "r")]).getD (.new [])

/-- A run of it with values of the three ports. -/
private def trioRun (p q r : Vector8) : Run :=
  ⟨fun k => if k = 1 then .enabled else .unknown,
    fun port => if port = "p" then p else if port = "q" then q else if port = "r" then r else [],
    fun _ => []⟩

private def trioInput (port : String) : Vector8 :=
  if port = "q" then [.ofBit4 .zero 5 5] else if port = "r" then [.ofBit4 .zero 6 6] else [.hiZ]

private theorem trioRun_setValue (p q r v : Vector8) :
    (trioRun p q r).setValue "p" v = trioRun v q r ∧
      (trioRun p q r).setValue "q" v = trioRun p v r ∧
      (trioRun p q r).setValue "r" v = trioRun p q v := by
  refine ⟨?_, ?_, ?_⟩
  all_goals
    simp only [trioRun, Run.setValue, Run.mk.injEq, true_and, and_true]
    funext port
    simp only [Function.update_apply]
    split_ifs <;> simp_all


private theorem trio_push {p q r v p' q' r' : Vector8} {task : String × BranchPtr}
    {next : List (String × BranchPtr)}
    (hchange : pushChange trio trioInput task.1 task.2 ((trioRun p q r).state task.2.ptr)
      ((trioRun p q r).value (trio.portOf task.2.other)) ((trioRun p q r).value task.1) =
      some (v, next))
    (hset : (trioRun p q r).setValue (trio.portOf task.2.other) v = trioRun p' q' r') :
    pushStep trio trioInput (trioRun p q r) task = some (trioRun p' q' r', next) := by
  obtain ⟨val, cur⟩ := task
  rw [pushStep_eq_pushChange, hchange, Option.map_some, hset]

/-- The values of the ports, and the push that they are found by. -/
private def trioPushes : List (Vector8 × Vector8 × Vector8 × String × BranchPtr) :=
  let zero (hi lo : Fin 8) : Vector8 := [⟨⟨false, hi⟩, ⟨false, lo⟩⟩]
  [([.hiZ], [], [], "p", ⟨2, false⟩),
    ([.hiZ], [], zero 6 6, "r", ⟨2, true⟩),
    ([⟨⟨true, 0⟩, ⟨false, 6⟩⟩], [], zero 6 6, "p", ⟨1, false⟩),
    ([⟨⟨true, 0⟩, ⟨false, 6⟩⟩], zero 5 5, zero 6 6, "q", ⟨1, true⟩),
    (zero 3 6, zero 5 5, zero 6 6, "p", ⟨0, false⟩),
    (zero 3 6, zero 5 6, zero 6 6, "q", ⟨0, true⟩),
    (zero 0 6, zero 5 6, zero 6 6, "p", ⟨0, false⟩),
    (zero 0 6, zero 0 6, zero 6 6, "q", ⟨1, true⟩),
    (zero 5 6, zero 0 6, zero 6 6, "p", ⟨1, false⟩),
    (zero 5 6, zero 5 6, zero 6 6, "q", ⟨0, true⟩)]

private theorem trio_endless (depth : Nat) :
    Cascade.run (pushStep trio trioInput) depth (trioRun [.hiZ] [] [])
      ("p", ⟨2, false⟩) = none := by
  refine Cascade.run_eq_none (P := fun s e => ∃ x ∈ trioPushes,
    s = trioRun x.1 x.2.1 x.2.2.1 ∧ e = x.2.2.2) ?_ depth _ _
    ⟨trioPushes[0], List.getElem_mem _, rfl, rfl⟩
  rintro _ _ ⟨x, hx, rfl, rfl⟩
  obtain ⟨hp, hq, hr⟩ : (∀ p q r v, (trioRun p q r).setValue "p" v = trioRun v q r) ∧
    (∀ p q r v, (trioRun p q r).setValue "q" v = trioRun p v r) ∧
    (∀ p q r v, (trioRun p q r).setValue "r" v = trioRun p q v) :=
    ⟨fun p q r v => (trioRun_setValue p q r v).1,
      fun p q r v => (trioRun_setValue p q r v).2.1, fun p q r v => (trioRun_setValue p q r v).2.2⟩
  simp only [trioPushes, List.mem_cons, List.not_mem_nil, or_false] at hx
  rcases hx with rfl | rfl | rfl | rfl | rfl | rfl | rfl | rfl | rfl | rfl
  · exact ⟨_, _, ⟨trioPushes[1], List.getElem_mem _, rfl, rfl⟩,
      Or.inl ⟨[], trio_push (by decide) (hr ..)⟩⟩
  · exact ⟨_, _, ⟨trioPushes[2], List.getElem_mem _, rfl, rfl⟩,
      Or.inr ⟨("p", ⟨2, false⟩), [("p", ⟨0, false⟩)], trio_push (by decide) (hp ..),
        trio_push (by decide) (hr ..)⟩⟩
  · exact ⟨_, _, ⟨trioPushes[3], List.getElem_mem _, rfl, rfl⟩,
      Or.inl ⟨[("q", ⟨0, true⟩)], trio_push (by decide) (hq ..)⟩⟩
  · exact ⟨_, _, ⟨trioPushes[4], List.getElem_mem _, rfl, rfl⟩,
      Or.inr ⟨("p", ⟨1, false⟩), [("p", ⟨2, false⟩)], trio_push (by decide) (hp ..),
        trio_push (by decide) (hq ..)⟩⟩
  · exact ⟨_, _, ⟨trioPushes[5], List.getElem_mem _, rfl, rfl⟩,
      Or.inl ⟨[("q", ⟨1, true⟩)], trio_push (by decide) (hq ..)⟩⟩
  · exact ⟨_, _, ⟨trioPushes[6], List.getElem_mem _, rfl, rfl⟩,
      Or.inl ⟨[("p", ⟨2, false⟩), ("p", ⟨1, false⟩)], trio_push (by decide) (hp ..)⟩⟩
  · exact ⟨_, _, ⟨trioPushes[7], List.getElem_mem _, rfl, rfl⟩,
      Or.inr ⟨("q", ⟨0, true⟩), [], trio_push (by decide) (hq ..),
        trio_push (by decide) (hp ..)⟩⟩
  · exact ⟨_, _, ⟨trioPushes[8], List.getElem_mem _, rfl, rfl⟩,
      Or.inl ⟨[("p", ⟨0, false⟩), ("p", ⟨2, false⟩)], trio_push (by decide) (hp ..)⟩⟩
  · exact ⟨_, _, ⟨trioPushes[9], List.getElem_mem _, rfl, rfl⟩,
      Or.inr ⟨("q", ⟨1, true⟩), [], trio_push (by decide) (hq ..),
        trio_push (by decide) (hp ..)⟩⟩
  · exact ⟨_, _, ⟨trioPushes[6], List.getElem_mem _, rfl, rfl⟩,
      Or.inl ⟨[("p", ⟨2, false⟩), ("p", ⟨1, false⟩)], trio_push (by decide) (hp ..)⟩⟩
private theorem trio_resolution (depth : Nat) :
    [2, 1, 0].foldlM (runResolution trio trioInput depth) (trioRun [] [] []) = none := by
  have hconn : trio.collectNode ⟨2, false⟩ = some [⟨2, false⟩, ⟨1, false⟩, ⟨0, false⟩] := by
    decide
  have hvisit : visitPort trio trioInput depth (trioRun [] [] []) ⟨2, false⟩ = none := by
    have hset : (trioRun [] [] []).setValue (trio.portOf ⟨2, false⟩)
        (trioInput (trio.portOf ⟨2, false⟩)) = trioRun [.hiZ] [] [] :=
      (trioRun_setValue [] [] [] _).1
    have hfirst : pushValueThroughBranch trio trioInput depth (trioRun [.hiZ] [] [])
        ("p", ⟨2, false⟩) = none := trio_endless depth
    rw [visitPort, if_pos (by decide), hconn, Option.bind_eq_bind, Option.bind_some]
    dsimp only
    rw [hset, if_pos (by decide), pushValueThroughBranches, List.map_cons, List.foldlM_cons]
    rw [show trio.portOf ⟨2, false⟩ = "p" by decide, hfirst]
    rfl
  rw [List.foldlM_cons, runResolution, hvisit]
  rfl

private def trioEnable (k : Nat) : Enable :=
  if k = 1 then ⟨none, true⟩ else ⟨some "e", true⟩

private theorem trio_tested :
    [2, 1, 0].foldl (runTestEnabled trioEnable fun _ => []) (trioRun [] [] []) =
      trioRun [] [] [] := by
  simp only [List.foldl_cons, List.foldl_nil, runTestEnabled, trioEnable, trioRun,
    Run.mk.injEq, and_true]
  funext k
  simp only [Function.update_apply]
  split_ifs <;> simp_all [Enable.stateOf]

private theorem trio_ordered : Ordered trio trioEnable := by
  have hnone : ∀ e, trio.HasEnd e → trio.portOf e ≠ "e" := by
    rintro ⟨ptr, port⟩ he
    have hlt : ptr < 3 := he
    obtain rfl | rfl | rfl : ptr = 0 ∨ ptr = 1 ∨ ptr = 2 := by omega
    all_goals cases port <;> decide
  refine ⟨fun _ => 0, fun k _ ep hep e he hport => ?_⟩
  have hname : ep = "e" := by
    rw [trioEnable] at hep
    split_ifs at hep
    exact (Option.some_inj.mp hep).symm
  subst hname
  exact absurd (connected_eq hnone hport) (hnone e he)

/-- The branch is disabled by the value that it lets through. -/
private theorem duo_recurs : StatesRecur duo (fun _ => ⟨some "p", false⟩) duoInput duoInput [0]
    ⟨fun _ => .disabled, fun _ => [], fun _ => []⟩ := by
  let step (r : Run) : Option (Run × Bool) :=
    rerun duo (fun _ => ⟨some "p", false⟩) duoInput [0] 9 r
  let next (r : Run) : Run := ((step r).map Prod.fst).getD r
  have hmade : ∀ r, (step r).map Prod.snd = some true →
      Settling.Made (rerun duo (fun _ => ⟨some "p", false⟩) duoInput [0]) r (next r) true := by
    intro r hr
    obtain ⟨⟨r', changed⟩, hstep, hchanged⟩ := Option.map_eq_some_iff.mp hr
    obtain rfl : changed = true := hchanged
    exact ⟨9, by simp only [next, hstep, Option.map_some, Option.getD_some]; exact hstep⟩
  refine ⟨fun a => next^[a] ([0].foldl (runTestEnabled (fun _ => ⟨some "p", false⟩) duoInput)
    ⟨fun _ => .disabled, fun _ => [], fun _ => []⟩), 0, 2, rfl, Nat.two_pos, fun a ha => ?_, ?_⟩
  · dsimp only
    rw [Function.iterate_succ_apply']
    refine hmade _ ?_
    obtain rfl | rfl : a = 0 ∨ a = 1 := by omega
    · decide +kernel
    · decide +kernel
  · decide +kernel

/-- A run may not end although all pushes do, and it may not end although the enable inputs lead to
no branch. -/
theorem not_runIsland_right :
    (¬ ∀ (ports : List String) (calls : List (Branch × String × String)) (s : Mesh)
      (enable : Nat → Enable) (invalue islandGetValue : String → Vector8) (order : List Nat)
      (r : Run), Mesh.build ports calls = some s → order.Perm s.branches →
      (∀ p, r.value p = []) →
      (∀ t, Relation.ReflTransGen (Repeats s enable islandGetValue order)
        (order.foldl (runTestEnabled enable invalue) r) t →
        ∃ depth t', resolutionPass s islandGetValue depth order t = some t') →
      ∃ passes, EndsWithin s enable invalue islandGetValue order passes r) ∧
    ¬ ∀ (ports : List String) (calls : List (Branch × String × String)) (s : Mesh)
      (enable : Nat → Enable) (invalue islandGetValue : String → Vector8) (order : List Nat)
      (r : Run), Mesh.build ports calls = some s → order.Perm s.branches →
      (∀ p, r.value p = []) → (∀ p, (islandGetValue p).length = 1) → Ordered s enable →
      ∃ passes, EndsWithin s enable invalue islandGetValue order passes r := by
  constructor
  · intro h
    obtain ⟨passes, enough, hends⟩ := h ["p", "q", "e"] [(⟨"", "", 0, 0, 0, false⟩, "p", "q")] duo
      (fun _ => ⟨some "p", false⟩) duoInput duoInput [0]
      ⟨fun _ => .disabled, fun _ => [], fun _ => []⟩ rfl (.refl _) (fun _ => rfl)
      (fun t ht => duo_push (duo_reach (fun _ => rfl) ht))
    obtain ⟨r', hr'⟩ := hends enough le_rfl
    exact not_statesRecur duo_linked duo_horder (fun _ => rfl) hr' duo_recurs
  · intro h
    obtain ⟨passes, enough, hends⟩ := h ["p", "q", "r", "e"]
      [(⟨"", "", 0, 0, 0, false⟩, "p", "q"), (⟨"", "", 0, 0, 0, true⟩, "p", "q"),
        (⟨"", "", 0, 0, 0, false⟩, "p", "r")] trio
      trioEnable (fun _ => []) trioInput
      [2, 1, 0] (trioRun [] [] []) rfl (.refl _) (fun _ => by
        simp only [trioRun]
        split_ifs <;> rfl) (fun _ => by
        simp only [trioInput]
        split_ifs <;> rfl) trio_ordered
    obtain ⟨r', hr'⟩ := hends enough le_rfl
    rw [runIsland, trio_tested] at hr'
    cases passes with
    | zero => cases hr'
    | succ passes =>
      rw [Settling.loop, rerun, resolutionPass, trio_resolution] at hr'
      cases hr'

end Icarus.Vvp.Island
