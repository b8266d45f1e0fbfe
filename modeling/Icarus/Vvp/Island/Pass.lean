import Icarus.Vvp.Island.Resolution

/-!
# The resolution pass of a tran island

A pass visits the ports of all branches, in any order, and sends what they have come to. Every port
is sent the resolution of the inputs of the ports that are reached from it through enabled
branches, and is then unvisited again.
-/

namespace Icarus.Vvp.Island

open Icarus.Core

variable {s : Mesh} {islandGetValue : String → Vector8} {state : Nat → TranState}

/-- The resolution of branches leaves nothing to be pushed. -/
structure Quiet (s : Mesh) (islandGetValue : String → Vector8) (state : Nat → TranState)
    (r : Run) : Prop where
  /-- What holds while values are pushed. -/
  pushing : Pushing s islandGetValue state r
  /-- No end waits. -/
  quiet : ∀ task, ¬ Waiting s state r task

/-- What the resolution of branches does to a quiet run. -/
structure Resolved (s : Mesh) (islandGetValue : String → Vector8) (state : Nat → TranState)
    (r r' : Run) : Prop where
  /-- Nothing is left to be pushed. -/
  quiet : Quiet s islandGetValue state r'
  /-- There is no more room than before. -/
  room_le : roomIn s islandGetValue r' ≤ roomIn s islandGetValue r
  /-- Visited ports stay visited. -/
  visited : ∀ e, s.HasEnd e → r.value (s.portOf e) ≠ [] → r'.value (s.portOf e) ≠ []

theorem Resolved.trans {r r' r'' : Run} (h : Resolved s islandGetValue state r r')
    (h' : Resolved s islandGetValue state r' r'') : Resolved s islandGetValue state r r'' :=
  ⟨h'.quiet, h'.room_le.trans h.room_le, fun e he hne => h'.visited e he (h.visited e he hne)⟩

section Spec

variable (hs : Plain s islandGetValue state)
include hs

/-- The port at an end is visited. -/
theorem visitPort_spec {r : Run} (h : Quiet s islandGetValue state r) {side : BranchPtr}
    (he : s.HasEnd side) {depth : Nat} (hdepth : roomIn s islandGetValue r < depth) :
    ∃ r', visitPort s islandGetValue depth r side = some r' ∧
      Resolved s islandGetValue state r r' ∧ r'.value (s.portOf side) ≠ [] := by
  by_cases hnil : r.value (s.portOf side) = []
  · obtain ⟨conn, hconn, hmem⟩ := hs.linked.collectNode he
    have hinput := hs.input side he
    have hinv := Pushing.visit hs h.pushing he
    have hroom := roomIn_visit hs he hnil
    obtain ⟨hready, hown⟩ := @ready_connections s state r _ _ hinput _ hmem
    obtain ⟨r', hrun, hafter, hdone⟩ :=
      Cascade.runs_spec (pushStep_progress hs) _ _ hinv hready (hroom.trans hdepth)
    have hquiet : ∀ task, ¬ Waiting s state r' task := by
      intro task hwait
      have hgrow : ∀ i, drive (r.value (s.portOf side)) i ≤
          drive (islandGetValue (s.portOf side)) i := fun i => by
        rw [hnil, drive_nil]
        exact bot_le
      rcases waiting_setValue hgrow (hafter.waiting task hwait) with hold | hport
      · exact h.quiet task hold
      · exact hdone task (hown task (hafter.waiting task hwait) hport) hwait
    have hkept : ∀ e, s.HasEnd e →
        (r.setValue (s.portOf side) (islandGetValue (s.portOf side))).value (s.portOf e) ≠ [] →
        r'.value (s.portOf e) ≠ [] := fun e he' hne =>
      (hafter.ready (s.portOf e, e) ⟨he', rfl, hne⟩).2.2
    have hset : ∀ e, Ready s r (s.portOf e, e) →
        Ready s (r.setValue (s.portOf side) (islandGetValue (s.portOf side))) (s.portOf e, e) :=
      fun e => Ready.setValue hinput
    refine ⟨r', ?_, ⟨⟨hafter.inv, hquiet⟩, hafter.room_le.trans hroom.le, fun e he' hne => ?_⟩, ?_⟩
    · rw [visitPort, if_pos hnil, hconn]
      simp only [Option.bind_eq_bind, Option.bind_some, setValue_value, Function.update_self]
      rw [if_pos hinput]
      exact hrun
    · exact hkept e he' (hset e ⟨he', rfl, hne⟩).2.2
    · refine hkept side he ?_
      rw [setValue_value, Function.update_self]
      exact hinput
  · exact ⟨r, by rw [visitPort, if_neg hnil], ⟨h, le_rfl, fun _ _ hne => hne⟩, hnil⟩

/-- The ports of a branch are visited. -/
theorem runResolution_spec {r : Run} (h : Quiet s islandGetValue state r) {branch : Nat}
    (hb : branch < s.branches.length) {depth : Nat} (hdepth : roomIn s islandGetValue r < depth) :
    ∃ r', runResolution s islandGetValue depth r branch = some r' ∧
      Resolved s islandGetValue state r r' ∧
      ∀ port, r'.value (s.portOf ⟨branch, port⟩) ≠ [] := by
  obtain ⟨r₁, hfirst, hres₁, hne₁⟩ :=
    @visitPort_spec s islandGetValue state hs r h ⟨branch, false⟩ hb _ hdepth
  obtain ⟨r₂, hsecond, hres₂, hne₂⟩ := @visitPort_spec s islandGetValue state hs r₁ hres₁.quiet
    ⟨branch, true⟩ hb _ (hres₁.room_le.trans_lt hdepth)
  refine ⟨r₂, ?_, hres₁.trans hres₂, fun port => ?_⟩
  · rw [runResolution, hfirst]
    exact hsecond
  · cases port with
    | false => exact hres₂.visited _ hb hne₁
    | true => exact hne₂

/-- The ports of all branches are visited. -/
theorem resolution_spec {depth : Nat} (order : List Nat) :
    ∀ r, Quiet s islandGetValue state r → (∀ i ∈ order, i < s.branches.length) →
      roomIn s islandGetValue r < depth →
      ∃ r', order.foldlM (runResolution s islandGetValue depth) r = some r' ∧
        Resolved s islandGetValue state r r' ∧
        ∀ e : BranchPtr, e.ptr ∈ order → r'.value (s.portOf e) ≠ [] := by
  induction order with
  | nil =>
    exact fun r h _ _ => ⟨r, rfl, ⟨h, le_rfl, fun _ _ hne => hne⟩,
      fun _ he => absurd he List.not_mem_nil⟩
  | cons branch order ih =>
    intro r h horder hdepth
    obtain ⟨hb, horder'⟩ := List.forall_mem_cons.mp horder
    obtain ⟨r₁, hfirst, hres₁, hne₁⟩ := runResolution_spec hs h hb hdepth
    obtain ⟨r₂, hrest, hres₂, hne₂⟩ :=
      ih r₁ hres₁.quiet horder' (hres₁.room_le.trans_lt hdepth)
    refine ⟨r₂, ?_, hres₁.trans hres₂, fun e he => ?_⟩
    · rw [List.foldlM_cons, hfirst]
      exact hrest
    · rcases List.mem_cons.mp he with heq | hmem
      · obtain ⟨ptr, port⟩ := e
        obtain rfl : ptr = branch := heq
        exact hres₂.visited _ hb (hne₁ port)
      · exact hne₂ e hmem

end Spec

/-! ## The resolved values -/

/-- Resolving inputs joins the drives of their bits. -/
theorem resolveInputs_spec {wid : Nat} {nodes : List String}
    (hnodes : ∀ q ∈ nodes, (islandGetValue q).length = wid ∧ Even (islandGetValue q)) :
    (resolveInputs islandGetValue wid nodes).length = wid ∧
      Even (resolveInputs islandGetValue wid nodes) ∧
      ∀ i, drive (resolveInputs islandGetValue wid nodes) i =
        (nodes.map fun q => drive (islandGetValue q) i).foldl (· ⊔ ·) ⊥ := by
  have hfold : ∀ v : Vector8, v.length = wid → Even v →
      (nodes.foldl (fun v p => resolveVector v (islandGetValue p)) v).length = wid ∧
        Even (nodes.foldl (fun v p => resolveVector v (islandGetValue p)) v) ∧
        ∀ i, drive (nodes.foldl (fun v p => resolveVector v (islandGetValue p)) v) i =
          (nodes.map fun q => drive (islandGetValue q) i).foldl (· ⊔ ·) (drive v i) := by
    induction nodes with
    | nil => exact fun v hlen heven => ⟨hlen, heven, fun _ => rfl⟩
    | cons q nodes ih =>
      intro v hlen heven
      obtain ⟨⟨hqlen, hqeven⟩, hnodes'⟩ := List.forall_mem_cons.mp hnodes
      obtain ⟨hlen', heven', hdrive⟩ :=
        resolveVector_spec (hlen.trans hqlen.symm) heven hqeven
      obtain ⟨h₁, h₂, h₃⟩ := ih hnodes' _ (hlen'.trans hlen) heven'
      refine ⟨h₁, h₂, fun i => ?_⟩
      rw [List.foldl_cons, h₃, hdrive, List.map_cons, List.foldl_cons]
  have hstart : Even (List.replicate wid Scalar.hiZ) := by
    intro a ha
    rw [List.eq_of_mem_replicate ha]
    exact Scalar.oneStrength_hiZ
  obtain ⟨h₁, h₂, h₃⟩ := hfold _ List.length_replicate hstart
  refine ⟨h₁, h₂, fun i => (h₃ i).trans ?_⟩
  have hbot : drive (List.replicate wid Scalar.hiZ) i = ⊥ := by
    apply EvenRange.ext
    rw [val_drive hstart, EvenRange.val_bot, List.getD_eq_getElem?_getD, List.getElem?_replicate]
    split <;> rfl
  rw [hbot]

/-- Equal drives of two vectors of one size are those of the same bits. -/
theorem same_of_drive {v w : Vector8} (hsize : v.length = w.length) (hv : Even v) (hw : Even w)
    (hdrive : ∀ i, drive v i = drive w i) : List.Forall₂ Scalar.Same v w := by
  refine List.forall₂_of_length_eq_of_get hsize fun i hi hi' => ?_
  have hrange := congrArg EvenRange.val (hdrive i)
  rw [val_drive hv, val_drive hw, List.getD_eq_getElem _ _ hi, List.getD_eq_getElem _ _ hi']
    at hrange
  exact (hv _ (List.getElem_mem hi)).same (hw _ (List.getElem_mem hi')) hrange

/-- Once all ports are visited and nothing is left to be pushed, a port has the resolution of the
inputs of the ports that are reached from it. -/
theorem Quiet.value_same {r : Run} (hs : Plain s islandGetValue state)
    (h : Quiet s islandGetValue state r) (hvisited : ∀ e, s.HasEnd e → r.value (s.portOf e) ≠ [])
    {e : BranchPtr} (he : s.HasEnd e) {nodes : List String}
    (hnodes : ∀ q, q ∈ nodes ↔ Reaches s state (s.portOf e) q) :
    List.Forall₂ Scalar.Same (r.value (s.portOf e))
      (resolveInputs islandGetValue (islandGetValue (s.portOf e)).length nodes) := by
  have hreach : ∀ q, Reaches s state (s.portOf e) q →
      (∃ e', s.HasEnd e' ∧ s.portOf e' = q) ∧
        (islandGetValue q).length = (islandGetValue (s.portOf e)).length := by
    intro q hq
    induction hq with
    | refl => exact ⟨⟨e, he, rfl⟩, rfl⟩
    | tail _ hedge ih =>
      obtain ⟨e', he', -, rfl, rfl⟩ := hedge
      exact ⟨⟨e'.other, hasEnd_other.mpr he', rfl⟩, (hs.size e' he').symm.trans ih.2⟩
  have hinputs : ∀ q ∈ nodes, (islandGetValue q).length = (islandGetValue (s.portOf e)).length ∧
      Even (islandGetValue q) := by
    intro q hq
    obtain ⟨⟨e', he', rfl⟩, hlen⟩ := hreach q ((hnodes q).mp hq)
    exact ⟨hlen, hs.even e' he'⟩
  obtain ⟨hlen, heven, hdrive⟩ := resolveInputs_spec hinputs
  have hsettled : ∀ i q q', Joined s state q q' → drive (r.value q') i ≤ drive (r.value q) i := by
    rintro i _ _ ⟨e', he', henabled, rfl, rfl⟩
    by_contra hle
    refine h.quiet (s.portOf e'.other, e'.other) ⟨⟨he', rfl, ?_⟩, henabled, i, ?_⟩
    · exact hvisited _ (hasEnd_other.mpr he')
    · rwa [BranchPtr.other_other]
  refine same_of_drive ?_ (h.pushing.even _) heven fun i => ?_
  · rw [hlen, h.pushing.size _ (hvisited e he)]
  · rw [hdrive]
    refine (h.pushing.flow i).eq_join (fun q hq => ?_) (fun q q' _ => hsettled i q q') hnodes
    obtain ⟨⟨e', he', rfl⟩, -⟩ := hreach q hq
    exact hvisited e' he'

/-! ## The values that are sent -/

/-- What sending values does: a port keeps its value, or it has sent the value and is unvisited
again. -/
def Sends (r r' : Run) : Prop :=
  ∀ p, r'.value p = r.value p ∧ r'.outvalue p = r.outvalue p ∨
    r.value p ≠ [] ∧ r'.value p = [] ∧ r'.outvalue p = r.value p

theorem Sends.trans {r r' r'' : Run} (h : Sends r r') (h' : Sends r' r'') : Sends r r'' := by
  intro p
  rcases h p with ⟨hvalue, hout⟩ | ⟨hne, hvalue, hout⟩
  · rw [← hvalue, ← hout]
    exact h' p
  · rcases h' p with ⟨hvalue', hout'⟩ | ⟨hne', -⟩
    · exact Or.inr ⟨hne, hvalue'.trans hvalue, hout'.trans hout⟩
    · exact absurd hvalue hne'

/-- A port that was sent stays unvisited. -/
theorem Sends.unvisited {r r' : Run} (h : Sends r r') {p : String} (hp : r.value p = []) :
    r'.value p = [] := by
  rcases h p with ⟨hvalue, -⟩ | ⟨-, hvalue, -⟩
  · exact hvalue.trans hp
  · exact hvalue

theorem outputPort_spec (s : Mesh) (r : Run) (side : BranchPtr) :
    Sends r (outputPort s r side) ∧ (outputPort s r side).value (s.portOf side) = [] := by
  by_cases hnil : r.value (s.portOf side) = []
  · have hsame : outputPort s r side = r := by simp only [outputPort, if_pos hnil]
    rw [hsame]
    exact ⟨fun p => Or.inl ⟨rfl, rfl⟩, hnil⟩
  · have hvalue : (outputPort s r side).value = Function.update r.value (s.portOf side) [] := by
      simp only [outputPort, if_neg hnil]
      split <;> rfl
    have hout : (outputPort s r side).outvalue =
        Function.update r.outvalue (s.portOf side) (r.value (s.portOf side)) := by
      simp only [outputPort, if_neg hnil]
      split_ifs with hsame
      · rw [← hsame, Function.update_eq_self]
        rfl
      · rfl
    rw [hvalue, Sends, hvalue, hout]
    refine ⟨fun p => ?_, Function.update_self ..⟩
    by_cases hp : p = s.portOf side
    · subst hp
      rw [Function.update_self, Function.update_self]
      exact Or.inr ⟨hnil, rfl, rfl⟩
    · rw [Function.update_of_ne hp, Function.update_of_ne hp]
      exact Or.inl ⟨rfl, rfl⟩

/-- The ports of all branches are sent and unvisited. -/
theorem runOutputs_spec (s : Mesh) (order : List Nat) : ∀ r,
    Sends r (order.foldl (runOutput s) r) ∧
      ∀ e : BranchPtr, e.ptr ∈ order → (order.foldl (runOutput s) r).value (s.portOf e) = [] := by
  induction order with
  | nil => exact fun r => ⟨fun p => Or.inl ⟨rfl, rfl⟩, fun _ he => absurd he List.not_mem_nil⟩
  | cons branch order ih =>
    intro r
    obtain ⟨hfirst, hfirst'⟩ := outputPort_spec s r ⟨branch, false⟩
    obtain ⟨hsecond, hsecond'⟩ :=
      outputPort_spec s (outputPort s r ⟨branch, false⟩) ⟨branch, true⟩
    obtain ⟨hrest, hsent⟩ := ih (runOutput s r branch)
    rw [List.foldl_cons]
    refine ⟨(hfirst.trans hsecond).trans hrest, fun e he => ?_⟩
    rcases List.mem_cons.mp he with heq | hmem
    · obtain ⟨ptr, port⟩ := e
      obtain rfl : ptr = branch := heq
      cases port with
      | false => exact hrest.unvisited (hsecond.unvisited hfirst')
      | true => exact hrest.unvisited hsecond'
    · exact hsent e hmem

/-! ## The pass -/

/-- An island that is built from whole-width branches that are not resistive, with unambiguous
values that are at most strong. -/
theorem plain_of_build {ports : List String} {calls : List (Branch × String × String)}
    (hbuild : Mesh.build ports calls = some s)
    (hwhole : ∀ c ∈ calls, c.1.width = 0 ∧ c.1.resistive = false)
    (hstate : ∀ i, state i ≠ .unknown)
    (hinput : ∀ e, s.HasEnd e → islandGetValue (s.portOf e) ≠ [] ∧
      ∀ a ∈ islandGetValue (s.portOf e), a.unambig ∧ a.hi.strength ≤ 6)
    (hsize : ∀ e, s.HasEnd e →
      (islandGetValue (s.portOf e)).length = (islandGetValue (s.portOf e.other)).length) :
    Plain s islandGetValue state := by
  have hbuilt := Mesh.built_of_build hbuild
  have hcall : ∀ e, s.HasEnd e → (s.branch e.ptr).width = 0 ∧
      (s.branch e.ptr).resistive = false := by
    intro e he
    have hlt : e.ptr < calls.length := by rwa [← hbuilt.length_branches]
    rw [hbuilt.branch e.ptr hlt]
    exact hwhole _ (List.getElem_mem hlt)
  exact
    { linked := hbuilt.linked
      whole := fun e he => (hcall e he).1
      plain := fun e he => (hcall e he).2
      known := fun e _ => hstate e.ptr
      input := fun e he => (hinput e he).1
      even := fun e he a ha =>
        .of_unambig ((hinput e he).2 a ha).1 ((hinput e he).2 a ha).2
      size := hsize }

/-- Before the pass no port is visited. -/
theorem quiet_start {r : Run} (hstart : ∀ p, r.value p = []) :
    Quiet s islandGetValue r.state r := by
  have hdrive : ∀ i, (fun p => drive (r.value p) i) = fun _ => ⊥ := by
    intro i
    funext p
    rw [hstart, drive_nil]
  refine ⟨⟨rfl, fun p hp => absurd (hstart p) hp, fun p hp => absurd (hstart p) hp, fun p => ?_,
    fun i => ?_⟩, ?_⟩
  · rw [hstart]
    exact fun a ha => absurd ha List.not_mem_nil
  · rw [hdrive]
    exact .start fun p hp => hp (hstart p)
  · rintro task ⟨⟨-, -, hne⟩, -⟩
    exact hne (hstart _)

/-- With enough depth for the recursion the pass ends, whatever the order of the branches. Every
port at a branch is sent the resolution of the inputs of the ports that are reached from it through
enabled branches, and is unvisited again. -/
theorem resolution_pass_resolves {ports : List String} {calls : List (Branch × String × String)}
    (hbuild : Mesh.build ports calls = some s)
    (hwhole : ∀ c ∈ calls, c.1.width = 0 ∧ c.1.resistive = false) (r : Run)
    (hstart : ∀ p, r.value p = []) (hstate : ∀ i, r.state i ≠ .unknown)
    (hinput : ∀ e, s.HasEnd e → islandGetValue (s.portOf e) ≠ [] ∧
      ∀ a ∈ islandGetValue (s.portOf e), a.unambig ∧ a.hi.strength ≤ 6)
    (hsize : ∀ e, s.HasEnd e →
      (islandGetValue (s.portOf e)).length = (islandGetValue (s.portOf e.other)).length)
    {order : List Nat} (horder : order.Perm s.branches) :
    ∃ enough, ∀ depth, enough ≤ depth →
      ∃ r', resolutionPass s islandGetValue depth order r = some r' ∧
        ∀ e, s.HasEnd e → r'.value (s.portOf e) = [] ∧
          ∀ nodes : List String, (∀ q, q ∈ nodes ↔ Reaches s r.state (s.portOf e) q) →
            List.Forall₂ Scalar.Same (r'.outvalue (s.portOf e))
              (resolveInputs islandGetValue (islandGetValue (s.portOf e)).length nodes) := by
  have hs := plain_of_build hbuild hwhole hstate hinput hsize
  have hbuilt := Mesh.built_of_build hbuild
  have hmem : ∀ i, i ∈ order ↔ i < s.branches.length := by
    intro i
    rw [horder.mem_iff, hbuilt.mem_branches, hbuilt.length_branches]
  refine ⟨roomIn s islandGetValue r + 1, fun depth hdepth => ?_⟩
  obtain ⟨r₁, hrun, hres, hvisited⟩ := resolution_spec hs order r (quiet_start hstart)
    (fun i hi => (hmem i).mp hi) hdepth
  obtain ⟨hsends, hsent⟩ := runOutputs_spec s order r₁
  refine ⟨order.foldl (runOutput s) r₁, by rw [resolutionPass, hrun]; rfl, fun e he => ?_⟩
  have hends : ∀ e, s.HasEnd e → r₁.value (s.portOf e) ≠ [] :=
    fun e he => hvisited e ((hmem e.ptr).mpr he)
  have hunvisited := hsent e ((hmem e.ptr).mpr he)
  refine ⟨hunvisited, fun nodes hnodes => ?_⟩
  rcases hsends (s.portOf e) with ⟨hvalue, -⟩ | ⟨-, -, hout⟩
  · exact absurd (hvalue.symm.trans hunvisited) (hends e he)
  · rw [hout]
    exact hres.quiet.value_same hs hends he hnodes

/-- A strong 1 on one port of a branch, and HiZ on the other. -/
theorem resolution_pass_resolves_pair :
    ∃ s, Mesh.build ["p", "q"] [(⟨"", "", 0, 0, 0, false⟩, "p", "q")] = some s ∧
      ∃ enough, ∀ depth, enough ≤ depth → ∃ r',
        resolutionPass s (fun p => [if p = "p" then .ofBit4 .one 6 6 else .hiZ]) depth [0]
          ⟨fun _ => .enabled, fun _ => [], fun _ => []⟩ = some r' := by
  refine ⟨_, rfl, ?_⟩
  obtain ⟨enough, hruns⟩ :=
    @resolution_pass_resolves _ (fun p => [if p = "p" then .ofBit4 .one 6 6 else .hiZ]) ["p", "q"]
      [(⟨"", "", 0, 0, 0, false⟩, "p", "q")] rfl (by decide)
      ⟨fun _ => .enabled, fun _ => [], fun _ => []⟩ (fun _ => rfl) (fun _ => TranState.noConfusion)
      (fun e _ => ⟨List.cons_ne_nil _ _, fun a ha => by
        rw [List.mem_singleton.mp ha]
        split <;> decide⟩)
      (fun _ _ => rfl) [0] (.refl _)
  exact ⟨enough, fun depth hdepth => (hruns depth hdepth).imp fun _ h => h.1⟩

end Icarus.Vvp.Island
