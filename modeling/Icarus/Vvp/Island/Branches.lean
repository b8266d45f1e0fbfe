import Icarus.Core.Ring
import Mathlib.Data.List.Perm.Subperm

/-!
# The mesh of an island

The branches of an island are connected at their ends. All ends at one port form a circular list
through the links of the branches, and any end of it leads to all others.
-/

namespace Icarus.Vvp.Island

open Icarus.Core

/-- `vvp_branch_ptr_t`: a branch and one of its two ends. -/
structure BranchPtr where
  /-- The branch. -/
  ptr : Nat
  /-- `port()`: `false` is the A side (0), `true` the B side (1). -/
  port : Bool
  deriving DecidableEq, Repr

/-- The other end of the branch. -/
def BranchPtr.other (e : BranchPtr) : BranchPtr := ⟨e.ptr, !e.port⟩

@[simp] theorem BranchPtr.other_other (e : BranchPtr) : e.other.other = e := by
  simp [BranchPtr.other]

/-- `vvp_island_branch_tran`, less its enable input and its state. -/
structure Branch where
  /-- The label of port `a`; each label has its own net. -/
  a : String
  /-- The label of port `b`. -/
  b : String
  /-- The width of the A side of a part select, or 0 for a whole-width branch. -/
  width : Nat
  /-- The width of the part. -/
  part : Nat
  /-- The offset of the part. -/
  offset : Nat
  /-- The strengths are reduced as by a resistive device. -/
  resistive : Bool
  deriving DecidableEq, Repr

/-- `vvp_island` while it is linked. -/
structure Mesh where
  /-- The labels in `ports_`. -/
  ports : List String
  /-- The branches by number. -/
  branch : Nat → Branch
  /-- `branches_`, the latest first. -/
  branches : List Nat
  /-- `link` of each end. -/
  link : BranchPtr → BranchPtr
  /-- `anodes_`. -/
  anodes : String → Option Nat
  /-- `bnodes_`. -/
  bnodes : String → Option Nat

namespace Mesh

/-- An island with ports and no branches. -/
def new (ports : List String) : Mesh :=
  ⟨ports, fun _ => ⟨"", "", 0, 0, 0, false⟩, [], id, fun _ => none, fun _ => none⟩

/-- The port at an end of a branch. -/
def portOf (s : Mesh) (e : BranchPtr) : String :=
  if e.port then (s.branch e.ptr).b else (s.branch e.ptr).a

/-- One of the two blocks of `add_branch`: link an end behind the one that its label names, or to
itself, and let the label name it. -/
def linkEnd (s : Mesh) (e : BranchPtr) (key : String) : Mesh :=
  match s.anodes key with
  | some cur =>
    let link := Function.update s.link e (s.link ⟨cur, false⟩)
    { s with link := Function.update link ⟨cur, false⟩ e }
  | none =>
    match s.bnodes key with
    | some cur =>
      let link := Function.update s.link e (s.link ⟨cur, true⟩)
      { s with link := Function.update link ⟨cur, true⟩ e }
    | none =>
      let s := { s with link := Function.update s.link e e }
      if e.port then { s with bnodes := Function.update s.bnodes key (some e.ptr) }
      else { s with anodes := Function.update s.anodes key (some e.ptr) }

/-- `add_branch`; both labels name ports by assertion. -/
def addBranch (s : Mesh) (branch : Branch) (pa pb : String) : Option Mesh :=
  if pa ∈ s.ports ∧ pb ∈ s.ports then
    let cur := s.branches.length
    let s := { s with branch := Function.update s.branch cur { branch with a := pa, b := pb } }
    let s := (s.linkEnd ⟨cur, false⟩ pa).linkEnd ⟨cur, true⟩ pb
    some { s with branches := cur :: s.branches }
  else none

/-- The calls of `add_branch` that build an island. -/
def build (ports : List String) (calls : List (Branch × String × String)) : Option Mesh :=
  calls.foldlM (fun s c => s.addBranch c.1 c.2.1 c.2.2) (new ports)

/-- The loop of `island_collect_node` from `idx`. -/
def collectFrom (s : Mesh) (cur : BranchPtr) : Nat → BranchPtr → Option (List BranchPtr)
  | 0, _ => none
  | fuel + 1, idx =>
    if idx = cur then some []
    else (s.collectFrom cur fuel (s.link idx)).map fun conn => idx :: conn

/-- `island_collect_node`: all ends that are connected with an end. -/
def collectNode (s : Mesh) (cur : BranchPtr) : Option (List BranchPtr) :=
  (s.collectFrom cur (2 * s.branches.length) (s.link cur)).map fun conn => cur :: conn

/-! ## The rings -/

/-- The end that a label names. -/
def named (s : Mesh) (key : String) : Option BranchPtr :=
  ((s.anodes key).map fun cur => ⟨cur, false⟩) <|> ((s.bnodes key).map fun cur => ⟨cur, true⟩)

/-- The ends of a mesh. -/
def HasEnd (s : Mesh) (e : BranchPtr) : Prop := e.ptr < s.branches.length

/-- The links are those of one ring for every label, behind the end that the label names. -/
structure Rings (s : Mesh) (on : BranchPtr → String → Prop) (ring : String → List BranchPtr) :
    Prop where
  /-- A label has the ring behind the end that it names. -/
  rep : ∀ p, Ring.Rep s.link (s.named p) (ring p)
  /-- An end is on a ring once. -/
  nodup : ∀ p, (ring p).Nodup
  /-- The ring of a label has the ends at its port. -/
  mem : ∀ p e, e ∈ ring p ↔ on e p
  /-- An end is at one port. -/
  unique : ∀ e p q, on e p → on e q → p = q

/-- Linking an end is a push behind the end that its label names. -/
theorem linkEnd_push (s : Mesh) (e : BranchPtr) (key : String) :
    (s.linkEnd e key).link = (Ring.push s.link (s.named key) e).1 ∧
      (s.linkEnd e key).named =
        Function.update s.named key (Ring.push s.link (s.named key) e).2 := by
  unfold linkEnd
  cases ha : s.anodes key with
  | some cur =>
    have hname : s.named key = some ⟨cur, false⟩ := by simp [named, ha]
    rw [hname]
    refine ⟨rfl, ?_⟩
    rw [Ring.push, ← hname, Function.update_eq_self]
    rfl
  | none =>
    cases hb : s.bnodes key with
    | some cur =>
      have hname : s.named key = some ⟨cur, true⟩ := by simp [named, ha, hb]
      rw [hname]
      refine ⟨rfl, ?_⟩
      rw [Ring.push, ← hname, Function.update_eq_self]
      rfl
    | none =>
      have hname : s.named key = none := by simp [named, ha, hb]
      obtain ⟨ptr, port⟩ := e
      rw [hname]
      cases port with
      | false =>
        refine ⟨rfl, funext fun p => ?_⟩
        by_cases hp : p = key <;> simp [Ring.push, named, hp]
      | true =>
        refine ⟨rfl, funext fun p => ?_⟩
        by_cases hp : p = key <;> simp [Ring.push, named, hp, ha]

/-- A new end is linked into the ring of its label. -/
theorem Rings.linkEnd {s : Mesh} {on : BranchPtr → String → Prop}
    {ring : String → List BranchPtr} (h : s.Rings on ring) {e : BranchPtr}
    (he : ∀ p, ¬ on e p) (key : String) :
    (s.linkEnd e key).Rings (fun e' p => on e' p ∨ e' = e ∧ p = key)
      (Function.update ring key (e :: ring key)) := by
  obtain ⟨hlink, hnamed⟩ := s.linkEnd_push e key
  have hfresh : e ∉ ring key := fun hmem => he key ((h.mem key e).mp hmem)
  constructor
  · intro p
    rw [hlink, hnamed]
    by_cases hp : p = key
    · subst hp
      rw [Function.update_self, Function.update_self]
      exact (h.rep p).push (h.nodup p) hfresh
    · rw [Function.update_of_ne hp, Function.update_of_ne hp]
      refine (h.rep p).congr fun b hb => Ring.push_next_of_ne ?_ ?_
      · rintro rfl
        exact he p ((h.mem p b).mp hb)
      · intro htail
        have hrep := h.rep key
        rw [htail] at hrep
        exact hp (h.unique b p key ((h.mem p b).mp hb) ((h.mem key b).mp hrep.tail_mem))
  · intro p
    by_cases hp : p = key
    · subst hp
      rw [Function.update_self]
      exact List.nodup_cons.mpr ⟨hfresh, h.nodup p⟩
    · rw [Function.update_of_ne hp]
      exact h.nodup p
  · intro p e'
    by_cases hp : p = key
    · subst hp
      rw [Function.update_self, List.mem_cons, h.mem]
      tauto
    · rw [Function.update_of_ne hp, h.mem]
      tauto
  · rintro e' p q (hp | ⟨rfl, rfl⟩) (hq | ⟨hq, rfl⟩)
    · exact h.unique e' p q hp hq
    · exact absurd (hq ▸ hp) (he p)
    · exact absurd hq (he q)
    · rfl

theorem Rings.congr {s : Mesh} {on on' : BranchPtr → String → Prop}
    {ring : String → List BranchPtr} (h : s.Rings on ring) (hon : ∀ e p, on e p ↔ on' e p) :
    s.Rings on' ring :=
  ⟨h.rep, h.nodup, fun p e => (h.mem p e).trans (hon e p),
    fun e p q hp hq => h.unique e p q ((hon e p).mpr hp) ((hon e q).mpr hq)⟩

@[simp] theorem linkEnd_fields (s : Mesh) (e : BranchPtr) (key : String) :
    (s.linkEnd e key).ports = s.ports ∧ (s.linkEnd e key).branch = s.branch ∧
      (s.linkEnd e key).branches = s.branches := by
  unfold linkEnd
  cases s.anodes key with
  | some cur => exact ⟨rfl, rfl, rfl⟩
  | none =>
    cases s.bnodes key with
    | some cur => exact ⟨rfl, rfl, rfl⟩
    | none =>
      dsimp only
      split <;> exact ⟨rfl, rfl, rfl⟩

/-- The ends at each port are on one ring. -/
def Linked (s : Mesh) : Prop := ∃ ring, s.Rings (fun e p => s.HasEnd e ∧ s.portOf e = p) ring

theorem linked_new (ports : List String) : (new ports).Linked := by
  refine ⟨fun _ => [], fun p => ?_, fun p => List.nodup_nil, fun p e => ?_, ?_⟩
  · simp [named, new]
  · simp [HasEnd, new]
  · rintro e p q ⟨-, rfl⟩ ⟨-, rfl⟩
    rfl

/-- What a call of `add_branch` adds to an island. -/
structure Added (s s' : Mesh) (c : Branch × String × String) : Prop where
  /-- The ports stay. -/
  ports : s'.ports = s.ports
  /-- The labels name ports. -/
  declared : c.2.1 ∈ s.ports ∧ c.2.2 ∈ s.ports
  /-- The new branch is the first one. -/
  branches : s'.branches = s.branches.length :: s.branches
  /-- The other branches stay. -/
  branch : s'.branch =
    Function.update s.branch s.branches.length { c.1 with a := c.2.1, b := c.2.2 }

theorem added_of_addBranch {s s' : Mesh} {c : Branch × String × String}
    (h : s.addBranch c.1 c.2.1 c.2.2 = some s') : Added s s' c := by
  unfold addBranch at h
  split at h
  · rename_i hports
    rw [Option.some_inj] at h
    subst h
    constructor <;> simp [hports]
  · cases h

/-- The ports at the ends of the new branch and of the others. -/
theorem Added.portOf {s s' : Mesh} {c : Branch × String × String} (h : Added s s' c)
    (e : BranchPtr) :
    s'.portOf e =
      if e.ptr = s.branches.length then (if e.port then c.2.2 else c.2.1) else s.portOf e := by
  unfold Mesh.portOf
  rw [h.branch]
  by_cases he : e.ptr = s.branches.length
  · rw [he, Function.update_self, if_pos rfl]
  · rw [Function.update_of_ne he, if_neg he]

theorem Added.hasEnd {s s' : Mesh} {c : Branch × String × String} (h : Added s s' c)
    (e : BranchPtr) : s'.HasEnd e ↔ s.HasEnd e ∨ e.ptr = s.branches.length := by
  unfold HasEnd
  rw [h.branches, List.length_cons]
  omega

/-- Adding a branch keeps the ends at each port on one ring. -/
theorem Linked.addBranch {s s' : Mesh} {c : Branch × String × String} (hs : s.Linked)
    (h : s.addBranch c.1 c.2.1 c.2.2 = some s') : s'.Linked := by
  have hadded := added_of_addBranch h
  obtain ⟨ring, hring⟩ := hs
  have hnew : ∀ e : BranchPtr, e.ptr = s.branches.length → ¬ s.HasEnd e := by
    intro e he hlt
    rw [HasEnd, he] at hlt
    exact absurd hlt (lt_irrefl _)
  unfold Mesh.addBranch at h
  rw [if_pos hadded.declared, Option.some_inj] at h
  let s₁ : Mesh := { s with
    branch := Function.update s.branch s.branches.length { c.1 with a := c.2.1, b := c.2.2 } }
  have h₁ : s₁.Rings (fun e p => s.HasEnd e ∧ s.portOf e = p) ring :=
    ⟨hring.rep, hring.nodup, hring.mem, hring.unique⟩
  have h₂ := @Rings.linkEnd s₁ _ ring h₁ ⟨s.branches.length, false⟩
    (fun p hp => hnew _ rfl hp.1) c.2.1
  have hfresh : ∀ p, ¬ ((s.HasEnd ⟨s.branches.length, true⟩ ∧
      s.portOf ⟨s.branches.length, true⟩ = p) ∨
        (⟨s.branches.length, true⟩ : BranchPtr) = ⟨s.branches.length, false⟩ ∧ p = c.2.1) := by
    rintro p (hp | ⟨he, -⟩)
    · exact hnew _ rfl hp.1
    · cases he
  have h₃ := h₂.linkEnd hfresh c.2.2
  have hon : ∀ e p, ((s.HasEnd e ∧ s.portOf e = p) ∨
      e = ⟨s.branches.length, false⟩ ∧ p = c.2.1) ∨
        e = ⟨s.branches.length, true⟩ ∧ p = c.2.2 ↔ s'.HasEnd e ∧ s'.portOf e = p := by
    intro e p
    rw [hadded.hasEnd, hadded.portOf]
    obtain ⟨ptr, port⟩ := e
    by_cases hptr : ptr = s.branches.length
    · subst hptr
      have := hnew ⟨s.branches.length, port⟩ rfl
      cases port <;> simp [this, eq_comm]
    · simp [hptr]
  have h₄ := h₃.congr hon
  subst h
  exact ⟨_, h₄.rep, h₄.nodup, h₄.mem, h₄.unique⟩

/-- What calls of `add_branch` build. -/
structure Built (ports : List String) (calls : List (Branch × String × String)) (s : Mesh) :
    Prop where
  /-- The ends at each port are on one ring. -/
  linked : s.Linked
  /-- There is a branch for each call. -/
  mem_branches : ∀ i, i ∈ s.branches ↔ i < calls.length
  /-- As many as there are calls. -/
  length_branches : s.branches.length = calls.length
  /-- The branch has the labels of its call, -/
  branch : ∀ i (hi : i < calls.length),
    s.branch i = { calls[i].1 with a := calls[i].2.1, b := calls[i].2.2 }

theorem built_of_build {ports : List String} {calls : List (Branch × String × String)} :
    ∀ {s : Mesh}, build ports calls = some s → Built ports calls s := by
  induction calls using List.reverseRecOn with
  | nil =>
    intro s h
    rw [build, List.foldlM_nil, Option.pure_def, Option.some_inj] at h
    subst h
    exact ⟨linked_new ports, by simp [new], rfl, fun i hi => absurd hi (Nat.not_lt_zero i)⟩
  | append_singleton calls c ih =>
    intro s' h
    rw [build, List.foldlM_append] at h
    obtain ⟨s, hs, hlast⟩ := Option.bind_eq_some_iff.mp h
    obtain ⟨s'', hadd, hend⟩ := Option.bind_eq_some_iff.mp hlast
    obtain rfl : s'' = s' := Option.some_inj.mp hend
    have hbuilt := ih hs
    have hadded := added_of_addBranch hadd
    have hlen := hbuilt.length_branches
    refine ⟨hbuilt.linked.addBranch hadd, fun i => ?_, ?_, fun i hi => ?_⟩
    · rw [hadded.branches, List.mem_cons, hbuilt.mem_branches, hlen, List.length_append,
        List.length_singleton]
      omega
    · rw [hadded.branches, List.length_cons, hlen, List.length_append, List.length_singleton]
    · rw [hadded.branch, hlen]
      by_cases hilast : i = calls.length
      · subst hilast
        rw [Function.update_self, List.getElem_concat_length rfl]
      · have hlt : i < calls.length := by
          rw [List.length_append, List.length_singleton] at hi
          omega
        rw [Function.update_of_ne hilast, hbuilt.branch i hlt, List.getElem_append_left hlt]

/-! ## Collecting a node -/

/-- A ring is no longer than the number of ends. -/
theorem Rings.length_le {s : Mesh} {on : BranchPtr → String → Prop}
    {ring : String → List BranchPtr} (h : s.Rings on ring) (hon : ∀ e p, on e p → s.HasEnd e)
    (p : String) : (ring p).length ≤ 2 * s.branches.length := by
  have hsub : ring p ⊆ (List.range s.branches.length).flatMap fun i => [⟨i, false⟩, ⟨i, true⟩] := by
    intro e he
    obtain ⟨ptr, port⟩ := e
    have hlt : ptr < s.branches.length := hon _ p ((h.mem p _).mp he)
    refine List.mem_flatMap.mpr ⟨ptr, List.mem_range.mpr hlt, ?_⟩
    cases port <;> simp
  have hle := ((h.nodup p).subperm hsub).length_le
  rw [List.length_flatMap] at hle
  simpa [Nat.mul_comm] using hle

/-- The loop collects the nodes of a chain up to where it started. -/
private theorem collectFrom_eq {s : Mesh} {cur : BranchPtr} {fuel : Nat} (conn : List BranchPtr) :
    ∀ {idx : BranchPtr}, (conn ++ [cur]).head? = some idx →
      List.IsChain (fun a b => s.link a = b) (conn ++ [cur]) → cur ∉ conn → conn.length < fuel →
      s.collectFrom cur fuel idx = some conn := by
  induction conn generalizing fuel with
  | nil =>
    intro idx hidx _ _ hfuel
    obtain ⟨fuel, rfl⟩ : ∃ k, fuel = k + 1 := ⟨fuel - 1, by omega⟩
    obtain rfl : cur = idx := by simpa using hidx
    rw [collectFrom, if_pos rfl]
  | cons e conn ih =>
    intro idx hidx hchain hcur hfuel
    obtain ⟨fuel, rfl⟩ : ∃ k, fuel = k + 1 := ⟨fuel - 1, by omega⟩
    obtain rfl : e = idx := by simpa using hidx
    obtain ⟨hne, hcur'⟩ := not_or.mp (mt List.mem_cons.mpr hcur)
    obtain ⟨z, zs, hz⟩ := List.exists_cons_of_ne_nil (show conn ++ [cur] ≠ [] by simp)
    rw [List.cons_append, hz] at hchain
    obtain ⟨hnext, hrest⟩ := List.isChain_cons_cons.mp hchain
    rw [← hz] at hrest
    rw [collectFrom, if_neg (Ne.symm hne), hnext,
      ih (by rw [hz, List.head?_cons]) hrest hcur' (by simpa using hfuel)]
    rfl

/-- From an end all ends at its port are collected. -/
theorem Linked.collectNode {s : Mesh} (hs : s.Linked) {e : BranchPtr} (he : s.HasEnd e) :
    ∃ conn, s.collectNode e = some conn ∧
      ∀ e', e' ∈ conn ↔ s.HasEnd e' ∧ s.portOf e' = s.portOf e := by
  obtain ⟨ring, h⟩ := hs
  have hmem : e ∈ ring (s.portOf e) := (h.mem _ e).mpr ⟨he, rfl⟩
  have hrep := h.rep (s.portOf e)
  have hnodup := h.nodup (s.portOf e)
  have hlen := h.length_le (fun _ _ h => h.1) (s.portOf e)
  have hall := fun e' => h.mem (s.portOf e) e'
  obtain ⟨as, bs, hring⟩ := List.append_of_mem hmem
  rw [hring] at hrep hnodup hlen hall
  cases hname : s.named (s.portOf e) with
  | none =>
    rw [hname] at hrep
    exact absurd hrep (by simp)
  | some t =>
    rw [hname] at hrep
    have hchain := hrep.around
    obtain ⟨z, zs, hz⟩ := List.exists_cons_of_ne_nil (show bs ++ as ++ [e] ≠ [] by simp)
    rw [List.cons_append, hz] at hchain
    obtain ⟨hnext, hrest⟩ := List.isChain_cons_cons.mp hchain
    rw [← hz] at hrest
    have hfresh : e ∉ bs ++ as := by
      obtain ⟨-, hbs, hdisj⟩ := List.nodup_append.mp hnodup
      intro hmem
      rcases List.mem_append.mp hmem with hmem | hmem
      · exact (List.nodup_cons.mp hbs).1 hmem
      · exact hdisj e hmem e List.mem_cons_self rfl
    have hfuel : (bs ++ as).length < 2 * s.branches.length := by
      simp only [List.length_append, List.length_cons] at hlen ⊢
      omega
    refine ⟨e :: (bs ++ as), ?_, fun e' => ?_⟩
    · rw [Mesh.collectNode, hnext, collectFrom_eq (bs ++ as) (by rw [hz, List.head?_cons]) hrest
        hfresh hfuel]
      rfl
    · rw [← hall e']
      simp only [List.mem_cons, List.mem_append]
      tauto

end Mesh

end Icarus.Vvp.Island
