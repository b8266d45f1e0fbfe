import Icarus.Vvp.Island.Pushed
import Mathlib.Algebra.Order.BigOperators.Group.List

/-!
# The resolved values of a tran island

Pushing is a cascade over the ends of the branches: an end waits as long as the drives on its side
have not all flowed to the other side. No end waits when all ports are visited, and then every port
has the resolution of the inputs that reach it.
-/

namespace Icarus.Vvp.Island

open Icarus.Core Scalar

/-- Ports are joined by the enabled branches between them. -/
def Joined (s : Mesh) (state : Nat → TranState) (p q : String) : Prop :=
  ∃ e, s.HasEnd e ∧ state e.ptr = .enabled ∧ s.portOf e = p ∧ s.portOf e.other = q

/-- A port is reached through enabled branches. -/
def Reaches (s : Mesh) (state : Nat → TranState) : String → String → Prop :=
  Relation.ReflTransGen (Joined s state)

/-- `resolve()` of the inputs of ports. -/
def resolveInputs (islandGetValue : String → Vector8) (wid : Nat) (nodes : List String) : Vector8 :=
  nodes.foldl (fun v p => resolveVector v (islandGetValue p)) (List.replicate wid hiZ)

/-- An island of whole-width branches that are not resistive, with a value of one strength on every
port. -/
structure Plain (s : Mesh) (islandGetValue : String → Vector8) (state : Nat → TranState) :
    Prop where
  /-- The ends at each port are on one ring. -/
  linked : s.Linked
  /-- There are no part selects. -/
  whole : ∀ e, s.HasEnd e → (s.branch e.ptr).width = 0
  /-- There are no resistive devices. -/
  plain : ∀ e, s.HasEnd e → (s.branch e.ptr).resistive = false
  /-- The enable inputs are known. -/
  known : ∀ e, s.HasEnd e → state e.ptr ≠ .unknown
  /-- There is a value on the port. -/
  input : ∀ e, s.HasEnd e → islandGetValue (s.portOf e) ≠ []
  /-- It has one strength. -/
  even : ∀ e, s.HasEnd e → Even (islandGetValue (s.portOf e))
  /-- The values at both ends have one size. -/
  size : ∀ e, s.HasEnd e →
    (islandGetValue (s.portOf e)).length = (islandGetValue (s.portOf e.other)).length

section Cascade

variable (s : Mesh) (islandGetValue : String → Vector8) (state : Nat → TranState)

/-- What holds while values are pushed. -/
structure Pushing (r : Run) : Prop where
  /-- The states of the branches stay. -/
  states : r.state = state
  /-- Only ports at branches are visited. -/
  ends : ∀ p, r.value p ≠ [] → ∃ e, s.HasEnd e ∧ s.portOf e = p
  /-- Values keep the size of the input. -/
  size : ∀ p, r.value p ≠ [] → (r.value p).length = (islandGetValue p).length
  /-- Values have one strength. -/
  even : ∀ p, Even (r.value p)
  /-- Every bit flows along the enabled branches. -/
  flow : ∀ i, Flow (Joined s state) (fun p => drive (islandGetValue p) i) (fun p => r.value p ≠ [])
    fun p => drive (r.value p) i

/-- A value may be pushed from the port at an end, once that has been visited. -/
def Ready (r : Run) (task : String × BranchPtr) : Prop :=
  s.HasEnd task.2 ∧ task.1 = s.portOf task.2 ∧ r.value task.1 ≠ []

/-- An end waits if its branch is enabled and a drive has not flowed to the other side. -/
def Waiting (r : Run) (task : String × BranchPtr) : Prop :=
  Ready s r task ∧ state task.2.ptr = .enabled ∧
    ∃ i, ¬ drive (r.value task.1) i ≤ drive (r.value (s.portOf task.2.other)) i

/-- How far the value of a port may still be changed. -/
def roomAt (r : Run) (p : String) : Nat :=
  if r.value p = [] then 1 + 15 * (islandGetValue p).length else roomOf (r.value p)

/-- The ports at the ends of all branches. -/
def endPorts : List String :=
  (List.range s.branches.length).flatMap fun cur => [s.portOf ⟨cur, false⟩, s.portOf ⟨cur, true⟩]

/-- How far the values at the ends of all branches may still be changed. -/
def roomIn (r : Run) : Nat := ((endPorts s).map (roomAt islandGetValue r)).sum

end Cascade

@[simp] theorem setValue_value (r : Run) (p : String) (v : Vector8) :
    (r.setValue p v).value = Function.update r.value p v := rfl

@[simp] theorem setValue_same (r : Run) (p : String) : r.setValue p (r.value p) = r := by
  rw [Run.setValue, Function.update_eq_self]

@[simp] theorem setValue_setValue (r : Run) (p : String) (v w : Vector8) :
    (r.setValue p v).setValue p w = r.setValue p w := by
  simp [Run.setValue]

theorem drive_update (value : String → Vector8) (p : String) (v : Vector8) (i : Nat) :
    (fun q => drive (Function.update value p v q) i) =
      Function.update (fun q => drive (value q) i) p (drive v i) := by
  funext q
  by_cases hq : q = p
  · subst hq
    rw [Function.update_self, Function.update_self]
  · rw [Function.update_of_ne hq, Function.update_of_ne hq]

section Steps

variable {s : Mesh} {islandGetValue : String → Vector8} {state : Nat → TranState}

/-- The value that a port is pushed into with: its own, or its input on the first visit. -/
def baseValue (islandGetValue : String → Vector8) (r : Run) (p : String) : Vector8 :=
  if r.value p = [] then islandGetValue p else r.value p

theorem hasEnd_other {e : BranchPtr} : s.HasEnd e.other ↔ s.HasEnd e := Iff.rfl

variable (hs : Plain s islandGetValue state) {r : Run} (h : Pushing s islandGetValue state r)
include hs h

theorem baseValue_spec {e : BranchPtr} (he : s.HasEnd e) :
    baseValue islandGetValue r (s.portOf e) ≠ [] ∧
      (baseValue islandGetValue r (s.portOf e)).length = (islandGetValue (s.portOf e)).length ∧
      Even (baseValue islandGetValue r (s.portOf e)) := by
  unfold baseValue
  split_ifs with hnil
  · exact ⟨hs.input e he, rfl, hs.even e he⟩
  · exact ⟨hnil, h.size _ hnil, h.even _⟩

/-- The value at the other side and the one that is pushed have one size. -/
theorem baseValue_size {cur : BranchPtr} (he : s.HasEnd cur) (hne : r.value (s.portOf cur) ≠ []) :
    (baseValue islandGetValue r (s.portOf cur.other)).length = (r.value (s.portOf cur)).length := by
  rw [(baseValue_spec hs h (hasEnd_other.mpr he)).2.1, h.size _ hne, hs.size cur he]

omit hs h in
/-- The first visit of a port gives it its input. -/
theorem firstVisit (r : Run) (dst : String) :
    let r' := if r.value dst = [] then r.setValue dst (islandGetValue dst) else r
    r'.value dst = baseValue islandGetValue r dst ∧ r'.state = r.state ∧
      (∀ src, src ≠ dst → r'.value src = r.value src) ∧
      ∀ v, r'.setValue dst v = r.setValue dst v := by
  dsimp only
  unfold baseValue
  by_cases hnil : r.value dst = []
  · rw [if_pos hnil, if_pos hnil]
    exact ⟨Function.update_self .., rfl, fun src hsrc => Function.update_of_ne hsrc ..,
      fun v => setValue_setValue r dst _ v⟩
  · rw [if_neg hnil, if_neg hnil]
    exact ⟨rfl, rfl, fun _ _ => rfl, fun _ => rfl⟩

/-- What a push does: the other port takes in the value, and if that changes it, its new value is
to be pushed on. -/
theorem pushStep_eq {cur : BranchPtr} (he : s.HasEnd cur) (hne : r.value (s.portOf cur) ≠ [])
    (henabled : state cur.ptr = .enabled) :
    ∃ conn : List BranchPtr, (∀ e, e ∈ conn ↔ s.HasEnd e ∧ s.portOf e = s.portOf cur.other) ∧
      pushStep s islandGetValue r (s.portOf cur, cur) =
        some (r.setValue (s.portOf cur.other)
            (pushed (baseValue islandGetValue r (s.portOf cur.other)) (r.value (s.portOf cur))),
          if pushed (baseValue islandGetValue r (s.portOf cur.other)) (r.value (s.portOf cur)) =
            r.value (s.portOf cur.other) then []
          else conn.map fun idx => (s.portOf cur.other, idx)) := by
  obtain ⟨conn, hconn, hmem⟩ := hs.linked.collectNode (hasEnd_other.mpr he)
  obtain ⟨hbase, -, -⟩ := baseValue_spec hs h (hasEnd_other.mpr he)
  have hsize := baseValue_size hs h he hne
  refine ⟨conn, hmem, ?_⟩
  obtain ⟨hvalue, hstate, hsrc, hset⟩ :=
    @firstVisit islandGetValue r (s.portOf cur.other)
  have hnew : resolvePushed (s.branch cur.ptr) .enabled cur.other.port
      (baseValue islandGetValue r (s.portOf cur.other)) (r.value (s.portOf cur)) =
      some (pushed (baseValue islandGetValue r (s.portOf cur.other)) (r.value (s.portOf cur))) := by
    rw [resolvePushed, if_pos (hs.whole cur he), hs.plain cur he, resolveAmbiguous_eq hsize]
  have hne_disabled : r.state cur.ptr ≠ .disabled := by
    rw [h.states, henabled]
    exact TranState.noConfusion
  simp only [pushStep]
  rw [if_neg hne_disabled]
  generalize (if r.value (s.portOf cur.other) = [] then
    r.setValue (s.portOf cur.other) (islandGetValue (s.portOf cur.other)) else r) = r' at *
  have hval : r'.value (s.portOf cur) = r.value (s.portOf cur) := by
    by_cases hself : s.portOf cur = s.portOf cur.other
    · rw [hself, hvalue, baseValue, if_neg (hself ▸ hne)]
    · exact hsrc _ hself
  rw [hvalue, if_neg hbase, hval, hstate, h.states, henabled, hnew]
  simp only [Option.bind_eq_bind, Option.bind_some, hset, hconn]
  split_ifs <;> rfl

/-- The value that is taken in. -/
theorem pushed_spec {cur : BranchPtr} (he : s.HasEnd cur) (hne : r.value (s.portOf cur) ≠ []) :
    let new := pushed (baseValue islandGetValue r (s.portOf cur.other)) (r.value (s.portOf cur))
    new ≠ [] ∧ new.length = (islandGetValue (s.portOf cur.other)).length ∧ Even new ∧
      ∀ i, drive new i =
        drive (baseValue islandGetValue r (s.portOf cur.other)) i ⊔
          drive (r.value (s.portOf cur)) i := by
  obtain ⟨hbase, hlen, heven⟩ := baseValue_spec hs h (hasEnd_other.mpr he)
  have hsize := baseValue_size hs h he hne
  obtain ⟨hnew, heven', hdrive⟩ := pushed_drives hsize heven (h.even _)
  refine ⟨?_, hnew.trans hlen, heven', hdrive⟩
  intro hnil
  rw [hnil] at hnew
  exact hbase (List.eq_nil_of_length_eq_zero hnew.symm)

omit hs in
/-- The first visit only adds the input. -/
theorem drive_baseValue (p : String) (i : Nat) :
    drive (r.value p) i ≤ drive (baseValue islandGetValue r p) i ∧
      drive (islandGetValue p) i ≤ drive (baseValue islandGetValue r p) i ∧
      drive (baseValue islandGetValue r p) i ≤
        drive (r.value p) i ⊔ drive (islandGetValue p) i := by
  unfold baseValue
  split_ifs with hnil
  · rw [hnil, drive_nil]
    exact ⟨bot_le, le_rfl, le_sup_right⟩
  · exact ⟨le_rfl, (h.flow i).lower p hnil, le_sup_left⟩

omit hs in
/-- Setting a value of the right kind keeps what holds while values are pushed. -/
theorem Pushing.set {e : BranchPtr} (he : s.HasEnd e) {v : Vector8}
    (hlen : v.length = (islandGetValue (s.portOf e)).length) (heven : Even v)
    (hflow : ∀ i, Flow (Joined s state) (fun p => drive (islandGetValue p) i)
      (fun p => Function.update r.value (s.portOf e) v p ≠ [])
      (Function.update (fun p => drive (r.value p) i) (s.portOf e) (drive v i))) :
    Pushing s islandGetValue state (r.setValue (s.portOf e) v) := by
  constructor
  · exact h.states
  · intro p hp
    by_cases hdst : p = s.portOf e
    · exact ⟨e, he, hdst.symm⟩
    · rw [setValue_value, Function.update_of_ne hdst] at hp
      exact h.ends p hp
  · intro p hp
    rw [setValue_value] at hp ⊢
    by_cases hdst : p = s.portOf e
    · subst hdst
      rw [Function.update_self]
      exact hlen
    · rw [Function.update_of_ne hdst] at hp ⊢
      exact h.size p hp
  · intro p
    rw [setValue_value]
    by_cases hdst : p = s.portOf e
    · subst hdst
      rw [Function.update_self]
      exact heven
    · rw [Function.update_of_ne hdst]
      exact h.even p
  · intro i
    rw [setValue_value, drive_update]
    exact hflow i

omit hs h in
private theorem visited_of_update {p q : String} {v : Vector8} (hp : p ≠ q)
    (hvisited : Function.update r.value q v p ≠ []) : r.value p ≠ [] := by
  rwa [Function.update_of_ne hp] at hvisited

/-- Taking in a pushed value keeps what holds while values are pushed. -/
theorem Pushing.take {cur : BranchPtr} (he : s.HasEnd cur) (hne : r.value (s.portOf cur) ≠ [])
    (henabled : state cur.ptr = .enabled) :
    Pushing s islandGetValue state (r.setValue (s.portOf cur.other)
      (pushed (baseValue islandGetValue r (s.portOf cur.other)) (r.value (s.portOf cur)))) := by
  obtain ⟨-, hlen, heven, hdrive⟩ := pushed_spec hs h he hne
  refine h.set (hasEnd_other.mpr he) hlen heven fun i => ?_
  obtain ⟨-, hinput, hbase⟩ := drive_baseValue h (s.portOf cur.other) i
  have hedge : Joined s state (s.portOf cur.other) (s.portOf cur) :=
    ⟨cur.other, hasEnd_other.mpr he, henabled, rfl, by rw [BranchPtr.other_other]⟩
  refine (h.flow i).join (p := s.portOf cur) (fun _ => visited_of_update) ?_ ?_ hedge
  · rw [hdrive]
    exact hinput.trans le_sup_left
  · rw [hdrive]
    exact sup_le_sup_right hbase _

/-- So does the visit of a port. -/
theorem Pushing.visit {e : BranchPtr} (he : s.HasEnd e) :
    Pushing s islandGetValue state
      (r.setValue (s.portOf e) (islandGetValue (s.portOf e))) :=
  h.set he rfl (hs.even e he) fun i => (h.flow i).visit _ fun _ => visited_of_update

omit hs h in
theorem mem_endPorts {e : BranchPtr} (he : s.HasEnd e) : s.portOf e ∈ endPorts s := by
  obtain ⟨ptr, port⟩ := e
  refine List.mem_flatMap.mpr ⟨ptr, List.mem_range.mpr he, ?_⟩
  cases port <;> simp

omit hs h in
/-- A value that takes room at a port takes room. -/
private theorem roomIn_setValue {e : BranchPtr} (he : s.HasEnd e) {v : Vector8} (hv : v ≠ [])
    (hlt : roomOf v < roomAt islandGetValue r (s.portOf e)) :
    roomIn s islandGetValue (r.setValue (s.portOf e) v) < roomIn s islandGetValue r := by
  have hdst : roomAt islandGetValue (r.setValue (s.portOf e) v) (s.portOf e) <
      roomAt islandGetValue r (s.portOf e) := by
    rwa [roomAt, setValue_value, Function.update_self, if_neg hv]
  refine List.sum_lt_sum _ _ (fun p _ => ?_) ⟨_, mem_endPorts he, hdst⟩
  by_cases hp : p = s.portOf e
  · subst hp
    exact hdst.le
  · unfold roomAt
    rw [setValue_value, Function.update_of_ne hp]

omit hs h in
private theorem roomOf_lt_roomAt {p : String} {v : Vector8} (hnil : r.value p = [])
    (hlen : v.length = (islandGetValue p).length) : roomOf v < roomAt islandGetValue r p := by
  have hle := roomOf_le v
  rw [roomAt, if_pos hnil]
  rw [hlen] at hle
  omega

/-- A value that changes takes room. -/
theorem roomIn_take {cur : BranchPtr} (he : s.HasEnd cur) (hne : r.value (s.portOf cur) ≠ [])
    (hchange : pushed (baseValue islandGetValue r (s.portOf cur.other)) (r.value (s.portOf cur)) ≠
      r.value (s.portOf cur.other)) :
    roomIn s islandGetValue (r.setValue (s.portOf cur.other)
      (pushed (baseValue islandGetValue r (s.portOf cur.other)) (r.value (s.portOf cur)))) <
      roomIn s islandGetValue r := by
  obtain ⟨hnew, hlen, -, -⟩ := pushed_spec hs h he hne
  obtain ⟨-, -, heven⟩ := baseValue_spec hs h (hasEnd_other.mpr he)
  have hsize := baseValue_size hs h he hne
  refine roomIn_setValue (hasEnd_other.mpr he) hnew ?_
  by_cases hnil : r.value (s.portOf cur.other) = []
  · exact roomOf_lt_roomAt hnil hlen
  · have hbase : baseValue islandGetValue r (s.portOf cur.other) =
        r.value (s.portOf cur.other) := if_neg hnil
    rw [hbase] at hsize heven hchange ⊢
    rw [roomAt, if_neg hnil]
    exact (roomOf_pushed hsize heven (h.even _)).2 hchange

omit h in
/-- So does the visit of a port. -/
theorem roomIn_visit {e : BranchPtr} (he : s.HasEnd e) (hnil : r.value (s.portOf e) = []) :
    roomIn s islandGetValue (r.setValue (s.portOf e) (islandGetValue (s.portOf e))) <
      roomIn s islandGetValue r :=
  roomIn_setValue he (hs.input e he) (roomOf_lt_roomAt hnil rfl)

end Steps

section Progress

variable {s : Mesh} {islandGetValue : String → Vector8} {state : Nat → TranState}

/-- A value that grows at one port makes only the ends at that port wait. -/
theorem waiting_setValue {r : Run} {p : String} {v : Vector8}
    (hgrow : ∀ i, drive (r.value p) i ≤ drive v i) {task : String × BranchPtr}
    (h : Waiting s state (r.setValue p v) task) : Waiting s state r task ∨ task.1 = p := by
  obtain ⟨val, cur⟩ := task
  obtain ⟨⟨he, hval, hne⟩, henabled, i, hi⟩ := h
  simp only [setValue_value] at hne hi ⊢
  by_cases hp : val = p
  · exact Or.inr hp
  · rw [Function.update_of_ne hp] at hne hi
    refine Or.inl ⟨⟨he, hval, hne⟩, henabled, i, fun hle => hi ?_⟩
    by_cases hdst : s.portOf cur.other = p
    · rw [hdst] at hle ⊢
      rw [Function.update_self]
      exact hle.trans (hgrow i)
    · rwa [Function.update_of_ne hdst]

/-- Where a value is set, it may be pushed on, and so may all others. -/
theorem Ready.setValue {r : Run} {p : String} {v : Vector8} (hv : v ≠ [])
    {task : String × BranchPtr} (h : Ready s r task) : Ready s (r.setValue p v) task := by
  obtain ⟨he, hval, hne⟩ := h
  refine ⟨he, hval, ?_⟩
  rw [setValue_value]
  by_cases hp : task.1 = p
  · rw [hp, Function.update_self]
    exact hv
  · rw [Function.update_of_ne hp]
    exact hne

/-- The ends that are collected at a port may push its value, and no others wait for it. -/
theorem ready_connections {r : Run} {p : String} {v : Vector8} (hv : v ≠ [])
    {conn : List BranchPtr} (hconn : ∀ e, e ∈ conn ↔ s.HasEnd e ∧ s.portOf e = p) :
    (∀ task ∈ conn.map fun idx => (p, idx), Ready s (r.setValue p v) task) ∧
      ∀ task : String × BranchPtr, Waiting s state (r.setValue p v) task → task.1 = p →
        task ∈ conn.map fun idx => (p, idx) := by
  constructor
  · intro task htask
    obtain ⟨e, hmem, rfl⟩ := List.mem_map.mp htask
    obtain ⟨he, hport⟩ := (hconn e).mp hmem
    refine ⟨he, hport.symm, ?_⟩
    rw [setValue_value, Function.update_self]
    exact hv
  · rintro ⟨val, e⟩ ⟨⟨he, hval, -⟩, -⟩ hp
    obtain rfl : val = p := hp
    exact List.mem_map.mpr ⟨e, (hconn e).mpr ⟨he, hval.symm⟩, rfl⟩

/-- Pushing makes progress. -/
theorem pushStep_progress (hs : Plain s islandGetValue state) :
    Cascade.Progress (pushStep s islandGetValue) (Pushing s islandGetValue state) (Ready s)
      (Waiting s state) (roomIn s islandGetValue) := by
  rintro r ⟨val, cur⟩ h ⟨he, hval, hne⟩
  dsimp only at he hval hne
  subst hval
  by_cases henabled : state cur.ptr = .enabled
  · obtain ⟨conn, hconn, hstep⟩ := pushStep_eq hs h he hne henabled
    obtain ⟨hnew, -, -, hdrive⟩ := pushed_spec hs h he hne
    have hinv := Pushing.take hs h he hne henabled
    have hroom := roomIn_take hs h he hne
    have hgrow := fun i => (drive_baseValue h (s.portOf cur.other) i).1
    generalize pushed (baseValue islandGetValue r (s.portOf cur.other)) (r.value (s.portOf cur)) =
      new at *
    have hle : ∀ i, drive (r.value (s.portOf cur)) i ≤ drive new i := fun i => by
      rw [hdrive]
      exact le_sup_right
    by_cases hsame : new = r.value (s.portOf cur.other)
    · left
      rw [hstep, if_pos hsame, hsame, setValue_same]
      refine ⟨rfl, ?_⟩
      rintro ⟨-, -, i, hi⟩
      exact hi (hsame ▸ hle i)
    · right
      rw [if_neg hsame] at hstep
      obtain ⟨hready, hown⟩ := @ready_connections s state r _ _ hnew _ hconn
      have hwaiting : ∀ task, Waiting s state (r.setValue (s.portOf cur.other) new) task →
          Waiting s state r task ∨ task ∈ conn.map fun idx => (s.portOf cur.other, idx) := by
        intro task htask
        refine (waiting_setValue (fun i => ?_) htask).imp_right (hown task htask)
        rw [hdrive]
        exact (hgrow i).trans le_sup_left
      refine ⟨_, _, hstep, ⟨hinv, hroom hsame, hready, fun _ => Ready.setValue hnew, hwaiting⟩, ?_⟩
      intro htask
      by_cases hself : s.portOf cur = s.portOf cur.other
      · exact hown _ htask hself
      · obtain ⟨-, -, i, hi⟩ := htask
        rw [setValue_value, Function.update_of_ne hself, Function.update_self] at hi
        exact absurd (hle i) hi
  · left
    have hdisabled : r.state cur.ptr = .disabled := by
      rw [h.states]
      have hknown := hs.known cur he
      revert henabled hknown
      cases state cur.ptr <;> simp
    refine ⟨?_, fun hwait => henabled hwait.2.1⟩
    simp only [pushStep]
    rw [if_pos hdisabled]

end Progress

end Icarus.Vvp.Island
