import Icarus.Core.Runs
import Mathlib.Algebra.Order.BigOperators.Group.Finset
import Mathlib.Data.Fintype.BigOperators

/-!
# Networks of cells that are run later

A cell takes messages on its ports and asks to be run when its output may change. Sources and cells
drive ports of cells; when the cells that have asked are run, in whatever order, the values settle
to what the tables of the cells say. Without cycles there is one such valuation, and the cells are
run only so often before it is reached.
-/

namespace Icarus.Core.Propagation

/-- A cell with ports. What fails an assertion is nothing. -/
structure Cell (κ V M : Type) where
  /-- What the cell keeps. -/
  State : Type
  /-- At first. -/
  init : State
  /-- A message on a port, and whether the cell asks to be run. -/
  recv : κ → M → State → Option (State × Bool)
  /-- The cell is run, and sends a value. -/
  run : State → Option (State × V)

/-- What messages do to values. -/
structure Messages (V M : Type) where
  /-- A message changes a value. -/
  act : M → V → V
  /-- The message that is sent for a value. -/
  whole : V → M
  /-- It replaces what was there. -/
  act_whole : ∀ v w, act (whole v) w = v

variable {ι σ κ V M : Type} [DecidableEq ι] [DecidableEq σ] [DecidableEq κ]

/-- A cell asks to be run if its output may have changed. -/
structure Cell.Lawful (msgs : Messages V M) (c : Cell κ V M) (start : κ → V) where
  /-- The output for values on the ports. -/
  table : (κ → V) → Option V
  /-- What is kept for values on the ports. -/
  Holds : (κ → V) → c.State → Prop
  /-- The cell knows that it has been run. -/
  Ran : c.State → Prop
  /-- At first the values are those at the start. -/
  holds_init : Holds start c.init
  /-- A message changes the value on its port. -/
  holds_recv : ∀ {ins s k m s' r}, Holds ins s → c.recv k m s = some (s', r) →
    Holds (Function.update ins k (msgs.act m (ins k))) s'
  /-- A run sends the output. -/
  holds_run : ∀ {ins s s' v}, Holds ins s → c.run s = some (s', v) →
    Holds ins s' ∧ Ran s' ∧ table ins = some v
  /-- A cell that has been run keeps it in mind. -/
  ran_recv : ∀ {ins s k m s' r}, Holds ins s → Ran s → c.recv k m s = some (s', r) → Ran s'
  /-- A message after which a cell that has been run does not ask leaves the output. -/
  table_recv : ∀ {ins s k m s'}, Holds ins s → Ran s → c.recv k m s = some (s', false) →
    table (Function.update ins k (msgs.act m (ins k))) = table ins
  /-- A message after which a new cell does not ask changes nothing. -/
  init_recv : ∀ {k m s'}, c.recv k m c.init = some (s', false) → s' = c.init

/-- The ports that sources and cells drive. -/
structure Wiring (ι σ κ : Type) [DecidableEq ι] [DecidableEq σ] [DecidableEq κ] where
  /-- The ports of cells that a source or a cell drives. -/
  fanout : σ ⊕ ι → List (ι × κ)
  /-- What drives a port. -/
  driver : ι → κ → Option (σ ⊕ ι)
  /-- The two agree. -/
  mem_fanout : ∀ {a j k}, (j, k) ∈ fanout a ↔ driver j k = some a
  /-- No port is driven twice. -/
  nodup : ∀ a, (fanout a).Nodup

/-- Sources and cells that are wired. -/
structure Net (ι σ κ V M : Type) [DecidableEq ι] [DecidableEq σ] [DecidableEq κ]
    extends Wiring ι σ κ where
  /-- What messages do. -/
  msgs : Messages V M
  /-- The cells. -/
  cell : ι → Cell κ V M
  /-- The values at first. -/
  first : σ ⊕ ι → V
  /-- What a port holds at first, without a driver always. -/
  start : ι → κ → V
  /-- A port that is driven holds the value of its driver at first. -/
  start_eq : ∀ {j k a}, driver j k = some a → start j k = first a
  /-- The cells are lawful. -/
  lawful : ∀ j, (cell j).Lawful msgs (start j)

/-- What there is at a time. -/
structure Net.State (N : Net ι σ κ V M) where
  /-- What the cells keep. -/
  cells : ∀ j, (N.cell j).State
  /-- The cells that have asked to be run. -/
  pending : ι → Bool
  /-- The values sent last. -/
  value : σ ⊕ ι → V
  /-- The cells that have been run. -/
  ran : ι → Bool

/-- What happens next. -/
inductive Act (ι σ M : Type)
  /-- A source sends a message. -/
  | drive (a : σ) (m : M)
  /-- A cell that has asked is run. -/
  | run (j : ι)

namespace Net

variable {N : Net ι σ κ V M}

/-- At first. -/
def initial (N : Net ι σ κ V M) : N.State :=
  ⟨fun j => (N.cell j).init, fun _ => false, N.first, fun _ => false⟩

/-- A message on one port. -/
def recv (m : M) (s : N.State) (p : ι × κ) : Option N.State :=
  ((N.cell p.1).recv p.2 m (s.cells p.1)).map fun r =>
    { s with
      cells := Function.update s.cells p.1 r.1
      pending := Function.update s.pending p.1 (s.pending p.1 || r.2) }

/-- A message on all the ports that are driven. -/
def send (s : N.State) (a : σ ⊕ ι) (m : M) : Option N.State :=
  (N.fanout a).foldlM (recv m)
    { s with value := Function.update s.value a (N.msgs.act m (s.value a)) }

/-- A step; nothing where a cell has not asked to be run, or an assertion fails. -/
def step (s : N.State) : Act ι σ M → Option N.State
  | .drive a m => send s (.inl a) m
  | .run j =>
    if s.pending j then
      ((N.cell j).run (s.cells j)).bind fun r =>
        send
          { s with
            cells := Function.update s.cells j r.1
            pending := Function.update s.pending j false
            ran := Function.update s.ran j true }
          (.inr j) (N.msgs.whole r.2)
    else none

/-! ## Up to date -/

/-- The values on the ports of a cell. -/
def ports (N : Net ι σ κ V M) (value : σ ⊕ ι → V) (j : ι) (k : κ) : V :=
  match N.driver j k with
  | some a => value a
  | none => N.start j k

/-- A cell keeps the values on its ports. One that has been run and does not ask to be has sent what
its table says; one that has not been run has sent nothing, and if it does not ask, nothing has
changed for it. -/
structure Fed (N : Net ι σ κ V M) (j : ι) (ins : κ → V) (c : (N.cell j).State)
    (pending ran : Bool) (v : V) : Prop where
  /-- The values are kept. -/
  holds : (N.lawful j).Holds ins c
  /-- A cell that has been run. -/
  knows : ran = true → (N.lawful j).Ran c
  /-- It has sent what its table says. -/
  sent : ran = true → pending = false → (N.lawful j).table ins = some v
  /-- A cell that has not been run has sent nothing. -/
  silent : ran = false → v = N.first (.inr j)
  /-- Nothing has changed for it. -/
  new : ran = false → pending = false → c = (N.cell j).init

namespace Fed

variable {j : ι} {ins : κ → V} {c c' : (N.cell j).State} {pending ran : Bool} {v v' : V}

theorem recv {k : κ} {m : M} {asks : Bool} (h : Fed N j ins c pending ran v)
    (hrecv : (N.cell j).recv k m c = some (c', asks)) :
    Fed N j (Function.update ins k (N.msgs.act m (ins k))) c' (pending || asks) ran v where
  holds := (N.lawful j).holds_recv h.holds hrecv
  knows hran := (N.lawful j).ran_recv h.holds (h.knows hran) hrecv
  sent hran hasks := by
    obtain ⟨hidle, rfl⟩ := Bool.or_eq_false_iff.mp hasks
    rw [(N.lawful j).table_recv h.holds (h.knows hran) hrecv]
    exact h.sent hran hidle
  silent := h.silent
  new hran hasks := by
    obtain ⟨hidle, rfl⟩ := Bool.or_eq_false_iff.mp hasks
    rw [h.new hran hidle] at hrecv
    exact (N.lawful j).init_recv hrecv

theorem run (h : Fed N j ins c pending ran v) (hrun : (N.cell j).run c = some (c', v')) :
    Fed N j ins c' false true v' := by
  obtain ⟨hholds, hknows, htable⟩ := (N.lawful j).holds_run h.holds hrun
  exact ⟨hholds, fun _ => hknows, fun _ _ => htable, nofun, nofun⟩

end Fed

/-- All the cells are up to date with the values on their ports. -/
def AllFed (s : N.State) (ins : ι → κ → V) : Prop :=
  ∀ j, Fed N j (ins j) (s.cells j) (s.pending j) (s.ran j) (s.value (.inr j))

variable {s s' : N.State} {ins : ι → κ → V} {m : M}

theorem initial_fed (N : Net ι σ κ V M) : AllFed N.initial (N.ports N.first) := by
  have hports : N.ports N.first = N.start := by
    funext j k
    rw [ports]
    split
    · next a ha => exact (N.start_eq ha).symm
    · rfl
  rw [hports]
  exact fun j => ⟨(N.lawful j).holds_init, nofun, nofun, fun _ => rfl, fun _ _ => rfl⟩

/-- A message on one port. -/
theorem AllFed.recv {p : ι × κ} (h : AllFed s ins) (hrecv : Net.recv m s p = some s') :
    AllFed s' (Function.update ins p.1
      (Function.update (ins p.1) p.2 (N.msgs.act m (ins p.1 p.2)))) ∧
      s'.value = s.value ∧ s'.ran = s.ran := by
  obtain ⟨r, hcell, rfl⟩ := Option.map_eq_some_iff.mp hrecv
  refine ⟨fun i => ?_, rfl, rfl⟩
  rcases eq_or_ne i p.1 with rfl | hi
  · simp only [Function.update_self]
    exact (h p.1).recv hcell
  · simp only [Function.update_of_ne hi]
    exact h i

/-- A message on each port of a list. -/
theorem AllFed.recvAll {l : List (ι × κ)} (h : AllFed s ins) (hnodup : l.Nodup)
    (hrecv : l.foldlM (Net.recv m) s = some s') :
    AllFed s' (fun j k => if (j, k) ∈ l then N.msgs.act m (ins j k) else ins j k) ∧
      s'.value = s.value ∧ s'.ran = s.ran := by
  induction l generalizing s ins with
  | nil =>
    cases hrecv
    exact ⟨by simpa using h, rfl, rfl⟩
  | cons p l ih =>
    rw [List.foldlM_cons] at hrecv
    obtain ⟨s₁, hone, hrest⟩ := Option.bind_eq_some_iff.mp hrecv
    obtain ⟨hfed, hvalue, hran⟩ := h.recv hone
    obtain ⟨hnot, hnodup⟩ := List.nodup_cons.mp hnodup
    obtain ⟨hfed', hvalue', hran'⟩ := ih hfed hnodup hrest
    have hins : (fun j k => if (j, k) ∈ l then N.msgs.act m (Function.update ins p.1
        (Function.update (ins p.1) p.2 (N.msgs.act m (ins p.1 p.2))) j k)
        else Function.update ins p.1
          (Function.update (ins p.1) p.2 (N.msgs.act m (ins p.1 p.2))) j k) =
        fun j k => if (j, k) ∈ p :: l then N.msgs.act m (ins j k) else ins j k := by
      funext j k
      by_cases hp : (j, k) = p
      · subst hp
        rw [if_neg hnot, if_pos List.mem_cons_self, Function.update_self, Function.update_self]
      · have hsame : Function.update ins p.1
            (Function.update (ins p.1) p.2 (N.msgs.act m (ins p.1 p.2))) j k = ins j k := by
          rcases eq_or_ne j p.1 with rfl | hj
          · rw [Function.update_self, Function.update_of_ne fun hk => hp (Prod.ext rfl hk)]
          · rw [Function.update_of_ne hj]
        rw [hsame]
        exact if_congr (by rw [List.mem_cons, or_iff_right hp]) rfl rfl
    rw [hins] at hfed'
    exact ⟨hfed', hvalue'.trans hvalue, hran'.trans hran⟩

/-- A message on the ports that are driven, while the cells are up to date with the old value. -/
theorem AllFed.send {a : σ ⊕ ι} (hsend : Net.send s a m = some s')
    (h : AllFed { s with value := Function.update s.value a (N.msgs.act m (s.value a)) }
      (N.ports s.value)) :
    AllFed s' (N.ports s'.value) ∧ s'.ran = s.ran ∧
      s'.value = Function.update s.value a (N.msgs.act m (s.value a)) := by
  obtain ⟨hfed, hvalue, hran⟩ := h.recvAll (N.nodup a) hsend
  have hports : (fun j k => if (j, k) ∈ N.fanout a then N.msgs.act m (N.ports s.value j k)
      else N.ports s.value j k) = N.ports s'.value := by
    funext j k
    rw [hvalue]
    by_cases hdriver : N.driver j k = some a
    · rw [if_pos (N.mem_fanout.mpr hdriver), ports, ports, hdriver]
      exact (Function.update_self a (N.msgs.act m (s.value a)) s.value).symm
    · rw [if_neg (mt N.mem_fanout.mp hdriver), ports, ports]
      split
      · next b hb =>
        have hne : b ≠ a := by
          rintro rfl
          exact hdriver hb
        exact (Function.update_of_ne hne _ _).symm
      · rfl
  rw [hports] at hfed
  exact ⟨hfed, hran, hvalue⟩

/-! ## Steps and runs -/

theorem AllFed.step {act : Act ι σ M} (h : AllFed s (N.ports s.value))
    (hstep : Net.step s act = some s') : AllFed s' (N.ports s'.value) := by
  cases act with
  | drive a m =>
    change Net.send s (.inl a) m = some s' at hstep
    exact (AllFed.send hstep fun j => h j).1
  | run j =>
    rw [Net.step] at hstep
    split_ifs at hstep with hpending
    obtain ⟨⟨c, v⟩, hrun, hsend⟩ := Option.bind_eq_some_iff.mp hstep
    refine (AllFed.send hsend fun i => ?_).1
    rcases eq_or_ne i j with rfl | hi
    · simp only [Function.update_self, N.msgs.act_whole]
      exact (h i).run hrun
    · simp only [Function.update_of_ne hi,
        Function.update_of_ne (fun heq => hi (Sum.inr.inj heq) : Sum.inr i ≠ Sum.inr j)]
      exact h i

/-- In every state reached the cells are up to date, but for those that ask to be run. -/
theorem allFed_of_run {acts : List (Act ι σ M)} (hrun : Runs.run Net.step N.initial acts = some s) :
    AllFed s (N.ports s.value) := by
  have hsteps : ∀ (s : N.State) (act : Act ι σ M) (s' : N.State), AllFed s (N.ports s.value) →
      Net.step s act = some s' → AllFed s' (N.ports s'.value) := fun _ _ _ h hstep => h.step hstep
  exact Runs.invariant hsteps (initial_fed N) hrun

/-! ## Without cycles -/

variable {rank : ι → Nat}

/-- The values of the sources, and the cells that have been run, determine all values once no cell
asks to be run. -/
theorem AllFed.unique {t : N.State}
    (hrank : ∀ {j k i}, N.driver j k = some (.inr i) → rank i < rank j)
    (hs : AllFed s (N.ports s.value)) (ht : AllFed t (N.ports t.value)) (hquiet : ∀ j, s.pending j = false)
    (hquiet' : ∀ j, t.pending j = false) (hsources : ∀ a, s.value (.inl a) = t.value (.inl a))
    (hran : s.ran = t.ran) : s.value = t.value := by
  have hcell : ∀ n j, rank j = n → s.value (.inr j) = t.value (.inr j) := by
    intro n
    induction n using Nat.strong_induction_on with
    | _ n ih =>
      rintro j rfl
      have hports : N.ports s.value j = N.ports t.value j := by
        funext k
        rw [ports, ports]
        split
        · next a ha =>
          cases a with
          | inl a => exact hsources a
          | inr i => exact ih _ (hrank ha) i rfl
        · rfl
      cases hj : s.ran j with
      | true =>
        have htable := (hs j).sent hj (hquiet j)
        rw [hports, (ht j).sent (hran ▸ hj) (hquiet' j)] at htable
        exact (Option.some.inj htable).symm
      | false => rw [(hs j).silent hj, (ht j).silent (hran ▸ hj)]
  funext a
  cases a with
  | inl a => exact hsources a
  | inr j => exact hcell _ j rfl

section Weight

variable [Fintype ι] {width depth : Nat}

/-- A weight for each cell that asks to be run, greater for one that comes earlier. -/
def weight (rank : ι → Nat) (width depth : Nat) (s : N.State) : Nat :=
  ∑ j, if s.pending j then (width + 1) ^ (depth - rank j) else 0

theorem weight_recv (rank : ι → Nat) (width depth : Nat) {p : ι × κ}
    (hrecv : Net.recv m s p = some s') :
    weight rank width depth s' ≤ weight rank width depth s + (width + 1) ^ (depth - rank p.1) := by
  obtain ⟨r, -, rfl⟩ := Option.map_eq_some_iff.mp hrecv
  calc weight rank width depth _
      ≤ ∑ j, ((if s.pending j then (width + 1) ^ (depth - rank j) else 0) +
          if j = p.1 then (width + 1) ^ (depth - rank j) else 0) := by
        refine Finset.sum_le_sum fun j _ => ?_
        rcases eq_or_ne j p.1 with rfl | hj
        · rw [if_pos rfl]
          split_ifs <;> omega
        · simp only [Function.update_of_ne hj, if_neg hj, Nat.add_zero, Nat.le_refl]
    _ = _ := by rw [Finset.sum_add_distrib, Finset.sum_ite_eq', if_pos (Finset.mem_univ _)]; rfl

theorem weight_recvAll {l : List (ι × κ)} {bound : Nat}
    (hbound : ∀ p ∈ l, (width + 1) ^ (depth - rank p.1) ≤ bound)
    (hrecv : l.foldlM (Net.recv m) s = some s') :
    weight rank width depth s' ≤ weight rank width depth s + l.length * bound := by
  induction l generalizing s with
  | nil =>
    cases hrecv
    omega
  | cons p l ih =>
    rw [List.foldlM_cons] at hrecv
    obtain ⟨s₁, hone, hrest⟩ := Option.bind_eq_some_iff.mp hrecv
    have hfirst := weight_recv rank width depth hone
    have hlast := ih (fun p hp => hbound p (List.mem_cons_of_mem _ hp)) hrest
    have hp := hbound p List.mem_cons_self
    rw [List.length_cons, Nat.succ_mul]
    omega

variable (hrank : ∀ {j k i}, N.driver j k = some (.inr i) → rank i < rank j)
include hrank

/-- Running a cell makes the weight less. -/
theorem weight_run {j : ι} (hwidth : (N.fanout (.inr j)).length ≤ width)
    (hdepth : rank j < depth) (hstep : Net.step s (.run j) = some s') :
    weight rank width depth s' < weight rank width depth s := by
  rw [Net.step] at hstep
  split_ifs at hstep with hpending
  obtain ⟨⟨c, v⟩, -, hsend⟩ := Option.bind_eq_some_iff.mp hstep
  have hlater : ∀ p ∈ N.fanout (.inr j),
      (width + 1) ^ (depth - rank p.1) ≤ (width + 1) ^ (depth - rank j - 1) := by
    intro p hp
    have hlt := hrank (N.mem_fanout.mp hp)
    exact Nat.pow_le_pow_right (Nat.succ_pos _) (by omega)
  have hafter := weight_recvAll hlater hsend
  have hless : weight rank width depth s = (width + 1) ^ (depth - rank j) +
      ∑ i, if Function.update s.pending j false i then (width + 1) ^ (depth - rank i) else 0 := by
    rw [weight, ← Finset.add_sum_erase _ _ (Finset.mem_univ j), if_pos hpending,
      ← Finset.add_sum_erase Finset.univ (fun i => if Function.update s.pending j false i then
        (width + 1) ^ (depth - rank i) else 0) (Finset.mem_univ j), Function.update_self,
      if_neg Bool.false_ne_true, Nat.zero_add]
    refine congrArg _ (Finset.sum_congr rfl fun i hi => ?_)
    rw [Function.update_of_ne (Finset.ne_of_mem_erase hi)]
  have hpow : (width + 1) ^ (depth - rank j) =
      (width + 1) ^ (depth - rank j - 1) * width + (width + 1) ^ (depth - rank j - 1) := by
    rw [← Nat.mul_succ, ← Nat.pow_succ]
    congr 1
    omega
  have hpos : 0 < (width + 1) ^ (depth - rank j - 1) := Nat.pow_pos (Nat.succ_pos _)
  have hmul := Nat.mul_le_mul_right ((width + 1) ^ (depth - rank j - 1)) hwidth
  rw [Nat.mul_comm width] at hmul
  rw [hless, hpow]
  refine lt_of_le_of_lt hafter ?_
  rw [weight]
  dsimp only
  omega

/-- Cells are run only so often if no source sends anything. -/
theorem length_le_weight (hwidth : ∀ j, (N.fanout (.inr j)).length ≤ width)
    (hdepth : ∀ j, rank j < depth) {js : List ι}
    (hrun : Runs.run Net.step s (js.map .run) = some s') :
    js.length ≤ weight rank width depth s := by
  induction js generalizing s with
  | nil => exact Nat.zero_le _
  | cons j js ih =>
    rw [List.map_cons, Runs.run_cons] at hrun
    obtain ⟨s₁, hone, hrest⟩ := Option.bind_eq_some_iff.mp hrun
    have hlt := weight_run hrank (hwidth j) (hdepth j) hone
    have hle := ih hrest
    rw [List.length_cons]
    omega

end Weight

end Net

end Icarus.Core.Propagation
