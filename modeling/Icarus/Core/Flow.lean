import Mathlib.Order.BoundedOrder.Lattice

/-!
# Values that flow through a graph

Every node of a graph has an input. The value of a node is nothing until it is visited, and from
then on it is its input joined with values that have flowed in. When the values no longer change,
the value of a node is the join of the inputs of the nodes reached from it, whatever flowed first.
-/

namespace Icarus.Core

variable {κ α : Type*} [SemilatticeSup α]

/-- The values are between the inputs of the visited nodes and what can flow to them. -/
structure Flow (R : κ → κ → Prop) (input : κ → α) (visited : κ → Prop) (value : κ → α) : Prop where
  /-- A visited node has taken in its input. -/
  lower : ∀ p, visited p → input p ≤ value p
  /-- Nothing flows in but inputs of nodes that are reached. -/
  upper : ∀ p u, (∀ q, Relation.ReflTransGen R p q → input q ≤ u) → value p ≤ u

namespace Flow

variable {R : κ → κ → Prop} {input value : κ → α} {visited visited' : κ → Prop}

/-- Before any node is visited. -/
theorem start [OrderBot α] (h : ∀ p, ¬ visited p) : Flow R input visited fun _ => ⊥ :=
  ⟨fun p hp => absurd hp (h p), fun _ _ _ => bot_le⟩

variable [DecidableEq κ]

/-- The value of a node is replaced by one that has taken in its input. -/
private theorem set (h : Flow R input visited value) {q : κ} {v : α}
    (hvisited : ∀ p, p ≠ q → visited' p → visited p) (hlower : input q ≤ v)
    (hupper : ∀ u, (∀ r, Relation.ReflTransGen R q r → input r ≤ u) → v ≤ u) :
    Flow R input visited' (Function.update value q v) := by
  constructor
  · intro r hr
    by_cases hrq : r = q
    · subst hrq
      rw [Function.update_self]
      exact hlower
    · rw [Function.update_of_ne hrq]
      exact h.lower r (hvisited r hrq hr)
  · intro r u hu
    by_cases hrq : r = q
    · subst hrq
      rw [Function.update_self]
      exact hupper u hu
    · rw [Function.update_of_ne hrq]
      exact h.upper r u hu

/-- A node is visited. -/
theorem visit (h : Flow R input visited value) (q : κ)
    (hvisited : ∀ p, p ≠ q → visited' p → visited p) :
    Flow R input visited' (Function.update value q (input q)) :=
  h.set hvisited le_rfl fun _ hu => hu q .refl

/-- A node takes in its input and the value of a node next to it. -/
theorem join (h : Flow R input visited value) {p q : κ} {v : α}
    (hvisited : ∀ p, p ≠ q → visited' p → visited p) (hlower : input q ≤ v)
    (hupper : v ≤ value q ⊔ input q ⊔ value p) (hedge : R q p) :
    Flow R input visited' (Function.update value q v) := by
  refine h.set hvisited hlower fun u hu => hupper.trans (sup_le (sup_le ?_ ?_) ?_)
  · exact h.upper q u hu
  · exact hu q .refl
  · exact h.upper p u fun r hr => hu r (hr.head hedge)

end Flow

/-- A join of a list is below what each member is below. -/
theorem foldl_sup_le_iff {l : List α} {a u : α} :
    l.foldl (· ⊔ ·) a ≤ u ↔ a ≤ u ∧ ∀ x ∈ l, x ≤ u := by
  induction l generalizing a with
  | nil => simp
  | cons x l ih => rw [List.foldl_cons, ih, sup_le_iff, List.forall_mem_cons, and_assoc]

/-- Where the nodes are visited and nothing flows any more, the value is the join of the inputs of
the nodes that are reached. -/
theorem Flow.eq_join [OrderBot α] {R : κ → κ → Prop} {input value : κ → α} {visited : κ → Prop}
    (h : Flow R input visited value) {p : κ}
    (hvisited : ∀ q, Relation.ReflTransGen R p q → visited q)
    (hsettled : ∀ q r, Relation.ReflTransGen R p q → R q r → value r ≤ value q) {nodes : List κ}
    (hnodes : ∀ q, q ∈ nodes ↔ Relation.ReflTransGen R p q) :
    value p = (nodes.map input).foldl (· ⊔ ·) ⊥ := by
  have hdown : ∀ q, Relation.ReflTransGen R p q → value q ≤ value p := by
    intro q hq
    induction hq with
    | refl => exact le_rfl
    | tail hq hedge ih => exact (hsettled _ _ hq hedge).trans ih
  apply le_antisymm
  · have hall := (foldl_sup_le_iff.mp (le_refl ((nodes.map input).foldl (· ⊔ ·) ⊥))).2
    exact h.upper p _ fun q hq => hall _ (List.mem_map_of_mem ((hnodes q).mpr hq))
  · rw [foldl_sup_le_iff]
    refine ⟨bot_le, fun x hx => ?_⟩
    obtain ⟨q, hq, rfl⟩ := List.mem_map.mp hx
    have hreach := (hnodes q).mp hq
    exact (h.lower q (hvisited q hreach)).trans (hdown q hreach)

end Icarus.Core
