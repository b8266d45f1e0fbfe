import Icarus.Core.Ring

/-!
# Queue implementations and their simulation by lists

A program that only appends to, pushes in front of and removes from its queues
can be written once over `Fifo`. Running it over `lists` is its specification,
running it over `rings` is the pointer program; `Simulation` collects what a
relation between two implementations has to satisfy, and `ringSimulation` is
the instance for circular lists. The relation carries the set of live nodes so
that a fresh node is known to lie outside every ring.
-/

namespace Icarus.Core

/-- The operations of a family of queues that share one heap `H`. -/
structure Fifo (α H Q : Type) where
  /-- The empty queue. -/
  null : Q
  /-- The emptiness test. -/
  isNull : Q → Bool
  /-- Put a node last. -/
  enqueue : H → Q → α → H × Q
  /-- Put a node first. -/
  push : H → Q → α → H × Q
  /-- Take the first node. -/
  dequeue : H → Q → Option (α × H × Q)

namespace Fifo

/-- Queues as plain lists, with no heap. -/
def lists (α : Type) : Fifo α Unit (List α) where
  null := []
  isNull xs := xs.isEmpty
  enqueue _ xs a := ((), xs ++ [a])
  push _ xs a := ((), a :: xs)
  dequeue
    | _, [] => none
    | _, x :: xs => some (x, (), xs)

/-- Queues as circular lists named by a tail pointer. -/
def rings (α : Type) [DecidableEq α] : Fifo α (α → α) (Option α) where
  null := none
  isNull tail := tail.isNone
  enqueue := Ring.enqueue
  push := Ring.push
  dequeue := Ring.dequeue

variable {α H Q : Type}

/-- A represented family of queues: `holds h q xs` reads the queue `q` of heap
`h` as the list `xs`. Each operation changes the reading of the edited queue as
the list operation does and of no queue that shares no node with it. -/
structure Simulation (impl : Fifo α H Q) where
  /-- The list read from a queue. -/
  holds : H → Q → List α → Prop
  /-- The empty queue reads as the empty list. -/
  null : ∀ h, holds h impl.null []
  /-- The emptiness test is exact. -/
  isNull : ∀ h q xs, holds h q xs → impl.isNull q = xs.isEmpty
  /-- A fresh node is appended; disjoint queues keep their reading. -/
  enqueue : ∀ h q xs a, holds h q xs → xs.Nodup → a ∉ xs →
    holds (impl.enqueue h q a).1 (impl.enqueue h q a).2 (xs ++ [a]) ∧
    ∀ q' ys, holds h q' ys → a ∉ ys → xs.Disjoint ys → holds (impl.enqueue h q a).1 q' ys
  /-- A fresh node is put in front; disjoint queues keep their reading. -/
  push : ∀ h q xs a, holds h q xs → xs.Nodup → a ∉ xs →
    holds (impl.push h q a).1 (impl.push h q a).2 (a :: xs) ∧
    ∀ q' ys, holds h q' ys → a ∉ ys → xs.Disjoint ys → holds (impl.push h q a).1 q' ys
  /-- The first node is removed; disjoint queues keep their reading. -/
  dequeue : ∀ h q x xs, holds h q (x :: xs) → (x :: xs).Nodup →
    ∃ h' q', impl.dequeue h q = some (x, h', q') ∧ holds h' q' xs ∧
      ∀ q' ys, holds h q' ys → (x :: xs).Disjoint ys → holds h' q' ys
  /-- Nothing is removed from an empty queue. -/
  dequeue_nil : ∀ h q, holds h q [] → impl.dequeue h q = none

section Rings

variable [DecidableEq α]

omit [DecidableEq α] in
private theorem tail_ne {next : α → α} {tail : Option α} {xs ys : List α} {b : α}
    (h : Ring.Rep next tail xs) (hd : xs.Disjoint ys) (hb : b ∈ ys) : tail ≠ some b := by
  rintro rfl
  exact hd h.tail_mem hb

/-- Circular lists with a tail pointer simulate lists. -/
def ringSimulation (α : Type) [DecidableEq α] : (rings α).Simulation where
  holds := Ring.Rep
  null _ := rfl
  isNull h q xs hq := by
    have he := hq.eq_none_iff
    cases q <;> cases xs <;> simp_all [rings]
  enqueue h q xs a hq hn ha := by
    refine ⟨hq.enqueue hn ha, ?_⟩
    intro q' ys hy hay hd
    refine hy.congr ?_
    intro b hb
    exact Ring.enqueue_next_of_ne (fun he => hay (he ▸ hb)) (tail_ne hq hd hb)
  push h q xs a hq hn ha := by
    refine ⟨hq.push hn ha, ?_⟩
    intro q' ys hy hay hd
    refine hy.congr ?_
    intro b hb
    exact Ring.push_next_of_ne (fun he => hay (he ▸ hb)) (tail_ne hq hd hb)
  dequeue h q x xs hq hn := by
    obtain ⟨h', q', hdq, hrep, hframe⟩ := hq.dequeue hn
    refine ⟨h', q', hdq, hrep, ?_⟩
    intro p ys hy hd
    exact hy.congr fun b hb => hframe b (tail_ne hq hd hb)
  dequeue_nil h q hq := by
    rw [hq.eq_none_iff.mpr rfl]
    rfl

end Rings

end Fifo

end Icarus.Core
