import Mathlib.Data.List.Forall2
import Mathlib.Algebra.Order.Ring.Nat

/-!
# Lists of relative times

Each cell of a delta list stores its distance from the cell before it, so that
the whole list is moved in time by touching its first cell only. `absolute`
reads the list with absolute times; splitting a cell's distance leaves every
other absolute time where it was.
-/

namespace Icarus.Core.DeltaList

variable {β γ : Type*}

/-- A cell: its distance from the previous cell and what happens there. -/
structure Cell (β : Type*) where
  /-- Distance from the previous cell. -/
  delay : Nat
  /-- What the cell holds. -/
  payload : β

/-- The cells with their absolute times, the list starting at time `t`. -/
def absolute (t : Nat) : List (Cell β) → List (Nat × β)
  | [] => []
  | c :: cs => (t + c.delay, c.payload) :: absolute (t + c.delay) cs

/-- The distance covered by a list of cells. -/
def span (cs : List (Cell β)) : Nat := (cs.map Cell.delay).sum

/-- No cell behind the first one shares the time of its predecessor. -/
def Spaced (cs : List (Cell β)) : Prop := ∀ c ∈ cs.tail, 0 < c.delay

@[simp] theorem absolute_nil (t : Nat) : absolute t ([] : List (Cell β)) = [] := rfl

@[simp] theorem absolute_cons (t : Nat) (c : Cell β) (cs : List (Cell β)) :
    absolute t (c :: cs) = (t + c.delay, c.payload) :: absolute (t + c.delay) cs := rfl

@[simp] theorem span_nil : span ([] : List (Cell β)) = 0 := rfl

@[simp] theorem span_cons (c : Cell β) (cs : List (Cell β)) :
    span (c :: cs) = c.delay + span cs := by simp [span]

/-- Times behind a prefix start at the prefix's span. -/
theorem absolute_append (t : Nat) (xs ys : List (Cell β)) :
    absolute t (xs ++ ys) = absolute t xs ++ absolute (t + span xs) ys := by
  induction xs generalizing t with
  | nil => simp
  | cons x xs ih => simp [ih, Nat.add_assoc]

/-- Splitting a cell's distance inserts one time and moves no other. -/
theorem absolute_split (t d : Nat) (p : β) (c : Cell β) (cs : List (Cell β))
    (h : d ≤ c.delay) :
    absolute t (⟨d, p⟩ :: { c with delay := c.delay - d } :: cs) =
      (t + d, p) :: absolute t (c :: cs) := by
  have hd : t + d + (c.delay - d) = t + c.delay := by omega
  simp [hd]

end Icarus.Core.DeltaList
