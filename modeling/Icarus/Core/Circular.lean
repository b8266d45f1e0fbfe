import Mathlib.Data.List.Range

/-!
# Circular buffers

The cells of an array from a head on, where the cell after the last one is the
first. A buffer that is written behind its contents and read at its head is a
queue; one whose head stays is a stack.
-/

namespace Icarus.Core.Circular

variable {α : Type*} {cells : Nat → α} {size head count i j : Nat}

/-- The cell that is so many cells after the head. -/
def index (size head i : Nat) : Nat := if size ≤ head + i then head + i - size else head + i

/-- The head after the first cell is given up. -/
def advance (size head : Nat) : Nat := if head + 1 = size then 0 else head + 1

/-- What a circular buffer holds, from its head on. -/
def contents (cells : Nat → α) (size head count : Nat) : List α :=
  (List.range count).map fun i => cells (index size head i)

@[simp] theorem length_contents : (contents cells size head count).length = count := by
  rw [contents, List.length_map, List.length_range]

@[simp] theorem contents_zero : contents cells size head 0 = [] := rfl

theorem index_lt (hhead : head < size) (hi : i < size) : index size head i < size := by
  rw [index]
  split_ifs <;> omega

theorem index_zero_left (hi : i < size) : index size 0 i = i := by
  rw [index]
  split_ifs <;> omega

theorem index_zero_right (hhead : head < size) : index size head 0 = head := by
  rw [index]
  split_ifs <;> omega

theorem index_ne (head : Nat) (hij : i < j) (hj : j < size) :
    index size head i ≠ index size head j := by
  rw [index, index]
  split_ifs <;> omega

theorem advance_lt (hhead : head < size) : advance size head < size := by
  rw [advance]
  split_ifs <;> omega

theorem index_advance (hi : i + 1 < size) :
    index size (advance size head) i = index size head (i + 1) := by
  rw [index, index, advance]
  split_ifs <;> omega

/-- The head after so many cells were given up. -/
theorem advance_mod (hsize : 0 < size) (n : Nat) : advance size (n % size) = (n + 1) % size := by
  have hlt := Nat.mod_lt n hsize
  rw [advance, ← Nat.mod_add_mod]
  split_ifs with hlast
  · rw [hlast, Nat.mod_self]
  · exact (Nat.mod_eq_of_lt (by omega)).symm

/-- The buffer with one cell more. -/
theorem contents_succ : contents cells size head (count + 1) =
    contents cells size head count ++ [cells (index size head count)] := by
  rw [contents, List.range_succ, List.map_append, List.map_singleton, contents]

/-- A cell written behind the contents is the last of them. -/
theorem contents_update (x : α) (hcount : count < size) :
    contents (Function.update cells (index size head count) x) size head (count + 1) =
      contents cells size head count ++ [x] := by
  rw [contents_succ, Function.update_self]
  congr 1
  refine List.map_congr_left fun i hi => ?_
  exact Function.update_of_ne (index_ne head (List.mem_range.mp hi) hcount) _ _

/-- The cell at the head is the first of the contents. -/
theorem contents_cons (hhead : head < size) (hcount : count < size) :
    contents cells size head (count + 1) =
      cells head :: contents cells size (advance size head) count := by
  rw [contents, List.range_succ_eq_map, List.map_cons, index_zero_right hhead, List.map_map]
  congr 1
  refine List.map_congr_left fun i hi => ?_
  have hi' := List.mem_range.mp hi
  exact congrArg cells (index_advance (show i + 1 < size by omega)).symm

end Icarus.Core.Circular
