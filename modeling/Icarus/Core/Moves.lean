import Mathlib.Data.List.Basic

/-!
# Moves within an array

Loops that move the cells of an array onto other cells of the same array, one
cell at a time. The order of the cells is what makes them safe: towards the high
end from the top down, towards the low end from the bottom up.
-/

namespace Icarus.Core.Moves

variable {α : Type}

/-- `for (idx = 0; idx < n; idx += 1) a[last-idx] = a[last-idx-k]`, with `last` the last cell. -/
def moveUp (k : Nat) (a : List α) : Nat → List α
  | 0 => a
  | n + 1 =>
    let b := moveUp k a n
    let sel := a.length - n - 1
    match b[sel - k]? with
    | some x => b.set sel x
    | none => b

/-- `for (idx = 0; idx < n; idx += 1) a[idx] = a[idx+k]`. -/
def moveDown (k : Nat) (a : List α) : Nat → List α
  | 0 => a
  | n + 1 =>
    let b := moveDown k a n
    match b[n + k]? with
    | some x => b.set n x
    | none => b

/-- `for (idx = lo; idx < hi; idx += 1) a[idx] = x`. -/
def fill (x : α) (a : List α) (lo hi : Nat) : List α :=
  (List.range' lo (hi - lo)).foldl (fun a idx => a.set idx x) a

@[simp] theorem length_moveUp (k : Nat) (a : List α) (n : Nat) :
    (moveUp k a n).length = a.length := by
  induction n with
  | zero => rfl
  | succ n ih =>
    simp only [moveUp]
    split <;> simp [ih]

@[simp] theorem length_moveDown (k : Nat) (a : List α) (n : Nat) :
    (moveDown k a n).length = a.length := by
  induction n with
  | zero => rfl
  | succ n ih =>
    simp only [moveDown]
    split <;> simp [ih]

/-- The cells moved so far hold what was `k` cells below, the others are unchanged. -/
theorem getElem?_moveUp {k : Nat} {a : List α} {n : Nat} (hn : n + k ≤ a.length) (i : Nat) :
    (moveUp k a n)[i]? = if a.length - n ≤ i ∧ i < a.length then a[i - k]? else a[i]? := by
  induction n generalizing i with
  | zero =>
    have hi : ¬ (a.length - 0 ≤ i ∧ i < a.length) := by omega
    simp only [moveUp, hi, if_false]
  | succ n ih =>
    have hsel : a.length - n - 1 - k < a.length := by omega
    have hread : (moveUp k a n)[a.length - n - 1 - k]? = some a[a.length - n - 1 - k] := by
      rw [ih (by omega), List.getElem?_eq_getElem hsel]
      by_cases hk : k = 0
      · subst hk
        rw [if_neg (by omega)]
      · rw [if_neg (by omega)]
    simp only [moveUp, hread]
    by_cases hi : a.length - n - 1 = i
    · subst hi
      rw [List.getElem?_set_self (by rw [length_moveUp]; omega), if_pos (by omega),
        List.getElem?_eq_getElem hsel]
    · rw [List.getElem?_set_ne hi, ih (by omega)]
      by_cases hmem : a.length - n ≤ i ∧ i < a.length
      · rw [if_pos hmem, if_pos (by omega)]
      · rw [if_neg hmem, if_neg (by omega)]

/-- The cells moved so far hold what was `k` cells above, the others are unchanged. -/
theorem getElem?_moveDown {k : Nat} {a : List α} {n : Nat} (hn : n + k ≤ a.length) (i : Nat) :
    (moveDown k a n)[i]? = if i < n then a[i + k]? else a[i]? := by
  induction n generalizing i with
  | zero => simp [moveDown]
  | succ n ih =>
    have hread : (moveDown k a n)[n + k]? = some a[n + k] := by
      rw [ih (by omega), if_neg (by omega), List.getElem?_eq_getElem (by omega)]
    simp only [moveDown, hread]
    by_cases hi : n = i
    · subst hi
      rw [List.getElem?_set_self (by rw [length_moveDown]; omega), if_pos (by omega),
        List.getElem?_eq_getElem (by omega)]
    · rw [List.getElem?_set_ne hi, ih (by omega)]
      by_cases hlt : i < n
      · rw [if_pos hlt, if_pos (by omega)]
      · rw [if_neg hlt, if_neg (by omega)]

private theorem getElem?_foldl_set (x : α) (a : List α) (lo n i : Nat) :
    ((List.range' lo n).foldl (fun a idx => a.set idx x) a)[i]? =
      if lo ≤ i ∧ i < lo + n ∧ i < a.length then some x else a[i]? := by
  induction n generalizing a lo with
  | zero =>
    rw [if_neg (by omega)]
    rfl
  | succ n ih =>
    rw [List.range'_succ, List.foldl_cons, ih, List.length_set]
    by_cases hi : lo = i
    · subst hi
      rw [if_neg (by omega), List.getElem?_set]
      simp only [if_true]
      by_cases hlt : lo < a.length
      · rw [if_pos hlt, if_pos (by omega)]
      · rw [if_neg hlt, if_neg (by omega), List.getElem?_eq_none (by omega)]
    · rw [List.getElem?_set_ne hi]
      by_cases hmem : lo + 1 ≤ i ∧ i < lo + 1 + n ∧ i < a.length
      · rw [if_pos hmem, if_pos (by omega)]
      · rw [if_neg hmem, if_neg (by omega)]

theorem getElem?_fill (x : α) (a : List α) (lo hi i : Nat) :
    (fill x a lo hi)[i]? = if lo ≤ i ∧ i < hi ∧ i < a.length then some x else a[i]? := by
  unfold fill
  rw [getElem?_foldl_set]
  by_cases hmem : lo ≤ i ∧ i < hi ∧ i < a.length
  · rw [if_pos hmem, if_pos (by omega)]
  · rw [if_neg hmem, if_neg (by omega)]

@[simp] theorem length_fill (x : α) (a : List α) (lo hi : Nat) :
    (fill x a lo hi).length = a.length := by
  have hset : ∀ is : List Nat, ∀ a : List α,
      (is.foldl (fun a idx => a.set idx x) a).length = a.length := by
    intro is
    induction is with
    | nil => exact fun _ => rfl
    | cons i is ih => exact fun a => by rw [List.foldl_cons, ih, List.length_set]
  exact hset _ a

/-- A move up by `k` cells, the cells below filled. -/
theorem fill_moveUp (x : α) {k : Nat} {a : List α} (hk : k ≤ a.length) :
    fill x (moveUp k a (a.length - k)) 0 k = List.replicate k x ++ a.take (a.length - k) := by
  apply List.ext_getElem?
  intro i
  rw [getElem?_fill, length_moveUp, getElem?_moveUp (by omega), List.getElem?_append,
    List.length_replicate, List.getElem?_replicate, List.getElem?_take]
  by_cases hi : i < k
  · rw [if_pos (by omega), if_pos hi, if_pos hi]
  · rw [if_neg (by omega), if_neg hi]
    by_cases hlt : i < a.length
    · rw [if_pos (by omega), if_pos (by omega)]
    · rw [if_neg (by omega), if_neg (by omega), List.getElem?_eq_none (by omega)]

/-- A move down by `k` cells, the cells above filled. -/
theorem fill_moveDown (x : α) {k : Nat} {a : List α} (hk : k ≤ a.length) :
    fill x (moveDown k a (a.length - k)) (a.length - k) a.length =
      a.drop k ++ List.replicate k x := by
  apply List.ext_getElem?
  intro i
  rw [getElem?_fill, length_moveDown, getElem?_moveDown (by omega), List.getElem?_append,
    List.length_drop, List.getElem?_replicate, List.getElem?_drop]
  by_cases hi : i < a.length - k
  · rw [if_neg (by omega), if_pos hi, if_pos hi, Nat.add_comm]
  · rw [if_neg hi]
    by_cases hlt : i < a.length
    · rw [if_pos (by omega), if_neg hi, if_pos (by omega)]
    · rw [if_neg (by omega), if_neg hi, if_neg (by omega), List.getElem?_eq_none (by omega)]

end Icarus.Core.Moves
