import Mathlib.Data.List.Range

/-!
# Words read bit by bit

A loop sets the bits of a word for which a condition holds, one after the other.
-/

namespace Icarus.Core

variable {w : Nat}

/-- The loop over the first bits. -/
def readBits (w : Nat) (bit : Nat → Bool) (k : Nat) : BitVec w :=
  (List.range k).foldl (fun val idx => if bit idx then val ||| ((1 : BitVec w) <<< idx) else val) 0

theorem readBits_succ (bit : Nat → Bool) (k : Nat) :
    readBits w bit (k + 1) =
      if bit k then readBits w bit k ||| ((1 : BitVec w) <<< k) else readBits w bit k := by
  rw [readBits, List.range_succ, List.foldl_append, List.foldl_cons, List.foldl_nil]
  rfl

/-- A single bit. -/
theorem getLsbD_one_shiftLeft (idx i : Nat) :
    ((1 : BitVec w) <<< idx).getLsbD i = (decide (i < w) && decide (i = idx)) := by
  rw [BitVec.getLsbD_shiftLeft]
  by_cases hi : i < w
  · by_cases h : i = idx
    · subst h
      simp [hi]
      omega
    · by_cases hlt : i < idx
      · simp [h, hlt]
      · have hsub : i - idx ≠ 0 := by omega
        simp [h, hsub]
  · simp [hi]

/-- The bits that are read. -/
theorem getLsbD_readBits (bit : Nat → Bool) (k i : Nat) :
    (readBits w bit k).getLsbD i = (decide (i < w) && (decide (i < k) && bit i)) := by
  induction k with
  | zero => simp [readBits]
  | succ k ih =>
    rw [readBits_succ]
    by_cases hik : i = k
    · subst hik
      split_ifs with hbit
      · rw [BitVec.getLsbD_or, ih, getLsbD_one_shiftLeft, hbit]
        simp
      · rw [ih, Bool.eq_false_iff.mpr hbit]
        simp
    · have hlt : decide (i < k + 1) = decide (i < k) := decide_eq_decide.mpr (by omega)
      split_ifs with hbit
      · rw [BitVec.getLsbD_or, ih, getLsbD_one_shiftLeft, hlt, decide_eq_false hik, Bool.and_false,
          Bool.or_false]
      · rw [ih, hlt]

end Icarus.Core
