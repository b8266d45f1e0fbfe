import Mathlib.Data.List.DropRight
import Mathlib.Data.Nat.Digits.Defs

/-!
# Numerals

The digits of a number, least significant first, with zeros behind them. The decimal
numeral is the list of the digits from the last one on, without the zeros.
-/

namespace Icarus.Core.Numeral

theorem ofDigits_cons (b d : Nat) (ds : List Nat) :
    Nat.ofDigits b (d :: ds) = d + b * Nat.ofDigits b ds := Nat.ofDigits_cons

theorem ofDigits_rdropWhile (b : Nat) (ds : List Nat) :
    Nat.ofDigits b (ds.rdropWhile (· = 0)) = Nat.ofDigits b ds := by
  induction ds using List.reverseRecOn with
  | nil => rfl
  | append_singleton ds d ih =>
    rw [List.rdropWhile_concat]
    split
    · next hd =>
      rw [of_decide_eq_true hd, Nat.ofDigits_append_zero, ih]
    · rfl

/-- The digits of a number are any digits with its value, less the zeros. -/
theorem digits_ofDigits_zeros {b : Nat} (hb : 1 < b) {ds : List Nat} (hds : ∀ d ∈ ds, d < b) :
    Nat.digits b (Nat.ofDigits b ds) = ds.rdropWhile (· = 0) := by
  rw [← ofDigits_rdropWhile]
  refine Nat.digits_ofDigits b hb _ (fun d hd => ?_) fun hne hzero => ?_
  · exact hds d ((List.rdropWhile_prefix _ _).subset hd)
  · exact List.rdropWhile_last_not _ _ hne (decide_eq_true hzero)

/-- The decimal numeral of a number that is not zero. -/
theorem toDigits_eq {n : Nat} (hn : n ≠ 0) :
    Nat.toDigits 10 n = ((Nat.digits 10 n).map Nat.digitChar).reverse := by
  induction n using Nat.strongRecOn with
  | ind n ih =>
    rw [Nat.digits_def' (by omega) (Nat.pos_of_ne_zero hn), List.map_cons, List.reverse_cons]
    by_cases hlt : n < 10
    · rw [Nat.toDigits_of_lt_base hlt, Nat.div_eq_of_lt hlt, Nat.mod_eq_of_lt hlt]
      rfl
    · rw [Nat.toDigits_of_base_le (by omega) (by omega), ih (n / 10) (by omega) (by omega)]

/-- Digits of a decimal numeral. -/
theorem exists_digits (n : Nat) : ∃ ds : List Nat, (∀ d ∈ ds, d < 10) ∧ Nat.ofDigits 10 ds = n ∧
    Nat.toDigits 10 n = (ds.map Nat.digitChar).reverse := by
  by_cases hn : n = 0
  · refine ⟨[0], by simp, ?_, ?_⟩
    · rw [hn]
      rfl
    · rw [hn, Nat.toDigits_zero]
      rfl
  · exact ⟨Nat.digits 10 n, fun d hd => Nat.digits_lt_base (by omega) hd, Nat.ofDigits_digits _ _,
      toDigits_eq hn⟩

/-- Digits to a power of the base, each as digits to the base. -/
theorem ofDigits_flatMap {b k : Nat} {chunk : Nat → List Nat} {vs : List Nat}
    (hchunk : ∀ v ∈ vs, (chunk v).length = k ∧ Nat.ofDigits b (chunk v) = v) :
    Nat.ofDigits b (vs.flatMap chunk) = Nat.ofDigits (b ^ k) vs := by
  induction vs with
  | nil => rfl
  | cons v vs ih =>
    obtain ⟨hlen, hval⟩ := hchunk v List.mem_cons_self
    rw [List.flatMap_cons, Nat.ofDigits_append, hlen, hval, Nat.ofDigits_cons,
      ih fun v hv => hchunk v (List.mem_cons_of_mem _ hv)]

end Icarus.Core.Numeral
