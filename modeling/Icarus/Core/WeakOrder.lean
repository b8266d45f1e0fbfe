import Mathlib.Order.Lattice

/-!
# Keys that some values lack

A comparison by a key that gives up on values without one. It is a strict order, and a strict weak
order as far as the values without a key leave no two keys to tell apart.
-/

namespace Icarus.Core

variable {α β : Type}

/-- Less by the key, for values that have one. -/
def KeyLt [LT β] (Has : α → Prop) (key : α → β) (a b : α) : Prop :=
  Has a ∧ Has b ∧ key a < key b

variable {Has : α → Prop} {key : α → β}

namespace KeyLt

/-- It is a strict order, whatever has a key. -/
theorem isStrictOrder [Preorder β] : IsStrictOrder α (KeyLt Has key) where
  irrefl _ h := lt_irrefl _ h.2.2
  trans _ _ _ hab hbc := ⟨hab.1, hbc.2.1, hab.2.2.trans hbc.2.2⟩

/-- Its converse is the comparison by the dual key. -/
theorem swap_eq [Preorder β] :
    (fun a b => KeyLt Has key b a) = KeyLt Has (fun a => OrderDual.toDual (key a)) := by
  ext a b
  exact and_left_comm

/-- A value without a key is as good as every other. Two keys told apart are then too many. -/
theorem isStrictWeakOrder_iff [LinearOrder β] : IsStrictWeakOrder α (KeyLt Has key) ↔
    (∀ a, Has a) ∨ ∀ a b, Has a → Has b → key a = key b := by
  constructor
  · intro h
    refine or_iff_not_imp_left.mpr fun hnot a b ha hb => ?_
    obtain ⟨x, hx⟩ := not_forall.mp hnot
    by_contra hne
    have hleft : ∀ c, ¬ KeyLt Has key x c := fun c hc => hx hc.1
    have hright : ∀ c, ¬ KeyLt Has key c x := fun c hc => hx hc.2.1
    obtain ⟨hab, hba⟩ := h.incomp_trans a x b ⟨hright a, hleft a⟩ ⟨hleft b, hright b⟩
    rcases lt_or_gt_of_ne hne with hlt | hgt
    · exact hab ⟨ha, hb, hlt⟩
    · exact hba ⟨hb, ha, hgt⟩
  · rintro (hall | heq)
    · refine { isStrictOrder with incomp_trans := ?_ }
      have hkey : ∀ a b, ¬ KeyLt Has key a b ∧ ¬ KeyLt Has key b a ↔ key a = key b := by
        intro a b
        simp only [KeyLt, hall, true_and, not_lt]
        exact ⟨fun h => le_antisymm h.2 h.1, fun h => ⟨h.ge, h.le⟩⟩
      intro a b c hab hbc
      rw [hkey] at hab hbc ⊢
      exact hab.trans hbc
    · refine { isStrictOrder with incomp_trans := ?_ }
      have hnone : ∀ a b, ¬ KeyLt Has key a b := by
        intro a b hab
        exact hab.2.2.ne (heq a b hab.1 hab.2.1)
      exact fun a _ c _ _ => ⟨hnone a c, hnone c a⟩

end KeyLt

end Icarus.Core
