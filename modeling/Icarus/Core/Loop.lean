import Mathlib.Init

/-!
# Loops

A `while` loop whose body may fail. Running out of fuel is a failure as well, so
that a loop that returns has left through its condition.
-/

namespace Icarus.Core.Loop

variable {σ : Type}

/-- `while (cond) body`. -/
def whileLoop (cond : σ → Bool) (body : σ → Option σ) : Nat → σ → Option σ
  | 0, _ => none
  | fuel + 1, s => if cond s then (body s).bind (whileLoop cond body fuel) else some s

/-- A loop whose body keeps an invariant and decreases its rank ends with the invariant. -/
theorem whileLoop_total {cond : σ → Bool} {body : σ → Option σ} (Inv : Nat → σ → Prop)
    (h : ∀ rank s, Inv rank s → cond s = true →
      ∃ t rank', body s = some t ∧ rank' < rank ∧ Inv rank' t)
    {rank fuel : Nat} {s : σ} (hs : Inv rank s) (hfuel : rank < fuel) :
    ∃ t rank', whileLoop cond body fuel s = some t ∧ Inv rank' t ∧ cond t = false := by
  induction fuel generalizing rank s with
  | zero => omega
  | succ fuel ih =>
    cases hc : cond s with
    | false => exact ⟨s, rank, by simp [whileLoop, hc], hs, hc⟩
    | true =>
      obtain ⟨t, rank', ht, hlt, hinv⟩ := h rank s hs hc
      obtain ⟨r, rank'', hr, hrest⟩ := ih hinv (by omega)
      exact ⟨r, rank'', by simp [whileLoop, hc, ht, hr], hrest⟩

/-- A counting loop whose turns lead from one state of a sequence to the next. -/
theorem foldlM_range {f : σ → Nat → Option σ} (g : Nat → σ) {n : Nat}
    (h : ∀ i < n, f (g i) i = some (g (i + 1))) : (List.range n).foldlM f (g 0) = some (g n) := by
  induction n with
  | zero => rfl
  | succ n ih =>
    rw [List.range_succ, List.foldlM_append, ih fun i hi => h i (Nat.lt_succ_of_lt hi)]
    change ([n].foldlM f (g n)) = _
    rw [List.foldlM_cons, h n (Nat.lt_succ_self n)]
    rfl

end Icarus.Core.Loop
