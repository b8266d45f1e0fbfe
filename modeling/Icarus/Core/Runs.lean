import Mathlib.Data.List.Basic

/-!
# Runs of a step function

A system whose steps are named by labels: a step may be refused, a run is a
list of labels, and what every step preserves holds after every run.
-/

namespace Icarus.Core

namespace Runs

variable {σ ℓ : Type} (step : σ → ℓ → Option σ)

/-- The state after a list of steps. -/
def run (s : σ) (ls : List ℓ) : Option σ := ls.foldlM step s

/-- Every step of a run meets a condition in the state it is taken in. -/
def Meets (P : σ → ℓ → Prop) (s : σ) : List ℓ → Prop
  | [] => True
  | l :: ls => P s l ∧ ∀ s' ∈ step s l, Meets P s' ls

instance decidableMeets (P : σ → ℓ → Prop) [∀ s l, Decidable (P s l)] :
    ∀ s ls, Decidable (Meets step P s ls)
  | _, [] => inferInstanceAs (Decidable True)
  | s, l :: ls =>
    have : ∀ s', Decidable (Meets step P s' ls) := fun s' => decidableMeets P s' ls
    inferInstanceAs (Decidable (P s l ∧ ∀ s' ∈ step s l, Meets step P s' ls))

@[simp] theorem run_nil (s : σ) : run step s [] = some s := rfl

@[simp] theorem run_cons (s : σ) (l : ℓ) (ls : List ℓ) :
    run step s (l :: ls) = (step s l).bind fun s' => run step s' ls := by
  rw [run, List.foldlM_cons]
  rfl

variable {step}

theorem meets_of_forall {P : σ → ℓ → Prop} (h : ∀ s l, P s l) {s : σ} {ls : List ℓ} :
    Meets step P s ls := by
  induction ls generalizing s with
  | nil => trivial
  | cons l ls ih => exact ⟨h s l, fun _ _ => ih⟩

/-- What every step that meets the condition preserves holds after every run whose steps meet
it. -/
theorem invariant_of_meets {P : σ → ℓ → Prop} {Inv : σ → Prop}
    (hstep : ∀ s l s', Inv s → P s l → step s l = some s' → Inv s') {s s' : σ} {ls : List ℓ}
    (hs : Inv s) (hP : Meets step P s ls) (hrun : run step s ls = some s') : Inv s' := by
  induction ls generalizing s with
  | nil =>
    rw [run_nil, Option.some.injEq] at hrun
    rwa [← hrun]
  | cons l ls ih =>
    rw [run_cons] at hrun
    obtain ⟨u, hu, hrun⟩ := Option.bind_eq_some_iff.mp hrun
    exact ih (hstep s l u hs hP.1 hu) (hP.2 u hu) hrun

/-- A run is not refused if no step that meets the condition is, given what such steps preserve
as long as there are fewer of them than a bound. -/
theorem exists_run_within {P : σ → ℓ → Prop} {Inv : Nat → σ → Prop} {bound : Nat}
    (hstep : ∀ n s l, n < bound → Inv n s → P s l → ∃ s', step s l = some s' ∧ Inv (n + 1) s')
    {n : Nat} {s : σ} {ls : List ℓ} (hs : Inv n s) (hP : Meets step P s ls)
    (hbound : n + ls.length ≤ bound) :
    ∃ s', run step s ls = some s' ∧ Inv (n + ls.length) s' := by
  induction ls generalizing n s with
  | nil => exact ⟨s, rfl, hs⟩
  | cons l ls ih =>
    rw [List.length_cons] at hbound
    obtain ⟨u, hu, hinv⟩ := hstep n s l (by omega) hs hP.1
    obtain ⟨s', hrun, hs'⟩ := ih hinv (hP.2 u hu) (by omega)
    refine ⟨s', by rw [run_cons, hu, Option.bind_some, hrun], ?_⟩
    rwa [List.length_cons, Nat.add_comm ls.length, ← Nat.add_assoc]

/-- A run is not refused if no step that meets the condition is, given what such steps
preserve. -/
theorem exists_run_of_meets {P : σ → ℓ → Prop} {Inv : σ → Prop}
    (hstep : ∀ s l, Inv s → P s l → ∃ s', step s l = some s' ∧ Inv s') {s : σ} {ls : List ℓ}
    (hs : Inv s) (hP : Meets step P s ls) : ∃ s', run step s ls = some s' ∧ Inv s' :=
  @exists_run_within _ _ step P (fun _ => Inv) ls.length (fun _ s l _ => hstep s l) 0 s ls hs hP
    (Nat.le_of_eq (Nat.zero_add _))

/-- What every step preserves holds after every run. -/
theorem invariant {Inv : σ → Prop} (hstep : ∀ s l s', Inv s → step s l = some s' → Inv s')
    {s s' : σ} {ls : List ℓ} (hs : Inv s) (hrun : run step s ls = some s') : Inv s' := by
  induction ls generalizing s with
  | nil =>
    rw [run_nil, Option.some.injEq] at hrun
    rwa [← hrun]
  | cons l ls ih =>
    rw [run_cons] at hrun
    obtain ⟨u, hu, hrun⟩ := Option.bind_eq_some_iff.mp hrun
    exact ih (hstep s l u hs hu) hrun

/-- Two step functions that agree on what the steps that meet a condition preserve have the same
runs. -/
theorem run_congr {step' : σ → ℓ → Option σ} {P : σ → ℓ → Prop} {Inv : σ → Prop}
    (heq : ∀ s l, Inv s → P s l → step s l = step' s l)
    (hstep : ∀ s l s', Inv s → P s l → step s l = some s' → Inv s') {s : σ} {ls : List ℓ}
    (hs : Inv s) (hP : Meets step P s ls) : run step s ls = run step' s ls := by
  induction ls generalizing s with
  | nil => rfl
  | cons l ls ih =>
    rw [run_cons, run_cons, ← heq s l hs hP.1]
    refine Option.bind_congr fun u hu => ?_
    exact ih (hstep s l u hs hP.1 hu) (hP.2 u hu)

/-- A run and a step after it, found by evaluation. -/
theorem exists_step_of_any (step : σ → ℓ → Option σ) (s : σ) (ls : List ℓ) (l : ℓ)
    (P : σ → σ → Prop) [∀ a b, Decidable (P a b)]
    (h : ((run step s ls).any fun a => (step a l).any fun b => decide (P a b)) = true) :
    ∃ a b, run step s ls = some a ∧ step a l = some b ∧ P a b := by
  obtain ⟨a, ha, h⟩ := (Option.any_eq_true _ _).mp h
  obtain ⟨b, hb, h⟩ := (Option.any_eq_true _ _).mp h
  exact ⟨a, b, ha, hb, of_decide_eq_true h⟩

end Runs

end Icarus.Core
