import Mathlib.Data.List.Basic
import Mathlib.Order.Nat

/-!
# Cascades

A task is done in a state and calls for further tasks, which are done one after the other, each
with all that it calls for, before the next. If every change of the state takes room, the recursion
ends. A change leaves tasks waiting only if they waited before or are called for, so that in the
end no task waits that did not wait before.
-/

namespace Icarus.Core.Cascade

variable {σ ε : Type*}

/-- Do a task, with so much depth, and then the tasks that it calls for. -/
def run (step : σ → ε → Option (σ × List ε)) : Nat → σ → ε → Option σ
  | 0, _, _ => none
  | fuel + 1, s, e => (step s e).bind fun change => change.2.foldlM (run step fuel) change.1

/-- What a change does: it takes room and calls for all tasks that it leaves waiting. -/
structure Change (Inv : σ → Prop) (Ready Waiting : σ → ε → Prop) (room : σ → Nat) (s s' : σ)
    (next : List ε) : Prop where
  /-- The invariant is kept. -/
  inv : Inv s'
  /-- Room is taken. -/
  room_lt : room s' < room s
  /-- The tasks that are called for can be done. -/
  next_ready : ∀ e ∈ next, Ready s' e
  /-- What could be done still can. -/
  ready : ∀ e, Ready s e → Ready s' e
  /-- Only tasks that are called for begin to wait. -/
  waiting : ∀ e, Waiting s' e → Waiting s e ∨ e ∈ next

/-- A task that can be done changes nothing and does not wait, or it makes a change. -/
def Progress (step : σ → ε → Option (σ × List ε)) (Inv : σ → Prop) (Ready Waiting : σ → ε → Prop)
    (room : σ → Nat) : Prop :=
  ∀ s e, Inv s → Ready s e →
    (step s e = some (s, []) ∧ ¬ Waiting s e) ∨
      ∃ s' next, step s e = some (s', next) ∧ Change Inv Ready Waiting room s s' next ∧
        (Waiting s' e → e ∈ next)

/-- What a cascade leaves behind. -/
structure After (Inv : σ → Prop) (Ready Waiting : σ → ε → Prop) (room : σ → Nat) (s s' : σ) :
    Prop where
  /-- The invariant is kept. -/
  inv : Inv s'
  /-- There is no more room than before. -/
  room_le : room s' ≤ room s
  /-- What could be done still can. -/
  ready : ∀ e, Ready s e → Ready s' e
  /-- No task waits that did not wait before. -/
  waiting : ∀ e, Waiting s' e → Waiting s e

section Rules

variable {step : σ → ε → Option (σ × List ε)} {Inv : σ → Prop} {Ready Waiting : σ → ε → Prop}
  {room : σ → Nat}

theorem After.refl {s : σ} (h : Inv s) : After Inv Ready Waiting room s s :=
  ⟨h, le_rfl, fun _ => id, fun _ => id⟩

theorem After.trans {s s' s'' : σ} (h : After Inv Ready Waiting room s s')
    (h' : After Inv Ready Waiting room s' s'') : After Inv Ready Waiting room s s'' :=
  ⟨h'.inv, h'.room_le.trans h.room_le, fun e he => h'.ready e (h.ready e he),
    fun e he => h.waiting e (h'.waiting e he)⟩

/-- Doing all tasks of a list leaves none of them waiting, if doing each does. -/
private theorem foldlM_spec {f : σ → ε → Option σ} {n : Nat}
    (hf : ∀ s e, Inv s → Ready s e → room s < n →
      ∃ s', f s e = some s' ∧ After Inv Ready Waiting room s s' ∧ ¬ Waiting s' e)
    (es : List ε) : ∀ s, Inv s → (∀ e ∈ es, Ready s e) → room s < n →
      ∃ s', es.foldlM f s = some s' ∧ After Inv Ready Waiting room s s' ∧
        ∀ e ∈ es, ¬ Waiting s' e := by
  induction es with
  | nil => exact fun s hs _ _ => ⟨s, rfl, After.refl hs, fun _ he => absurd he List.not_mem_nil⟩
  | cons e es ih =>
    intro s hs hready hroom
    obtain ⟨s₁, hfirst, hafter₁, hdone₁⟩ := hf s e hs (hready e List.mem_cons_self) hroom
    have hready₁ : ∀ e' ∈ es, Ready s₁ e' := fun e' he' =>
      hafter₁.ready e' (hready e' (List.mem_cons_of_mem e he'))
    obtain ⟨s₂, hrest, hafter₂, hdone₂⟩ :=
      ih s₁ hafter₁.inv hready₁ (hafter₁.room_le.trans_lt hroom)
    refine ⟨s₂, ?_, hafter₁.trans hafter₂, ?_⟩
    · rw [List.foldlM_cons, hfirst]
      exact hrest
    · exact List.forall_mem_cons.mpr ⟨fun h => hdone₁ (hafter₂.waiting e h), hdone₂⟩

/-- With more depth than room a cascade ends, and its task does not wait. -/
theorem run_spec (hstep : Progress step Inv Ready Waiting room) (fuel : Nat) :
    ∀ s e, Inv s → Ready s e → room s < fuel →
      ∃ s', run step fuel s e = some s' ∧ After Inv Ready Waiting room s s' ∧ ¬ Waiting s' e := by
  induction fuel with
  | zero => exact fun s e _ _ hroom => absurd hroom (Nat.not_lt_zero _)
  | succ fuel ih =>
    intro s e hs hready hroom
    rcases hstep s e hs hready with ⟨hsame, hdone⟩ | ⟨s₁, next, hchange, hspec, hself⟩
    · refine ⟨s, ?_, After.refl hs, hdone⟩
      rw [run, hsame, Option.bind_some]
      rfl
    · have hless : room s₁ < fuel := by
        have := hspec.room_lt
        omega
      obtain ⟨s₂, hnext, hafter, hdone⟩ :=
        foldlM_spec ih next s₁ hspec.inv hspec.next_ready hless
      have hwaiting : ∀ e', Waiting s₂ e' → Waiting s₁ e' ∧ e' ∉ next := fun e' he' =>
        ⟨hafter.waiting e' he', fun hmem => hdone e' hmem he'⟩
      refine ⟨s₂, ?_, ⟨hafter.inv, hafter.room_le.trans hspec.room_lt.le,
        fun e' he' => hafter.ready e' (hspec.ready e' he'), fun e' he' => ?_⟩, fun he => ?_⟩
      · rw [run, hchange, Option.bind_some]
        exact hnext
      · exact (hspec.waiting e' (hwaiting e' he').1).resolve_right (hwaiting e' he').2
      · exact (hwaiting e he).2 (hself (hwaiting e he).1)

/-- The same for the tasks of a list. -/
theorem runs_spec (hstep : Progress step Inv Ready Waiting room) {fuel : Nat} (es : List ε) (s : σ)
    (hs : Inv s) (hready : ∀ e ∈ es, Ready s e) (hroom : room s < fuel) :
    ∃ s', es.foldlM (run step fuel) s = some s' ∧ After Inv Ready Waiting room s s' ∧
      ∀ e ∈ es, ¬ Waiting s' e :=
  foldlM_spec (run_spec hstep fuel) es s hs hready hroom

/-- A fold of what does at least as much gives the same. -/
theorem foldlM_mono {f g : σ → ε → Option σ} (hfg : ∀ s e s', f s e = some s' → g s e = some s')
    (es : List ε) : ∀ {s s' : σ}, es.foldlM f s = some s' → es.foldlM g s = some s' := by
  induction es with
  | nil => exact fun h => h
  | cons e es ih =>
    intro s s' h
    rw [List.foldlM_cons] at h ⊢
    obtain ⟨s₁, hfirst, hrest⟩ := Option.bind_eq_some_iff.mp h
    exact Option.bind_eq_some_iff.mpr ⟨s₁, hfg s e s₁ hfirst, ih hrest⟩

/-- A fold over a list does the same to related states, if its steps do. -/
theorem foldlM_sim {τ : Type*} {f : σ → ε → Option σ} {g : τ → ε → Option τ} {R : σ → τ → Prop}
    {T : ε → Prop}
    (hfg : ∀ s t e s', R s t → T e → f s e = some s' → ∃ t', g t e = some t' ∧ R s' t')
    (es : List ε) : ∀ {s : σ} {t : τ} {s' : σ}, R s t → (∀ e ∈ es, T e) → es.foldlM f s = some s' →
      ∃ t', es.foldlM g t = some t' ∧ R s' t' := by
  induction es with
  | nil =>
    intro s t s' hst _ h
    obtain rfl : s = s' := Option.some_inj.mp h
    exact ⟨t, rfl, hst⟩
  | cons e es ih =>
    intro s t s' hst hes h
    obtain ⟨he, hes⟩ := List.forall_mem_cons.mp hes
    rw [List.foldlM_cons] at h
    obtain ⟨s₁, hfirst, hrest⟩ := Option.bind_eq_some_iff.mp h
    obtain ⟨t₁, hfirst', hst₁⟩ := hfg s t e s₁ hst he hfirst
    obtain ⟨t', hrest', hst'⟩ := ih hst₁ hes hrest
    exact ⟨t', by rw [List.foldlM_cons, hfirst']; exact hrest', hst'⟩

/-- What the steps of a fold keep it keeps. -/
theorem foldlM_keeps {f : σ → ε → Option σ} {P : σ → Prop} {T : ε → Prop}
    (hf : ∀ s e s', P s → T e → f s e = some s' → P s') {es : List ε} {s s' : σ} (hs : P s)
    (hes : ∀ e ∈ es, T e) (h : es.foldlM f s = some s') : P s' := by
  have hsame : ∀ s t e s', (P s ∧ s = t) → T e → f s e = some s' →
      ∃ t', f t e = some t' ∧ P s' ∧ s' = t' := by
    rintro s _ e s' ⟨hs, rfl⟩ he h
    exact ⟨s', h, hf s e s' hs he h, rfl⟩
  obtain ⟨t', -, hs', -⟩ := foldlM_sim hsame es ⟨hs, rfl⟩ hes h
  exact hs'

/-- A cascade does the same to related states, if its steps do. -/
theorem run_sim {τ : Type*} {step' : τ → ε → Option (τ × List ε)} {R : σ → τ → Prop} {T : ε → Prop}
    (hstep : ∀ s t e s' next, R s t → T e → step s e = some (s', next) →
      ∃ t', step' t e = some (t', next) ∧ R s' t' ∧ ∀ e ∈ next, T e) (fuel : Nat) :
    ∀ s t e s', R s t → T e → run step fuel s e = some s' →
      ∃ t', run step' fuel t e = some t' ∧ R s' t' := by
  induction fuel with
  | zero => exact fun _ _ _ _ _ _ h => absurd h (by simp [run])
  | succ fuel ih =>
    intro s t e s' hst he h
    obtain ⟨⟨s₁, next⟩, hchange, hnext⟩ := Option.bind_eq_some_iff.mp h
    obtain ⟨t₁, hchange', hst₁, hnexts⟩ := hstep s t e s₁ next hst he hchange
    obtain ⟨t', hnext', hst'⟩ := foldlM_sim ih next hst₁ hnexts hnext
    exact ⟨t', by rw [run, hchange', Option.bind_some]; exact hnext', hst'⟩

/-- What the steps of a cascade keep it keeps. -/
theorem run_keeps {P : σ → Prop} {T : ε → Prop}
    (hstep : ∀ s e s' next, P s → T e → step s e = some (s', next) → P s' ∧ ∀ e ∈ next, T e)
    {fuel : Nat} {s s' : σ} {e : ε} (hs : P s) (he : T e) (h : run step fuel s e = some s') :
    P s' := by
  have hsame : ∀ s t e s' next, (P s ∧ s = t) → T e → step s e = some (s', next) →
      ∃ t', step t e = some (t', next) ∧ (P s' ∧ s' = t') ∧ ∀ e ∈ next, T e := by
    rintro s _ e s' next ⟨hs, rfl⟩ he h
    obtain ⟨hs', hnext⟩ := hstep s e s' next hs he h
    exact ⟨s', h, ⟨hs', rfl⟩, hnext⟩
  obtain ⟨t', -, hs', -⟩ := run_sim hsame fuel s s e s' ⟨hs, rfl⟩ he h
  exact hs'

/-- A task calls for another one, at first or behind one that changes nothing. -/
def Leads (step : σ → ε → Option (σ × List ε)) (s : σ) (e : ε) (s' : σ) (e' : ε) : Prop :=
  (∃ post, step s e = some (s', e' :: post)) ∨
    ∃ idle post, step s e = some (s', idle :: e' :: post) ∧ step s' idle = some (s', [])

/-- Tasks that lead to one another are never done. -/
theorem run_eq_none {P : σ → ε → Prop}
    (hleads : ∀ s e, P s e → ∃ s' e', P s' e' ∧ Leads step s e s' e') (fuel : Nat) :
    ∀ s e, P s e → run step fuel s e = none := by
  induction fuel with
  | zero => exact fun _ _ _ => rfl
  | succ fuel ih =>
    intro s e he
    obtain ⟨s', e', he', ⟨post, hstep⟩ | ⟨idle, post, hstep, hidle⟩⟩ := hleads s e he
    · rw [run, hstep, Option.bind_some, List.foldlM_cons, ih s' e' he']
      rfl
    · rw [run, hstep, Option.bind_some, List.foldlM_cons]
      cases fuel with
      | zero => rfl
      | succ fuel =>
        have hsame : run step (fuel + 1) s' idle = some s' := by
          rw [run, hidle, Option.bind_some]
          rfl
        rw [hsame, Option.bind_eq_bind, Option.bind_some, List.foldlM_cons, ih s' e' he']
        rfl

/-- More depth changes nothing. -/
theorem run_mono {fuel fuel' : Nat} (hle : fuel ≤ fuel') :
    ∀ {s s' : σ} {e : ε}, run step fuel s e = some s' → run step fuel' s e = some s' := by
  induction fuel generalizing fuel' with
  | zero => exact fun h => absurd h (by simp [run])
  | succ fuel ih =>
    intro s s' e h
    obtain ⟨fuel', rfl⟩ : ∃ k, fuel' = k + 1 := ⟨fuel' - 1, by omega⟩
    obtain ⟨change, hstep, hnext⟩ := Option.bind_eq_some_iff.mp h
    refine Option.bind_eq_some_iff.mpr ⟨change, hstep, foldlM_mono ?_ change.2 hnext⟩
    exact fun _ _ _ => ih (by omega)

end Rules

end Icarus.Core.Cascade
