import Mathlib.Init

/-!
# Computations with a state and errors

When one computation follows another: whenever the first returns, the second returns too, from
the state that stands for the first one's, and their results and last states belong together.
-/

namespace Icarus.Core.Effects

/-- A computation over a state that may stop with an error. -/
abbrev Run (ε S α : Type) := StateT S (Except ε) α

variable {ε S S' α α' β β' σ σ' : Type}

/-- From `s` the computation returns `a` and leaves `t`. -/
def Ends (m : Run ε S α) (s : S) (a : α) (t : S) : Prop := m s = .ok (a, t)

/-! ## What the steps of a computation return -/

section Steps

variable {m : Run ε S α} {f : α → Run ε S β} {s t u : S} {a : α} {b : β}

@[simp] theorem ends_pure {a' : α} : Ends (pure a : Run ε S α) s a' t ↔ a' = a ∧ t = s := by
  have hpure : (pure a : Run ε S α) s = .ok (a, s) := rfl
  rw [Ends, hpure, Except.ok.injEq, Prod.mk.injEq, eq_comm, @eq_comm _ s]

@[simp] theorem ends_throw {e : ε} : ¬ Ends (throw e : Run ε S α) s a t := by
  have hthrow : (throw e : Run ε S α) s = .error e := rfl
  rw [Ends, hthrow]
  exact nofun

@[simp] theorem ends_get {s' : S} : Ends (get : Run ε S S) s s' t ↔ s' = s ∧ t = s := by
  have hget : (get : Run ε S S) s = .ok (s, s) := rfl
  rw [Ends, hget, Except.ok.injEq, Prod.mk.injEq, eq_comm, @eq_comm _ s]

@[simp] theorem ends_modify {g : S → S} : Ends (modify g : Run ε S Unit) s () t ↔ t = g s := by
  have hmodify : (modify g : Run ε S Unit) s = .ok ((), g s) := rfl
  rw [Ends, hmodify, Except.ok.injEq, Prod.mk.injEq, eq_comm, and_iff_right rfl, eq_comm]

theorem ends_bind : Ends (m >>= f) s b t ↔ ∃ a u, Ends m s a u ∧ Ends (f a) u b t := by
  have happly : (m >>= f) s = (m s).bind fun p => f p.1 p.2 := rfl
  rw [Ends, happly]
  cases hm : m s with
  | error e => simp [Ends, hm, Except.bind]
  | ok p =>
    refine ⟨fun h => ⟨p.1, p.2, hm, h⟩, fun ⟨a, u, h, hrest⟩ => ?_⟩
    rw [Ends, hm] at h
    obtain rfl := Except.ok.inj h
    exact hrest

/-- One step, then the rest. -/
theorem Ends.bind (h : Ends m s a u) (hrest : Ends (f a) u b t) : Ends (m >>= f) s b t :=
  ends_bind.mpr ⟨a, u, h, hrest⟩

end Steps

/-! ## A computation that follows another -/

/-- Every run of `m` that returns is a run of `m'`: states are entered as `enter` has them, and
a result `a` in the state `t` is returned as `res a` in the state `exit a t`. -/
def Follows (enter : S → S') (res : α → α') (exit : α → S → S') (m : Run ε S α)
    (m' : Run ε S' α') : Prop :=
  ∀ s a t, Ends m s a t → Ends m' (enter s) (res a) (exit a t)

/-- The same results, and states that stay as `enter` has them. -/
def Mirrors (enter : S → S') (m : Run ε S α) (m' : Run ε S' α) : Prop :=
  Follows enter id (fun _ => enter) m m'

section Follows

variable {enter : S → S'} {res : α → α'} {exit : α → S → S'} {m : Run ε S α} {m' : Run ε S' α'}

theorem Follows.pure {a : α} {a' : α'} (hres : res a = a') (hexit : ∀ s, exit a s = enter s) :
    Follows enter res exit (pure a) (pure a' : Run ε S' α') := by
  intro s b t h
  obtain ⟨rfl, rfl⟩ := ends_pure.mp h
  exact ends_pure.mpr ⟨hres, hexit t⟩

/-- A computation that returns nothing is followed by any. -/
theorem Follows.throw {e : ε} : Follows enter res exit (throw e) m' :=
  fun _ _ _ h => absurd h ends_throw

/-- The rest of the second computation enters where its first step left. -/
theorem Follows.bind {res₁ : β → β'} {exit₁ : β → S → S'} {n : Run ε S β} {n' : Run ε S' β'}
    {f : β → Run ε S α} {f' : β' → Run ε S' α'} (h : Follows enter res₁ exit₁ n n')
    (hrest : ∀ b, Follows (exit₁ b) res exit (f b) (f' (res₁ b))) :
    Follows enter res exit (n >>= f) (n' >>= f') := by
  intro s a t hends
  obtain ⟨b, u, hn, hf⟩ := ends_bind.mp hends
  exact (h s b u hn).bind (hrest b u a t hf)

theorem Mirrors.bind {n : Run ε S β} {n' : Run ε S' β} {f : β → Run ε S α}
    {f' : β → Run ε S' α'} (h : Mirrors enter n n')
    (hrest : ∀ b, Follows enter res exit (f b) (f' b)) :
    Follows enter res exit (n >>= f) (n' >>= f') :=
  Follows.bind h hrest

theorem Mirrors.pure {a : α} : Mirrors enter (pure a : Run ε S α) (pure a) :=
  Follows.pure rfl fun _ => rfl

theorem Mirrors.throw {e : ε} {n : Run ε S' α} : Mirrors enter (throw e) n := Follows.throw

theorem Mirrors.modify {g : S → S} {g' : S' → S'} (h : ∀ s, g' (enter s) = enter (g s)) :
    Mirrors enter (modify g : Run ε S Unit) (modify g') := by
  intro s a t hends
  obtain rfl := ends_modify.mp hends
  exact ends_modify.mpr (h s).symm

/-- Reading the same part of the state. -/
theorem Mirrors.gets {g : S → β} {g' : S' → β} (h : ∀ s, g' (enter s) = g s) :
    Mirrors enter (do return g (← get) : Run ε S β) (do return g' (← get)) := by
  intro s a t hends
  obtain ⟨s₁, u, hget, hpure⟩ := ends_bind.mp hends
  obtain ⟨rfl, rfl⟩ := ends_get.mp hget
  obtain ⟨rfl, rfl⟩ := ends_pure.mp hpure
  exact (ends_get.mpr ⟨rfl, rfl⟩).bind (ends_pure.mpr ⟨(h _).symm, rfl⟩)

end Follows

/-! ## Computations that only read -/

/-- The state stays as it is. -/
def Keeps (m : Run ε S α) : Prop := ∀ s a t, Ends m s a t → t = s

theorem Keeps.pure {a : α} : Keeps (pure a : Run ε S α) := fun _ _ _ h => (ends_pure.mp h).2

theorem Keeps.throw {e : ε} : Keeps (throw e : Run ε S α) := fun _ _ _ h => absurd h ends_throw

theorem Keeps.bind {m : Run ε S α} {f : α → Run ε S β} (h : Keeps m) (hrest : ∀ a, Keeps (f a)) :
    Keeps (m >>= f) := by
  intro s b t hends
  obtain ⟨a, u, hm, hf⟩ := ends_bind.mp hends
  rw [hrest a u b t hf, h s a u hm]

theorem Keeps.gets {g : S → β} : Keeps (do return g (← get) : Run ε S β) :=
  Keeps.bind (fun _ _ _ h => (ends_get.mp h).2) fun _ => Keeps.pure

theorem Keeps.mapM {f : α → Run ε S β} (h : ∀ a, Keeps (f a)) (xs : List α) :
    Keeps (xs.mapM f) := by
  induction xs with
  | nil => exact Keeps.pure
  | cons x xs ih =>
    rw [List.mapM_cons]
    exact Keeps.bind (h x) fun y => Keeps.bind ih fun ys => Keeps.pure

/-! ## Loops -/

/-- How a turn of a loop ends: it goes on with the test, or it leaves the loop. -/
inductive Turn (σ : Type) where
  | again (x : σ)
  | leave (x : σ)

/-- `while (test) body`, where the body may leave the loop. -/
def whileLoop (stop : ε) (test : σ → S → Bool) (body : σ → Run ε S (Turn σ)) :
    Nat → σ → Run ε S σ
  | 0, x => do if test x (← get) then throw stop else return x
  | fuel + 1, x => do
    if test x (← get) then
      match ← body x with
      | .again y => whileLoop stop test body fuel y
      | .leave y => return y
    else
      return x

/-- Turns until one gives a result. -/
def iterate (stop : ε) (turn : σ → Run ε S (σ ⊕ β)) : Nat → σ → Run ε S β
  | 0, _ => throw stop
  | fuel + 1, x => do
    match ← turn x with
    | .inl y => iterate stop turn fuel y
    | .inr b => return b

/-- The turn of a `while` loop in `x'` does what the turn that started in `s` and gave `r` in `t`
says: it goes on, or it ends the loop with a value whose `view` is the result, by leaving it or
with a test that fails, now or at once. -/
def EndsTurn (test : σ' → S' → Bool) (enter : S → S') (start : σ → σ') (view : σ' → α')
    (res : β → α') (exit : β → S → S') (m' : σ' → Run ε S' (Turn σ')) (x' : σ') (s : S) :
    σ ⊕ β → S → Prop
  | .inl y, t => test x' (enter s) = true ∧ Ends (m' x') (enter s) (.again (start y)) (enter t)
  | .inr b, t => ∃ z', view z' = res b ∧
      (test x' (enter s) = true ∧ Ends (m' x') (enter s) (.leave z') (exit b t) ∨
        test x' (enter s) = true ∧ Ends (m' x') (enter s) (.again z') (exit b t) ∧
          test z' (exit b t) = false ∨
        test x' (enter s) = false ∧ z' = x' ∧ exit b t = enter s)

section Loops

variable {stop : ε} {test : σ' → S' → Bool} {body' : σ' → Run ε S' (Turn σ')} {s' t' : S'}
  {x' y' : σ'}

theorem ends_whileLoop_of_not {fuel : Nat} (h : test x' s' = false) :
    Ends (whileLoop stop test body' fuel x') s' x' s' := by
  cases fuel with
  | zero =>
    rw [whileLoop]
    refine (ends_get.mpr ⟨rfl, rfl⟩).bind ?_
    rw [if_neg (by simp [h])]
    exact ends_pure.mpr ⟨rfl, rfl⟩
  | succ fuel =>
    rw [whileLoop]
    refine (ends_get.mpr ⟨rfl, rfl⟩).bind ?_
    rw [if_neg (by simp [h])]
    exact ends_pure.mpr ⟨rfl, rfl⟩

theorem ends_whileLoop_again {fuel : Nat} {z' : σ'} {u' : S'} (h : test x' s' = true)
    (hbody : Ends (body' x') s' (.again y') t')
    (hrest : Ends (whileLoop stop test body' fuel y') t' z' u') :
    Ends (whileLoop stop test body' (fuel + 1) x') s' z' u' := by
  rw [whileLoop]
  refine (ends_get.mpr ⟨rfl, rfl⟩).bind ?_
  rw [if_pos h]
  exact hbody.bind hrest

theorem ends_whileLoop_leave {fuel : Nat} (h : test x' s' = true)
    (hbody : Ends (body' x') s' (.leave y') t') :
    Ends (whileLoop stop test body' (fuel + 1) x') s' y' t' := by
  rw [whileLoop]
  refine (ends_get.mpr ⟨rfl, rfl⟩).bind ?_
  rw [if_pos h]
  exact hbody.bind (ends_pure.mpr ⟨rfl, rfl⟩)

variable {turn : σ → Run ε S (σ ⊕ β)} {enter : S → S'} {start : σ → σ'} {view : σ' → α'}
  {res : β → α'} {exit : β → S → S'}

/-- A loop whose turns do what the turns of another say does what that loop says. -/
theorem iterate_ends (hturn : ∀ x s r t, Ends (turn x) s r t →
      EndsTurn test enter start view res exit body' (start x) s r t)
    {fuel : Nat} {x : σ} {s u : S} {b : β} (h : Ends (iterate stop turn fuel x) s b u) :
    ∃ z', view z' = res b ∧
      Ends (whileLoop stop test body' fuel (start x)) (enter s) z' (exit b u) := by
  induction fuel generalizing x s with
  | zero => exact absurd h ends_throw
  | succ fuel ih =>
    rw [iterate] at h
    obtain ⟨r, t, hr, hrest⟩ := ends_bind.mp h
    have hmatch := hturn x s r t hr
    cases r with
    | inl y =>
      obtain ⟨z', hz, hloop⟩ := ih hrest
      exact ⟨z', hz, ends_whileLoop_again hmatch.1 hmatch.2 hloop⟩
    | inr b =>
      obtain ⟨rfl, rfl⟩ := ends_pure.mp hrest
      obtain ⟨z', hz, ⟨htest, hleave⟩ | ⟨htest, hagain, hfalse⟩ | ⟨htest, rfl, hexit⟩⟩ := hmatch
      · exact ⟨z', hz, ends_whileLoop_leave htest hleave⟩
      · exact ⟨z', hz, ends_whileLoop_again htest hagain (ends_whileLoop_of_not hfalse)⟩
      · exact ⟨_, hz, hexit.symm ▸ ends_whileLoop_of_not htest⟩

/-- The same for a `while` loop whose value is the result. -/
theorem iterate_follows {res : β → σ'} (hturn : ∀ x s r t, Ends (turn x) s r t →
      EndsTurn test enter start id res exit body' (start x) s r t) (fuel : Nat) (x : σ) :
    Follows enter res exit (iterate stop turn fuel x)
      (whileLoop stop test body' fuel (start x)) := by
  intro s b u h
  obtain ⟨z', rfl, hends⟩ := iterate_ends hturn h
  exact hends

end Loops

/-! ## Lists -/

theorem Mirrors.mapM {enter : S → S'} {f : α → Run ε S β} {f' : α → Run ε S' β}
    (h : ∀ a, Mirrors enter (f a) (f' a)) (xs : List α) :
    Mirrors enter (xs.mapM f) (xs.mapM f') := by
  induction xs with
  | nil => exact Mirrors.pure
  | cons x xs ih =>
    rw [List.mapM_cons, List.mapM_cons]
    exact Mirrors.bind (h x) fun y => Mirrors.bind ih fun ys => Mirrors.pure

theorem Mirrors.iterate {enter : S → S'} {stop : ε} {turn : σ → Run ε S (σ ⊕ β)}
    {turn' : σ → Run ε S' (σ ⊕ β)} (h : ∀ x, Mirrors enter (turn x) (turn' x)) (fuel : Nat)
    (x : σ) : Mirrors enter (iterate stop turn fuel x) (iterate stop turn' fuel x) := by
  induction fuel generalizing x with
  | zero => exact Mirrors.throw
  | succ fuel ih =>
    refine Mirrors.bind (h x) fun r => ?_
    cases r with
    | inl y => exact ih y
    | inr b => exact Mirrors.pure

end Icarus.Core.Effects
