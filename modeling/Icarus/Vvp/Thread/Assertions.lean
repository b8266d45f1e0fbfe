import Icarus.Vvp.Thread.Join

/-!
# Assertions about threads

Which assertions of the opcodes can fail: those about the program, which has to join and wait as
the compiler has it do, and no others.
-/

namespace Icarus.Vvp

open Core

namespace VThreads

variable {s s' u : VThreads} {thr target p : Nat}

/-! ## Threads that wait for detached children -/

/-- A thread that is suspended in a `%wait/fork`, disabled or not, is not scheduled. -/
def Quiet (s : VThreads) : Prop :=
  ∀ t, (s.threads t).iAmWaiting = true → (s.threads t).isScheduled = false ∧
    (s.threads t).waitingForEvent = false ∧ (s.threads t).iAmJoining = false

theorem Keeps.quiet (h : Keeps s s') (hq : Quiet s) : Quiet s' := by
  intro t ht
  obtain ⟨hw, hv, -, hj, hs⟩ := h t
  obtain ⟨hidle, hevent, hjoin⟩ := hq t (hw.symm.trans ht)
  refine ⟨Bool.eq_false_of_not_eq_true fun hsched => ?_, hv.trans hevent,
    Bool.eq_false_of_not_eq_true fun hjoin' => ?_⟩
  · rcases hs hsched with hsched | hjoin'
    · exact absurd (hidle.symm.trans hsched) Bool.false_ne_true
    · exact absurd (hjoin.symm.trans hjoin') Bool.false_ne_true
  · exact absurd (hjoin.symm.trans (hj hjoin')) Bool.false_ne_true

/-- A thread that is not waiting is changed. -/
theorem Quiet.modify (h : Quiet s) {f : VThread → VThread}
    (hf : (f (s.threads thr)).iAmWaiting = false) : Quiet (s.modify thr f) := by
  intro t ht
  rcases eq_or_ne t thr with rfl | hne
  · rw [modify_self] at ht
    exact absurd (hf.symm.trans ht) Bool.false_ne_true
  · rw [modify_of_ne s hne] at ht ⊢
    exact h t ht

/-- A thread that is not waiting is created. -/
theorem Quiet.add (h : Quiet s) {t : VThread} (ht : t.iAmWaiting = false) :
    Quiet { s with threads := Function.update s.threads s.next t } :=
  show Quiet (s.modify s.next fun _ => t) from h.modify ht

/-! ## The opcodes -/

/-- A step that happens if and only if `P` does, and keeps the threads that wait quiet. -/
def Goes (r : Option VThreads) (P : Prop) : Prop := (r.isSome ↔ P) ∧ ∀ s', r = some s' → Quiet s'

theorem Goes.done {P : Prop} (hP : P) (hs : Quiet s) : Goes (some s) P :=
  ⟨iff_of_true rfl hP, fun _ hs' => Option.some.inj hs' ▸ hs⟩

end VThreads

end Icarus.Vvp
