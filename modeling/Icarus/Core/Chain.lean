import Mathlib.Data.List.Basic

/-!
# Chains of cells

A list of cells strung together by a link in each, as a free list is. The chain
from a cell is what the links of its cells make it; links of other cells do not
matter.
-/

namespace Icarus.Core

/-- The cells met from a start along the links, up to the end. -/
inductive Chain {α : Type} (next : α → Option α) : Option α → List α → Prop
  | nil : Chain next none []
  | cons {t : α} {l : List α} : Chain next (next t) l → Chain next (some t) (t :: l)

namespace Chain

variable {α : Type} {next next' : α → Option α} {start : Option α} {t : α} {l l' : List α}

/-- A start has one chain. -/
theorem unique (h : Chain next start l) (h' : Chain next start l') : l = l' := by
  induction h generalizing l' with
  | nil =>
    cases h'
    rfl
  | cons _ ih =>
    cases h' with
    | cons h' => rw [ih h']

/-- Only the links of the cells of a chain matter. -/
theorem congr (h : Chain next start l) (hnext : ∀ t ∈ l, next' t = next t) :
    Chain next' start l := by
  induction h with
  | nil => exact .nil
  | @cons t l _ ih =>
    apply Chain.cons
    rw [hnext t List.mem_cons_self]
    exact ih fun u hu => hnext u (List.mem_cons_of_mem t hu)

/-- A chain from a cell begins with it. -/
theorem exists_eq_cons (h : Chain next (some t) l) : ∃ rest, l = t :: rest ∧
    Chain next (next t) rest := by
  cases h with
  | @cons _ rest hrest => exact ⟨rest, rfl, hrest⟩

/-- The chain of no start is empty. -/
theorem eq_nil (h : Chain next none l) : l = [] := by
  cases h
  rfl

/-- A cell in front whose link leads to the old start. -/
theorem push (h : Chain next start l) (hnot : t ∉ l) (hlink : next' t = start)
    (hnext : ∀ u, u ≠ t → next' u = next u) : Chain next' (some t) (t :: l) := by
  apply Chain.cons
  rw [hlink]
  apply h.congr
  intro u hu
  apply hnext u
  rintro rfl
  exact hnot hu

/-- A chain starts with its first cell. -/
theorem start_eq (h : Chain next start l) : start = l.head? := by
  cases h <;> rfl

/-- What follows a cell is the chain of its link. -/
theorem after {pre : List α} (h : Chain next start (pre ++ t :: l)) : Chain next (next t) l := by
  induction pre generalizing start with
  | nil =>
    cases h with
    | cons h => exact h
  | cons u pre ih =>
    cases h with
    | cons h => exact ih h

/-- A cell with a new link is followed by the chain of that. -/
theorem relink {pre : List α} (h : Chain next start (pre ++ t :: l))
    (hlink : Chain next' (next' t) l') (hnext : ∀ u ∈ pre, next' u = next u) :
    Chain next' start (pre ++ t :: l') := by
  induction pre generalizing start with
  | nil =>
    cases h
    exact .cons hlink
  | cons u pre ih =>
    cases h with
    | cons h =>
      apply Chain.cons
      rw [hnext u List.mem_cons_self]
      exact ih h fun v hv => hnext v (List.mem_cons_of_mem u hv)

/-- What a cell of a chain links to comes after the first cell. -/
theorem mem_tail {u : α} (h : Chain next start l) (ht : t ∈ l) (hlink : next t = some u) :
    u ∈ l.tail := by
  obtain ⟨pre, post, rfl⟩ := List.append_of_mem ht
  have hpost := h.after
  rw [hlink] at hpost
  obtain ⟨rest, rfl, -⟩ := hpost.exists_eq_cons
  cases pre with
  | nil => exact List.mem_cons_self
  | cons v pre =>
    rw [List.cons_append, List.tail_cons]
    exact List.mem_append_right pre (List.mem_cons_of_mem t List.mem_cons_self)

/-- Two cells of a chain without repetition do not link to the same one. -/
theorem eq_of_link {u v : α} (h : Chain next start l) (hl : l.Nodup) (ht : t ∈ l) (hu : u ∈ l)
    (htv : next t = some v) (huv : next u = some v) : t = u := by
  induction h with
  | nil => cases ht
  | @cons w l hrest ih =>
    have hlater : ∀ x ∈ l, next x = some v → next w ≠ some v := by
      intro x hx hxv hwv
      have hv := hrest.mem_tail hx hxv
      rw [hwv] at hrest
      obtain ⟨rest, rfl, -⟩ := hrest.exists_eq_cons
      exact (List.nodup_cons.mp (List.nodup_cons.mp hl).2).1 hv
    rcases List.mem_cons.mp ht with rfl | htl
    · rcases List.mem_cons.mp hu with rfl | hul
      · rfl
      · exact absurd htv (hlater u hul huv)
    · rcases List.mem_cons.mp hu with rfl | hul
      · exact absurd huv (hlater t htl htv)
      · exact ih (List.nodup_cons.mp hl).2 htl hul

/-- A cell is taken out of a chain by leading what led to it to what it led to. -/
theorem unlink [DecidableEq α] (h : Chain next start l) (hl : l.Nodup)
    (hnext : ∀ u ∈ l, u ≠ t → next' u = if next u = some t then next t else next u) :
    Chain next' (if start = some t then next t else start) (l.filter (· ≠ t)) := by
  induction h with
  | nil => exact .nil
  | @cons u l hrest ih =>
    obtain ⟨hu, hl⟩ := List.nodup_cons.mp hl
    by_cases heq : u = t
    · subst heq
      rw [if_pos rfl, List.filter_cons_of_neg (by simp), List.filter_eq_self.mpr]
      · apply hrest.congr
        intro v hv
        have hne : v ≠ u := fun heq => hu (heq ▸ hv)
        rw [hnext v (List.mem_cons_of_mem u hv) hne, if_neg]
        intro hlink
        exact hu (List.mem_of_mem_tail (hrest.mem_tail hv hlink))
      · intro v hv
        have hne : v ≠ u := fun heq => hu (heq ▸ hv)
        simpa using hne
    · rw [if_neg (by simpa using heq), List.filter_cons_of_pos (by simpa using heq)]
      apply Chain.cons
      rw [hnext u List.mem_cons_self heq]
      exact ih hl fun v hv => hnext v (List.mem_cons_of_mem u hv)

end Chain

end Icarus.Core
