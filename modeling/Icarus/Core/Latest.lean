import Mathlib.Order.Lattice
import Mathlib.Data.List.Basic

/-!
# Scans for the latest

A scan keeps the elements with the latest key met so far. An element as late as those kept
joins them where the scan takes ties, and a later one replaces them.
-/

namespace Icarus.Core.Latest

variable {α K : Type} [LinearOrder K] (key : α → K) (joins : K → Prop)

/-- One element of a scan. -/
def add [DecidablePred joins] (c : List α × K) (cur : α) : List α × K :=
  if c.1 = [] then ([cur], key cur)
  else if key cur = c.2 ∧ joins c.2 then (c.1 ++ [cur], c.2)
  else if c.2 < key cur then ([cur], key cur)
  else c

/-- A scan of a list. -/
def scan [DecidablePred joins] (c : List α × K) (l : List α) : List α × K :=
  l.foldl (add key joins) c

/-- What is kept of the elements met. -/
structure Kept (met : List α) (c : List α × K) : Prop where
  /-- Only elements that were met are kept. -/
  mem : ∀ a ∈ c.1, a ∈ met
  /-- All that is kept has the key of the scan. -/
  key_eq : ∀ a ∈ c.1, key a = c.2
  /-- Nothing that was met is later. -/
  le : ∀ a ∈ met, key a ≤ c.2
  /-- Something is kept once something was met. -/
  ne_nil : ∀ a ∈ met, c.1 ≠ []
  /-- At a key with ties, all that was met with it is kept. -/
  complete : joins c.2 → ∀ a ∈ met, key a = c.2 → a ∈ c.1

variable {key joins} {met l : List α} {c : List α × K} {cur : α}

theorem kept_nil (k : K) : Kept key joins [] ([], k) :=
  ⟨fun _ ha => ha, fun _ ha => by simp at ha, fun _ ha => by simp at ha, fun _ ha => by simp at ha,
    fun _ _ ha => by simp at ha⟩

/-- An element that replaces all others. -/
theorem Kept.replace (hlt : ∀ a ∈ met, key a < key cur) :
    Kept key joins (met ++ [cur]) ([cur], key cur) := by
  have hle : ∀ a ∈ met ++ [cur], key a ≤ key cur := by
    intro a ha
    rcases List.mem_append.mp ha with hmet | hcur
    · exact (hlt a hmet).le
    · rw [List.mem_singleton.mp hcur]
  refine ⟨?_, ?_, hle, fun _ _ => List.cons_ne_nil _ _, ?_⟩
  · exact fun a ha => List.mem_append_right met ha
  · intro a ha
    rw [List.mem_singleton.mp ha]
  · intro _ a ha hkey
    rcases List.mem_append.mp ha with hmet | hcur
    · exact absurd hkey (hlt a hmet).ne
    · exact hcur

/-- At a key with ties, the latest are kept. -/
theorem Kept.mem_iff (h : Kept key joins met c) (hjoins : joins c.2) (a : α) :
    a ∈ c.1 ↔ a ∈ met ∧ ∀ b ∈ met, key b ≤ key a := by
  constructor
  · intro ha
    refine ⟨h.mem a ha, fun b hb => ?_⟩
    rw [h.key_eq a ha]
    exact h.le b hb
  · rintro ⟨ha, hlatest⟩
    obtain ⟨b, hb⟩ := List.exists_mem_of_ne_nil _ (h.ne_nil a ha)
    have hle := hlatest b (h.mem b hb)
    rw [h.key_eq b hb] at hle
    exact h.complete hjoins a ha ((h.le a ha).antisymm hle)

variable [DecidablePred joins]

theorem add_of_nil (h : c.1 = []) : add key joins c cur = ([cur], key cur) := if_pos h

theorem add_of_lt (h : c.2 < key cur) : add key joins c cur = ([cur], key cur) := by
  unfold add
  split_ifs with hnil htie
  · rfl
  · exact absurd htie.1 h.ne'
  · rfl

theorem add_of_tie (hne : c.1 ≠ []) (hkey : key cur = c.2) (hjoins : joins c.2) :
    add key joins c cur = (c.1 ++ [cur], c.2) := by
  rw [add, if_neg hne, if_pos ⟨hkey, hjoins⟩]

theorem add_of_le (hne : c.1 ≠ []) (hle : key cur ≤ c.2) (htie : key cur = c.2 → ¬ joins c.2) :
    add key joins c cur = c := by
  rw [add, if_neg hne, if_neg fun h => htie h.1 h.2, if_neg hle.not_gt]

theorem Kept.add (h : Kept key joins met c) (cur : α) :
    Kept key joins (met ++ [cur]) (add key joins c cur) := by
  by_cases hnil : c.1 = []
  · rw [add_of_nil hnil]
    exact Kept.replace fun a ha => absurd hnil (h.ne_nil a ha)
  rcases lt_trichotomy (key cur) c.2 with hlt | heq | hgt
  · rw [add_of_le hnil hlt.le fun heq => absurd heq hlt.ne]
    refine ⟨fun a ha => List.mem_append_left _ (h.mem a ha), h.key_eq, ?_, fun _ _ => hnil, ?_⟩
    · intro a ha
      rcases List.mem_append.mp ha with hmet | hcur
      · exact h.le a hmet
      · rw [List.mem_singleton.mp hcur]
        exact hlt.le
    · intro hjoins a ha hkey
      rcases List.mem_append.mp ha with hmet | hcur
      · exact h.complete hjoins a hmet hkey
      · rw [List.mem_singleton.mp hcur] at hkey
        exact absurd hkey hlt.ne
  · have hle : ∀ a ∈ met ++ [cur], key a ≤ c.2 := by
      intro a ha
      rcases List.mem_append.mp ha with hmet | hcur
      · exact h.le a hmet
      · rw [List.mem_singleton.mp hcur, heq]
    by_cases hjoins : joins c.2
    · rw [add_of_tie hnil heq hjoins]
      refine ⟨?_, ?_, hle, fun _ _ => by simp, ?_⟩
      · intro a ha
        rcases List.mem_append.mp ha with hold | hcur
        · exact List.mem_append_left _ (h.mem a hold)
        · exact List.mem_append_right _ hcur
      · intro a ha
        rcases List.mem_append.mp ha with hold | hcur
        · exact h.key_eq a hold
        · rw [List.mem_singleton.mp hcur, heq]
      · intro _ a ha hkey
        rcases List.mem_append.mp ha with hmet | hcur
        · exact List.mem_append_left _ (h.complete hjoins a hmet hkey)
        · exact List.mem_append_right _ hcur
    · rw [add_of_le hnil heq.le fun _ => hjoins]
      exact ⟨fun a ha => List.mem_append_left _ (h.mem a ha), h.key_eq, hle, fun _ _ => hnil,
        fun hc => absurd hc hjoins⟩
  · rw [add_of_lt hgt]
    exact Kept.replace fun a ha => (h.le a ha).trans_lt hgt

/-- What a scan keeps, of what was met before it and of its list. -/
theorem Kept.scan (h : Kept key joins met c) (l : List α) :
    Kept key joins (met ++ l) (scan key joins c l) := by
  induction l generalizing met c with
  | nil => rwa [List.append_nil]
  | cons cur l ih =>
    rw [List.append_cons]
    exact ih (h.add cur)

/-- A scan that meets nothing later and takes no ties keeps what it began with. -/
theorem scan_of_le (hne : c.1 ≠ []) (hjoins : ¬ joins c.2) (hle : ∀ a ∈ l, key a ≤ c.2) :
    scan key joins c l = c := by
  induction l with
  | nil => rfl
  | cons cur l ih =>
    rw [scan, List.foldl_cons, add_of_le hne (hle cur List.mem_cons_self) fun _ => hjoins]
    exact ih fun a ha => hle a (List.mem_cons_of_mem cur ha)

end Icarus.Core.Latest
