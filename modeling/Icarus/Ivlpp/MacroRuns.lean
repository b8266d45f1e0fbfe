import Icarus.Ivlpp.MacroTree

/-!
# Runs of the macro table

What a lookup shows after any definitions and removals: the last definition of the name, in the
runs where a name that is defined again keeps its formal arguments and their default texts.
-/

namespace Icarus.Ivlpp

open Icarus.Core.SearchTree
open Icarus.Vvp.Symbols (Sorted)

/-- What the uses of a macro depend on. -/
structure Meaning where
  /-- The number of formal arguments. -/
  formals : Nat
  /-- Their default texts. -/
  defaults : List (Option CString)
  body : CString
  deriving DecidableEq

/-- The arguments of a definition begin with its name. -/
def Macro.meaning (m : Macro) : Meaning := ⟨m.argc - 1, m.defaults.tail, m.value⟩

/-- What the table has for a name. The names of the magic macros lead to another table. -/
def shown (name : CString) (t : MacroTable) : Option (Option Meaning) :=
  (defLookup name t).map fun
    | .magic _ => none
    | .plain cell => cell.map fun cur => (t.heap cur).val.meaning

/-- The names that `def_lookup` finds in the magic table. -/
def Magic (name : CString) : Prop := name = lineName ∨ name = fileName

/-- The last definitions of all names, after one more directive. -/
def Directive.record (s : CString → Option Meaning) : Directive → CString → Option Meaning
  | .define name m => Function.update s name (some m.meaning)
  | .undef name => Function.update s name none

/-- The last definition of each name that was not removed after it. -/
def lastDefined (ds : List Directive) : CString → Option Meaning :=
  ds.foldl Directive.record fun _ => none

/-- A directive does not define a magic macro, and it does not define a macro of the table with
other formal arguments or default texts. -/
def Directive.Keeps (t : MacroTable) : Directive → Prop
  | .define name m => ¬ Magic name ∧ ∀ old, shown name t = some (some old) →
      old.formals = m.meaning.formals ∧ old.defaults = m.meaning.defaults
  | .undef _ => True

/-- All directives of a run meet the condition in the table before them. -/
def KeepsAll : MacroTable → List Directive → Prop
  | _, [] => True
  | t, d :: ds => d.Keeps t ∧ ∀ t', d.apply t = some t' → KeepsAll t' ds

variable {t t' : MacroTable} {tree tree' l r : Shape} {name : CString} {path : List Frame}
  {cur : Nat} {m m₀ : Macro} {es es' xs ys : List (CString × Macro)}
  {s : CString → Option Meaning}

/-! ## Entries and last definitions -/

/-- The entries have what was recorded. -/
def Agrees (es : List (CString × Macro)) (s : CString → Option Meaning) : Prop :=
  ∀ name μ, (∃ m, (name, m) ∈ es ∧ m.meaning = μ) ↔ s name = some μ

theorem Agrees.of_mem (h : Agrees es s) (hmem : (name, m) ∈ es) : s name = some m.meaning :=
  (h name m.meaning).mp ⟨m, hmem, rfl⟩

theorem Agrees.of_not_mem (h : Agrees es s) (hnone : ∀ e ∈ es, e.1 ≠ name) : s name = none := by
  cases hs : s name with
  | none => rfl
  | some μ =>
    obtain ⟨m, hmem, -⟩ := (h name μ).mpr hs
    exact absurd rfl (hnone _ hmem)

/-- The other names have the same entries. -/
def SameOthers (name : CString) (es es' : List (CString × Macro)) : Prop :=
  ∀ e : CString × Macro, e.1 ≠ name → (e ∈ es' ↔ e ∈ es)

/-- The entry of a name becomes the only one of that name. -/
theorem Agrees.put (h : Agrees es s) (hothers : SameOthers name es es')
    (hentry : ∀ m', (name, m') ∈ es' ↔ m' = m) :
    Agrees es' (Function.update s name (some m.meaning)) := by
  intro other μ
  by_cases he : other = name
  · subst he
    rw [Function.update_self]
    constructor
    · rintro ⟨m', hmem, rfl⟩
      rw [(hentry m').mp hmem]
    · intro hμ
      exact ⟨m, (hentry m).mpr rfl, Option.some.inj hμ⟩
  · rw [Function.update_of_ne he, ← h other μ]
    exact exists_congr fun m' => and_congr_left fun _ => hothers (other, m') he

/-- The entries of a name go. -/
theorem Agrees.drop (h : Agrees es s) (hothers : SameOthers name es es')
    (hentry : ∀ e ∈ es', e.1 ≠ name) : Agrees es' (Function.update s name none) := by
  intro other μ
  by_cases he : other = name
  · subst he
    rw [Function.update_self]
    constructor
    · rintro ⟨m', hmem, -⟩
      exact absurd rfl (hentry _ hmem)
    · exact fun hμ => absurd hμ nofun
  · rw [Function.update_of_ne he, ← h other μ]
    exact exists_congr fun m' => and_congr_left fun _ => hothers (other, m') he

/-- The keys around an entry of a sorted list are other keys. -/
theorem sorted_others (h : Sorted (xs ++ (name, m) :: ys)) : ∀ e ∈ xs ++ ys, e.1 ≠ name := by
  obtain ⟨-, hcons, hcross⟩ := List.pairwise_append.mp h
  obtain ⟨hys, -⟩ := List.pairwise_cons.mp hcons
  intro e he
  obtain he | he := List.mem_append.mp he
  · exact (hcross e he _ List.mem_cons_self).ne
  · exact (hys e he).ne'

theorem sameOthers_middle : SameOthers name (xs ++ ys) (xs ++ (name, m) :: ys) := by
  intro e he
  rw [List.mem_append, List.mem_append, List.mem_cons]
  have hne : e ≠ (name, m) := fun h => he (h ▸ rfl)
  rw [or_iff_right hne]

theorem SameOthers.trans {es₁ es₂ es₃ : List (CString × Macro)} (h₁₂ : SameOthers name es₁ es₂)
    (h₂₃ : SameOthers name es₂ es₃) : SameOthers name es₁ es₃ := fun e he =>
  (h₂₃ e he).trans (h₁₂ e he)

theorem SameOthers.symm (h : SameOthers name es es') : SameOthers name es' es := fun e he =>
  (h e he).symm

/-- Only the middle entry has the name. -/
theorem mem_middle_iff (hothers : ∀ e ∈ xs ++ ys, e.1 ≠ name) (m' : Macro) :
    (name, m') ∈ xs ++ (name, m) :: ys ↔ m' = m := by
  constructor
  · intro hmem
    rw [List.mem_append, List.mem_cons, or_left_comm] at hmem
    obtain he | hmem := hmem
    · exact congrArg Prod.snd he
    · exact absurd rfl (hothers _ (List.mem_append.mpr hmem))
  · rintro rfl
    simp

/-! ## The lookup -/

/-- The magic table is a tree too. -/
theorem magic_holds : Holds magicTable (.node 0 (.node 1 .nil .nil) .nil) where
  linked := ⟨rfl, rfl, rfl, ⟨rfl, rfl, rfl, trivial, trivial⟩, trivial⟩
  root := rfl
  nodup := by decide
  bound := by decide
  sorted := by
    rw [Sorted]
    decide

/-- A name of the magic table is a magic name. -/
theorem magic_of_lookup {cell : Nat} (hlookup : defLookupInternal name magicTable =
    some (some cell)) : Magic name := by
  obtain ⟨path, cur, l, r, hfound, hshape, hkey⟩ | ⟨hnone, -⟩ :=
    defLookupInternal_spec magic_holds name
  · have hmem : cur ∈ (Shape.node 0 (.node 1 .nil .nil) .nil).addrs := by
      rw [hshape]
      exact addrs_fill.mem_iff.mpr (List.mem_append_left _ (by simp [Shape.addrs]))
    obtain rfl | rfl : cur = 1 ∨ cur = 0 := by simpa [Shape.addrs] using hmem
    · exact Or.inr hkey.symm
    · exact Or.inl hkey.symm
  · rw [hlookup] at hnone
    exact absurd (Option.some.inj hnone) (Option.some_ne_none cell)

/-- The lookup of a name: a magic macro, no entry, or the entry of a cell. -/
theorem defLookup_spec (h : Holds t tree) (name : CString) :
    (∃ cell, defLookup name t = some (.magic cell) ∧ Magic name) ∨
      (defLookup name t = some (.plain none) ∧ ∀ e ∈ items t.heap tree, e.1 ≠ name) ∨
      ∃ path cur l r, defLookup name t = some (.plain (some cur)) ∧
        tree = fill path (.node cur l r) ∧ (t.heap cur).key = name := by
  have hplain : (∃ cell, defLookup name t = some (.magic cell) ∧ Magic name) ∨
      defLookup name t = (defLookupInternal name t).map .plain := by
    by_cases hmagic : mayBeMagic name = true
    · obtain ⟨path, cell, l, r, hfound, -, -⟩ | ⟨hnone, -⟩ :=
        defLookupInternal_spec magic_holds name
      · refine Or.inl ⟨cell, ?_, magic_of_lookup hfound⟩
        rw [defLookup, if_pos hmagic, hfound]
        rfl
      · right
        rw [defLookup, if_pos hmagic, hnone]
        cases defLookupInternal name t <;> rfl
    · right
      rw [defLookup, if_neg hmagic]
      cases defLookupInternal name t <;> rfl
  obtain hmagic | hplain := hplain
  · exact Or.inl hmagic
  · obtain ⟨path, cur, l, r, hfound, hshape, hkey⟩ | ⟨hnone, hitems⟩ :=
      defLookupInternal_spec h name
    · exact Or.inr (Or.inr ⟨path, cur, l, r, by rw [hplain, hfound]; rfl, hshape, hkey⟩)
    · exact Or.inr (Or.inl ⟨by rw [hplain, hnone]; rfl, hitems⟩)

/-- A table shows what was recorded for all names. -/
structure Shows (t : MacroTable) (tree : Shape) (s : CString → Option Meaning) : Prop where
  holds : Holds t tree
  agrees : Agrees (items t.heap tree) s
  magic : ∀ name, Magic name → s name = none

theorem mem_items_node : ((t.heap cur).key, (t.heap cur).val) ∈
    items t.heap (fill path (.node cur l r)) := by
  rw [items_fill, items]
  simp

/-- The lookup gives what was recorded. -/
theorem Shows.shown_eq (h : Shows t tree s) (name : CString) : shown name t = some (s name) := by
  rw [shown]
  obtain ⟨cell, hlookup, hmagic⟩ | ⟨hlookup, hitems⟩ | ⟨path, cur, l, r, hlookup, hshape, hkey⟩ :=
    defLookup_spec h.holds name
  · rw [hlookup, h.magic name hmagic]
    rfl
  · rw [hlookup, h.agrees.of_not_mem hitems]
    rfl
  · have hmem : (name, (t.heap cur).val) ∈ items t.heap tree := by
      rw [hshape, ← hkey]
      exact mem_items_node
    rw [hlookup, h.agrees.of_mem hmem]
    rfl

/-! ## Steps and runs -/

theorem shows_empty : Shows emptyTable .nil fun _ => none where
  holds := ⟨trivial, rfl, List.nodup_nil, fun _ h => absurd h List.not_mem_nil, List.Pairwise.nil⟩
  agrees := by
    intro name μ
    constructor
    · rintro ⟨m, hmem, -⟩
      exact absurd hmem List.not_mem_nil
    · exact fun h => absurd h nofun
  magic := fun _ _ => rfl

/-- A definition is recorded. -/
theorem Shows.define (h : Shows t tree s) (hkeeps : (Directive.define name m).Keeps t) :
    ∃ t' tree', defineMacro name m t = some t' ∧
      Shows t' tree' ((Directive.define name m).record s) := by
  obtain ⟨hmagic, hold⟩ := hkeeps
  obtain ⟨t', tree', hdefine, hholds, ⟨xs, ys, m₀, hitems, hitems'⟩ |
    ⟨xs, ys, hitems, hothers, hitems'⟩⟩ := defineMacro_spec h.holds name m
  · refine ⟨t', tree', hdefine, hholds, ?_, ?_⟩
    · have hothers := sorted_others (hitems ▸ h.holds.sorted)
      have hmem : (name, m₀) ∈ items t.heap tree := by
        rw [hitems]
        simp
      obtain ⟨hformals, hdefaults⟩ := hold m₀.meaning (by
        rw [h.shown_eq, h.agrees.of_mem hmem])
      have hmeaning : ({ m₀ with value := m.value } : Macro).meaning = m.meaning :=
        congrArg₂ (fun n ds => (⟨n, ds, m.value⟩ : Meaning)) hformals hdefaults
      rw [Directive.record, ← hmeaning, hitems']
      refine (hitems ▸ h.agrees).put ?_ (mem_middle_iff hothers)
      exact sameOthers_middle.symm.trans sameOthers_middle
    · intro other hother
      have hne : other ≠ name := fun he => hmagic (he ▸ hother)
      rw [Directive.record, Function.update_of_ne hne]
      exact h.magic other hother
  · refine ⟨t', tree', hdefine, hholds, ?_, ?_⟩
    · rw [Directive.record, hitems']
      exact (hitems ▸ h.agrees).put sameOthers_middle (mem_middle_iff hothers)
    · intro other hother
      have hne : other ≠ name := fun he => hmagic (he ▸ hother)
      rw [Directive.record, Function.update_of_ne hne]
      exact h.magic other hother

/-- A removal is recorded. -/
theorem Shows.undefine (h : Shows t tree s) (name : CString) :
    ∃ t' tree', defUndefine name t = some t' ∧
      Shows t' tree' ((Directive.undef name).record s) := by
  have hsame : s name = none → Shows t tree ((Directive.undef name).record s) := by
    intro hnone
    rw [Directive.record, ← hnone, Function.update_eq_self]
    exact h
  obtain ⟨cell, hlookup, hmagic⟩ | ⟨hlookup, hitems⟩ | ⟨path, cur, l, r, hlookup, rfl, rfl⟩ :=
    defLookup_spec h.holds name
  · exact ⟨t, tree, by rw [defUndefine, hlookup]; rfl, hsame (h.magic name hmagic)⟩
  · exact ⟨t, tree, by rw [defUndefine, hlookup]; rfl, hsame (h.agrees.of_not_mem hitems)⟩
  · obtain ⟨t', hunlink, hholds, xs, ys, hitems, hitems'⟩ := unlink_spec h.holds
    refine ⟨t', _, by rw [defUndefine, hlookup]; exact hunlink, hholds, ?_, ?_⟩
    · rw [Directive.record, hitems']
      exact (hitems ▸ h.agrees).drop sameOthers_middle.symm
        (sorted_others (hitems ▸ h.holds.sorted))
    · intro other hother
      rw [Directive.record]
      by_cases he : other = (t.heap cur).key
      · rw [he, Function.update_self]
      · rw [Function.update_of_ne he]
        exact h.magic other hother

theorem Shows.apply (h : Shows t tree s) {d : Directive} (hkeeps : d.Keeps t) :
    ∃ t' tree', d.apply t = some t' ∧ Shows t' tree' (d.record s) := by
  cases d with
  | define name m => exact h.define hkeeps
  | undef name => exact h.undefine name

theorem Shows.applyAll (h : Shows t tree s) {ds : List Directive} (hkeeps : KeepsAll t ds) :
    ∃ t' tree', applyAll t ds = some t' ∧ Shows t' tree' (ds.foldl Directive.record s) := by
  induction ds generalizing t tree s with
  | nil => exact ⟨t, tree, rfl, h⟩
  | cons d ds ih =>
    obtain ⟨hd, hds⟩ := hkeeps
    obtain ⟨t₁, tree₁, hstep, h₁⟩ := h.apply hd
    obtain ⟨t', tree', hrun, h'⟩ := ih h₁ (hds t₁ hstep)
    refine ⟨t', tree', ?_, h'⟩
    rw [Ivlpp.applyAll, List.foldlM_cons, hstep]
    exact hrun

/-- In a run whose definitions keep the formal arguments of the macros of the table, each lookup
shows the last definition, and the table is a search tree with all its links. -/
theorem shown_lastDefined (ds : List Directive) (hkeeps : KeepsAll emptyTable ds) :
    ∃ t, applyAll emptyTable ds = some t ∧ (∃ tree, Holds t tree) ∧
      ∀ name, shown name t = some (lastDefined ds name) := by
  obtain ⟨t, tree, hrun, h⟩ := shows_empty.applyAll hkeeps
  exact ⟨t, hrun, ⟨tree, h.holds⟩, h.shown_eq⟩

/-- A run that defines, defines again and removes. -/
def someDirectives : List Directive :=
  [.define (ofString "F") ⟨ofString "a", false, 2, [none, some (ofString "0")]⟩,
    .define (ofString "D") ⟨ofString "b", false, 1, [none]⟩,
    .define (ofString "F") ⟨ofString "c", false, 2, [none, some (ofString "0")]⟩,
    .undef (ofString "D")]

theorem shown_lastDefined_some : ∃ t, applyAll emptyTable someDirectives = some t ∧
    (∃ tree, Holds t tree) ∧ ∀ name, shown name t = some (lastDefined someDirectives name) := by
  apply shown_lastDefined
  refine ⟨⟨by rw [Magic]; decide, fun old hold => ?_⟩, fun t₁ h₁ => ?_⟩
  · exact absurd (Option.some.inj hold) nofun
  obtain rfl := Option.some.inj h₁
  refine ⟨⟨by rw [Magic]; decide, fun old hold => ?_⟩, fun t₂ h₂ => ?_⟩
  · exact absurd (Option.some.inj hold) nofun
  obtain rfl := Option.some.inj h₂
  refine ⟨⟨by rw [Magic]; decide, fun old hold => ?_⟩, fun t₃ h₃ => ?_⟩
  · obtain rfl := Option.some.inj (Option.some.inj hold)
    exact ⟨rfl, rfl⟩
  exact ⟨trivial, fun _ _ => trivial⟩

/-- A macro with one formal argument and then with two: the table keeps the first. -/
def otherFormals : List Directive :=
  [.define (ofString "F") ⟨ofString "a", false, 2, [none, none]⟩,
    .define (ofString "F") ⟨ofString "b", false, 3, [none, none, none]⟩]

theorem shown_otherFormals : ¬ ∃ t, applyAll emptyTable otherFormals = some t ∧
    (∃ tree, Holds t tree) ∧ ∀ name, shown name t = some (lastDefined otherFormals name) := by
  rintro ⟨t, hrun, -, hshown⟩
  obtain rfl := Option.some.inj hrun
  have hformals := congrArg Meaning.formals (Option.some.inj (Option.some.inj
    (hshown (ofString "F"))))
  exact absurd hformals (by decide)

end Icarus.Ivlpp
