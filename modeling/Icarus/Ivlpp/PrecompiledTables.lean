import Icarus.Ivlpp.MacroRuns
import Icarus.Ivlpp.Precompiled

/-!
# Precompiled tables

When a table that was written to a file and read into an empty table has the macros that it had.
-/

namespace Icarus.Ivlpp

open Icarus.Core.SearchTree
open Icarus.Vvp.Symbols (Sorted)

/-- The entry of a name. -/
def entryOf (name : CString) (t : MacroTable) : Option (Option Macro) :=
  (defLookupInternal name t).map fun cell => cell.map fun cur => (t.heap cur).val

/-- What the table has for a name, if it is no keyword. -/
def meaningOf (name : CString) (t : MacroTable) : Option (Option Meaning) :=
  (entryOf name t).map fun e => (e.filter fun m => !m.keyword).map Macro.meaning

/-- No default texts have been parsed before the files are read. -/
def noDefaults : Nat → Option CString := fun _ => none

/-- The table that is read from the file has the macros of the table that was written. -/
def RoundTrips (t : MacroTable) : Prop :=
  ∃ file t', dumpPrecompiledDefines t = some file ∧
    loadPrecompiledDefines noDefaults file emptyTable = some t' ∧
    ∀ name, meaningOf name t' = meaningOf name t

/-- The macros of a table that are no keywords have no default texts and names that can be read
back. -/
def Portable (t : MacroTable) : Prop :=
  ∀ name m, entryOf name t = some (some m) → m.keyword = false →
    Readable name ∧ ∀ d ∈ m.meaning.defaults, d = none

/-- Each definition comes with a default text, or none, for each of its arguments. -/
def Directive.Filled : Directive → Prop
  | .define _ m => m.defaults.length = m.argc
  | .undef _ => True

variable {t t' : MacroTable} {tree tree' l r : Shape} {name : CString} {path : List Frame}
  {cur : Nat} {m m₀ : Macro} {es es' xs ys rs : List (CString × Macro)}
  {Q : CString → Macro → Prop}

/-! ## Entries -/

/-- The entry of a cell. -/
def entryAt (heap : Nat → Define) (a : Nat) : CString × Macro := ((heap a).key, (heap a).val)

theorem mem_items_unique (h : Holds t tree) (hm : (name, m) ∈ items t.heap tree)
    (hm₀ : (name, m₀) ∈ items t.heap tree) : m = m₀ := by
  obtain ⟨xs, ys, hsplit⟩ := List.append_of_mem hm
  have hothers := sorted_others (hsplit ▸ h.sorted)
  rw [hsplit] at hm₀
  exact ((mem_middle_iff hothers m₀).mp hm₀).symm

/-- The lookup finds the entries. -/
theorem entryOf_eq_some (h : Holds t tree) :
    entryOf name t = some (some m) ↔ (name, m) ∈ items t.heap tree := by
  obtain ⟨path, cur, l, r, hfound, rfl, rfl⟩ | ⟨hnone, hothers⟩ := defLookupInternal_spec h name
  · rw [entryOf, hfound]
    constructor
    · intro he
      obtain rfl := Option.some.inj (Option.some.inj he)
      exact mem_items_node
    · intro hmem
      rw [mem_items_unique h hmem mem_items_node]
      rfl
  · rw [entryOf, hnone]
    constructor
    · exact fun he => absurd (Option.some.inj he) nofun
    · exact fun hmem => absurd rfl (hothers _ hmem)

theorem entryOf_ne_none (h : Holds t tree) : entryOf name t ≠ none := by
  obtain ⟨path, cur, l, r, hfound, -, -⟩ | ⟨hnone, -⟩ := defLookupInternal_spec h name
  · rw [entryOf, hfound]
    exact nofun
  · rw [entryOf, hnone]
    exact nofun

theorem meaningOf_eq_some (h : Holds t tree) {μ : Meaning} :
    meaningOf name t = some (some μ) ↔
      ∃ m, (name, m) ∈ items t.heap tree ∧ m.keyword = false ∧ m.meaning = μ := by
  constructor
  · intro hmeaning
    obtain ⟨e, he, hfilter⟩ := Option.map_eq_some_iff.mp hmeaning
    obtain ⟨m, hm, hμ⟩ := Option.map_eq_some_iff.mp hfilter
    obtain ⟨rfl, hkey⟩ := Option.filter_eq_some_iff.mp hm
    exact ⟨m, (entryOf_eq_some h).mp he, by simpa using hkey, hμ⟩
  · rintro ⟨m, hmem, hkey, rfl⟩
    rw [meaningOf, (entryOf_eq_some h).mpr hmem]
    simp [Option.filter, hkey]

theorem meaningOf_ne_none (h : Holds t tree) (name : CString) : meaningOf name t ≠ none := by
  intro hnone
  exact entryOf_ne_none h (Option.map_eq_none_iff.mp hnone)

/-- Tables with the same macros that are no keywords. -/
theorem meaningOf_congr (h : Holds t tree) (h' : Holds t' tree')
    (hsame : ∀ μ, meaningOf name t' = some (some μ) ↔ meaningOf name t = some (some μ)) :
    meaningOf name t' = meaningOf name t := by
  obtain ⟨e, he⟩ := Option.ne_none_iff_exists'.mp (meaningOf_ne_none h name)
  obtain ⟨e', he'⟩ := Option.ne_none_iff_exists'.mp (meaningOf_ne_none h' name)
  rw [he, he'] at hsame ⊢
  cases e with
  | some μ => exact (hsame μ).mpr rfl
  | none =>
    cases e' with
    | none => rfl
    | some μ => exact absurd ((hsame μ).mp rfl) nofun

/-! ## What all entries have -/

/-- All entries of a table have a property. -/
def AllEntries (Q : CString → Macro → Prop) (t : MacroTable) : Prop :=
  ∃ tree, Holds t tree ∧ ∀ e ∈ items t.heap tree, Q e.1 e.2

/-- A property that does not depend on the text stays through a definition. -/
theorem AllEntries.define (h : AllEntries Q t)
    (hvalue : ∀ m₀, Q name m₀ → Q name { m₀ with value := m.value }) (hm : Q name m) :
    ∃ t', defineMacro name m t = some t' ∧ AllEntries Q t' := by
  obtain ⟨tree, hholds, hall⟩ := h
  obtain ⟨t', tree', hdefine, hholds', ⟨xs, ys, m₀, hitems, hitems'⟩ |
    ⟨xs, ys, hitems, -, hitems'⟩⟩ := defineMacro_spec hholds name m
  · refine ⟨t', hdefine, tree', hholds', fun e he => ?_⟩
    rw [hitems] at hall
    rw [hitems'] at he
    obtain he | he := List.mem_append.mp he
    · exact hall e (List.mem_append_left _ he)
    · obtain rfl | he := List.mem_cons.mp he
      · exact hvalue m₀ (hall (name, m₀) (by simp))
      · exact hall e (by simp [he])
  · refine ⟨t', hdefine, tree', hholds', fun e he => ?_⟩
    rw [hitems] at hall
    rw [hitems'] at he
    obtain he | he := List.mem_append.mp he
    · exact hall e (List.mem_append_left _ he)
    · obtain rfl | he := List.mem_cons.mp he
      · exact hm
      · exact hall e (by simp [he])

theorem AllEntries.undefine (h : AllEntries Q t) (name : CString) :
    ∃ t', defUndefine name t = some t' ∧ AllEntries Q t' := by
  have hkeep := h
  obtain ⟨tree, hholds, hall⟩ := h
  obtain ⟨cell, hlookup, -⟩ | ⟨hlookup, -⟩ | ⟨path, cur, l, r, hlookup, rfl, rfl⟩ :=
    defLookup_spec hholds name
  · exact ⟨t, by rw [defUndefine, hlookup]; rfl, hkeep⟩
  · exact ⟨t, by rw [defUndefine, hlookup]; rfl, hkeep⟩
  · obtain ⟨t', hunlink, hholds', xs, ys, hitems, hitems'⟩ := unlink_spec hholds
    refine ⟨t', by rw [defUndefine, hlookup]; exact hunlink, _, hholds', fun e he => ?_⟩
    rw [hitems] at hall
    rw [hitems'] at he
    refine hall e ?_
    rw [List.mem_append, List.mem_cons]
    exact (List.mem_append.mp he).imp_right Or.inr

theorem allEntries_empty : AllEntries Q emptyTable :=
  ⟨.nil, shows_empty.holds, fun _ he => absurd he List.not_mem_nil⟩

/-- The tables of runs have a default text, or none, for each argument. -/
theorem allEntries_filled {ds : List Directive} (hds : ∀ d ∈ ds, d.Filled)
    (h : AllEntries (fun _ m => m.defaults.length = m.argc) t) :
    ∃ t', applyAll t ds = some t' ∧ AllEntries (fun _ m => m.defaults.length = m.argc) t' := by
  induction ds generalizing t with
  | nil => exact ⟨t, rfl, h⟩
  | cons d ds ih =>
    have hstep : ∃ t₁, d.apply t = some t₁ ∧
        AllEntries (fun _ m => m.defaults.length = m.argc) t₁ := by
      cases d with
      | define name m => exact h.define (fun _ h₀ => h₀) (hds _ List.mem_cons_self)
      | undef name => exact h.undefine name
    obtain ⟨t₁, hstep, h₁⟩ := hstep
    obtain ⟨t', hrun, h'⟩ := ih (fun d hd => hds d (List.mem_cons_of_mem _ hd)) h₁
    refine ⟨t', ?_, h'⟩
    rw [applyAll, List.foldlM_cons, hstep]
    exact hrun

/-- The macros that are read have names that can be read and no default texts. -/
theorem loadLoop_portable {fuel : Nat} {src : CString}
    (h : AllEntries (fun name m => Readable name ∧ ∀ d ∈ m.defaults, d = none) t)
    (hload : loadLoop noDefaults fuel src t = some t') :
    AllEntries (fun name m => Readable name ∧ ∀ d ∈ m.defaults, d = none) t' := by
  induction fuel generalizing t src with
  | zero => exact absurd hload nofun
  | succ fuel ih =>
    obtain ⟨turn, hread, hturn⟩ := Option.bind_eq_some_iff.mp hload
    cases turn with
    | stop => exact Option.some.inj hturn ▸ h
    | record name argc value rest =>
      obtain ⟨t₁, hdefine, hrest⟩ := Option.bind_eq_some_iff.mp hturn
      have hloaded : Readable name ∧ ∀ d ∈ (loaded noDefaults argc value).defaults, d = none := by
        refine ⟨readRecord_readable hread, fun d hd => ?_⟩
        obtain ⟨i, -, hi⟩ := List.mem_map.mp hd
        exact hi.symm
      obtain ⟨t₂, hdefine', h₂⟩ := h.define (fun _ h₀ => h₀) hloaded
      obtain rfl : t₂ = t₁ := Option.some.inj (hdefine'.symm.trans hdefine)
      exact ih h₂ hrest

/-! ## The file -/

/-- The records of some macros. -/
def fileOf (es : List (CString × Macro)) : CString :=
  (es.filter fun e => !e.2.keyword).flatMap fun e => record e.1 e.2

theorem fileOf_append : fileOf (es ++ es') = fileOf es ++ fileOf es' := by
  rw [fileOf, List.filter_append, List.flatMap_append]
  rfl

/-- The file has a record for each macro, in the order of the recursion. -/
theorem doDump_eq {heap : Nat → Define} {up : Option Nat} {fuel : Nat} {a : Nat}
    (hlinked : Linked heap up (.node a l r)) (hfuel : (Shape.node a l r).size ≤ fuel) :
    doDump heap fuel a = some (fileOf ((Shape.node a l r).preorder.map (entryAt heap))) := by
  induction fuel generalizing up a l r with
  | zero => exact absurd hfuel (by simp [Shape.size])
  | succ fuel ih =>
    obtain ⟨-, hleft, hright, hl, hr⟩ := hlinked
    rw [Shape.size] at hfuel
    have hsub : ∀ s : Shape, Linked heap (some a) s → s.size ≤ fuel →
        dumpChild (doDump heap fuel) s.root = some (fileOf (s.preorder.map (entryAt heap))) := by
      intro s hs hsize
      cases s with
      | nil => rfl
      | node b l₁ r₁ => exact ih hs hsize
    have htext : (if (heap a).val.keyword then [] else record (heap a).key (heap a).val) =
        fileOf [entryAt heap a] := by
      cases hkey : (heap a).val.keyword <;> simp [fileOf, entryAt, hkey]
    rw [doDump, hleft, hright, hsub l hl (by omega), hsub r hr (by omega), htext]
    simp only [Option.bind_eq_bind, Option.bind_some, Option.pure_def]
    rw [← fileOf_append, ← fileOf_append, Shape.preorder, List.map_cons, List.map_append]
    rfl

/-- A table is written. -/
theorem dumpPrecompiledDefines_eq (h : Holds t tree) :
    dumpPrecompiledDefines t = some (fileOf (tree.preorder.map (entryAt t.heap))) := by
  rw [dumpPrecompiledDefines, ← h.root]
  cases tree with
  | nil => rfl
  | node a l r => exact doDump_eq h.linked h.size_lt.le

theorem length_le_records (rs : List (CString × Macro)) :
    rs.length ≤ (rs.flatMap fun e => record e.1 e.2).length := by
  induction rs with
  | nil => exact Nat.le_refl 0
  | cons r rs ih =>
    have hrecord : 1 ≤ (record r.1 r.2).length := by
      rw [record, List.length_append, List.length_cons]
      omega
    rw [List.flatMap_cons, List.length_append, List.length_cons]
    omega

/-- The macros that are read are new to the table, so each gets a cell. -/
theorem loadLoop_records {fuel : Nat} (h : Holds t tree)
    (hread : ∀ e ∈ rs, Readable e.1) (hnodup : (rs.map Prod.fst).Nodup)
    (hnew : ∀ e ∈ rs, ∀ e' ∈ items t.heap tree, e'.1 ≠ e.1) (hfuel : rs.length < fuel) :
    ∃ t' tree', loadLoop noDefaults fuel (rs.flatMap fun e => record e.1 e.2) t = some t' ∧
      Holds t' tree' ∧ ∀ e, e ∈ items t'.heap tree' ↔ e ∈ items t.heap tree ∨
        ∃ r ∈ rs, e = (r.1, loaded noDefaults r.2.argc r.2.value) := by
  induction rs generalizing t tree fuel with
  | nil =>
    obtain ⟨fuel, rfl⟩ : ∃ n, fuel = n + 1 := ⟨fuel - 1, by simp at hfuel; omega⟩
    exact ⟨t, tree, rfl, h, fun e => by simp⟩
  | cons r rs ih =>
    obtain ⟨fuel, rfl⟩ : ∃ n, fuel = n + 1 := ⟨fuel - 1, by simp at hfuel; omega⟩
    obtain ⟨name, m⟩ := r
    rw [List.map_cons, List.nodup_cons] at hnodup
    obtain ⟨t₁, tree₁, hdefine, h₁, ⟨xs, ys, m₀, hitems, -⟩ | ⟨xs, ys, hitems, -, hitems'⟩⟩ :=
      defineMacro_spec h name (loaded noDefaults m.argc m.value)
    · exact absurd rfl (hnew _ List.mem_cons_self (name, m₀) (by simp [hitems]))
    · have hmem : ∀ e, e ∈ items t₁.heap tree₁ ↔ e ∈ items t.heap tree ∨
          e = (name, loaded noDefaults m.argc m.value) := by
        intro e
        rw [hitems, hitems', List.mem_append, List.mem_append, List.mem_cons]
        tauto
      have hnew₁ : ∀ e ∈ rs, ∀ e' ∈ items t₁.heap tree₁, e'.1 ≠ e.1 := by
        intro e he e' he'
        obtain he' | rfl := (hmem e').mp he'
        · exact hnew e (List.mem_cons_of_mem _ he) e' he'
        · exact fun hname => hnodup.1 (List.mem_map.mpr ⟨e, he, hname.symm⟩)
      obtain ⟨t', tree', hload, h', hall⟩ := ih h₁
        (fun e he => hread e (List.mem_cons_of_mem _ he)) hnodup.2 hnew₁
        (Nat.lt_of_succ_lt_succ hfuel)
      refine ⟨t', tree', ?_, h', fun e => ?_⟩
      · rw [List.flatMap_cons, loadLoop, readRecord_record (hread _ List.mem_cons_self)]
        simp only [Option.bind_eq_bind, Option.bind_some, hdefine]
        exact hload
      · rw [hall, hmem, List.exists_mem_cons_iff, or_assoc]

/-! ## Round trips -/

theorem holds_of_run {ds : List Directive} (hds : ∀ d ∈ ds, d.Filled)
    (hrun : applyAll emptyTable ds = some t) :
    AllEntries (fun _ m => m.defaults.length = m.argc) t := by
  obtain ⟨t', hrun', h⟩ := allEntries_filled hds allEntries_empty
  obtain rfl := Option.some.inj (hrun.symm.trans hrun')
  exact h

/-- The arguments of a macro without default texts. -/
theorem meaning_loaded (hlen : m.defaults.length = m.argc)
    (hnone : ∀ d ∈ m.meaning.defaults, d = none) :
    (loaded noDefaults m.argc m.value).meaning = m.meaning := by
  have hleft : ((List.range m.argc).map noDefaults).tail = List.replicate (m.argc - 1) none := by
    rw [← List.map_tail]
    refine List.eq_replicate_iff.mpr ⟨by simp, fun d hd => ?_⟩
    obtain ⟨i, -, hi⟩ := List.mem_map.mp hd
    exact hi.symm
  have hright : m.defaults.tail = List.replicate (m.argc - 1) none := by
    refine List.eq_replicate_iff.mpr ⟨?_, hnone⟩
    rw [List.length_tail, hlen]
  have hdefaults : ((List.range m.argc).map noDefaults).tail = m.defaults.tail :=
    hleft.trans hright.symm
  exact congrArg (fun ds => (⟨m.argc - 1, ds, m.value⟩ : Meaning)) hdefaults

theorem roundTrips_of_portable (h : Holds t tree)
    (hlen : ∀ e ∈ items t.heap tree, e.2.defaults.length = e.2.argc) (hportable : Portable t) :
    RoundTrips t := by
  have hperm : (tree.preorder.map (entryAt t.heap)).Perm (items t.heap tree) := by
    rw [items_eq_map]
    exact preorder_perm.map _
  obtain ⟨rs, hrs⟩ : ∃ rs, rs = (tree.preorder.map (entryAt t.heap)).filter
    fun e => !e.2.keyword := ⟨_, rfl⟩
  have hmem : ∀ e, e ∈ rs ↔ e ∈ items t.heap tree ∧ e.2.keyword = false := by
    intro e
    rw [hrs, List.mem_filter, hperm.mem_iff, Bool.not_eq_true']
  have hnodup : (rs.map Prod.fst).Nodup := by
    have hkeys : ((tree.preorder.map (entryAt t.heap)).map Prod.fst).Nodup := by
      rw [(hperm.map _).nodup_iff]
      exact (List.pairwise_map.mpr h.sorted).imp fun hlt => ne_of_lt hlt
    rw [hrs]
    exact hkeys.sublist (List.filter_sublist.map _)
  have hread : ∀ e ∈ rs, Readable e.1 := by
    intro e he
    obtain ⟨hitem, hkey⟩ := (hmem e).mp he
    exact (hportable e.1 e.2 ((entryOf_eq_some h).mpr hitem) hkey).1
  obtain ⟨t', tree', hload, h', hall⟩ := loadLoop_records shows_empty.holds hread hnodup
    (fun e _ e' he' => absurd he' List.not_mem_nil) (Nat.lt_succ_of_le (length_le_records rs))
  refine ⟨_, t', dumpPrecompiledDefines_eq h, ?_, fun name => meaningOf_congr h h' fun μ => ?_⟩
  · rw [loadPrecompiledDefines, fileOf, ← hrs]
    exact hload
  · rw [meaningOf_eq_some h, meaningOf_eq_some h']
    have hloaded : ∀ m, (name, m) ∈ rs → (loaded noDefaults m.argc m.value).meaning = m.meaning := by
      intro m hm
      obtain ⟨hitem, hkey⟩ := (hmem _).mp hm
      exact meaning_loaded (hlen _ hitem)
        (hportable name m ((entryOf_eq_some h).mpr hitem) hkey).2
    constructor
    · rintro ⟨m', hm', -, rfl⟩
      obtain hm' | ⟨⟨name', m⟩, hr, he⟩ := (hall _).mp hm'
      · exact absurd hm' List.not_mem_nil
      · obtain ⟨rfl, rfl⟩ := Prod.mk.inj he
        obtain ⟨hitem, hkey⟩ := (hmem _).mp hr
        exact ⟨m, hitem, hkey, (hloaded m hr).symm⟩
    · rintro ⟨m, hitem, hkey, rfl⟩
      have hr := (hmem (name, m)).mpr ⟨hitem, hkey⟩
      exact ⟨_, (hall _).mpr (Or.inr ⟨_, hr, rfl⟩), rfl, hloaded m hr⟩

theorem portable_of_roundTrips (h : Holds t tree) (htrip : RoundTrips t) : Portable t := by
  obtain ⟨file, t', -, hload, hsame⟩ := htrip
  obtain ⟨tree', h', hall⟩ := loadLoop_portable allEntries_empty hload
  intro name m hentry hkey
  have hmeaning := (meaningOf_eq_some h).mpr ⟨m, (entryOf_eq_some h).mp hentry, hkey, rfl⟩
  rw [← hsame name] at hmeaning
  obtain ⟨m', hmem, -, hm'⟩ := (meaningOf_eq_some h').mp hmeaning
  obtain ⟨hreadable, hnone⟩ := hall _ hmem
  refine ⟨hreadable, fun d hd => hnone d ?_⟩
  rw [← hm'] at hd
  exact List.mem_of_mem_tail hd

/-- A table is the same after it was written and read if and only if its macros have no default
texts and names without a colon, but for the first character, that fit the buffer. -/
theorem roundTrips_iff (ds : List Directive) (hds : ∀ d ∈ ds, d.Filled)
    (hrun : applyAll emptyTable ds = some t) : RoundTrips t ↔ Portable t := by
  obtain ⟨tree, h, hlen⟩ := holds_of_run hds hrun
  exact ⟨portable_of_roundTrips h, roundTrips_of_portable h hlen⟩

theorem roundTrips_iff_some : ∃ t, applyAll emptyTable someDirectives = some t ∧
    (RoundTrips t ↔ Portable t) :=
  ⟨_, rfl, roundTrips_iff someDirectives (by simp [someDirectives, Directive.Filled]) rfl⟩

/-- A macro with a default text. -/
def withDefault : List Directive :=
  [.define (ofString "F") ⟨ofString "a", false, 2, [none, some (ofString "1")]⟩]

theorem not_roundTrips_withDefault : ∃ t, applyAll emptyTable withDefault = some t ∧
    ¬ RoundTrips t := by
  refine ⟨_, rfl, ?_⟩
  rintro ⟨file, t', hfile, hload, hsame⟩
  obtain rfl := Option.some.inj hfile
  obtain rfl := Option.some.inj hload
  have hdefaults := congrArg Meaning.defaults (Option.some.inj (Option.some.inj
    (hsame (ofString "F"))))
  exact absurd hdefaults (by decide)

end Icarus.Ivlpp
