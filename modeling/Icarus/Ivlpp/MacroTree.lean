import Icarus.Ivlpp.Macros

/-!
# The tree of the macro table

Where the loops of the macro table go, and what the tree is after a macro was put in or taken
out.
-/

namespace Icarus.Ivlpp

open Icarus.Core.SearchTree
open Icarus.Vvp.Symbols (Sorted strcmp strcmp_eq_zero strcmp_neg strcmp_pos)

/-- The parent at the end of a path. -/
def parentOf : List Frame → Option Nat
  | [] => none
  | f :: _ => some f.addr

variable {heap : Nat → Define} {t : Shape} {name : CString} {path : List Frame}
  {root up sub : Option Nat}

theorem above_up (h : Above heap root path up sub) : up = parentOf path := by
  obtain - | ⟨⟨a, r⟩ | ⟨a, l⟩, path⟩ := path
  · exact h.1
  · exact h.1
  · exact h.1

theorem parentOf_append_singleton {f : Frame} (hne : path ≠ []) :
    parentOf (path ++ [f]) = parentOf path := by
  cases path with
  | nil => exact absurd rfl hne
  | cons g path => rfl

theorem setChild_append_singleton {f : Frame} (hne : path ≠ []) :
    setChild heap sub (path ++ [f]) = setChild heap sub path := by
  cases path with
  | nil => exact absurd rfl hne
  | cons g path => cases g <;> rfl

theorem before_append_left {a : Nat} {r : Shape} :
    before heap (path ++ [.left a r]) = before heap path := by
  induction path with
  | nil => rfl
  | cons f path ih => cases f <;> simp [before, ih]

theorem after_append_left {a : Nat} {r : Shape} : after heap (path ++ [.left a r]) =
    after heap path ++ (((heap a).key, (heap a).val) :: items heap r) := by
  induction path with
  | nil => simp [after]
  | cons f path ih => cases f <;> simp [after, ih]

theorem before_append_right {a : Nat} {l : Shape} : before heap (path ++ [.right a l]) =
    (items heap l ++ [((heap a).key, (heap a).val)]) ++ before heap path := by
  induction path with
  | nil => simp [before]
  | cons f path ih => cases f <;> simp [before, ih]

theorem after_append_right {a : Nat} {l : Shape} :
    after heap (path ++ [.right a l]) = after heap path := by
  induction path with
  | nil => rfl
  | cons f path ih => cases f <;> simp [after, ih]

/-- A tree without a root has no path. -/
theorem path_nil_of_root (hshape : t = fill path .nil) (hroot : t.root = none) : path = [] := by
  cases path with
  | nil => rfl
  | cons f path =>
    have hnil : t.addrs = [] := by
      cases t with
      | nil => rfl
      | node b l r => cases hroot
    have hmem : f.addr ∈ t.addrs := by
      rw [hshape]
      refine addrs_fill.mem_iff.mpr (List.mem_append_right _ ?_)
      cases f <;> simp [pathAddrs, Frame.addrs, Frame.addr]
    exact absurd hmem (hnil ▸ List.not_mem_nil)

/-! ## The way to a name -/

/-- The loops of a table end at the cell with a name. -/
structure FoundAt (heap : Nat → Define) (name : CString) (fuel : Nat) (t : Shape) (path : List Frame)
    (cur : Nat) (l r : Shape) : Prop where
  shape : t = fill path (.node cur l r)
  key : (heap cur).key = name
  lookup : lookupLoop heap name fuel t.root = some (some cur)
  insert : ∀ new a, (heap new).key = name → t.root = some a →
    insertLoop heap new fuel a = some (Function.update heap cur { heap cur with
      val := { (heap cur).val with value := (heap new).val.value } })

/-- The loops of a table end where a name would be. -/
structure MissingAt (heap : Nat → Define) (name : CString) (fuel : Nat) (t : Shape)
    (path : List Frame) : Prop where
  shape : t = fill path .nil
  below : ∀ e ∈ before heap path, e.1 < name
  above : ∀ e ∈ after heap path, name < e.1
  lookup : lookupLoop heap name fuel t.root = some none
  insert : ∀ new a, (heap new).key = name → t.root = some a →
    insertLoop heap new fuel a =
      some (setUp (setChild heap (some new) path) new (parentOf path))

/-- The loops of a sorted tree find a name or the place for it. -/
theorem search_spec (name : CString) (hlinked : Linked heap up t)
    (hsorted : Sorted (items heap t)) {fuel : Nat} (hfuel : t.size < fuel) : (∃ path cur l r, FoundAt heap name fuel t path cur l r) ∨
      ∃ path, MissingAt heap name fuel t path := by
  induction t generalizing up fuel with
  | nil =>
    obtain ⟨fuel, rfl⟩ : ∃ n, fuel = n + 1 := ⟨fuel - 1, by omega⟩
    exact Or.inr ⟨[], rfl, fun e he => absurd he List.not_mem_nil,
      fun e he => absurd he List.not_mem_nil, rfl, fun new a _ h => by cases h⟩
  | node a l r ihl ihr =>
    obtain ⟨fuel, rfl⟩ : ∃ n, fuel = n + 1 := ⟨fuel - 1, by omega⟩
    obtain ⟨-, hleft, hright, hl, hr⟩ := hlinked
    rw [Shape.size] at hfuel
    have hlsize : l.size < fuel := by omega
    have hrsize : r.size < fuel := by omega
    obtain ⟨hsl, hsr, hcross⟩ := List.pairwise_append.mp hsorted
    obtain ⟨hroot, hsr⟩ := List.pairwise_cons.mp hsr
    by_cases hzero : strcmp name (heap a).key = 0
    · refine Or.inl ⟨[], a, l, r, rfl, (strcmp_eq_zero.mp hzero).symm, ?_, fun new b hkey hb => ?_⟩
      · rw [Shape.root, lookupLoop, if_pos hzero]
      · obtain rfl := Option.some.inj hb
        rw [insertLoop, hkey, if_pos hzero]
    · by_cases hneg : strcmp name (heap a).key < 0
      · have hlt := strcmp_neg.mp hneg
        have hlookup : lookupLoop heap name (fuel + 1) (Shape.node a l r).root =
            lookupLoop heap name fuel l.root := by
          rw [Shape.root, lookupLoop, if_neg hzero, if_pos hneg, hleft]
        have hinsert : ∀ new next, (heap new).key = name → l.root = some next →
            insertLoop heap new (fuel + 1) a = insertLoop heap new fuel next := by
          intro new next hkey hnext
          rw [insertLoop, hkey, if_neg hzero, if_pos hneg, hleft, hnext]
        obtain ⟨path, cur, l', r', hfound⟩ | ⟨path, hmissing⟩ :=
          ihl hl hsl hlsize
        · refine Or.inl ⟨path ++ [.left a r], cur, l', r', ?_, hfound.key, ?_, ?_⟩
          · rw [fill_append_singleton, ← hfound.shape]
            rfl
          · rw [hlookup, hfound.lookup]
          · intro new b hkey hb
            obtain rfl := Option.some.inj hb
            obtain ⟨next, hnext⟩ : ∃ next, l.root = some next := by
              cases hl' : l.root with
              | some next => exact ⟨next, rfl⟩
              | none =>
                have hnone := hfound.lookup
                rw [hl'] at hnone
                cases fuel <;> simp [lookupLoop] at hnone
            rw [hinsert new next hkey hnext]
            exact hfound.insert new next hkey hnext
        · refine Or.inr ⟨path ++ [.left a r], ?_, ?_, ?_, ?_, ?_⟩
          · rw [fill_append_singleton, ← hmissing.shape]
            rfl
          · rw [before_append_left]
            exact hmissing.below
          · intro e he
            rw [after_append_left] at he
            obtain he | he := List.mem_append.mp he
            · exact hmissing.above e he
            · obtain rfl | he := List.mem_cons.mp he
              · exact hlt
              · exact hlt.trans (hroot e he)
          · rw [hlookup, hmissing.lookup]
          · intro new b hkey hb
            obtain rfl := Option.some.inj hb
            cases hl' : l.root with
            | some next =>
              have hne : path ≠ [] := by
                rintro rfl
                rw [hmissing.shape] at hl'
                cases hl'
              rw [hinsert new next hkey hl', setChild_append_singleton hne,
                parentOf_append_singleton hne]
              exact hmissing.insert new next hkey hl'
            | none =>
              obtain rfl : path = [] := path_nil_of_root hmissing.shape hl'
              rw [insertLoop, hkey, if_neg hzero, if_pos hneg, hleft, hl']
              rfl
      · have hgt : (heap a).key < name :=
          strcmp_pos.mp (lt_of_le_of_ne (not_lt.mp hneg) (Ne.symm hzero))
        have hlookup : lookupLoop heap name (fuel + 1) (Shape.node a l r).root =
            lookupLoop heap name fuel r.root := by
          rw [Shape.root, lookupLoop, if_neg hzero, if_neg hneg, hright]
        have hinsert : ∀ new next, (heap new).key = name → r.root = some next →
            insertLoop heap new (fuel + 1) a = insertLoop heap new fuel next := by
          intro new next hkey hnext
          rw [insertLoop, hkey, if_neg hzero, if_neg hneg, hright, hnext]
        obtain ⟨path, cur, l', r', hfound⟩ | ⟨path, hmissing⟩ :=
          ihr hr hsr hrsize
        · refine Or.inl ⟨path ++ [.right a l], cur, l', r', ?_, hfound.key, ?_, ?_⟩
          · rw [fill_append_singleton, ← hfound.shape]
            rfl
          · rw [hlookup, hfound.lookup]
          · intro new b hkey hb
            obtain rfl := Option.some.inj hb
            obtain ⟨next, hnext⟩ : ∃ next, r.root = some next := by
              cases hr' : r.root with
              | some next => exact ⟨next, rfl⟩
              | none =>
                have hnone := hfound.lookup
                rw [hr'] at hnone
                cases fuel <;> simp [lookupLoop] at hnone
            rw [hinsert new next hkey hnext]
            exact hfound.insert new next hkey hnext
        · refine Or.inr ⟨path ++ [.right a l], ?_, ?_, ?_, ?_, ?_⟩
          · rw [fill_append_singleton, ← hmissing.shape]
            rfl
          · intro e he
            rw [before_append_right] at he
            obtain he | he := List.mem_append.mp he
            · obtain he | he := List.mem_append.mp he
              · exact (hcross e he _ List.mem_cons_self).trans hgt
              · obtain rfl := List.mem_singleton.mp he
                exact hgt
            · exact hmissing.below e he
          · rw [after_append_right]
            exact hmissing.above
          · rw [hlookup, hmissing.lookup]
          · intro new b hkey hb
            obtain rfl := Option.some.inj hb
            cases hr' : r.root with
            | some next =>
              have hne : path ≠ [] := by
                rintro rfl
                rw [hmissing.shape] at hr'
                cases hr'
              rw [hinsert new next hkey hr', setChild_append_singleton hne,
                parentOf_append_singleton hne]
              exact hmissing.insert new next hkey hr'
            | none =>
              obtain rfl : path = [] := path_nil_of_root hmissing.shape hr'
              rw [insertLoop, hkey, if_neg hzero, if_neg hneg, hright, hr']
              rfl

/-! ## The table as a tree -/

/-- The cells of a table are a search tree of a shape, with all links right. -/
structure Holds (t : MacroTable) (tree : Shape) : Prop where
  linked : Linked t.heap none tree
  root : tree.root = t.root
  nodup : tree.addrs.Nodup
  bound : ∀ a ∈ tree.addrs, a < t.size
  sorted : Sorted (items t.heap tree)

variable {t : MacroTable} {tree l r : Shape} {cur : Nat} {m : Macro}

theorem Holds.size_lt (h : Holds t tree) : tree.size < t.size + 1 := by
  have hsub : tree.addrs ⊆ List.range t.size := fun a ha => List.mem_range.mpr (h.bound a ha)
  have hlen := (List.subperm_of_subset h.nodup hsub).length_le
  rw [List.length_range, ← size_eq_length] at hlen
  exact Nat.lt_succ_of_le hlen

/-- The addresses of a subtree and of the path above it. -/
theorem Holds.parts (h : Holds t (fill path (.node cur l r))) :
    ((Shape.node cur l r).addrs ++ pathAddrs path).Nodup :=
  addrs_fill.nodup_iff.mp h.nodup

/-- A subtree below its path. -/
theorem Holds.above (h : Holds t (fill path (.node cur l r))) :
    Above t.heap t.root path (parentOf path) (some cur) ∧
      Linked t.heap (parentOf path) (.node cur l r) := by
  obtain ⟨up, habove, hlinked⟩ := linked_fill_iff.mp ⟨h.linked, h.root⟩
  obtain rfl := above_up habove
  exact ⟨habove, hlinked⟩

/-! ## Definitions -/

/-- The new value of a name that is there. -/
theorem defineMacro_found {heap : Nat → Define} (h : Holds t tree)
    (hlinked : Linked heap none tree) (hitems : items heap tree = items t.heap tree)
    {fuel : Nat} (hfound : FoundAt heap name fuel tree path cur l r) :
    let heap' := Function.update heap cur { heap cur with
      val := { (heap cur).val with value := m.value } }
    Holds ⟨heap', t.size + 1, t.root⟩ tree ∧ ∃ xs ys m₀,
      items t.heap tree = xs ++ (name, m₀) :: ys ∧
      items heap' tree = xs ++ (name, { m₀ with value := m.value }) :: ys := by
  intro heap'
  have hself : heap' cur = { heap cur with val := { (heap cur).val with value := m.value } } :=
    Function.update_self _ _ _
  have hne : ∀ b, b ≠ cur → heap' b = heap b := fun b hb => Function.update_of_ne hb _ _
  have hlinks : ∀ b, (heap' b).left = (heap b).left ∧ (heap' b).right = (heap b).right ∧
      (heap' b).up = (heap b).up := by
    intro b
    by_cases hb : b = cur
    · rw [hb, hself]
      exact ⟨rfl, rfl, rfl⟩
    · rw [hne b hb]
      exact ⟨rfl, rfl, rfl⟩
  have hnodup : ((Shape.node cur l r).addrs ++ pathAddrs path).Nodup := by
    rw [← addrs_fill.nodup_iff, ← hfound.shape]
    exact h.nodup
  obtain ⟨hcur, -, hdisjoint⟩ := List.nodup_append.mp hnodup
  have hmem : cur ∈ (Shape.node cur l r).addrs := by simp [Shape.addrs]
  have hpath : ∀ b ∈ pathAddrs path, (heap' b).key = (heap b).key ∧
      (heap' b).val = (heap b).val := by
    intro b hb
    rw [hne b fun he => hdisjoint cur hmem b hb he.symm]
    exact ⟨rfl, rfl⟩
  rw [Shape.addrs, List.nodup_middle, List.nodup_cons, List.mem_append, not_or] at hcur
  have hsub : ∀ s : Shape, cur ∉ s.addrs → items heap' s = items heap s := by
    intro s hs
    refine items_congr fun b hb => ?_
    rw [hne b fun he => hs (he ▸ hb)]
    exact ⟨rfl, rfl⟩
  have hold : items t.heap tree = (before heap path ++ items heap l) ++
      (name, (heap cur).val) :: (items heap r ++ after heap path) := by
    rw [← hitems, hfound.shape, items_fill, items, hfound.key]
    simp
  have hnew : items heap' tree = (before heap path ++ items heap l) ++
      (name, { (heap cur).val with value := m.value }) :: (items heap r ++ after heap path) := by
    rw [hfound.shape, items_fill, items, before_congr hpath, after_congr hpath, hsub l hcur.1.1,
      hsub r hcur.1.2, hself, hfound.key]
    simp
  refine ⟨⟨hlinked.of_links hlinks, h.root, h.nodup,
    fun a ha => Nat.lt_succ_of_lt (h.bound a ha), ?_⟩, _, _, _, hold, hnew⟩
  have hsorted := h.sorted
  rw [hold] at hsorted
  rw [hnew]
  -- only the value of the name is another
  have hkeys : ∀ es : List (CString × Macro), Sorted es ↔ (es.map Prod.fst).Pairwise (· < ·) :=
    fun es => List.pairwise_map.symm
  rw [hkeys] at hsorted ⊢
  simpa using hsorted

/-- A new cell at the end of the way to a name. -/
theorem defineMacro_missing {heap : Nat → Define} (h : Holds t tree)
    (hlinked : Linked heap none tree) (hitems : items heap tree = items t.heap tree)
    (hnew : heap t.size = ⟨name, m, none, none, none⟩) {fuel : Nat}
    (hmissing : MissingAt heap name fuel tree path) :
    let heap' := setRootUp (setChild heap (some t.size) path) (some t.size) (parentOf path)
    Holds ⟨heap', t.size + 1, newRoot t.root (some t.size) path⟩
        (fill path (.node t.size .nil .nil)) ∧ ∃ xs ys,
      items t.heap tree = xs ++ ys ∧ (∀ e ∈ xs ++ ys, e.1 ≠ name) ∧
      items heap' (fill path (.node t.size .nil .nil)) = xs ++ (name, m) :: ys := by
  intro heap'
  obtain ⟨up, habove, -⟩ := linked_fill_iff.mp
    (⟨hmissing.shape ▸ hlinked, hmissing.shape ▸ h.root⟩ :
      Linked heap none (fill path .nil) ∧ (fill path .nil).root = t.root)
  obtain rfl := above_up habove
  have hpathperm : (fill path .nil).addrs.Perm (pathAddrs path) := addrs_fill
  have hpathmem : ∀ b ∈ pathAddrs path, b < t.size := by
    intro b hb
    exact h.bound b (hmissing.shape ▸ hpathperm.mem_iff.mpr hb)
  have hpathnodup : (pathAddrs path).Nodup := hpathperm.nodup_iff.mp (hmissing.shape ▸ h.nodup)
  have hnodup : ((Shape.node t.size .nil .nil).addrs ++ pathAddrs path).Nodup := by
    refine List.nodup_cons.mpr ⟨fun hmem => ?_, hpathnodup⟩
    exact Nat.lt_irrefl _ (hpathmem _ hmem)
  have hleaf : Linked heap none (.node t.size .nil .nil) := by
    rw [Linked, hnew]
    exact ⟨rfl, rfl, rfl, trivial, trivial⟩
  obtain ⟨hlinked', hroot'⟩ := linked_replace habove hleaf hnodup
  have hsame : SameItems heap heap' := sameItems_setChild.trans sameItems_setRootUp
  have hold : items t.heap tree = before heap path ++ after heap path := by
    rw [← hitems, hmissing.shape, items_fill]
    simp [items]
  have hnewitems : items heap' (fill path (.node t.size .nil .nil)) =
      before heap path ++ (name, m) :: after heap path := by
    rw [items_congr fun b _ => hsame b, items_fill, items, hnew]
    simp [items]
  refine ⟨⟨hlinked', hroot', ?_, ?_, ?_⟩, _, _, hold, ?_, hnewitems⟩
  · exact addrs_fill.nodup_iff.mpr hnodup
  · intro b hb
    obtain hb | hb := List.mem_append.mp (addrs_fill.mem_iff.mp hb)
    · have hb : b = t.size := by simpa [Shape.addrs] using hb
      exact hb ▸ Nat.lt_succ_self _
    · exact Nat.lt_succ_of_lt (hpathmem b hb)
  · have hsorted := h.sorted
    rw [hold] at hsorted
    obtain ⟨hbefore, hafter, hcross⟩ := List.pairwise_append.mp hsorted
    rw [hnewitems]
    refine List.pairwise_append.mpr ⟨hbefore, List.pairwise_cons.mpr ⟨hmissing.above, hafter⟩, ?_⟩
    intro e he e' he'
    obtain rfl | he' := List.mem_cons.mp he'
    · exact hmissing.below e he
    · exact hcross e he e' he'
  · intro e he
    obtain he | he := List.mem_append.mp he
    · exact (hmissing.below e he).ne
    · exact (hmissing.above e he).ne'

/-- After a definition the table has the name, with its old entry but for the value or with the
new one. -/
theorem defineMacro_spec (h : Holds t tree) (name : CString) (m : Macro) :
    ∃ t' tree', defineMacro name m t = some t' ∧ Holds t' tree' ∧
      ((∃ xs ys m₀, items t.heap tree = xs ++ (name, m₀) :: ys ∧
          items t'.heap tree' = xs ++ (name, { m₀ with value := m.value }) :: ys) ∨
        ∃ xs ys, items t.heap tree = xs ++ ys ∧ (∀ e ∈ xs ++ ys, e.1 ≠ name) ∧
          items t'.heap tree' = xs ++ (name, m) :: ys) := by
  obtain ⟨heap, hheap⟩ : ∃ heap, heap =
    Function.update t.heap t.size ⟨name, m, none, none, none⟩ := ⟨_, rfl⟩
  have hnew : heap t.size = ⟨name, m, none, none, none⟩ := hheap ▸ Function.update_self _ _ _
  have hsame : ∀ b ∈ tree.addrs, heap b = t.heap b := by
    intro b hb
    rw [hheap]
    exact Function.update_of_ne (h.bound b hb).ne _ _
  have hlinked := h.linked.congr hsame
  have hitems : items heap tree = items t.heap tree :=
    items_congr fun b hb => by rw [hsame b hb]; exact ⟨rfl, rfl⟩
  have hkey : (heap t.size).key = name := by rw [hnew]
  rw [defineMacro, ← hheap]
  obtain ⟨path, cur, l, r, hfound⟩ | ⟨path, hmissing⟩ :=
    search_spec name hlinked (hitems.symm ▸ h.sorted) h.size_lt
  · obtain ⟨hholds, hres⟩ := defineMacro_found (m := m) h hlinked hitems hfound
    refine ⟨_, tree, ?_, hholds, Or.inl hres⟩
    cases hroot : t.root with
    | none =>
      have hnone := hfound.lookup
      rw [h.root, hroot, lookupLoop] at hnone
      cases hnone
    | some a =>
      simp only
      rw [hfound.insert t.size a hkey (h.root.trans hroot), hnew]
      rfl
  · obtain ⟨hholds, hres⟩ := defineMacro_missing h hlinked hitems hnew hmissing
    refine ⟨_, _, ?_, hholds, Or.inr hres⟩
    cases hroot : t.root with
    | none =>
      obtain rfl := path_nil_of_root hmissing.shape (h.root.trans hroot)
      have hself : setUp heap t.size none = heap := by
        rw [setUp, hnew, ← hnew, Function.update_eq_self]
      simp only [setRootUp, setChild, parentOf, newRoot, hself]
    | some a =>
      have hne : path ≠ [] := by
        rintro rfl
        have hnil := h.root.trans hroot
        rw [hmissing.shape] at hnil
        cases hnil
      have hnewroot : newRoot (some a) (some t.size) path = some a := by
        cases path with
        | nil => exact absurd rfl hne
        | cons f path => rfl
      simp only
      rw [hmissing.insert t.size a hkey (h.root.trans hroot), hnewroot]
      rfl

/-! ## Taking a macro out -/

theorem attach_nil : l.attach .nil = l := by
  induction l with
  | nil => rfl
  | node a l r _ ih => rw [Shape.attach, ih]

/-- The link of the parent is the one that is replaced. -/
theorem replaceChild_eq {f : Frame} (habove : Above heap root (f :: path) up (some cur))
    (hcur : cur ∉ pathAddrs (f :: path)) (sub : Option Nat) :
    replaceChild heap f.addr cur sub = some (setChild heap sub (f :: path)) := by
  cases f with
  | left a r =>
    obtain ⟨-, hleft, -⟩ := habove
    rw [Frame.addr, replaceChild, if_pos hleft]
    rfl
  | right a l =>
    obtain ⟨-, hleft, hright, -⟩ := habove
    have hne : (heap a).left ≠ some cur := by
      rw [hleft]
      intro hroot
      exact hcur (by simp [pathAddrs, Frame.addrs, root_mem hroot])
    rw [Frame.addr, replaceChild, if_neg hne, if_pos hright]
    rfl

/-- The table when the children of a cell are one tree in its place. -/
def relinked (t : MacroTable) (heap : Nat → Define) (path : List Frame) (sub : Option Nat) :
    MacroTable :=
  ⟨setRootUp (setChild heap sub path) sub (parentOf path), t.size, newRoot t.root sub path⟩

theorem relinked_spec {t : MacroTable} (h : Holds t (fill path (.node cur l r)))
    (hlinked : Linked heap up (l.attach r)) (hsame : SameItems t.heap heap)
    (hkeep : ∀ b ∈ pathAddrs path, heap b = t.heap b) :
    Holds (relinked t heap path (l.attach r).root) (fill path (l.attach r)) ∧ ∃ xs ys,
      items t.heap (fill path (.node cur l r)) =
        xs ++ ((t.heap cur).key, (t.heap cur).val) :: ys ∧
      items (relinked t heap path (l.attach r).root).heap (fill path (l.attach r)) = xs ++ ys := by
  have hperm : ((Shape.node cur l r).addrs ++ pathAddrs path).Perm
      (cur :: ((l.attach r).addrs ++ pathAddrs path)) := by
    rw [addrs_attach]
    exact List.perm_middle.append_right _
  have hnodup : ((l.attach r).addrs ++ pathAddrs path).Nodup :=
    (List.nodup_cons.mp (hperm.nodup_iff.mp h.parts)).2
  obtain ⟨hlinked', hroot⟩ := linked_replace (h.above.1.congr hkeep) hlinked hnodup
  have hsame' : SameItems t.heap (relinked t heap path (l.attach r).root).heap :=
    hsame.trans (sameItems_setChild.trans sameItems_setRootUp)
  have hold : items t.heap (fill path (.node cur l r)) = (before t.heap path ++ items t.heap l) ++
      ((t.heap cur).key, (t.heap cur).val) :: (items t.heap r ++ after t.heap path) := by
    rw [items_fill, items]
    simp
  have hnew : items (relinked t heap path (l.attach r).root).heap (fill path (l.attach r)) =
      (before t.heap path ++ items t.heap l) ++ (items t.heap r ++ after t.heap path) := by
    rw [items_congr fun b _ => hsame' b, items_fill, items_attach]
    simp
  refine ⟨⟨hlinked', hroot, addrs_fill.nodup_iff.mpr hnodup, ?_, ?_⟩, _, _, hold, hnew⟩
  · intro b hb
    refine h.bound b (addrs_fill.mem_iff.mpr (hperm.mem_iff.mpr ?_))
    exact List.mem_cons_of_mem _ (addrs_fill.mem_iff.mp hb)
  · have hsorted := h.sorted
    rw [hold] at hsorted
    rw [hnew]
    exact hsorted.sublist (List.Sublist.append_left (List.sublist_cons_self _ _) _)

/-- A cell is taken out and its children are joined. -/
theorem unlink_spec {t : MacroTable} (h : Holds t (fill path (.node cur l r))) :
    ∃ t', unlink t cur = some t' ∧ Holds t' (fill path (l.attach r)) ∧ ∃ xs ys,
      items t.heap (fill path (.node cur l r)) =
        xs ++ ((t.heap cur).key, (t.heap cur).val) :: ys ∧
      items t'.heap (fill path (l.attach r)) = xs ++ ys := by
  obtain ⟨habove, hup, hleft, hright, hl, hr⟩ := h.above
  obtain ⟨htree, hpath, hdisjoint⟩ := List.nodup_append.mp h.parts
  have hcur : cur ∉ pathAddrs path := fun hmem =>
    hdisjoint cur (by simp [Shape.addrs]) cur hmem rfl
  suffices hheap : ∃ heap, SameItems t.heap heap ∧ (∃ up, Linked heap up (l.attach r)) ∧
      (∀ b ∈ pathAddrs path, heap b = t.heap b) ∧
      unlink t cur = some (relinked t heap path (l.attach r).root) by
    obtain ⟨heap, hsame, ⟨up, hlinked⟩, hkeep, hunlink⟩ := hheap
    exact ⟨_, hunlink, relinked_spec h hlinked hsame hkeep⟩
  cases l with
  | nil =>
    refine ⟨t.heap, SameItems.refl, ⟨_, hr⟩, fun _ _ => rfl, ?_⟩
    cases path with
    | nil =>
      rw [unlink, hup, hleft, hright]
      cases r <;> rfl
    | cons f path =>
      rw [unlink, hup, hleft, hright]
      simp only [parentOf, Shape.root, replaceChild_eq habove hcur]
      rfl
  | node a l₁ l₂ =>
    cases r with
    | nil =>
      rw [attach_nil]
      refine ⟨t.heap, SameItems.refl, ⟨_, hl⟩, fun _ _ => rfl, ?_⟩
      cases path with
      | nil =>
        rw [unlink, hup, hleft, hright]
        rfl
      | cons f path =>
        rw [unlink, hup, hleft, hright]
        simp only [parentOf, Shape.root, replaceChild_eq habove hcur]
        rfl
    | node b r₁ r₂ =>
      have hboth : ((Shape.node a l₁ l₂).addrs ++ (Shape.node b r₁ r₂).addrs).Nodup := by
        rw [Shape.addrs, List.nodup_middle] at htree
        exact (List.nodup_cons.mp htree).2
      have hfuel : (Shape.node a l₁ l₂).size ≤ t.size + 1 := by
        refine le_trans ?_ h.size_lt.le
        have haddrs : (Shape.node cur (.node a l₁ l₂) (.node b r₁ r₂)).addrs =
            (Shape.node a l₁ l₂).addrs ++ cur :: (Shape.node b r₁ r₂).addrs := rfl
        rw [size_eq_length, size_eq_length, addrs_fill.length_eq, haddrs, List.append_assoc,
          List.length_append]
        exact Nat.le_add_right _ _
      obtain ⟨tail, htail, hmem, hlinked⟩ := linked_attach hl hr hboth hfuel
      -- the cells between the children and the path stay as they are
      have hkeep : ∀ b' ∈ pathAddrs path,
          setUp (setRight t.heap tail (some b)) b (some tail) b' = t.heap b' := by
        intro b' hb'
        have hout : b' ∉ (Shape.node cur (.node a l₁ l₂) (.node b r₁ r₂)).addrs :=
          fun hin => hdisjoint b' hin b' hb' rfl
        rw [Shape.addrs, List.mem_append, List.mem_cons, not_or, not_or] at hout
        obtain ⟨hleft', -, hright'⟩ := hout
        have hne : b' ≠ b := fun he => hright' (he ▸ root_mem rfl)
        have hne' : b' ≠ tail := fun he => hleft' (he ▸ hmem)
        rw [setUp_of_ne hne, setRight_of_ne hne']
      refine ⟨_, sameItems_setRight.trans sameItems_setUp, ⟨_, hlinked⟩, hkeep, ?_⟩
      cases path with
      | nil =>
        rw [unlink, hup, hleft, hright]
        simp only [parentOf, Shape.root, htail]
        rfl
      | cons f path =>
        rw [unlink, hup, hleft, hright]
        simp only [parentOf, Shape.root, htail, Option.bind_eq_bind, Option.bind_some,
          replaceChild_eq (habove.congr hkeep) hcur]
        rfl

/-- The lookup of a name that is no magic macro. -/
theorem defLookupInternal_spec {t : MacroTable} {tree : Shape} (h : Holds t tree)
    (name : CString) : (∃ path cur l r, defLookupInternal name t = some (some cur) ∧
        tree = fill path (.node cur l r) ∧ (t.heap cur).key = name) ∨
      (defLookupInternal name t = some none ∧ ∀ e ∈ items t.heap tree, e.1 ≠ name) := by
  have hlookup : defLookupInternal name t = lookupLoop t.heap name (t.size + 1) tree.root := by
    rw [defLookupInternal, ← h.root]
    cases htree : tree with
    | nil => rfl
    | node a l r =>
      have hup : (t.heap a).up = none := (htree ▸ h.linked : Linked t.heap none (.node a l r)).1
      exact if_pos hup
  obtain ⟨path, cur, l, r, hfound⟩ | ⟨path, hmissing⟩ :=
    search_spec name h.linked h.sorted h.size_lt
  · exact Or.inl ⟨path, cur, l, r, hlookup.trans hfound.lookup, hfound.shape, hfound.key⟩
  · refine Or.inr ⟨hlookup.trans hmissing.lookup, fun e he => ?_⟩
    rw [hmissing.shape, items_fill, items, List.append_nil] at he
    obtain he | he := List.mem_append.mp he
    · exact (hmissing.below e he).ne
    · exact (hmissing.above e he).ne'

end Icarus.Ivlpp
