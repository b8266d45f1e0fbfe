import Mathlib.Data.Set.Basic
import Mathlib.Data.List.Perm.Basic

/-!
# Quaternary reduction trees

A list is reduced level by level, four neighbours at a time, until one value is
left. `Stored` is the whole tree flattened leaf level first, with a final
operation applied to the root in place. Where the operation is commutative and
associative on the values at hand, the root depends on the multiset of leaves
only, whatever the shape of the tree.
-/

namespace Icarus.Core.QuadTree

variable {α : Type*} (merge : α → α → α)

/-- Merge a group from left to right. -/
def group : List α → Option α
  | [] => none
  | x :: xs => some (xs.foldl merge x)

/-- The next level: every four neighbours merged, the rest as a shorter group. -/
def level : List α → List α
  | [] => []
  | [a] => [a]
  | [a, b] => [merge a b]
  | [a, b, c] => [merge (merge a b) c]
  | a :: b :: c :: d :: rest => merge (merge (merge a b) c) d :: level rest

/-- A level has a quarter of the nodes, rounded up. -/
theorem length_level (xs : List α) : (level merge xs).length = (xs.length + 3) / 4 := by
  induction xs using level.induct with
  | case1 => simp [level]
  | case2 => simp [level]
  | case3 => simp [level]
  | case4 => simp [level]
  | case5 a b c d rest ih =>
    simp only [level, List.length_cons, ih]
    omega

/-- The value left after all levels; `nil` for no leaves. -/
def root (nil : α) : List α → α
  | [] => nil
  | [x] => x
  | x :: y :: rest => root nil (level merge (x :: y :: rest))
termination_by xs => xs.length
decreasing_by
  rw [length_level]
  simp only [List.length_cons]
  omega

theorem root_eq_level (nil : α) {xs : List α} (h : 1 < xs.length) :
    root merge nil xs = root merge nil (level merge xs) := by
  match xs, h with
  | x :: y :: rest, _ => rw [root]

/-- A node of the next level is the group of its four children. -/
theorem getElem?_level (xs : List α) (i : Nat) :
    (level merge xs)[i]? = group merge ((xs.drop (4 * i)).take 4) := by
  induction xs using level.induct generalizing i with
  | case1 => simp [level, group]
  | case2 a => cases i <;> simp [level, group, Nat.mul_succ]
  | case3 a b => cases i <;> simp [level, group, Nat.mul_succ]
  | case4 a b c => cases i <;> simp [level, group, Nat.mul_succ]
  | case5 a b c d rest ih =>
    cases i with
    | zero => simp [level, group]
    | succ i =>
      have hi : 4 * (i + 1) = 4 * i + 1 + 1 + 1 + 1 := by omega
      simp only [level, List.getElem?_cons_succ, ih, hi, List.drop_succ_cons]

/-- Changing one leaf changes one node of the next level. -/
theorem level_set {xs : List α} {p : Nat} {v out : α}
    (h : group merge (((xs.set p v).drop (4 * (p / 4))).take 4) = some out) :
    level merge (xs.set p v) = (level merge xs).set (p / 4) out := by
  apply List.ext_getElem?
  intro i
  by_cases hi : p / 4 = i
  · subst hi
    have hsome : (level merge (xs.set p v))[p / 4]? = some out := by
      rw [getElem?_level, h]
    have hlt : p / 4 < (level merge xs).length := by
      have hl := (List.getElem?_eq_some_iff.mp hsome).1
      rw [length_level, List.length_set] at hl
      rw [length_level]
      exact hl
    rw [hsome, List.getElem?_set_self hlt]
  · rw [List.getElem?_set_ne hi, getElem?_level, getElem?_level]
    congr 1
    apply List.ext_getElem?
    intro j
    by_cases hj : j < 4
    · simp only [List.getElem?_take, hj, if_true, List.getElem?_drop]
      exact List.getElem?_set_ne (by omega)
    · simp [hj]

/-! ## The flattened tree -/

/-- The nodes of the tree, leaf level first, `post` applied to the root in place. -/
inductive Stored (post : α → α) : List α → List α → Prop
  | root (x : α) : Stored post [x] [post x]
  | branch (xs ys : List α) (h : 1 < xs.length) (hy : Stored post (level merge xs) ys) :
      Stored post xs (xs ++ ys)

variable {merge} {post : α → α}

/-- The leaves are within the flattened tree. -/
theorem Stored.length_le {xs ys : List α} (h : Stored merge post xs ys) :
    xs.length ≤ ys.length := by
  cases h with
  | root x => exact Nat.le_refl _
  | branch xs ys h hy => simp

/-- Writing to a leaf what is already stored there changes neither tree nor root. -/
theorem Stored.absorb (nil : α) (hpost : ∀ x, post (post x) = post x) {xs ys : List α}
    {p : Nat} {v : α} (h : Stored merge post xs ys) (hp : p < xs.length)
    (hv : ys[p]? = some v) :
    Stored merge post (xs.set p v) ys ∧
      post (QuadTree.root merge nil (xs.set p v)) = post (QuadTree.root merge nil xs) := by
  cases h with
  | root x =>
    obtain rfl : p = 0 := by simpa using hp
    obtain rfl : post x = v := by simpa using hv
    refine ⟨?_, by simp [QuadTree.root, hpost]⟩
    have hs : Stored merge post [post x] [post (post x)] := Stored.root (post x)
    rwa [hpost] at hs
  | branch xs ys h hy =>
    rw [List.getElem?_append_left hp] at hv
    have hset : xs.set p v = xs := by
      rw [← Option.some.inj (hv.symm.trans (List.getElem?_eq_getElem hp)).symm]
      simp
    rw [hset]
    exact ⟨Stored.branch xs ys h hy, rfl⟩

/-! ## Independence of the order -/

variable (merge) in
/-- A set of values on which merging is commutative and associative. -/
structure Resolves (S : Set α) : Prop where
  /-- Merged values stay in the set. -/
  closed : ∀ a ∈ S, ∀ b ∈ S, merge a b ∈ S
  /-- The order of two values does not matter. -/
  comm : ∀ a ∈ S, ∀ b ∈ S, merge a b = merge b a
  /-- The grouping of three values does not matter. -/
  assoc : ∀ a ∈ S, ∀ b ∈ S, ∀ c ∈ S, merge (merge a b) c = merge a (merge b c)

section Order

variable {S : Set α} (hS : Resolves merge S)
include hS

/-- A group of values of the set is in the set. -/
theorem Resolves.foldl_mem {a : α} {xs : List α} (ha : a ∈ S) (hx : ∀ x ∈ xs, x ∈ S) :
    xs.foldl merge a ∈ S := by
  induction xs generalizing a with
  | nil => exact ha
  | cons x xs ih =>
    exact ih (hS.closed a ha x (hx x (by simp))) fun y hy => hx y (List.mem_cons_of_mem _ hy)

private theorem foldl_merge {a b : α} {xs : List α} (ha : a ∈ S) (hb : b ∈ S)
    (hx : ∀ x ∈ xs, x ∈ S) : xs.foldl merge (merge a b) = merge a (xs.foldl merge b) := by
  induction xs generalizing b with
  | nil => rfl
  | cons x xs ih =>
    have hxS := hx x (by simp)
    simp only [List.foldl_cons]
    rw [hS.assoc a ha b hb x hxS]
    exact ih (hS.closed b hb x hxS) fun y hy => hx y (List.mem_cons_of_mem _ hy)

/-- The first value of a group is merged with the group of the others. -/
theorem Resolves.group_cons {a : α} {xs : List α} (ha : a ∈ S) (hx : ∀ x ∈ xs, x ∈ S) :
    group merge (a :: xs) = some ((group merge xs).elim a (merge a)) := by
  cases xs with
  | nil => rfl
  | cons x xs =>
    have hxs : ∀ y ∈ xs, y ∈ S := fun y hy => hx y (List.mem_cons_of_mem _ hy)
    simp only [group, List.foldl_cons, Option.elim]
    rw [foldl_merge hS ha (hx x (by simp)) hxs]

/-- A group does not depend on the order of its values. -/
theorem Resolves.group_perm {xs ys : List α} (h : xs.Perm ys) (hx : ∀ x ∈ xs, x ∈ S) :
    group merge xs = group merge ys := by
  induction h with
  | nil => rfl
  | @cons a xs ys hp ih =>
    have hxs : ∀ x ∈ xs, x ∈ S := fun x hm => hx x (List.mem_cons_of_mem _ hm)
    have hys : ∀ y ∈ ys, y ∈ S := fun y hm => hxs y (hp.mem_iff.mpr hm)
    rw [hS.group_cons (hx a (by simp)) hxs, hS.group_cons (hx a (by simp)) hys, ih hxs]
  | swap a b xs =>
    simp only [group, List.foldl_cons]
    rw [hS.comm b (hx b (by simp)) a (hx a (by simp))]
  | trans h₁ _ ih₁ ih₂ =>
    rw [ih₁ hx, ih₂ fun x hm => hx x (h₁.mem_iff.mpr hm)]

/-- A level keeps the group of all its values. -/
theorem Resolves.group_level {xs : List α} (hx : ∀ x ∈ xs, x ∈ S) :
    group merge (level merge xs) = group merge xs ∧ ∀ x ∈ level merge xs, x ∈ S := by
  induction xs using level.induct with
  | case1 => exact ⟨rfl, hx⟩
  | case2 a => exact ⟨rfl, hx⟩
  | case3 a b =>
    refine ⟨rfl, ?_⟩
    simpa [level] using hS.closed a (hx a (by simp)) b (hx b (by simp))
  | case4 a b c =>
    refine ⟨rfl, ?_⟩
    have hmem : [b, c].foldl merge a ∈ S :=
      hS.foldl_mem (hx a (by simp)) fun y hy => hx y (List.mem_cons_of_mem _ hy)
    simpa [level] using hmem
  | case5 a b c d rest ih =>
    have hrest : ∀ x ∈ rest, x ∈ S := fun x hm => hx x (by simp [hm])
    have hothers : ∀ y ∈ [b, c, d], y ∈ S := by
      intro y hy
      refine hx y ?_
      simp only [List.mem_cons, List.not_mem_nil, or_false] at hy ⊢
      tauto
    have hfirst : [b, c, d].foldl merge a ∈ S := hS.foldl_mem (hx a (by simp)) hothers
    obtain ⟨hg, hm⟩ := ih hrest
    have hlevel : level merge (a :: b :: c :: d :: rest) =
        [b, c, d].foldl merge a :: level merge rest := by simp [level]
    rw [hlevel]
    constructor
    · rw [hS.group_cons hfirst hm, hg, ← hS.group_cons hfirst hrest]
      rfl
    · intro x hxm
      rcases List.mem_cons.mp hxm with rfl | hxm
      · exact hfirst
      · exact hm x hxm

/-- The root is the group of all leaves. -/
theorem Resolves.root_eq (nil : α) {xs : List α} (hx : ∀ x ∈ xs, x ∈ S) :
    root merge nil xs = (group merge xs).getD nil := by
  induction xs using root.induct merge with
  | case1 => simp [root, group]
  | case2 x => simp [root, group]
  | case3 x y rest ih =>
    obtain ⟨hg, hm⟩ := hS.group_level hx
    rw [root, ih hm, hg]

/-- The root does not depend on the order of the leaves. -/
theorem Resolves.root_perm (nil : α) {xs ys : List α} (h : xs.Perm ys)
    (hx : ∀ x ∈ xs, x ∈ S) : root merge nil xs = root merge nil ys := by
  rw [hS.root_eq nil hx, hS.root_eq nil fun y hy => hx y (h.mem_iff.mpr hy), hS.group_perm h hx]

end Order

end Icarus.Core.QuadTree
