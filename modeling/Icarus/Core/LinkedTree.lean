import Mathlib.Data.List.Flatten
import Mathlib.Data.List.Nodup
import Mathlib.Data.List.Pairwise
import Mathlib.Data.List.Perm.Basic

/-!
# Linked trees

Trees of a heap: the leaves have items, the inner cells have the addresses of their
children, and each cell has the address of its parent. All leaves are at one depth.
A context is the path from a cell up to the root, with the subtrees on both sides.
-/

namespace Icarus.Core.LinkedTree

variable {α : Type}

/-- The content of a cell. -/
inductive Body (α : Type)
  | leaf (items : List α)
  | node (children : List Nat)

/-- A cell of the heap. -/
structure Cell (α : Type) where
  /-- The address of the parent; the root has none. -/
  parent : Option Nat
  /-- The content. -/
  body : Body α

/-- A subtree: its address, all addresses in it, and its items from left to right. -/
structure Subtree (α : Type) where
  /-- The address. -/
  addr : Nat
  /-- The addresses. -/
  addrs : List Nat
  /-- The items. -/
  items : List α

variable (ok : Body α → Prop)

/-- A subtree of some depth whose root has some parent; all its cells are as they should be. -/
def Rooted (h : Nat → Cell α) : Nat → Option Nat → Subtree α → Prop
  | 0, p, t => ok (h t.addr).body ∧ h t.addr = ⟨p, .leaf t.items⟩ ∧ t.addrs = [t.addr]
  | d + 1, p, t => ok (h t.addr).body ∧ ∃ cs : List (Subtree α),
      h t.addr = ⟨p, .node (cs.map Subtree.addr)⟩ ∧ (∀ c ∈ cs, Rooted h d (some t.addr) c) ∧
      t.addrs = t.addr :: cs.flatMap Subtree.addrs ∧ t.items = cs.flatMap Subtree.items

/-- A subtree whose root may be no cell as it should be. -/
def Loose (h : Nat → Cell α) : Nat → Option Nat → Subtree α → Prop
  | 0, p, t => h t.addr = ⟨p, .leaf t.items⟩ ∧ t.addrs = [t.addr]
  | d + 1, p, t => ∃ cs : List (Subtree α),
      h t.addr = ⟨p, .node (cs.map Subtree.addr)⟩ ∧ (∀ c ∈ cs, Rooted ok h d (some t.addr) c) ∧
      t.addrs = t.addr :: cs.flatMap Subtree.addrs ∧ t.items = cs.flatMap Subtree.items

variable {ok} {h h' : Nat → Cell α} {d : Nat} {p : Option Nat} {t : Subtree α}

theorem rooted_iff : Rooted ok h d p t ↔ ok (h t.addr).body ∧ Loose ok h d p t := by
  cases d <;> rfl

theorem Loose.parent (ht : Loose ok h d p t) : (h t.addr).parent = p := by
  cases d with
  | zero => rw [ht.1]
  | succ d =>
    obtain ⟨cs, hcell, -⟩ := ht
    rw [hcell]

theorem Loose.addr_mem (ht : Loose ok h d p t) : t.addr ∈ t.addrs := by
  cases d with
  | zero =>
    rw [ht.2]
    exact List.mem_singleton_self _
  | succ d =>
    obtain ⟨cs, -, -, haddrs, -⟩ := ht
    rw [haddrs]
    exact List.mem_cons_self

theorem Rooted.addr_mem (ht : Rooted ok h d p t) : t.addr ∈ t.addrs := (rooted_iff.mp ht).2.addr_mem

/-- A subtree depends on its own addresses only. -/
theorem Rooted.congr (ht : Rooted ok h d p t) (hsame : ∀ a ∈ t.addrs, h' a = h a) :
    Rooted ok h' d p t := by
  induction d generalizing p t with
  | zero =>
    obtain ⟨hok, hcell, haddrs⟩ := ht
    have haddr := hsame t.addr (by rw [haddrs]; exact List.mem_singleton_self _)
    exact ⟨haddr ▸ hok, haddr ▸ hcell, haddrs⟩
  | succ d ih =>
    obtain ⟨hok, cs, hcell, hcs, haddrs, hitems⟩ := ht
    have haddr := hsame t.addr (by rw [haddrs]; exact List.mem_cons_self)
    refine ⟨haddr ▸ hok, cs, haddr ▸ hcell, fun c hc => ih (hcs c hc) fun a ha => ?_, haddrs, hitems⟩
    apply hsame
    rw [haddrs]
    exact List.mem_cons_of_mem _ (List.mem_flatMap.mpr ⟨c, hc, ha⟩)

/-- A subtree gets another parent. -/
theorem Rooted.reparent {q : Option Nat} (ht : Rooted ok h d p t)
    (hroot : h' t.addr = ⟨q, (h t.addr).body⟩) (hsame : ∀ a ∈ t.addrs, a ≠ t.addr → h' a = h a)
    (hnodup : t.addrs.Nodup) : Rooted ok h' d q t := by
  have hbody : (h' t.addr).body = (h t.addr).body := by rw [hroot]
  cases d with
  | zero =>
    obtain ⟨hok, hcell, haddrs⟩ := ht
    exact ⟨hbody ▸ hok, by rw [hroot, hcell], haddrs⟩
  | succ d =>
    obtain ⟨hok, cs, hcell, hcs, haddrs, hitems⟩ := ht
    refine ⟨hbody ▸ hok, cs, by rw [hroot, hcell], fun c hc => (hcs c hc).congr fun a ha => ?_,
      haddrs, hitems⟩
    have hmem : a ∈ cs.flatMap Subtree.addrs := List.mem_flatMap.mpr ⟨c, hc, ha⟩
    rw [haddrs] at hsame hnodup
    refine hsame a (List.mem_cons_of_mem _ hmem) ?_
    rintro rfl
    exact (List.nodup_cons.mp hnodup).1 hmem

/-- Where no cell may be empty a subtree has items, and a path to them. -/
theorem Rooted.items_ne_nil (hleaf : ¬ ok (.leaf [])) (hnode : ¬ ok (.node [])) (ht : Rooted ok h d p t) :
    t.items ≠ [] ∧ d < t.addrs.length := by
  induction d generalizing p t with
  | zero =>
    obtain ⟨hok, hcell, haddrs⟩ := ht
    rw [hcell] at hok
    refine ⟨fun hnil => hleaf (hnil ▸ hok), ?_⟩
    rw [haddrs]
    exact Nat.zero_lt_one
  | succ d ih =>
    obtain ⟨hok, cs, hcell, hcs, haddrs, hitems⟩ := ht
    rw [hcell] at hok
    cases cs with
    | nil => exact absurd hok hnode
    | cons c cs =>
      obtain ⟨hc, hdepth⟩ := ih (hcs c List.mem_cons_self)
      rw [hitems, haddrs, List.flatMap_cons, List.flatMap_cons, List.length_cons, List.length_append]
      exact ⟨fun hnil => hc (List.append_eq_nil_iff.mp hnil).1, by omega⟩

/-! ## Contexts -/

/-- An inner cell on the path to the root, with the subtrees on both sides of the path. -/
structure Frame (α : Type) where
  /-- The address. -/
  addr : Nat
  /-- The subtrees on the left. -/
  left : List (Subtree α)
  /-- The subtrees on the right. -/
  right : List (Subtree α)

/-- The addresses of a path. -/
def pathAddrs (fs : List (Frame α)) : List Nat :=
  fs.flatMap fun f => f.addr :: (f.left ++ f.right).flatMap Subtree.addrs

/-- The items to the left of a path. -/
def itemsLeft : List (Frame α) → List α
  | [] => []
  | f :: fs => itemsLeft fs ++ f.left.flatMap Subtree.items

/-- The items to the right of a path. -/
def itemsRight : List (Frame α) → List α
  | [] => []
  | f :: fs => f.right.flatMap Subtree.items ++ itemsRight fs

variable (ok)

/-- A path from a cell at some depth over the leaves, with some parent, up to the root. -/
def Above (h : Nat → Cell α) (root : Nat) : List (Frame α) → Nat → Option Nat → Nat → Prop
  | [], _, p, a => p = none ∧ a = root
  | f :: fs, d, p, a => p = some f.addr ∧
      (∀ c ∈ f.left ++ f.right, Rooted ok h d (some f.addr) c) ∧ ok (h f.addr).body ∧
      ∃ q, h f.addr = ⟨q, .node (f.left.map Subtree.addr ++ a :: f.right.map Subtree.addr)⟩ ∧
        Above h root fs (d + 1) q f.addr

variable {ok} {root : Nat} {f : Frame α} {fs : List (Frame α)}

/-- The subtree of a frame, from the subtree that the path comes from. -/
def Frame.plug (f : Frame α) (ts : List (Subtree α)) : Subtree α where
  addr := f.addr
  addrs := f.addr :: (f.left ++ ts ++ f.right).flatMap Subtree.addrs
  items := (f.left ++ ts ++ f.right).flatMap Subtree.items

theorem pathAddrs_cons (f : Frame α) (fs : List (Frame α)) : pathAddrs (f :: fs) =
    f.addr :: (f.left ++ f.right).flatMap Subtree.addrs ++ pathAddrs fs := List.flatMap_cons

/-- A path depends on its own addresses only. -/
theorem Above.congr {a : Nat} (hpath : Above ok h root fs d p a)
    (hsame : ∀ b ∈ pathAddrs fs, h' b = h b) : Above ok h' root fs d p a := by
  induction fs generalizing d p a with
  | nil => exact hpath
  | cons f fs ih =>
    obtain ⟨hp, hparts, hok, q, hcell, hrest⟩ := hpath
    rw [pathAddrs_cons] at hsame
    have hf := hsame f.addr (List.mem_append_left _ List.mem_cons_self)
    refine ⟨hp, fun c hc => (hparts c hc).congr fun b hb => hsame b ?_, hf ▸ hok, q, hf ▸ hcell,
      ih hrest fun b hb => hsame b (List.mem_append_right _ hb)⟩
    exact List.mem_append_left _ (List.mem_cons_of_mem _ (List.mem_flatMap.mpr ⟨c, hc, hb⟩))

/-- The subtree of a frame. -/
theorem Above.rooted_plug (hpath : Above ok h root (f :: fs) d p t.addr) (ht : Rooted ok h d p t) :
    ∃ q, Rooted ok h (d + 1) q (f.plug [t]) ∧ Above ok h root fs (d + 1) q f.addr := by
  obtain ⟨hp, hparts, hok, q, hcell, hrest⟩ := hpath
  refine ⟨q, ⟨hok, f.left ++ [t] ++ f.right, ?_, fun c hc => ?_, rfl, rfl⟩, hrest⟩
  · rw [List.append_assoc, List.map_append]
    exact hcell
  · rw [List.append_assoc, List.mem_append, List.singleton_append, List.mem_cons] at hc
    rcases hc with hc | rfl | hc
    · exact hparts c (List.mem_append_left _ hc)
    · exact hp ▸ ht
    · exact hparts c (List.mem_append_right _ hc)

/-- The addresses of the subtrees in a frame. -/
theorem addrs_plug (f : Frame α) (fs : List (Frame α)) (ts : List (Subtree α)) :
    ((f.plug ts).addrs ++ pathAddrs fs).Perm
      (ts.flatMap Subtree.addrs ++ pathAddrs (f :: fs)) := by
  have hmid : (f.addr :: (f.left.flatMap Subtree.addrs ++
      (ts.flatMap Subtree.addrs ++ f.right.flatMap Subtree.addrs))).Perm (ts.flatMap Subtree.addrs ++
        (f.addr :: (f.left.flatMap Subtree.addrs ++ f.right.flatMap Subtree.addrs))) := by
    refine List.Perm.trans ?_ List.perm_middle.symm
    refine List.Perm.cons _ ?_
    rw [← List.append_assoc, ← List.append_assoc]
    exact List.Perm.append_right _ List.perm_append_comm
  rw [pathAddrs_cons, ← List.append_assoc, Frame.plug]
  refine List.Perm.append_right _ ?_
  simpa [List.flatMap_append] using hmid

/-- The items of the subtrees in a frame. -/
theorem items_plug (f : Frame α) (fs : List (Frame α)) (ts : List (Subtree α)) :
    itemsLeft fs ++ (f.plug ts).items ++ itemsRight fs =
      itemsLeft (f :: fs) ++ ts.flatMap Subtree.items ++ itemsRight (f :: fs) := by
  simp [itemsLeft, itemsRight, Frame.plug, List.flatMap_append]

/-- A path and the subtree at its end make the tree. -/
theorem Above.rooted_root (hpath : Above ok h root fs d p t.addr) (ht : Rooted ok h d p t) :
    ∃ addrs, Rooted ok h (d + fs.length) none
      ⟨root, addrs, itemsLeft fs ++ t.items ++ itemsRight fs⟩ ∧
      addrs.Perm (t.addrs ++ pathAddrs fs) := by
  induction fs generalizing d p t with
  | nil =>
    obtain ⟨rfl, hroot⟩ := hpath
    refine ⟨t.addrs, ?_, by simp [pathAddrs]⟩
    rw [← hroot]
    simpa [itemsLeft, itemsRight] using ht
  | cons f fs ih =>
    obtain ⟨q, hrep, hrest⟩ := hpath.rooted_plug ht
    obtain ⟨addrs, hrep', hperm⟩ := ih (t := f.plug [t]) hrest hrep
    have hone := addrs_plug f fs [t]
    rw [List.flatMap_singleton] at hone
    refine ⟨addrs, ?_, hperm.trans hone⟩
    rw [items_plug, List.flatMap_singleton] at hrep'
    rw [List.length_cons, Nat.add_comm fs.length, ← Nat.add_assoc]
    exact hrep'

/-- A path goes on to a child. -/
theorem Above.child {cs ds : List (Subtree α)} {c : Subtree α} (hpath : Above ok h root fs (d + 1) p t.addr)
    (hok : ok (h t.addr).body) (hcell : h t.addr = ⟨p, .node ((cs ++ c :: ds).map Subtree.addr)⟩)
    (hparts : ∀ b ∈ cs ++ c :: ds, Rooted ok h d (some t.addr) b) :
    Above ok h root (⟨t.addr, cs, ds⟩ :: fs) d (some t.addr) c.addr := by
  refine ⟨rfl, fun b hb => hparts b ?_, hok, p, ?_, hpath⟩
  · rcases List.mem_append.mp hb with hb | hb
    · exact List.mem_append_left _ hb
    · exact List.mem_append_right _ (List.mem_cons_of_mem _ hb)
  · rw [hcell, List.map_append, List.map_cons]

/-! ## Splitting -/

/-- The only root among the addresses of a subtree is its own. -/
theorem Rooted.root_of_mem {cs : List (Subtree α)} (hcs : ∀ c ∈ cs, Rooted ok h d p c)
    (hnodup : (cs.flatMap Subtree.addrs).Nodup) {c : Subtree α} (hc : c ∈ cs) {b : Nat}
    (hb : b ∈ c.addrs) (hmem : b ∈ cs.map Subtree.addr) : b = c.addr := by
  obtain ⟨-, hpair⟩ := List.nodup_flatMap.mp hnodup
  obtain ⟨e, he, rfl⟩ := List.mem_map.mp hmem
  by_contra hne
  have hec : e ≠ c := fun heq => hne (congrArg Subtree.addr heq)
  have hsymm : Std.Symm (Function.onFun List.Disjoint (Subtree.addrs (α := α))) :=
    ⟨fun _ _ hd _ hx hy => hd hy hx⟩
  have hdisjoint := hpair.forall he hc hec
  exact hdisjoint (hcs e he).addr_mem hb

/-- A cell gets the children of another cell, each with its parent set. -/
theorem Rooted.gather {cs : List (Subtree α)} {a : Nat} {q : Option Nat}
    (hcs : ∀ c ∈ cs, Rooted ok h d p c) (hown : ∀ c ∈ cs, c.addrs.Nodup)
    (hroots : ∀ c ∈ cs, h' c.addr = ⟨some a, (h c.addr).body⟩)
    (hsame : ∀ c ∈ cs, ∀ b ∈ c.addrs, b ≠ c.addr → h' b = h b)
    (hcell : h' a = ⟨q, .node (cs.map Subtree.addr)⟩) (hok : ok (.node (cs.map Subtree.addr))) :
    Rooted ok h' (d + 1) q ⟨a, a :: cs.flatMap Subtree.addrs, cs.flatMap Subtree.items⟩ := by
  refine ⟨by rw [hcell]; exact hok, cs, hcell, fun c hc => ?_, rfl, rfl⟩
  exact (hcs c hc).reparent (hroots c hc) (hsame c hc) (hown c hc)

/-- Two cells share the children of a cell. -/
theorem Rooted.share {left right : List (Subtree α)} {a₁ a₂ : Nat} {q : Option Nat}
    (hcs : ∀ c ∈ left ++ right, Rooted ok h d p c)
    (hnodup : ((left ++ right).flatMap Subtree.addrs).Nodup)
    (hleft : ∀ b ∈ left.map Subtree.addr, h' b = ⟨some a₁, (h b).body⟩)
    (hright : ∀ b ∈ right.map Subtree.addr, h' b = ⟨some a₂, (h b).body⟩)
    (hsame : ∀ b ∈ (left ++ right).flatMap Subtree.addrs, b ∉ (left ++ right).map Subtree.addr →
      h' b = h b)
    (hcell₁ : h' a₁ = ⟨q, .node (left.map Subtree.addr)⟩)
    (hcell₂ : h' a₂ = ⟨q, .node (right.map Subtree.addr)⟩)
    (hok₁ : ok (.node (left.map Subtree.addr))) (hok₂ : ok (.node (right.map Subtree.addr))) :
    Rooted ok h' (d + 1) q ⟨a₁, a₁ :: left.flatMap Subtree.addrs, left.flatMap Subtree.items⟩ ∧
      Rooted ok h' (d + 1) q ⟨a₂, a₂ :: right.flatMap Subtree.addrs, right.flatMap Subtree.items⟩ := by
  obtain ⟨hown, -⟩ := List.nodup_flatMap.mp hnodup
  have hrest : ∀ c ∈ left ++ right, ∀ b ∈ c.addrs, b ≠ c.addr → h' b = h b := by
    intro c hc b hb hne
    refine hsame b (List.mem_flatMap.mpr ⟨c, hc, hb⟩) fun hmem => hne ?_
    exact Rooted.root_of_mem hcs hnodup hc hb hmem
  constructor
  · have hmem : ∀ c ∈ left, c ∈ left ++ right := fun c hc => List.mem_append_left _ hc
    exact Rooted.gather (fun c hc => hcs c (hmem c hc)) (fun c hc => hown c (hmem c hc))
      (fun c hc => hleft _ (List.mem_map_of_mem hc)) (fun c hc => hrest c (hmem c hc)) hcell₁ hok₁
  · have hmem : ∀ c ∈ right, c ∈ left ++ right := fun c hc => List.mem_append_right _ hc
    exact Rooted.gather (fun c hc => hcs c (hmem c hc)) (fun c hc => hown c (hmem c hc))
      (fun c hc => hright _ (List.mem_map_of_mem hc)) (fun c hc => hrest c (hmem c hc)) hcell₂ hok₂

/-- A cell with two subtrees in the place of one: the cell above gets a child more. -/
theorem Above.attach {a : Nat} {t₁ t₂ : Subtree α} {q : Option Nat}
    (hpath : Above ok h root (f :: fs) d p a) (ht₁ : Rooted ok h' d p t₁) (ht₂ : Rooted ok h' d p t₂)
    (ha : t₁.addr = a) (hq : (h f.addr).parent = q)
    (hcell : h' f.addr = ⟨q, .node (f.left.map Subtree.addr ++ a :: t₂.addr :: f.right.map Subtree.addr)⟩)
    (hsame : ∀ b ∈ pathAddrs (f :: fs), b ≠ f.addr → h' b = h b)
    (hnodup : (pathAddrs (f :: fs)).Nodup) :
    Loose ok h' (d + 1) q (f.plug [t₁, t₂]) ∧ Above ok h' root fs (d + 1) q f.addr := by
  obtain ⟨hp, hparts, -, q', hcell', hrest⟩ := hpath
  obtain rfl : q' = q := by rw [← hq, hcell']
  rw [pathAddrs_cons, List.cons_append, List.nodup_cons, List.mem_append] at hnodup
  rw [pathAddrs_cons] at hsame
  have hne : ∀ b, b ∈ (f.left ++ f.right).flatMap Subtree.addrs ∨ b ∈ pathAddrs fs → b ≠ f.addr := by
    rintro b hb rfl
    exact hnodup.1 hb
  constructor
  · refine ⟨f.left ++ [t₁, t₂] ++ f.right, ?_, fun c hc => ?_, rfl, rfl⟩
    · have hmap : (f.left ++ [t₁, t₂] ++ f.right).map Subtree.addr =
          f.left.map Subtree.addr ++ a :: t₂.addr :: f.right.map Subtree.addr := by simp [ha]
      rw [hmap]
      exact hcell
    · have hc' : c ∈ f.left ++ f.right ∨ c = t₁ ∨ c = t₂ := by
        simp only [List.mem_append, List.mem_cons, List.not_mem_nil, or_false] at hc ⊢
        tauto
      rcases hc' with hc' | rfl | rfl
      · refine (hparts c hc').congr fun b hb => ?_
        have hmem : b ∈ (f.left ++ f.right).flatMap Subtree.addrs := List.mem_flatMap.mpr ⟨c, hc', hb⟩
        exact hsame b (List.mem_append_left _ (List.mem_cons_of_mem _ hmem)) (hne b (Or.inl hmem))
      · exact hp ▸ ht₁
      · exact hp ▸ ht₂
  · exact hrest.congr fun b hb => hsame b (List.mem_append_right _ hb) (hne b (Or.inr hb))

end Icarus.Core.LinkedTree
