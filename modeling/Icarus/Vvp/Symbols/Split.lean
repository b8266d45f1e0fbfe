import Icarus.Vvp.Symbols.Table

/-!
# Splitting full nodes

A node that is full after an insertion is split, and its parent gets a child more, which may
be full then, up to the root; a full root stays the root of its two halves. The items stay as
they are, from left to right.
-/

namespace Icarus.Vvp.Symbols

open Icarus.Core.LinkedTree

variable {V : Type}

/-- The content of a node between two insertions: neither empty nor full. -/
def bodyOk : Body (Key × V) → Prop
  | .leaf items => items ≠ [] ∧ items.length < leafWidth
  | .node children => children ≠ [] ∧ children.length < nodeWidth

/-- The content of a node within an insertion. -/
def bodyFits : Body (Key × V) → Prop
  | .leaf items => items ≠ [] ∧ items.length ≤ leafWidth
  | .node children => children ≠ [] ∧ children.length ≤ nodeWidth

/-- Addresses of different cells, all of them allocated. -/
def Allocated (size : Nat) (addrs : List Nat) : Prop := addrs.Nodup ∧ ∀ a ∈ addrs, a < size

theorem Allocated.perm {size : Nat} {as bs : List Nat} (h : Allocated size as)
    (hperm : bs.Perm as) : Allocated size bs :=
  ⟨hperm.nodup_iff.mpr h.1, fun a ha => h.2 a (hperm.mem_iff.mp ha)⟩

/-- A new cell beside others. -/
theorem Allocated.cons {size : Nat} {as : List Nat} (h : Allocated size as) :
    Allocated (size + 1) (size :: as) := by
  refine ⟨List.nodup_cons.mpr ⟨fun hmem => (h.2 _ hmem).false, h.1⟩, fun a ha => ?_⟩
  rcases List.mem_cons.mp ha with rfl | ha
  · exact Nat.lt_succ_self _
  · exact (h.2 a ha).trans (Nat.lt_succ_self _)

/-- A tree under the root, with its items. -/
def IsTree (t : SymbolTable V) (items : List (Key × V)) : Prop :=
  ∃ d addrs, Rooted bodyOk t.heap (d + 1) none ⟨root, addrs, items⟩ ∧ Allocated t.size addrs

variable {t t' : SymbolTable V} {f : Frame (Key × V)} {fs : List (Frame (Key × V))} {d : Nat}
  {p q : Option Nat} {part part₁ part₂ : Subtree (Key × V)} {a : Nat}

/-- A node within a tree of which all other nodes are as they should be. -/
structure Within (t : SymbolTable V) (fs : List (Frame (Key × V))) (d : Nat) (p : Option Nat)
    (part : Subtree (Key × V)) : Prop where
  /-- The path to the root. -/
  path : Above bodyOk t.heap root fs d p part.addr
  /-- The subtree. -/
  node : Loose bodyOk t.heap d p part
  /-- The addresses. -/
  allocated : Allocated t.size (part.addrs ++ pathAddrs fs)

/-- The tree around a node that is as it should be. -/
theorem Within.isTree (h : Within t fs d p part) (hok : bodyOk (t.heap part.addr).body)
    (hinner : 0 < d + fs.length) :
    IsTree t (itemsLeft fs ++ part.items ++ itemsRight fs) := by
  obtain ⟨addrs, hrep, hperm⟩ := h.path.rooted_root (rooted_iff.mpr ⟨hok, h.node⟩)
  obtain ⟨D, hD⟩ := Nat.exists_eq_succ_of_ne_zero hinner.ne'
  rw [hD] at hrep
  exact ⟨D, addrs, hrep, h.allocated.perm hperm⟩

/-- A path is no longer than its addresses. -/
theorem length_le_pathAddrs (fs : List (Frame (Key × V))) : fs.length ≤ (pathAddrs fs).length := by
  induction fs with
  | nil => exact Nat.zero_le _
  | cons f fs ih =>
    rw [pathAddrs_cons, List.length_append, List.length_cons, List.length_cons]
    omega

/-- There are as many allocated addresses as cells at most. -/
theorem Allocated.length_le {size : Nat} {as : List Nat} (h : Allocated size as) :
    as.length ≤ size := by
  have hsub : as ⊆ List.range size := fun a ha => List.mem_range.mpr (h.2 a ha)
  simpa using (List.subperm_of_subset h.1 hsub).length_le

/-! ## Siblings -/

theorem insertAfter_append {cur new : Nat} {left right : List Nat} (h : cur ∉ left) :
    insertAfter cur new (left ++ cur :: right) = some (left ++ cur :: new :: right) := by
  induction left with
  | nil => simp [insertAfter]
  | cons c left ih =>
    rw [List.mem_cons, not_or] at h
    rw [List.cons_append, insertAfter, if_neg (Ne.symm h.1), ih h.2]
    rfl

/-- The parent of a node that was split gets the new node as a child. -/
theorem hookSibling_spec (hpath : Above bodyOk t.heap root (f :: fs) d p a)
    (hpart₁ : Rooted bodyOk t.heap d p part₁) (hpart₂ : Rooted bodyOk t.heap d p part₂)
    (ha : part₁.addr = a)
    (halloc : Allocated t.size (part₁.addrs ++ (part₂.addrs ++ pathAddrs (f :: fs)))) :
    ∃ t' q, hookSibling t f.addr a part₂.addr = some t' ∧
      Within t' fs (d + 1) q (f.plug [part₁, part₂]) ∧ bodyFits (t'.heap f.addr).body := by
  obtain ⟨hp, hparts, hok, q, hcell, hrest⟩ := hpath
  obtain ⟨hnodup₁, hnodup₂, hdisj₁⟩ := List.nodup_append'.mp halloc.1
  obtain ⟨-, hnodup, hdisj₂⟩ := List.nodup_append'.mp hnodup₂
  have hfmem : f.addr ∈ pathAddrs (f :: fs) := by
    rw [pathAddrs_cons]
    exact List.mem_append_left _ List.mem_cons_self
  have hmid : a ∉ f.left.map Subtree.addr := by
    intro hmem
    obtain ⟨c, hc, hca⟩ := List.mem_map.mp hmem
    have hcrep := hparts c (List.mem_append_left _ hc)
    refine hdisj₁ (ha ▸ hpart₁.addr_mem) (List.mem_append_right _ ?_)
    rw [pathAddrs_cons, ← hca]
    exact List.mem_append_left _ (List.mem_cons_of_mem _
      (List.mem_flatMap.mpr ⟨c, List.mem_append_left _ hc, hcrep.addr_mem⟩))
  have hbody : (t.heap f.addr).body = .node (f.left.map Subtree.addr ++ a :: f.right.map Subtree.addr) := by
    rw [hcell]
  have hlt : (f.left.map Subtree.addr ++ a :: f.right.map Subtree.addr).length < nodeWidth := by
    rw [hbody] at hok
    exact hok.2
  obtain ⟨heap, hheap⟩ : ∃ heap, heap = setNode t.heap f.addr ⟨q, .node
    (f.left.map Subtree.addr ++ a :: part₂.addr :: f.right.map Subtree.addr)⟩ := ⟨_, rfl⟩
  have hself : heap f.addr = ⟨q, .node
      (f.left.map Subtree.addr ++ a :: part₂.addr :: f.right.map Subtree.addr)⟩ := by
    rw [hheap]
    exact Function.update_self _ _ _
  have hother : ∀ b, b ≠ f.addr → heap b = t.heap b := by
    intro b hb
    rw [hheap]
    exact Function.update_of_ne hb _ _
  have hattach := Above.attach (q := q) ⟨hp, hparts, hok, q, hcell, hrest⟩
    (hpart₁.congr fun b hb => hother b ?_) (hpart₂.congr fun b hb => hother b ?_) ha
    (by rw [hcell]) hself (fun b _ => hother b) hnodup
  · refine ⟨{ t with heap := heap }, q, ?_, ⟨hattach.2, hattach.1, halloc.perm ?_⟩, ?_⟩
    · rw [hookSibling, hbody]
      simp only [hlt, if_true, insertAfter_append hmid, Option.map_some, hcell, hheap]
    · simpa using addrs_plug f fs [part₁, part₂]
    · show bodyFits (heap f.addr).body
      rw [hself]
      refine ⟨by simp, ?_⟩
      simp only [List.length_append, List.length_cons] at hlt ⊢
      omega
  · rintro rfl
    exact hdisj₁ hb (List.mem_append_right _ hfmem)
  · rintro rfl
    exact hdisj₂ hb hfmem

/-! ## Inner nodes -/

@[simp] theorem setNode_self (heap : Nat → TreeNode V) (node : Nat) (cell : TreeNode V) :
    setNode heap node cell node = cell := Function.update_self _ _ _

theorem setNode_of_ne {heap : Nat → TreeNode V} {node b : Nat} {cell : TreeNode V}
    (h : b ≠ node) : setNode heap node cell b = heap b := Function.update_of_ne h _ _

theorem setParents_of_mem {heap : Nat → TreeNode V} {children : List Nat} {parent b : Nat}
    (h : b ∈ children) : setParents heap children parent b = ⟨some parent, (heap b).body⟩ :=
  if_pos h

theorem setParents_of_not_mem {heap : Nat → TreeNode V} {children : List Nat} {parent b : Nat}
    (h : b ∉ children) : setParents heap children parent b = heap b := if_neg h

/-- The addresses under a node, apart from those of the path to it. -/
theorem Within.disjoint (h : Within t fs d p part) :
    part.addrs.Nodup ∧ (∀ b ∈ pathAddrs fs, b ∉ part.addrs) ∧ (∀ b ∈ part.addrs, b < t.size) ∧
      ∀ b ∈ pathAddrs fs, b < t.size := by
  obtain ⟨hnodup, -, hdisj⟩ := List.nodup_append'.mp h.allocated.1
  exact ⟨hnodup, fun b hb hb' => hdisj hb' hb,
    fun b hb => h.allocated.2 b (List.mem_append_left _ hb),
    fun b hb => h.allocated.2 b (List.mem_append_right _ hb)⟩

/-- A node that is not the root gives the second half of its children to a new sibling. -/
theorem Within.siblings {parent : Nat} {left right : List (Subtree (Key × V))}
    (h : Within t fs (d + 1) (some parent) part)
    (hcs : ∀ c ∈ left ++ right, Rooted bodyOk t.heap d (some part.addr) c)
    (haddrs : part.addrs = part.addr :: (left ++ right).flatMap Subtree.addrs)
    (hleft : bodyOk (V := V) (.node (left.map Subtree.addr)))
    (hright : bodyOk (V := V) (.node (right.map Subtree.addr))) {heap : Nat → TreeNode V}
    (hheap : heap = setNode (setNode (setParents t.heap (right.map Subtree.addr) t.size) t.size
      ⟨some parent, .node (right.map Subtree.addr)⟩) part.addr
        ⟨some parent, .node (left.map Subtree.addr)⟩) :
    Above bodyOk heap root fs (d + 1) (some parent) part.addr ∧
    Rooted bodyOk heap (d + 1) (some parent)
      ⟨part.addr, part.addr :: left.flatMap Subtree.addrs, left.flatMap Subtree.items⟩ ∧
    Rooted bodyOk heap (d + 1) (some parent)
      ⟨t.size, t.size :: right.flatMap Subtree.addrs, right.flatMap Subtree.items⟩ := by
  obtain ⟨hnodup, hapart, hsize, hpathSize⟩ := h.disjoint
  rw [haddrs, List.nodup_cons] at hnodup
  have hcur : part.addr ≠ t.size := (hsize _ h.node.addr_mem).ne
  have hchild : ∀ b ∈ (left ++ right).flatMap Subtree.addrs, b ≠ part.addr ∧ b ≠ t.size := by
    intro b hb
    refine ⟨fun he => hnodup.1 (he ▸ hb), (hsize b ?_).ne⟩
    rw [haddrs]
    exact List.mem_cons_of_mem _ hb
  have hrootMem : ∀ b ∈ (left ++ right).map Subtree.addr, b ∈ (left ++ right).flatMap Subtree.addrs := by
    intro b hb
    obtain ⟨c, hc, rfl⟩ := List.mem_map.mp hb
    exact List.mem_flatMap.mpr ⟨c, hc, (hcs c hc).addr_mem⟩
  have hrest : ∀ b, b ≠ part.addr → b ≠ t.size →
      heap b = setParents t.heap (right.map Subtree.addr) t.size b := by
    intro b hb hb'
    rw [hheap, setNode_of_ne hb, setNode_of_ne hb']
  have hinner : ∀ b ∈ (left ++ right).flatMap Subtree.addrs,
      heap b = setParents t.heap (right.map Subtree.addr) t.size b :=
    fun b hb => hrest b (hchild b hb).1 (hchild b hb).2
  refine ⟨h.path.congr fun b hb => ?_, Rooted.share hcs hnodup.2 (fun b hb => ?_) (fun b hb => ?_)
    (fun b hb hb' => ?_) ?_ ?_ hleft hright⟩
  · have hb' := hapart b hb
    rw [haddrs, List.mem_cons, not_or] at hb'
    rw [hrest b hb'.1 (hpathSize b hb).ne, setParents_of_not_mem]
    exact fun hmem => hb'.2 (hrootMem b (by rw [List.map_append]; exact List.mem_append_right _ hmem))
  · obtain ⟨c, hc, rfl⟩ := List.mem_map.mp hb
    have hrep := hcs c (List.mem_append_left _ hc)
    have hmem : c.addr ∈ (left ++ right).flatMap Subtree.addrs :=
      List.mem_flatMap.mpr ⟨c, List.mem_append_left _ hc, hrep.addr_mem⟩
    have hnot : c.addr ∉ right.map Subtree.addr := by
      intro hr
      obtain ⟨e, he, hea⟩ := List.mem_map.mp hr
      rw [List.flatMap_append] at hnodup
      refine (List.nodup_append'.mp hnodup.2).2.2
        (List.mem_flatMap.mpr ⟨c, hc, hrep.addr_mem⟩) (List.mem_flatMap.mpr ⟨e, he, ?_⟩)
      rw [← hea]
      exact (hcs e (List.mem_append_right _ he)).addr_mem
    rw [hinner _ hmem, setParents_of_not_mem hnot, ← (rooted_iff.mp hrep).2.parent]
  · have hmem := hrootMem b (by rw [List.map_append]; exact List.mem_append_right _ hb)
    rw [hinner b hmem, setParents_of_mem hb]
  · have hnot : b ∉ right.map Subtree.addr := fun hmem =>
      hb' (by rw [List.map_append]; exact List.mem_append_right _ hmem)
    rw [hinner b hb, setParents_of_not_mem hnot]
  · rw [hheap, setNode_self]
  · rw [hheap, setNode_of_ne hcur.symm, setNode_self]

/-- The root gives the halves of its children to two new nodes, its only children then. -/
theorem Within.rootSplit {left right : List (Subtree (Key × V))} (h : Within t [] (d + 1) none part)
    (hcs : ∀ c ∈ left ++ right, Rooted bodyOk t.heap d (some part.addr) c)
    (haddrs : part.addrs = part.addr :: (left ++ right).flatMap Subtree.addrs)
    (hitems : part.items = (left ++ right).flatMap Subtree.items)
    (hleft : bodyOk (V := V) (.node (left.map Subtree.addr)))
    (hright : bodyOk (V := V) (.node (right.map Subtree.addr))) {heap : Nat → TreeNode V}
    (hheap : heap = setNode (setNode (setNode (setParents (setParents t.heap
      (right.map Subtree.addr) t.size) (left.map Subtree.addr) (t.size + 1))
        t.size ⟨some part.addr, .node (right.map Subtree.addr)⟩)
          (t.size + 1) ⟨some part.addr, .node (left.map Subtree.addr)⟩)
            part.addr ⟨none, .node [t.size + 1, t.size]⟩) :
    IsTree { t with heap := heap, size := t.size + 2 } part.items := by
  obtain ⟨hnodup, -, hsize, -⟩ := h.disjoint
  have hroot : part.addr = root := h.path.2
  have halloc : Allocated t.size part.addrs := ⟨hnodup, hsize⟩
  rw [haddrs, List.nodup_cons] at hnodup
  have hcur : part.addr < t.size := hsize _ h.node.addr_mem
  have hchild : ∀ b ∈ (left ++ right).flatMap Subtree.addrs, b ≠ part.addr ∧ b < t.size := by
    intro b hb
    refine ⟨fun he => hnodup.1 (he ▸ hb), hsize b ?_⟩
    rw [haddrs]
    exact List.mem_cons_of_mem _ hb
  have hrootMem : ∀ c ∈ left ++ right, c.addr ∈ (left ++ right).flatMap Subtree.addrs :=
    fun c hc => List.mem_flatMap.mpr ⟨c, hc, (hcs c hc).addr_mem⟩
  have hinner : ∀ b ∈ (left ++ right).flatMap Subtree.addrs, heap b = setParents (setParents t.heap
      (right.map Subtree.addr) t.size) (left.map Subtree.addr) (t.size + 1) b := by
    intro b hb
    obtain ⟨hne, hlt⟩ := hchild b hb
    rw [hheap, setNode_of_ne hne, setNode_of_ne (by omega), setNode_of_ne hlt.ne]
  have hdisj : ∀ b ∈ right.map Subtree.addr, b ∉ left.map Subtree.addr := by
    intro b hb hb'
    obtain ⟨c, hc, rfl⟩ := List.mem_map.mp hb
    obtain ⟨e, he, hea⟩ := List.mem_map.mp hb'
    rw [List.flatMap_append] at hnodup
    refine (List.nodup_append'.mp hnodup.2).2.2 (List.mem_flatMap.mpr ⟨e, he, ?_⟩)
      (List.mem_flatMap.mpr ⟨c, hc, (hcs c (List.mem_append_right _ hc)).addr_mem⟩)
    rw [← hea]
    exact (hcs e (List.mem_append_left _ he)).addr_mem
  have hshare : Rooted bodyOk heap (d + 1) (some part.addr)
        ⟨t.size + 1, (t.size + 1) :: left.flatMap Subtree.addrs, left.flatMap Subtree.items⟩ ∧
      Rooted bodyOk heap (d + 1) (some part.addr)
        ⟨t.size, t.size :: right.flatMap Subtree.addrs, right.flatMap Subtree.items⟩ := by
    refine Rooted.share hcs hnodup.2 (fun b hb => ?_) (fun b hb => ?_) (fun b hb hb' => ?_)
      ?_ ?_ hleft hright
    · obtain ⟨c, hc, rfl⟩ := List.mem_map.mp hb
      have hnot : c.addr ∉ right.map Subtree.addr := fun hr => hdisj _ hr hb
      rw [hinner _ (hrootMem c (List.mem_append_left _ hc)), setParents_of_mem hb,
        setParents_of_not_mem hnot]
    · obtain ⟨c, hc, rfl⟩ := List.mem_map.mp hb
      rw [hinner _ (hrootMem c (List.mem_append_right _ hc)), setParents_of_not_mem (hdisj _ hb),
        setParents_of_mem hb]
    · rw [List.map_append, List.mem_append, not_or] at hb'
      rw [hinner b hb, setParents_of_not_mem hb'.1, setParents_of_not_mem hb'.2]
    · rw [hheap, setNode_of_ne (by omega), setNode_self]
    · rw [hheap, setNode_of_ne hcur.ne', setNode_of_ne (by omega), setNode_self]
  obtain ⟨hrep₁, hrep₂⟩ := hshare
  obtain ⟨halves, hhalves⟩ : ∃ halves : List (Subtree (Key × V)), halves =
      [⟨t.size + 1, (t.size + 1) :: left.flatMap Subtree.addrs, left.flatMap Subtree.items⟩,
        ⟨t.size, t.size :: right.flatMap Subtree.addrs, right.flatMap Subtree.items⟩] := ⟨_, rfl⟩
  refine ⟨d + 1, root :: halves.flatMap Subtree.addrs, ⟨?_, halves, ?_, ?_, rfl, ?_⟩, ?_⟩
  · show bodyOk (heap root).body
    rw [← hroot, hheap, setNode_self]
    exact ⟨List.cons_ne_nil _ _, show 2 < nodeWidth by decide⟩
  · show heap root = _
    rw [← hroot, hheap, setNode_self, hhalves]
    rfl
  · intro c hc
    rw [hhalves] at hc
    rw [← hroot]
    rcases List.mem_pair.mp hc with rfl | rfl
    · exact hrep₁
    · exact hrep₂
  · rw [hitems, hhalves]
    simp
  · refine (halloc.cons.cons).perm ?_
    rw [haddrs, List.flatMap_append, hhalves, ← hroot]
    simp only [List.flatMap_cons, List.flatMap_nil, List.append_nil, List.cons_append]
    refine (List.Perm.swap _ _ _).trans (List.Perm.cons _ ?_)
    rw [← List.cons_append]
    refine List.perm_middle.trans (List.Perm.cons _ ?_)
    exact List.Perm.refl _

/-- The halves of a full node. -/
theorem bodyOk_halves {cs : List (Subtree (Key × V))}
    (hfull : (cs.map Subtree.addr).length = nodeWidth) :
    bodyOk (V := V) (.node ((cs.take 254).map Subtree.addr)) ∧
      bodyOk (V := V) (.node ((cs.drop 254).map Subtree.addr)) := by
  rw [List.length_map] at hfull
  have hwidth : nodeWidth = 508 := rfl
  have hleft : (cs.take 254).length = 254 := by
    rw [List.length_take]
    omega
  have hright : (cs.drop 254).length = 254 := by
    rw [List.length_drop]
    omega
  refine ⟨⟨?_, ?_⟩, ?_, ?_⟩
  · exact List.ne_nil_of_length_pos (by rw [List.length_map]; omega)
  · rw [List.length_map]
    omega
  · exact List.ne_nil_of_length_pos (by rw [List.length_map]; omega)
  · rw [List.length_map]
    omega

/-- One round of the loop at a full node. -/
theorem splitNodeLoop_full (fuel : Nat) {cur : Nat} {cs : List (Subtree (Key × V))}
    (hcell : t.heap cur = ⟨p, .node (cs.map Subtree.addr)⟩)
    (hfull : (cs.map Subtree.addr).length = nodeWidth) :
    splitNodeLoop (fuel + 1) t cur =
      let left := (cs.take 254).map Subtree.addr
      let right := (cs.drop 254).map Subtree.addr
      match p with
      | none => some { t with
          heap := setNode (setNode (setNode
            (setParents (setParents t.heap right t.size) left (t.size + 1))
              t.size ⟨some cur, .node right⟩) (t.size + 1) ⟨some cur, .node left⟩)
                cur ⟨none, .node [t.size + 1, t.size]⟩
          size := t.size + 2 }
      | some parent => (hookSibling { t with
          heap := setNode (setNode (setParents t.heap right t.size) t.size
            ⟨some parent, .node right⟩) cur ⟨some parent, .node left⟩
          size := t.size + 1 } parent cur t.size).bind fun t' => splitNodeLoop fuel t' parent := by
  obtain ⟨⟨hleft, -⟩, hright, -⟩ := bodyOk_halves hfull
  have hkeep : (cs.map Subtree.addr).length - (cs.map Subtree.addr).length / 2 = 254 := by rw [hfull]; rfl
  rw [splitNodeLoop]
  simp only [hcell, hkeep, ← List.map_take, ← List.map_drop]
  rw [if_neg (not_not.mpr hfull), if_neg (not_or.mpr ⟨hright, hleft⟩)]
  cases p <;> rfl

/-- The loop ends at a node that is not full. -/
theorem splitNodeLoop_notFull {fuel : Nat} {children : List Nat} (h : Within t fs (d + 1) p part)
    (hcell : t.heap part.addr = ⟨p, .node children⟩) (hfits : bodyFits (V := V) (.node children))
    (hfull : children.length ≠ nodeWidth) :
    ∃ t', splitNodeLoop (fuel + 1) t part.addr = some t' ∧
      IsTree t' (itemsLeft fs ++ part.items ++ itemsRight fs) := by
  refine ⟨t, ?_, h.isTree ?_ (Nat.add_pos_left d.succ_pos _)⟩
  · rw [splitNodeLoop, hcell]
    exact if_pos hfull
  · rw [hcell]
    exact ⟨hfits.1, lt_of_le_of_ne hfits.2 hfull⟩

/-- The loop over full nodes makes a tree of a tree with a node that may be full. -/
theorem splitNodeLoop_spec {fuel : Nat} (hfuel : fs.length ≤ fuel) (h : Within t fs (d + 1) p part)
    (hfits : bodyFits (t.heap part.addr).body) :
    ∃ t', splitNodeLoop (fuel + 1) t part.addr = some t' ∧
      IsTree t' (itemsLeft fs ++ part.items ++ itemsRight fs) := by
  induction fs generalizing fuel t d p part with
  | nil =>
    obtain ⟨cs, hcell, hcs, haddrs, hitems⟩ := h.node
    rw [hcell] at hfits
    by_cases hfull : (cs.map Subtree.addr).length = nodeWidth
    · obtain ⟨hleft, hright⟩ := bodyOk_halves hfull
      have hround := splitNodeLoop_full fuel hcell hfull
      rw [← List.take_append_drop 254 cs] at hcs haddrs hitems
      obtain ⟨rfl, -⟩ := id h.path
      refine ⟨_, hround, ?_⟩
      have htree := h.rootSplit hcs haddrs hitems hleft hright rfl
      simpa [itemsLeft, itemsRight] using htree
    · exact splitNodeLoop_notFull h hcell hfits hfull
  | cons f fs ih =>
    obtain ⟨cs, hcell, hcs, haddrs, hitems⟩ := h.node
    rw [hcell] at hfits
    by_cases hfull : (cs.map Subtree.addr).length = nodeWidth
    · obtain ⟨hleft, hright⟩ := bodyOk_halves hfull
      have hround := splitNodeLoop_full fuel hcell hfull
      rw [← List.take_append_drop 254 cs] at hcs haddrs hitems
      obtain ⟨rfl, -⟩ := id h.path
      obtain ⟨hpath, hrep₁, hrep₂⟩ := h.siblings hcs haddrs hleft hright rfl
      have halloc := h.allocated.cons
      rw [haddrs, List.flatMap_append] at halloc
      obtain ⟨t', q, hhook, hwithin, hroom⟩ := hookSibling_spec (t := { t with
        heap := setNode (setNode (setParents t.heap ((cs.drop 254).map Subtree.addr) t.size) t.size
          ⟨some f.addr, .node ((cs.drop 254).map Subtree.addr)⟩) part.addr
            ⟨some f.addr, .node ((cs.take 254).map Subtree.addr)⟩
        size := t.size + 1 }) hpath hrep₁ hrep₂ rfl (halloc.perm (by
          simp only [List.cons_append, List.append_assoc]
          exact (List.Perm.cons _ List.perm_middle).trans (List.Perm.swap _ _ _)))
      obtain ⟨fuel, rfl⟩ := Nat.exists_eq_succ_of_ne_zero
        (Nat.ne_of_gt (Nat.zero_lt_of_lt (Nat.lt_of_succ_le hfuel)))
      obtain ⟨t'', hloop, htree⟩ := ih (Nat.le_of_succ_le_succ hfuel) hwithin hroom
      refine ⟨t'', ?_, ?_⟩
      · rw [hround]
        simp only [hhook, Option.bind_some]
        exact hloop
      · rw [items_plug] at htree
        rw [hitems, List.flatMap_append]
        simpa using htree
    · exact splitNodeLoop_notFull h hcell hfits hfull

/-- The parent of a node on the path to the root is an inner node. -/
theorem Within.parentOk (h : Within t fs d p part) : parentOk t (t.heap part.addr).parent = true := by
  rw [h.node.parent]
  cases fs with
  | nil =>
    obtain ⟨rfl, -⟩ := h.path
    rfl
  | cons f fs =>
    obtain ⟨rfl, -, -, q, hcell, -⟩ := h.path
    rw [Symbols.parentOk, hcell]

/-- Splitting an inner node that may be full. -/
theorem splitNode_spec (h : Within t fs (d + 1) p part) (hfits : bodyFits (t.heap part.addr).body) :
    ∃ t', splitNode t part.addr = some t' ∧
      IsTree t' (itemsLeft fs ++ part.items ++ itemsRight fs) := by
  have hfuel : fs.length ≤ t.size := by
    have hle := h.allocated.length_le
    rw [List.length_append] at hle
    exact (length_le_pathAddrs fs).trans (Nat.le_of_add_left_le hle)
  rw [splitNode, if_pos h.parentOk]
  exact splitNodeLoop_spec hfuel h hfits

/-! ## Leaves -/

/-- A leaf that is full after an insertion is split. -/
theorem splitLeaf_spec (h : Within t (f :: fs) 0 p part)
    (hfull : part.items.length = leafWidth) :
    ∃ t', splitLeaf t part.addr = some t' ∧
      IsTree t' (itemsLeft (f :: fs) ++ part.items ++ itemsRight (f :: fs)) := by
  obtain ⟨hcell, haddrs⟩ := h.node
  obtain ⟨rfl, -⟩ := id h.path
  obtain ⟨hnodup, hapart, hsize, hpathSize⟩ := h.disjoint
  have hcur : part.addr ≠ t.size := (hsize _ h.node.addr_mem).ne
  have hkeep : part.items.length - part.items.length / 2 = 127 := by rw [hfull]; rfl
  have hwidth : leafWidth = 254 := rfl
  have hleft : (part.items.take 127).length = 127 := by
    rw [List.length_take]
    omega
  have hright : (part.items.drop 127).length = 127 := by
    rw [List.length_drop]
    omega
  have hleftOk : bodyOk (.leaf (part.items.take 127)) :=
    ⟨List.ne_nil_of_length_pos (by omega), by omega⟩
  have hrightOk : bodyOk (.leaf (part.items.drop 127)) :=
    ⟨List.ne_nil_of_length_pos (by omega), by omega⟩
  obtain ⟨heap, hheap⟩ : ∃ heap, heap = setNode (setNode t.heap t.size
    ⟨some f.addr, .leaf (part.items.drop 127)⟩) part.addr
      ⟨some f.addr, .leaf (part.items.take 127)⟩ := ⟨_, rfl⟩
  have hcur' : heap part.addr = ⟨some f.addr, .leaf (part.items.take 127)⟩ := by
    rw [hheap, setNode_self]
  have hnew : heap t.size = ⟨some f.addr, .leaf (part.items.drop 127)⟩ := by
    rw [hheap, setNode_of_ne hcur.symm, setNode_self]
  have hpath : Above bodyOk heap root (f :: fs) 0 (some f.addr) part.addr := by
    refine h.path.congr fun b hb => ?_
    have hne : b ≠ part.addr := fun he => hapart b hb (he ▸ h.node.addr_mem)
    rw [hheap, setNode_of_ne hne, setNode_of_ne (hpathSize b hb).ne]
  have hrep₁ : Rooted bodyOk heap 0 (some f.addr) ⟨part.addr, [part.addr], part.items.take 127⟩ :=
    ⟨by rw [hcur']; exact hleftOk, hcur', rfl⟩
  have hrep₂ : Rooted bodyOk heap 0 (some f.addr) ⟨t.size, [t.size], part.items.drop 127⟩ :=
    ⟨by rw [hnew]; exact hrightOk, hnew, rfl⟩
  have halloc := h.allocated.cons
  rw [haddrs] at halloc
  obtain ⟨t', q, hhook, hwithin, hroom⟩ := hookSibling_spec (t := { t with
    heap := heap, size := t.size + 1 }) hpath hrep₁ hrep₂ rfl
      (halloc.perm (List.Perm.swap _ _ _))
  have hitems : itemsLeft fs ++ (f.plug [⟨part.addr, [part.addr], part.items.take 127⟩,
      ⟨t.size, [t.size], part.items.drop 127⟩]).items ++ itemsRight fs =
        itemsLeft (f :: fs) ++ part.items ++ itemsRight (f :: fs) := by
    rw [items_plug]
    simp
  have hround : splitLeaf t part.addr =
      if nodeFull t' f.addr then splitNode t' f.addr else some t' := by
    rw [splitLeaf, hcell]
    simp only [hkeep]
    rw [if_neg (not_or.mpr ⟨hrightOk.1, hleftOk.1⟩), ← hheap, hhook]
    rfl
  rw [hround, ← hitems]
  obtain ⟨cs, hfcell, -⟩ := id hwithin.node
  have hbody : (t'.heap f.addr).body = .node (cs.map Subtree.addr) := congrArg Cell.body hfcell
  by_cases hpfull : (cs.map Subtree.addr).length = nodeWidth
  · have hfull' : nodeFull t' f.addr = true := by
      rw [nodeFull, hbody]
      exact decide_eq_true hpfull
    rw [if_pos hfull']
    exact splitNode_spec hwithin hroom
  · have hnot : ¬ nodeFull t' f.addr = true := by
      rw [nodeFull, hbody]
      exact fun h => hpfull (of_decide_eq_true h)
    rw [if_neg hnot]
    refine ⟨t', rfl, hwithin.isTree ?_ (Nat.add_pos_left (Nat.succ_pos 0) _)⟩
    show bodyOk (t'.heap f.addr).body
    rw [hbody] at hroom ⊢
    exact ⟨hroom.1, lt_of_le_of_ne hroom.2 hpfull⟩

end Icarus.Vvp.Symbols
