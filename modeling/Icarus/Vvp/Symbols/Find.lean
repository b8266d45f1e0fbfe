import Icarus.Vvp.Symbols.Entries
import Icarus.Vvp.Symbols.Split

/-!
# Search

The binary search goes to the child in which a key is, or has its place. On the whole tree
the search does what the loop over a leaf does on all entries from left to right.
-/

namespace Icarus.Vvp.Symbols

open Icarus.Core.LinkedTree

variable {V : Type}

/-! ## The binary search -/

/-- The search in increasing keys: the keys before the index are smaller than the key that is
searched, the one at the index is not, but for the last one. -/
theorem childIndex_spec {lastKey : Nat → Option Key} (last : Nat → Key) {count : Nat} (key : Key)
    (hlast : ∀ j < count, lastKey j = some (last j))
    (hmono : ∀ i j, i < j → j < count → last i < last j) {fuel min max idx : Nat}
    (hfuel : max - min < fuel) (hmin : min ≤ idx) (hidx : idx < max) (hmax : max ≤ count)
    (hbelow : ∀ j < min, last j < key) (habove : ∀ j, max ≤ j → j < count → key < last j) :
    ∃ i < count, childIndex lastKey count key fuel min max idx = some i ∧
      (∀ j < i, last j < key) ∧ (key ≤ last i ∨ i + 1 = count) := by
  induction fuel generalizing min max idx with
  | zero => exact absurd hfuel (Nat.not_lt_zero _)
  | succ fuel ih =>
    have hcount : idx < count := hidx.trans_le hmax
    have hmidst : ∀ min max : Nat, min < max →
        min ≤ min + (max - min) / 2 ∧ min + (max - min) / 2 < max := by
      intro min max h
      omega
    rw [childIndex, hlast idx hcount, Option.bind_some]
    by_cases hzero : strcmp key (last idx) = 0
    · have hkey : key = last idx := strcmp_eq_zero.mp hzero
      rw [if_pos hzero]
      exact ⟨idx, hcount, rfl, fun j hj => hkey ▸ hmono j idx hj hcount, Or.inl hkey.le⟩
    · rw [if_neg hzero]
      by_cases hpos : 0 < strcmp key (last idx)
      · have hkey : last idx < key := strcmp_pos.mp hpos
        have hbelow' : ∀ j < idx + 1, last j < key := by
          intro j hj
          rcases Nat.lt_succ_iff_lt_or_eq.mp hj with hj | rfl
          · exact (hmono j idx hj hcount).trans hkey
          · exact hkey
        rw [if_pos hpos]
        by_cases hend : idx + 1 = count
        · rw [if_pos hend]
          exact ⟨idx, hcount, rfl, fun j hj => hbelow' j (hj.trans (Nat.lt_succ_self _)), Or.inr hend⟩
        · rw [if_neg hend]
          by_cases hmeet : idx + 1 = max
          · have hmax' : max < count := lt_of_le_of_ne hmax (hmeet ▸ hend)
            rw [if_pos hmeet]
            exact ⟨max, hmax', rfl, hmeet ▸ hbelow', Or.inl (habove max le_rfl hmax').le⟩
          · have hlt : idx + 1 < max := lt_of_le_of_ne hidx hmeet
            rw [if_neg hmeet]
            exact ih (by omega) (hmidst _ _ hlt).1 (hmidst _ _ hlt).2 hmax hbelow' habove
      · have hneg : strcmp key (last idx) < 0 := lt_of_le_of_ne (not_lt.mp hpos) hzero
        have hkey : key < last idx := strcmp_neg.mp hneg
        have habove' : ∀ j, idx ≤ j → j < count → key < last j := by
          intro j hj hjc
          rcases hj.lt_or_eq with hj | rfl
          · exact hkey.trans (hmono idx j hj hjc)
          · exact hkey
        rw [if_neg hpos]
        by_cases hmeet : idx = min
        · rw [if_pos hmeet]
          exact ⟨idx, hcount, rfl, hmeet ▸ hbelow, Or.inl hkey.le⟩
        · have hlt : min < idx := lt_of_le_of_ne hmin (Ne.symm hmeet)
          rw [if_neg hmeet]
          exact ih (by omega) (hmidst _ _ hlt).1 (hmidst _ _ hlt).2 hcount.le hbelow habove'

/-! ## The last keys -/

theorem not_bodyOk_leaf_nil : ¬ bodyOk (V := V) (.leaf []) := fun h => h.1 rfl

theorem not_bodyOk_node_nil : ¬ bodyOk (V := V) (.node []) := fun h => h.1 rfl

variable {t : SymbolTable V} {d : Nat} {p : Option Nat} {part : Subtree (Key × V)}

/-- The last key under a node is that of its last item. -/
theorem nodeLastKey_spec {heap : Nat → TreeNode V} {fuel : Nat} (h : Rooted bodyOk heap d p part)
    (hfuel : d < fuel) : nodeLastKey heap fuel part.addr = part.items.getLast?.map Prod.fst := by
  induction d generalizing fuel p part with
  | zero =>
    obtain ⟨fuel, rfl⟩ := Nat.exists_eq_succ_of_ne_zero hfuel.ne'
    rw [nodeLastKey, h.2.1]
  | succ d ih =>
    obtain ⟨fuel, rfl⟩ := Nat.exists_eq_succ_of_ne_zero (Nat.ne_of_gt (Nat.zero_lt_of_lt hfuel))
    obtain ⟨hok, cs, hcell, hcs, -, hitems⟩ := h
    rw [hcell] at hok
    rw [nodeLastKey, hcell]
    have hne : cs ≠ [] := fun hnil => hok.1 (by rw [hnil]; rfl)
    obtain ⟨init, c, rfl⟩ := cs.eq_nil_or_concat'.resolve_left hne
    have hc := hcs c (by simp)
    have hcne := (hc.items_ne_nil not_bodyOk_leaf_nil not_bodyOk_node_nil).1
    rw [hitems]
    simp only [List.map_append, List.map_cons, List.map_nil, List.getLast?_concat, Option.bind_some,
      List.flatMap_append, List.flatMap_cons, List.flatMap_nil, List.append_nil]
    rw [ih hc (Nat.lt_of_succ_lt_succ hfuel), List.getLast?_append_of_ne_nil _ hcne]

/-! ## Inner nodes -/

/-- The last key of some items. -/
def lastKeyOf (items : List (Key × V)) : Key := (items.getLast?.map Prod.fst).getD []

/-- The last key is the greatest one of sorted items. -/
theorem le_lastKeyOf {items : List (Key × V)} (hsorted : Sorted items) {e : Key × V}
    (he : e ∈ items) : e.1 ≤ lastKeyOf items := by
  obtain ⟨init, l, rfl⟩ := items.eq_nil_or_concat'.resolve_left (List.ne_nil_of_mem he)
  have hlast : lastKeyOf (init ++ [l]) = l.1 := by simp [lastKeyOf]
  rw [hlast]
  rcases List.mem_append.mp he with he | he
  · exact ((List.pairwise_append.mp hsorted).2.2 e he l (List.mem_singleton_self l)).le
  · rw [List.mem_singleton.mp he]

theorem some_lastKeyOf {items : List (Key × V)} (hne : items ≠ []) :
    items.getLast?.map Prod.fst = some (lastKeyOf items) := by
  obtain ⟨init, l, rfl⟩ := items.eq_nil_or_concat'.resolve_left hne
  simp [lastKeyOf]

theorem exists_lastKeyOf {items : List (Key × V)} (hne : items ≠ []) :
    ∃ e ∈ items, e.1 = lastKeyOf items := by
  obtain ⟨init, l, rfl⟩ := items.eq_nil_or_concat'.resolve_left hne
  exact ⟨l, by simp, by simp [lastKeyOf]⟩

/-- The child to go on with: the keys before it are smaller, those behind it greater. -/
theorem childIndex_children {cs : List (Subtree (Key × V))} (key : Key)
    (hcs : ∀ c ∈ cs, Rooted bodyOk t.heap d p c) (hdepth : d < t.size) (hne : cs ≠ [])
    (hsorted : Sorted (cs.flatMap Subtree.items)) :
    ∃ left c right, cs = left ++ c :: right ∧
      childIndex (fun idx => (cs.map Subtree.addr)[idx]?.bind (nodeLastKey t.heap t.size))
        (cs.map Subtree.addr).length key ((cs.map Subtree.addr).length + 1) 0
        (cs.map Subtree.addr).length ((cs.map Subtree.addr).length / 2) = some left.length ∧
      (∀ e ∈ left.flatMap Subtree.items, e.1 < key) ∧ ∀ e ∈ right.flatMap Subtree.items, key < e.1 := by
  obtain ⟨hown, hpair⟩ := List.pairwise_flatMap.mp hsorted
  have hitems : ∀ c ∈ cs, c.items ≠ [] := fun c hc =>
    ((hcs c hc).items_ne_nil not_bodyOk_leaf_nil not_bodyOk_node_nil).1
  have hlen : (cs.map Subtree.addr).length = cs.length := List.length_map _
  have hpos : 0 < cs.length := List.length_pos_of_ne_nil hne
  obtain ⟨i, hi, hindex, hbefore, hat⟩ := @childIndex_spec
    (fun idx => (cs.map Subtree.addr)[idx]?.bind (nodeLastKey t.heap t.size))
    (fun j => (cs[j]?.map fun c => lastKeyOf c.items).getD []) (cs.map Subtree.addr).length key
    (fun j hj => by
      rw [hlen] at hj
      have hmem := hcs _ (List.getElem_mem hj)
      simp only [List.getElem?_map, List.getElem?_eq_getElem hj, Option.map_some, Option.bind_some,
        Option.getD_some]
      rw [nodeLastKey_spec hmem hdepth, some_lastKeyOf (hitems _ (List.getElem_mem hj))])
    (fun i j hij hj => by
      rw [hlen] at hj
      have hi := hij.trans hj
      simp only [List.getElem?_eq_getElem hj, List.getElem?_eq_getElem hi, Option.map_some,
        Option.getD_some]
      obtain ⟨e, he, hel⟩ := exists_lastKeyOf (hitems _ (List.getElem_mem hi))
      obtain ⟨e', he', hel'⟩ := exists_lastKeyOf (hitems _ (List.getElem_mem hj))
      rw [← hel, ← hel']
      exact List.pairwise_iff_getElem.mp hpair i j hi hj hij e he e' he')
    _ _ _ _ (Nat.lt_succ_self _) (Nat.zero_le _) (Nat.div_lt_self (by omega) Nat.one_lt_two) le_rfl
    (fun j hj => absurd hj (Nat.not_lt_zero j)) (fun j hj hj' => absurd hj' (not_lt.mpr hj))
  rw [hlen] at hi hat
  have hsplit : cs = cs.take i ++ cs[i] :: cs.drop (i + 1) := by
    rw [List.getElem_cons_drop, List.take_append_drop]
  refine ⟨cs.take i, cs[i], cs.drop (i + 1), hsplit, ?_, fun e he => ?_, fun e he => ?_⟩
  · rw [List.length_take, min_eq_left hi.le]
    exact hindex
  · obtain ⟨c, hc, he⟩ := List.mem_flatMap.mp he
    obtain ⟨j, hj, rfl⟩ := List.mem_take_iff_getElem.mp hc
    have hlt := hbefore j (lt_of_lt_of_le hj (min_le_left _ _))
    rw [List.getElem?_eq_getElem (lt_of_lt_of_le hj (min_le_right _ _))] at hlt
    exact (le_lastKeyOf (hown _ (List.getElem_mem _)) he).trans_lt hlt
  · obtain ⟨c, hc, he⟩ := List.mem_flatMap.mp he
    rcases hat with hat | hat
    · rw [List.getElem?_eq_getElem hi] at hat
      obtain ⟨l, hl, hll⟩ := exists_lastKeyOf (hitems _ (List.getElem_mem hi))
      rw [hsplit] at hpair
      have hbehind := (List.pairwise_cons.mp (List.pairwise_append.mp hpair).2.1).1 c hc l hl e he
      rw [hll] at hbehind
      exact lt_of_le_of_lt hat hbehind
    · rw [List.drop_eq_nil_of_le hat.ge] at hc
      exact absurd hc List.not_mem_nil

/-! ## The search -/

/-- Room for a short key leaves the tree as it is. -/
theorem keyStrdup_spec {key : Key} (hkey : key.length + 1 ≤ chunkSize) :
    ∃ t', keyStrdup t key = some t' ∧ t'.heap = t.heap ∧ t'.size = t.size := by
  rw [keyStrdup]
  simp only [hkey, if_true]
  split
  · exact ⟨_, rfl, rfl, rfl⟩
  · exact ⟨_, rfl, rfl, rfl⟩

variable {fs : List (Frame (Key × V))}

/-- A leaf with other entries. -/
theorem Within.setLeaf (h : Within t fs 0 p part) {t' : SymbolTable V} {items : List (Key × V)}
    (hheap : t'.heap = setNode t.heap part.addr ⟨p, .leaf items⟩) (hsize : t'.size = t.size) :
    Within t' fs 0 p ⟨part.addr, part.addrs, items⟩ := by
  obtain ⟨-, hapart, -, -⟩ := h.disjoint
  refine ⟨h.path.congr fun b hb => ?_, ⟨?_, h.node.2⟩, hsize ▸ h.allocated⟩
  · rw [hheap, setNode_of_ne]
    rintro rfl
    exact hapart _ hb h.node.addr_mem
  · rw [hheap, setNode_self]

/-- Entries around a leaf. -/
theorem leafEntries_middle {left items right : List (Key × V)} {key : Key} {val : V}
    {forceFlag : Bool} (hleft : ∀ e ∈ left, e.1 < key) (hright : ∀ e ∈ right, key < e.1) :
    leafEntries key val forceFlag (left ++ items ++ right) =
      ((leafEntries key val forceFlag items).1,
        left ++ (leafEntries key val forceFlag items).2.1 ++ right,
        (leafEntries key val forceFlag items).2.2) := by
  rw [leafEntries_append_right hright, leafEntries_append_left hleft]

/-- The key and the value in a leaf of the tree. -/
theorem findInLeaf_spec {key : Key} (val : V) (forceFlag : Bool) {f : Frame (Key × V)}
    (h : Within t (f :: fs) 0 p part) (hok : bodyOk (t.heap part.addr).body)
    (hkey : key.length + 1 ≤ chunkSize) :
    ∃ t', findInLeaf t part.addr part.items key val forceFlag =
        some ((leafEntries key val forceFlag part.items).2.2, t') ∧
      IsTree t' (itemsLeft (f :: fs) ++ (leafEntries key val forceFlag part.items).2.1 ++
        itemsRight (f :: fs)) := by
  rw [h.node.1] at hok
  have hlen := length_leafEntries key val forceFlag part.items
  have hparent : (t.heap part.addr).parent = p := h.node.parent
  have hinner : 0 < 0 + (f :: fs).length := Nat.add_pos_right _ (Nat.succ_pos _)
  rw [findInLeaf, hparent]
  generalize leafEntries key val forceFlag part.items = entries at hlen ⊢
  obtain ⟨isNew, items, res⟩ := entries
  cases isNew with
  | true =>
    simp only [if_true] at hlen
    have hne : items ≠ [] := List.ne_nil_of_length_pos (by omega)
    obtain ⟨t₁, hstr, hheap, hsize⟩ := keyStrdup_spec (t := t) hkey
    simp only [if_true, hok.2, hstr, Option.bind_some]
    have hwithin : Within { t₁ with heap := setNode t₁.heap part.addr ⟨p, .leaf items⟩ }
        (f :: fs) 0 p ⟨part.addr, part.addrs, items⟩ := h.setLeaf (by rw [hheap]) hsize
    by_cases hfull : items.length = leafWidth
    · obtain ⟨t', hsplit, htree⟩ := splitLeaf_spec hwithin hfull
      rw [if_pos hfull, hsplit]
      exact ⟨t', rfl, htree⟩
    · rw [if_neg hfull]
      refine ⟨_, rfl, hwithin.isTree ?_ hinner⟩
      rw [hwithin.node.1]
      exact ⟨hne, lt_of_le_of_ne (hlen ▸ hok.2) hfull⟩
  | false =>
    have hlen' : items.length = part.items.length := hlen
    have hwithin : Within { t with heap := setNode t.heap part.addr ⟨p, .leaf items⟩ }
        (f :: fs) 0 p ⟨part.addr, part.addrs, items⟩ := h.setLeaf rfl rfl
    refine ⟨_, rfl, hwithin.isTree ?_ hinner⟩
    rw [hwithin.node.1]
    exact ⟨List.ne_nil_of_length_pos (hlen' ▸ List.length_pos_of_ne_nil hok.1), hlen' ▸ hok.2⟩

/-- The search does to the items of the tree what the loop over a leaf does. -/
theorem findValue_spec {fuel : Nat} {key : Key} (val : V) (forceFlag : Bool) (hfuel : d < fuel)
    (h : Within t fs d p part) (hok : bodyOk (t.heap part.addr).body) (hinner : 0 < d + fs.length)
    (hsorted : Sorted part.items) (hleft : ∀ e ∈ itemsLeft fs, e.1 < key)
    (hright : ∀ e ∈ itemsRight fs, key < e.1) (hkey : key.length + 1 ≤ chunkSize) :
    ∃ t', findValue fuel t part.addr key val forceFlag = some ((leafEntries key val forceFlag
        (itemsLeft fs ++ part.items ++ itemsRight fs)).2.2, t') ∧
      IsTree t' (leafEntries key val forceFlag
        (itemsLeft fs ++ part.items ++ itemsRight fs)).2.1 := by
  induction d generalizing fuel fs p part with
  | zero =>
    obtain ⟨fuel, rfl⟩ := Nat.exists_eq_succ_of_ne_zero hfuel.ne'
    obtain ⟨f, fs, rfl⟩ := List.exists_cons_of_length_pos (Nat.zero_add _ ▸ hinner)
    rw [leafEntries_middle hleft hright, findValue, h.node.1]
    exact findInLeaf_spec val forceFlag h hok hkey
  | succ d ih =>
    obtain ⟨fuel, rfl⟩ := Nat.exists_eq_succ_of_ne_zero (Nat.ne_of_gt (Nat.zero_lt_of_lt hfuel))
    obtain ⟨cs, hcell, hcs, haddrs, hitems⟩ := id h.node
    have hne : cs ≠ [] := by
      rintro rfl
      rw [hcell] at hok
      exact hok.1 rfl
    have hdepth : d < t.size := by
      have hle := h.allocated.length_le
      have hdeep := ((rooted_iff.mpr ⟨hok, h.node⟩).items_ne_nil
        not_bodyOk_leaf_nil not_bodyOk_node_nil).2
      rw [List.length_append] at hle
      omega
    rw [hitems] at hsorted
    obtain ⟨left, c, right, rfl, hindex, hsmaller, hgreater⟩ :=
      childIndex_children key hcs hdepth hne hsorted
    have hc : c ∈ left ++ c :: right := by simp
    have hrep := hcs c hc
    obtain ⟨hcok, hcopen⟩ := rooted_iff.mp hrep
    have hwithin : Within t (⟨part.addr, left, right⟩ :: fs) d (some part.addr) c := by
      refine ⟨h.path.child hok hcell hcs, hcopen, h.allocated.perm ?_⟩
      have hperm := addrs_plug (⟨part.addr, left, right⟩ : Frame (Key × V)) fs [c]
      rw [List.flatMap_singleton] at hperm
      refine hperm.symm.trans ?_
      rw [haddrs]
      simp [Frame.plug]
    have hwhole := items_plug (⟨part.addr, left, right⟩ : Frame (Key × V)) fs [c]
    rw [List.flatMap_singleton] at hwhole
    have hplug : (Frame.plug (⟨part.addr, left, right⟩ : Frame (Key × V)) [c]).items = part.items := by
      rw [hitems]
      simp [Frame.plug]
    rw [hplug] at hwhole
    obtain ⟨t', hfind, htree⟩ := ih (Nat.lt_of_succ_lt_succ hfuel) hwithin hcok
      (Nat.add_pos_right _ (Nat.succ_pos _)) ((List.pairwise_flatMap.mp hsorted).1 c hc)
      (fun e he => (List.mem_append.mp he).elim (hleft e) (hsmaller e))
      (fun e he => (List.mem_append.mp he).elim (hgreater e) (hright e))
    rw [hwhole]
    refine ⟨t', ?_, htree⟩
    rw [findValue, hcell]
    simp only [hindex, Option.bind_some]
    have hchild : ((left ++ c :: right).map Subtree.addr)[left.length]? = some c.addr := by simp
    rw [hchild]
    exact hfind

/-! ## Runs of the symbol table

After any calls the table is a B-tree with its keys in order, and has for each key the value
that was last set. -/

/-- A table that is a B-tree with the given items, or has no items yet. -/
def Holds (t : SymbolTable V) (items : List (Key × V)) : Prop :=
  Sorted items ∧ (IsTree t items ∨
    items = [] ∧ t.heap root = ⟨none, .node []⟩ ∧ root < t.size)

/-- A valid B-tree: the leaves at one depth, the keys increasing, no node empty or full, all
parents right; or a root with no children. -/
def ValidTable (t : SymbolTable V) : Prop := ∃ items, Holds t items

/-- The value of a key after a call, from the one before it. -/
def Call.valueAfter (key : Key) (v : V) : Call V → V
  | .set k val => if k = key then val else v
  | .get _ => v

/-- The value that was last set for a key. -/
def lastSet (null : V) (key : Key) (calls : List (Call V)) : V :=
  calls.foldl (fun v c => c.valueAfter key v) null

variable {t : SymbolTable V} {items : List (Key × V)} {key : Key} {val : V}

theorem holds_newSymbolTable : Holds (newSymbolTable : SymbolTable V) [] :=
  ⟨List.Pairwise.nil, Or.inr ⟨rfl, rfl, Nat.zero_lt_one⟩⟩

/-- The root of a tree has children. -/
theorem IsTree.rootEmpty (h : IsTree t items) : rootEmpty t = false := by
  obtain ⟨d, addrs, ⟨hok, cs, hcell, -⟩, -⟩ := h
  rw [hcell] at hok
  have hcell' : t.heap root = ⟨none, .node (cs.map Subtree.addr)⟩ := hcell
  rw [Symbols.rootEmpty, hcell']
  exact List.isEmpty_eq_false_iff.mpr hok.1

/-- The search from the root. -/
theorem IsTree.findValue (val : V) (forceFlag : Bool) (h : IsTree t items) (hsorted : Sorted items)
    (hkey : key.length + 1 ≤ chunkSize) :
    ∃ t', findValue (t.size + 1) t root key val forceFlag =
        some ((leafEntries key val forceFlag items).2.2, t') ∧
      IsTree t' (leafEntries key val forceFlag items).2.1 := by
  obtain ⟨d, addrs, hrep, halloc⟩ := h
  obtain ⟨hok, hopen⟩ := rooted_iff.mp hrep
  have hdepth : d + 1 < t.size + 1 := by
    have hdeep := (hrep.items_ne_nil not_bodyOk_leaf_nil not_bodyOk_node_nil).2
    have hle := halloc.length_le
    exact Nat.lt_succ_of_lt (lt_of_lt_of_le hdeep hle)
  have hwithin : Within t [] (d + 1) none ⟨root, addrs, items⟩ :=
    ⟨⟨rfl, rfl⟩, hopen, by simpa [pathAddrs] using halloc⟩
  have hfind := findValue_spec val forceFlag hdepth hwithin hok
    (Nat.succ_pos d) hsorted (fun e he => absurd he List.not_mem_nil)
    (fun e he => absurd he List.not_mem_nil) hkey
  simpa [itemsLeft, itemsRight] using hfind

/-- The first value. -/
theorem firstLeaf_spec (val : V) (hroot : t.heap root = ⟨none, .node []⟩) (hsize : root < t.size)
    (hkey : key.length + 1 ≤ chunkSize) :
    ∃ t', firstLeaf t key val = some t' ∧ IsTree t' [(key, val)] := by
  obtain ⟨t₁, hstr, hheap₁, hsize₁⟩ := keyStrdup_spec (t := t) hkey
  have hne : t₁.size ≠ root := hsize₁ ▸ hsize.ne'
  obtain ⟨heap, hheap⟩ : ∃ heap, heap = setNode (setNode t₁.heap t₁.size
    ⟨some root, .leaf [(key, val)]⟩) root ⟨none, .node [t₁.size]⟩ := ⟨_, rfl⟩
  have hleaf : heap t₁.size = ⟨some root, .leaf [(key, val)]⟩ := by
    rw [hheap, setNode_of_ne hne, setNode_self]
  have hnode : heap root = ⟨none, .node [t₁.size]⟩ := by
    rw [hheap, setNode_self]
  refine ⟨{ t₁ with heap := heap, size := t₁.size + 1 }, ?_, 0, [root, t₁.size], ?_, ?_⟩
  · rw [firstLeaf, hstr, Option.map_some, hheap, hheap₁, hroot]
  · refine ⟨?_, [⟨t₁.size, [t₁.size], [(key, val)]⟩], hnode, fun c hc => ?_, rfl, rfl⟩
    · show bodyOk (heap root).body
      rw [hnode]
      exact ⟨List.cons_ne_nil _ _, show 1 < nodeWidth by decide⟩
    · rw [List.mem_singleton.mp hc]
      refine ⟨?_, hleaf, rfl⟩
      show bodyOk (heap t₁.size).body
      rw [hleaf]
      exact ⟨List.cons_ne_nil _ _, show 1 < leafWidth by decide⟩
  · have halloc : Allocated t₁.size [root] :=
      ⟨List.nodup_singleton _, fun a ha => by rw [List.mem_singleton.mp ha, hsize₁]; exact hsize⟩
    exact halloc.cons.perm (List.Perm.swap _ _ _)

/-- Setting a value. -/
theorem symSetValue_spec (val : V) (h : Holds t items) (hkey : key.length + 1 ≤ chunkSize) :
    ∃ t', symSetValue t key val = some t' ∧ Holds t' (leafEntries key val true items).2.1 := by
  obtain ⟨hsorted, htree | ⟨rfl, hroot, hsize⟩⟩ := h
  · obtain ⟨t', hfind, htree'⟩ := htree.findValue val true hsorted hkey
    refine ⟨t', ?_, sorted_leafEntries hsorted, Or.inl htree'⟩
    rw [symSetValue, htree.rootEmpty, hfind]
    rfl
  · obtain ⟨t', hfirst, htree⟩ := firstLeaf_spec val hroot hsize hkey
    refine ⟨t', ?_, sorted_leafEntries hsorted, Or.inl htree⟩
    rw [symSetValue, rootEmpty, hroot]
    exact hfirst

/-- Getting a value. -/
theorem symGetValue_spec (null : V) (h : Holds t items) (hkey : key.length + 1 ≤ chunkSize) :
    ∃ t', symGetValue null t key = some ((leafEntries key null false items).2.2, t') ∧
      Holds t' (leafEntries key null false items).2.1 := by
  obtain ⟨hsorted, htree | ⟨rfl, hroot, hsize⟩⟩ := h
  · obtain ⟨t', hfind, htree'⟩ := htree.findValue null false hsorted hkey
    refine ⟨t', ?_, sorted_leafEntries hsorted, Or.inl htree'⟩
    rw [symGetValue, htree.rootEmpty, hfind]
    rfl
  · obtain ⟨t', hfirst, htree⟩ := firstLeaf_spec null hroot hsize hkey
    refine ⟨t', ?_, sorted_leafEntries hsorted, Or.inl htree⟩
    rw [symGetValue, rootEmpty, hroot]
    exact congrArg (Option.map fun t => (null, t)) hfirst

/-- One call, with what it does to the value of each key. -/
theorem Call.exec_spec (null : V) (c : Call V) (h : Holds t items)
    (hkey : c.key.length + 1 ≤ chunkSize) :
    ∃ t' items', c.exec null t = some t' ∧ Holds t' items' ∧
      ∀ k, (valueAt items' k).getD null = c.valueAfter k ((valueAt items k).getD null) := by
  cases c with
  | set key val =>
    have hshort : key.length + 1 ≤ chunkSize := hkey
    obtain ⟨t', hset, hholds⟩ := symSetValue_spec val h hshort
    refine ⟨t', _, hset, hholds, fun k => ?_⟩
    rw [valueAt_leafEntries h.1, leafEntries_result h.1]
    by_cases hk : k = key
    · rw [if_pos hk]
      exact (if_pos hk.symm).symm
    · rw [if_neg hk]
      exact (if_neg (Ne.symm hk)).symm
  | get key =>
    have hshort : key.length + 1 ≤ chunkSize := hkey
    obtain ⟨t', hget, hholds⟩ := symGetValue_spec null h hshort
    refine ⟨t', _, congrArg (Option.map Prod.snd) hget, hholds, fun k => ?_⟩
    rw [valueAt_leafEntries h.1, leafEntries_result h.1]
    by_cases hk : k = key
    · rw [if_pos hk, hk]
      rfl
    · rw [if_neg hk]
      rfl

/-- Any calls. -/
theorem runCalls_spec (null : V) {calls : List (Call V)} (h : Holds t items)
    (hkeys : ∀ c ∈ calls, c.key.length + 1 ≤ chunkSize) :
    ∃ t' items', runCalls null t calls = some t' ∧ Holds t' items' ∧
      ∀ k, (valueAt items' k).getD null = lastSet ((valueAt items k).getD null) k calls := by
  induction calls generalizing t items with
  | nil => exact ⟨t, items, rfl, h, fun _ => rfl⟩
  | cons c calls ih =>
    obtain ⟨t₁, items₁, hexec, hholds, hvalue⟩ := c.exec_spec null h (hkeys c List.mem_cons_self)
    obtain ⟨t', items', hrun, hholds', hvalue'⟩ :=
      ih hholds fun c' hc' => hkeys c' (List.mem_cons_of_mem _ hc')
    refine ⟨t', items', ?_, hholds', fun k => ?_⟩
    · rw [runCalls, hexec]
      exact hrun
    · rw [hvalue', hvalue]
      rfl

/-- After any calls with short keys the table is a valid B-tree, and a key has the value that
was last set for it, or the null value. -/
theorem symbol_table_last_set (null : V) (calls : List (Call V)) (key : Key)
    (hkeys : ∀ c ∈ calls, c.key.length + 1 ≤ chunkSize) (hkey : key.length + 1 ≤ chunkSize) :
    ∃ t, runCalls null newSymbolTable calls = some t ∧ ValidTable t ∧
      ∃ t', symGetValue null t key = some (lastSet null key calls, t') ∧ ValidTable t' := by
  obtain ⟨t, items, hrun, hholds, hvalue⟩ := runCalls_spec null holds_newSymbolTable hkeys
  obtain ⟨t', hget, hholds'⟩ := symGetValue_spec null hholds hkey
  refine ⟨t, hrun, ⟨items, hholds⟩, t', ?_, _, hholds'⟩
  rw [hget, leafEntries_result hholds.1]
  exact congrArg (fun v => some (v, t')) (hvalue key)

/-- A table with a value that was set twice. -/
theorem symbol_table_last_set_twice :
    ([(⟨97, by decide⟩ : KeyChar)].length + 1 ≤ chunkSize) ∧
    ∃ t, runCalls 0 newSymbolTable [.set [⟨97, by decide⟩] 1, .set [⟨97, by decide⟩] 2] = some t ∧
      ValidTable t ∧ ∃ t', symGetValue 0 t [⟨97, by decide⟩] = some (2, t') ∧ ValidTable t' := by
  have hkey : [(⟨97, by decide⟩ : KeyChar)].length + 1 ≤ chunkSize := by decide
  refine ⟨hkey, symbol_table_last_set 0 [.set [⟨97, by decide⟩] 1, .set [⟨97, by decide⟩] 2]
    [⟨97, by decide⟩] (fun c hc => ?_) hkey⟩
  rcases List.mem_pair.mp hc with rfl | rfl
  · exact hkey
  · exact hkey

end Icarus.Vvp.Symbols
