import Mathlib
import Icarus.Core.Runs

/-!
# Sets of nexus parts

A `NexusSet` is a list of parts of nexuses, none of them twice. A part is added if
it is not in the list, and removed if it is; a set contains another if each part
of that one lies in one of its own. Which nexus a part belongs to is all that its
link tells.
-/

namespace Icarus.Netlist

/-- `NexusSet::elem_t`. -/
structure Elem (N : Type) where
  /-- The nexus of `lnk`. -/
  nexus : N
  /-- `base`. -/
  base : BitVec 32
  /-- `wid`. -/
  wid : BitVec 32
  deriving DecidableEq

section Items

variable {N : Type} [DecidableEq N]

/-- `elem_t::contains`. -/
def Elem.contains (e that : Elem N) : Bool :=
  if e.nexus ≠ that.nexus then false
  else if that.base < e.base then false
  else if that.base + that.wid > e.base + e.wid then false
  else true

/-- The list after `add`; `bsearch_` gives the first place of an equal part. -/
def addItem (items : List (Elem N)) (cur : Elem N) : List (Elem N) :=
  if items.length = 0 then [cur]
  else if items.idxOf cur < items.length then items
  else items ++ [cur]

/-- The list after `rem_`. -/
def remItem (items : List (Elem N)) (that : Elem N) : List (Elem N) :=
  if items.isEmpty then items
  else if items.length ≤ items.idxOf that then items
  else if items.length = 1 then []
  else items.eraseIdx (items.idxOf that)

theorem addItem_eq (items : List (Elem N)) (cur : Elem N) :
    addItem items cur = if cur ∈ items then items else items ++ [cur] := by
  rw [addItem]
  by_cases hnil : items = []
  · rw [hnil]
    rfl
  · rw [if_neg fun h => hnil (List.eq_nil_of_length_eq_zero h)]
    simp only [List.idxOf_lt_length_iff]

theorem remItem_eq (items : List (Elem N)) (that : Elem N) :
    remItem items that = items.erase that := by
  rw [remItem]
  by_cases hmem : that ∈ items
  · have hlt : items.idxOf that < items.length := List.idxOf_lt_length_of_mem hmem
    have hne : ¬ items.isEmpty = true := by
      intro h
      rw [List.isEmpty_iff.mp h] at hmem
      exact List.not_mem_nil hmem
    rw [if_neg hne, if_neg (not_le.mpr hlt), List.eraseIdx_idxOf_eq_erase]
    split_ifs with hone
    · obtain ⟨e, rfl⟩ := List.length_eq_one_iff.mp hone
      obtain rfl := List.mem_singleton.mp hmem
      rw [List.erase_cons_head]
    · rfl
  · rw [List.erase_of_not_mem hmem]
    split_ifs with hempty hle
    · rfl
    · rfl
    · exact absurd (List.idxOf_lt_length_iff.mp (not_le.mp hle)) hmem
    · exact absurd (List.idxOf_lt_length_iff.mp (not_le.mp hle)) hmem

end Items

/-- `NexusSet`. No part is in the list twice. -/
structure NexusSet (N : Type) where
  /-- `items_`. -/
  items : List (Elem N)
  /-- `add` looks for the part first. -/
  nodup : items.Nodup

namespace NexusSet

variable {N : Type}

@[ext] theorem ext {s t : NexusSet N} (h : s.items = t.items) : s = t := by
  cases s
  cases t
  cases h
  rfl

/-- The constructor. -/
def empty : NexusSet N := ⟨[], List.nodup_nil⟩

variable [DecidableEq N]

/-- `add` of a part. -/
def addElem (s : NexusSet N) (cur : Elem N) : NexusSet N where
  items := addItem s.items cur
  nodup := by
    rw [addItem_eq]
    split_ifs with hmem
    · exact s.nodup
    · exact List.nodup_append.mpr ⟨s.nodup, List.nodup_singleton cur, fun e he e' he' heq =>
        hmem (List.mem_singleton.mp he' ▸ heq ▸ he)⟩

/-- `add(Nexus*, unsigned, unsigned)`. -/
def add (s : NexusSet N) (that : N) (base wid : BitVec 32) : NexusSet N := s.addElem ⟨that, base, wid⟩

/-- `rem_`. -/
def remElem (s : NexusSet N) (that : Elem N) : NexusSet N where
  items := remItem s.items that
  nodup := by
    rw [remItem_eq]
    exact s.nodup.erase that

/-- `contains_`. -/
def containsElem (s : NexusSet N) (that : Elem N) : Bool := s.items.any fun e => e.contains that

/-- `contains`. -/
def contains (s that : NexusSet N) : Bool := that.items.all s.containsElem

/-- `intersect`. -/
def intersect (s that : NexusSet N) : Bool :=
  that.items.any fun e => s.items.idxOf e ≠ s.items.length

end NexusSet

/-! ## Loops over a set -/

section Loop

variable {N ι : Type} [DecidableEq ι] {f : NexusSet N → Elem N → NexusSet N}

/-- A loop over the parts of one set that changes a set, which may be the same: size and part are
read again at each turn. -/
def forItems (f : NexusSet N → Elem N → NexusSet N)
    (hf : ∀ s, ∀ e ∈ s.items, (f s e).items.length ≤ s.items.length) (sets : ι → NexusSet N)
    (i j : ι) (idx : Nat) : ι → NexusSet N :=
  if h : idx < (sets j).items.length then
    forItems f hf (Function.update sets i (f (sets i) (sets j).items[idx])) i j (idx + 1)
  else sets
termination_by (sets j).items.length - idx
decreasing_by
  have hle : (Function.update sets i (f (sets i) (sets j).items[idx]) j).items.length ≤
      (sets j).items.length := by
    by_cases hij : j = i
    · subst hij
      rw [Function.update_self]
      exact hf _ _ (List.getElem_mem h)
    · rw [Function.update_of_ne hij]
  omega

variable {hf : ∀ s, ∀ e ∈ s.items, (f s e).items.length ≤ s.items.length}
  {sets : ι → NexusSet N} {i j : ι}

end Loop

/-! ## The bits of a set

A set of parts covers bits of nexuses. Additions are unions. The other operations
look at whole parts, and whether they do what they should on the bits depends on
how the parts of the two sets overlap. -/

/-! ## What the loops do -/

section Loops

variable {N ι : Type} [DecidableEq N] [DecidableEq ι]

namespace NexusSet

variable {s : NexusSet N} {e : Elem N}

theorem items_addElem (s : NexusSet N) (cur : Elem N) :
    (s.addElem cur).items = if cur ∈ s.items then s.items else s.items ++ [cur] :=
  addItem_eq s.items cur

theorem items_remElem (s : NexusSet N) (that : Elem N) :
    (s.remElem that).items = s.items.erase that := remItem_eq s.items that

theorem addElem_of_mem (h : e ∈ s.items) : s.addElem e = s := by
  ext1
  rw [items_addElem, if_pos h]

theorem length_addElem_le (s : NexusSet N) (e : Elem N) (h : e ∈ s.items) :
    (s.addElem e).items.length ≤ s.items.length := by
  rw [addElem_of_mem h]

theorem length_remElem_le (s : NexusSet N) (e : Elem N) (_ : e ∈ s.items) :
    (s.remElem e).items.length ≤ s.items.length := by
  rw [items_remElem]
  exact List.length_erase_le

end NexusSet

/-- `add(const NexusSet&)`. -/
def addSet (sets : ι → NexusSet N) (i j : ι) : ι → NexusSet N :=
  forItems NexusSet.addElem NexusSet.length_addElem_le sets i j 0

/-- `rem`. -/
def remSet (sets : ι → NexusSet N) (i j : ι) : ι → NexusSet N :=
  forItems NexusSet.remElem NexusSet.length_remElem_le sets i j 0

/-- Every second item. -/
def everySecond {α : Type} : List α → List α
  | _ :: b :: l => b :: everySecond l
  | _ => []

variable {sets : ι → NexusSet N} {i j : ι}

end Loops

/-! ## Bits -/

section Bits

variable {N : Type}

/-- The bits of a part. -/
def Elem.pairs (e : Elem N) : Set (N × Nat) :=
  {x | x.1 = e.nexus ∧ e.base.toNat ≤ x.2 ∧ x.2 < e.base.toNat + e.wid.toNat}

/-- The bits of a set. -/
def NexusSet.pairs (s : NexusSet N) : Set (N × Nat) := {x | ∃ e ∈ s.items, x ∈ e.pairs}

/-- The end of a part is a number of 32 bits. -/
def Elem.Fits (e : Elem N) : Prop := e.base.toNat + e.wid.toNat < 2 ^ 32

/-- A part lies in another. -/
def Elem.Within (e that : Elem N) : Prop :=
  e.nexus = that.nexus ∧ that.base.toNat ≤ e.base.toNat ∧
    e.base.toNat + e.wid.toNat ≤ that.base.toNat + that.wid.toNat

variable {e that : Elem N}

variable [DecidableEq N]

/-- Where no end wraps, one part contains another if that one lies in it. -/
theorem Elem.contains_iff (he : e.Fits) (hthat : that.Fits) :
    e.contains that = true ↔ that.Within e := by
  have hsum : ∀ p : Elem N, p.Fits → (p.base + p.wid).toNat = p.base.toNat + p.wid.toNat := by
    intro p hp
    rw [BitVec.toNat_add, Nat.mod_eq_of_lt hp]
  rw [contains, Within]
  split_ifs with hnexus hbase hend
  · exact ⟨fun h => h.elim, fun h => absurd h.1.symm hnexus⟩
  · rw [BitVec.lt_def] at hbase
    exact ⟨fun h => h.elim, fun h => absurd hbase (not_lt.mpr h.2.1)⟩
  · rw [gt_iff_lt, BitVec.lt_def, hsum e he, hsum that hthat] at hend
    exact ⟨fun h => h.elim, fun h => absurd hend (not_lt.mpr h.2.2)⟩
  · rw [BitVec.lt_def] at hbase
    rw [gt_iff_lt, BitVec.lt_def, hsum e he, hsum that hthat] at hend
    exact ⟨fun _ => ⟨(not_not.mp hnexus).symm, not_lt.mp hbase, not_lt.mp hend⟩, fun _ => rfl⟩

namespace NexusSet

variable {s t : NexusSet N}

/-- Where no end wraps, a set contains another if each part of that one lies in one of its own. -/
theorem contains_iff (hs : ∀ e ∈ s.items, e.Fits) (ht : ∀ e ∈ t.items, e.Fits) :
    s.contains t = true ↔ ∀ e ∈ t.items, ∃ that ∈ s.items, e.Within that := by
  rw [contains, List.all_eq_true]
  refine forall₂_congr fun e he => ?_
  rw [containsElem, List.any_eq_true]
  refine exists_congr fun that => and_congr_right fun hthat => ?_
  exact Elem.contains_iff (hs that hthat) (ht e he)

end NexusSet

end Bits

end Icarus.Netlist
