import Icarus.Netmisc.Slices

/-!
# The numbering of bits and slices

When the numbering of the bits of a packed array is one to one, its slices tile it, and a slice
with an index that is not in range is refused.
-/

namespace Icarus.Netmisc

open Icarus.Core.MixedRadix

variable {dims : List Netrange} {indices : List Int} {sb : Int}

/-! ## What is asked of the numbering -/

/-- `sb_to_idx` numbers the tuples of indices in range one to one. -/
def NumbersBits (dims : List Netrange) : Prop :=
  (∀ indices sb, InDims dims (indices ++ [sb]) →
    ∃ z : Nat, z < (counts dims).prod ∧ sbToIdx dims indices sb = some (z : Int)) ∧
  ∀ z : Nat, z < (counts dims).prod →
    ∃! t : List Int × Int, InDims dims (t.1 ++ [t.2]) ∧ sbToIdx dims t.1 t.2 = some (z : Int)

/-- The slices of the tuples of so many indices before the last one tile the bits. -/
def TilesBits (dims : List Netrange) (k : Nat) : Prop :=
  ∀ z : Nat, z < (counts dims).prod → ∃! t : List Int × Int,
    InDims (dims.take (k + 1)) (t.1 ++ [t.2]) ∧ ∃ (loff : Int) (lwid : Nat),
      prefixToSlice dims t.1 t.2 = some (some (loff, lwid)) ∧ loff ≤ z ∧ (z : Int) < loff + lwid

/-- A slice of indices in range has the width of what is left and begins with the least of its
bits, and is a part of the array. -/
def GivesSlice (dims : List Netrange) (indices : List Int) (sb : Int) : Prop :=
  InDims (dims.take (indices.length + 1)) (indices ++ [sb]) →
    ∃ loff : Nat, prefixToSlice dims indices sb =
        some (some ((loff : Int), (counts (dims.drop (indices.length + 1))).prod)) ∧
      IsLeast {z : Int | ∃ indices' sb', InDims dims (indices' ++ [sb']) ∧
        (indices ++ [sb]) <+: (indices' ++ [sb']) ∧ sbToIdx dims indices' sb' = some z} loff ∧
      loff + (counts (dims.drop (indices.length + 1))).prod ≤ (counts dims).prod

/-- A slice with any index out of range is refused. -/
def RefusesSlice (dims : List Netrange) (indices : List Int) (sb : Int) : Prop :=
  ¬ InDims (dims.take (indices.length + 1)) (indices ++ [sb]) →
    prefixToSlice dims indices sb = some none

/-! ## Tuples -/

/-- A list of indices that is not empty, as `sb_to_idx` is given it. -/
theorem exists_indices {t : List Int} (h : t ≠ []) : ∃ p : List Int × Int, p.1 ++ [p.2] = t :=
  ⟨(t.dropLast, t.getLast h), List.dropLast_append_getLast h⟩

theorem indices_inj {p q : List Int × Int} (h : p.1 ++ [p.2] = q.1 ++ [q.2]) : p = q := by
  obtain ⟨hinit, hlast⟩ := List.append_inj' h rfl
  exact Prod.ext hinit (List.singleton_inj.mp hlast)

theorem inDims_ne_nil {t : List Int} (hdims : dims ≠ []) (h : InDims dims t) : t ≠ [] := by
  rintro rfl
  exact hdims (List.forall₂_nil_right_iff.mp h)

theorem sbToIdx_eq (hsize : Sizeable dims) (h : InDims dims (indices ++ [sb])) :
    sbToIdx dims indices sb = some (slot dims (indices ++ [sb]) : Int) := by
  have hne : dims ≠ [] := by
    rintro rfl
    exact absurd h.length_eq (by simp)
  rw [sbToIdx, sbToIdxWalk_eq hsize h hne, Option.map_some]

theorem prefixToSlice_eq (hsize : Sizeable dims)
    (h : InDims (dims.take (indices.length + 1)) (indices ++ [sb]))
    (hlen : indices.length < dims.length) :
    prefixToSlice dims indices sb = some (some ((slot dims (indices ++ [sb]) : Int),
      (counts (dims.drop (indices.length + 1))).prod)) := by
  have hcount : (indices ++ [sb]).length = indices.length + 1 := List.length_append
  rw [prefixToSlice, if_pos hlen, prefixWalk_eq hsize (by simp) (by rwa [hcount]), hcount]
  rfl

/-! ## The numbering -/

/-- Where the widths are native integers the numbering is one to one. -/
theorem numbersBits (hsize : Sizeable dims) (hdims : dims ≠ []) : NumbersBits dims := by
  refine ⟨fun indices sb h => ⟨_, slot_lt h, sbToIdx_eq hsize h⟩, fun z hz => ?_⟩
  obtain ⟨ds, hds, haddr⟩ := exists_digits hz
  obtain ⟨t, ht, rfl⟩ := exists_inDims hds
  obtain ⟨p, rfl⟩ := exists_indices (inDims_ne_nil hdims ht)
  refine ⟨p, ⟨ht, ?_⟩, fun q ⟨hq, hidx⟩ => indices_inj ?_⟩
  · rw [sbToIdx_eq hsize ht, slot, haddr]
  · rw [sbToIdx_eq hsize hq] at hidx
    have hsame : slot dims (q.1 ++ [q.2]) = z := by
      exact_mod_cast Option.some_inj.mp hidx
    exact digits_inj hq ht (address_inj (digits_digits hq) (digits_digits ht)
      (hsame.trans haddr.symm))

/-- The numbering is one to one only where the widths are native integers. -/
theorem sizeable_of_numbersBits (h : NumbersBits dims) : Sizeable dims := by
  have hpos : 0 < (counts dims).prod := counts_prod_pos
  obtain ⟨p, ⟨-, hidx⟩, -⟩ := h.2 ((counts dims).prod - 1) (Nat.sub_lt hpos Nat.one_pos)
  obtain ⟨⟨off, wid⟩, hwalk, hoff⟩ := Option.map_eq_some_iff.mp hidx
  obtain ⟨hall, hlong⟩ := of_sbToIdxWalk hwalk
  have hlt := hlong.2
  refine ⟨hall, ?_⟩
  simp only at hoff
  omega

theorem counts_take (k : Nat) : counts (dims.take k) = (counts dims).take k := List.map_take

theorem counts_drop (k : Nat) : counts (dims.drop k) = (counts dims).drop k := List.map_drop

/-- The positions of some leading indices. -/
theorem digits_take {k : Nat} {t : List Int} (h : InDims (dims.take k) t) :
    digits (dims.take k) t = digits dims t := by
  induction t generalizing dims k with
  | nil => rw [digits, digits, List.zipWith_nil_right, List.zipWith_nil_right]
  | cons i t ih =>
    cases dims with
    | nil => rw [List.take_nil]
    | cons r dims =>
      cases k with
      | zero => cases h
      | succ k =>
        obtain - | ⟨-, htl⟩ := h
        exact congrArg (r.digit i :: ·) (ih htl)

/-- Where the widths are native integers the slices tile the bits. -/
theorem tilesBits (hsize : Sizeable dims) {k : Nat} (hk : k < dims.length) :
    TilesBits dims k := by
  intro z hz
  have hlen : (counts dims).length = dims.length := List.length_map _
  obtain ⟨ps, ⟨hps, hlow, hhigh⟩, hunique⟩ := existsUnique_block (k := k + 1)
    (hlen.symm ▸ hk) hz
  rw [← counts_take] at hps
  obtain ⟨t, ht, rfl⟩ := exists_inDims hps
  have hne : dims.take (k + 1) ≠ [] := by
    intro h
    have hzero := congrArg List.length h
    rw [List.length_take, List.length_nil] at hzero
    omega
  have htlen : t.length = k + 1 := by
    rw [← ht.length_eq, List.length_take]
    omega
  rw [digits_take ht] at hlow hhigh hunique
  obtain ⟨p, rfl⟩ := exists_indices (inDims_ne_nil hne ht)
  have hplen : p.1.length = k := by simpa using htlen
  -- the slice of a tuple holds the bit where its block does
  have hslice : ∀ q : List Int × Int, q.1.length = k → InDims (dims.take (k + 1)) (q.1 ++ [q.2]) →
      prefixToSlice dims q.1 q.2 = some (some ((slot dims (q.1 ++ [q.2]) : Int),
        (counts (dims.drop (k + 1))).prod)) := by
    rintro q rfl hq
    exact prefixToSlice_eq hsize hq hk
  rw [← counts_drop] at hhigh
  refine ⟨p, ⟨ht, _, _, hslice p hplen ht, ?_, ?_⟩, ?_⟩
  · exact_mod_cast hlow
  · exact_mod_cast hhigh
  · rintro q ⟨hq, loff, lwid, heq, hqlow, hqhigh⟩
    have hqlen' : (q.1 ++ [q.2]).length = k + 1 := by
      rw [← hq.length_eq, List.length_take]
      omega
    have hqlen : q.1.length = k := by simpa using hqlen'
    rw [hslice q hqlen hq] at heq
    obtain ⟨rfl, rfl⟩ := Prod.mk.inj (Option.some_inj.mp (Option.some_inj.mp heq))
    have hqdigits : Digits (digits dims (q.1 ++ [q.2])) ((counts dims).take (k + 1)) := by
      rw [← counts_take, ← digits_take hq]
      exact digits_digits hq
    rw [counts_drop] at hqhigh
    have hdigits := hunique (digits dims (q.1 ++ [q.2]))
      ⟨hqdigits, by exact_mod_cast hqlow, by exact_mod_cast hqhigh⟩
    refine indices_inj (digits_inj hq ht ?_)
    rw [digits_take hq, digits_take ht, hdigits]

/-- The tuple with the least address that begins with given indices. -/
theorem exists_first (hsize : Sizeable dims) {k : Nat} (hk : indices.length + 1 = k)
    (h : InDims (dims.take k) (indices ++ [sb])) :
    IsLeast {z : Int | ∃ indices' sb', InDims dims (indices' ++ [sb']) ∧
      (indices ++ [sb]) <+: (indices' ++ [sb']) ∧ sbToIdx dims indices' sb' = some z}
      (slot dims (indices ++ [sb]) : Nat) := by
  have hcount : (indices ++ [sb]).length = k := hk ▸ List.length_append
  -- the positions of the indices that are left are all zero
  obtain ⟨rest, hrest, hzero⟩ : ∃ rest, InDims (dims.drop k) rest ∧
      address (counts (dims.drop k)) (digits (dims.drop k) rest) = 0 := by
    obtain ⟨ds, hds, haddr⟩ := exists_digits (@counts_prod_pos (dims.drop k))
    obtain ⟨rest, hrest, rfl⟩ := exists_inDims hds
    exact ⟨rest, hrest, haddr⟩
  have hdigits : ∀ es, InDims (dims.drop k) es → digits dims ((indices ++ [sb]) ++ es) =
      digits dims (indices ++ [sb]) ++ digits (dims.drop k) es := by
    intro es hes
    have hlen : (dims.take k).length = (indices ++ [sb]).length := h.length_eq
    rw [← digits_take h]
    conv_lhs => rw [digits, ← List.take_append_drop k dims]
    exact List.zipWith_append hlen
  have hslot : ∀ es, InDims (dims.drop k) es → slot dims ((indices ++ [sb]) ++ es) =
      slot dims (indices ++ [sb]) + address (counts (dims.drop k)) (digits (dims.drop k) es) := by
    intro es hes
    have hlen : (digits dims (indices ++ [sb])).length = k := by
      rw [← digits_take h, digits, List.length_zipWith, h.length_eq, hcount, Nat.min_self]
    rw [slot, hdigits es hes, address_append, hlen, ← counts_drop]
    rfl
  constructor
  · have hfull : InDims dims ((indices ++ [sb]) ++ rest) := by
      have happ : InDims (dims.take k ++ dims.drop k) ((indices ++ [sb]) ++ rest) :=
        List.rel_append h hrest
      rwa [List.take_append_drop] at happ
    obtain ⟨p, hp⟩ := exists_indices (t := (indices ++ [sb]) ++ rest) (by simp)
    refine ⟨p.1, p.2, hp ▸ hfull, hp ▸ List.prefix_append _ _, ?_⟩
    rw [sbToIdx_eq hsize (hp ▸ hfull), hp, hslot rest hrest, hzero, Nat.add_zero]
  · rintro z ⟨indices', sb', hfull, ⟨es, hes⟩, hidx⟩
    rw [sbToIdx_eq hsize hfull, ← hes] at hidx
    obtain rfl := Option.some_inj.mp hidx
    have htail : InDims (dims.drop k) es := by
      rw [← hes] at hfull
      have hdrop := List.forall₂_drop k hfull
      rwa [List.drop_left' hcount] at hdrop
    rw [hslot es htail]
    exact_mod_cast Nat.le_add_right _ _

/-- The slice of indices in range. -/
theorem givesSlice (hsize : Sizeable dims) (hlen : indices.length < dims.length) :
    GivesSlice dims indices sb := by
  intro h
  refine ⟨_, prefixToSlice_eq hsize h hlen, exists_first hsize rfl h, ?_⟩
  have hlen' : (digits dims (indices ++ [sb])).length = indices.length + 1 := by
    rw [← digits_take h, digits, List.length_zipWith, h.length_eq, Nat.min_self,
      List.length_append, List.length_singleton]
  have hdigits : Digits (digits dims (indices ++ [sb]))
      ((counts dims).take (digits dims (indices ++ [sb])).length) := by
    rw [hlen', ← counts_take, ← digits_take h]
    exact digits_digits h
  have hle := address_add_le hdigits
  rwa [hlen', ← counts_drop] at hle

/-! ## The numbering, exactly -/

/-- The bits are numbered one to one, the slices tile them, and a slice that is given is the one
of its indices and else refused, if and only if the widths are native integers and no index
before a last one that is in range is out of range. -/
theorem packed_slices_iff (dims : List Netrange) (indices : List Int) (sb : Int)
    (hlen : indices.length < dims.length) :
    (NumbersBits dims ∧ TilesBits dims indices.length ∧ GivesSlice dims indices sb ∧
        RefusesSlice dims indices sb) ↔
      Sizeable dims ∧ (InDims (dims.take indices.length) indices ∨
        ¬ (dims[indices.length]).Contains sb) := by
  have htake : dims.take (indices.length + 1) =
      dims.take indices.length ++ [dims[indices.length]] := List.take_succ_eq_append_getElem hlen
  have hall : InDims (dims.take (indices.length + 1)) (indices ++ [sb]) ↔
      InDims (dims.take indices.length) indices ∧ (dims[indices.length]).Contains sb := by
    rw [htake]
    constructor
    · intro h
      have hfirst := List.forall₂_take indices.length h
      have hlast := List.forall₂_drop indices.length h
      have hpre : (dims.take indices.length).length = indices.length := by
        rw [List.length_take]
        omega
      rw [List.take_left' hpre, List.take_left' rfl] at hfirst
      rw [List.drop_left' hpre, List.drop_left' rfl] at hlast
      exact ⟨hfirst, (List.forall₂_cons.mp hlast).1⟩
    · exact fun ⟨h, hsb⟩ => List.rel_append h (.cons hsb .nil)
  have hwalk : Sizeable dims →
      (prefixToSlice dims indices sb = some none ↔ ¬ (dims[indices.length]).Contains sb) := by
    intro hsize
    rw [← prefixWalk_none_iff hsize hlen, prefixToSlice, if_pos hlen]
    constructor
    · intro h
      obtain ⟨res, hres, hmap⟩ := Option.map_eq_some_iff.mp h
      rw [hres, Option.map_eq_none_iff.mp hmap]
    · intro h
      rw [h]
      rfl
  constructor
  · rintro ⟨hbits, -, -, hrefuse⟩
    have hsize := sizeable_of_numbersBits hbits
    refine ⟨hsize, ?_⟩
    by_contra hboth
    obtain ⟨hindices, hsb⟩ := not_or.mp hboth
    exact hsb ((hwalk hsize).mp (hrefuse fun h => hindices (hall.mp h).1))
  · rintro ⟨hsize, hcond⟩
    have hdims : dims ≠ [] := List.ne_nil_of_length_pos (Nat.zero_lt_of_lt hlen)
    refine ⟨numbersBits hsize hdims, tilesBits hsize hlen, givesSlice hsize hlen, fun h => ?_⟩
    refine (hwalk hsize).mpr fun hsb => ?_
    obtain hindices | hout := hcond
    · exact h (hall.mpr ⟨hindices, hsb⟩)
    · exact hout hsb

theorem packed_slices_iff_pair :
    (NumbersBits [⟨1, 0⟩, ⟨0, 3⟩] ∧ TilesBits [⟨1, 0⟩, ⟨0, 3⟩] [1].length ∧
        GivesSlice [⟨1, 0⟩, ⟨0, 3⟩] [1] 2 ∧ RefusesSlice [⟨1, 0⟩, ⟨0, 3⟩] [1] 2) ↔
      Sizeable [⟨1, 0⟩, ⟨0, 3⟩] ∧ (InDims ([⟨1, 0⟩, ⟨0, 3⟩].take [1].length) [1] ∨
        ¬ (Netrange.mk 0 3).Contains 2) :=
  packed_slices_iff [⟨1, 0⟩, ⟨0, 3⟩] [1] 2 (by decide)

/-- An index before the last that is out of range: `reg [1:0][0:3]`, the slice `[2][3]`. -/
theorem prefix_out_of_range : ¬ RefusesSlice [⟨1, 0⟩, ⟨0, 3⟩] [2] 3 := by
  intro h
  have hout : ¬ InDims [⟨1, 0⟩, ⟨0, 3⟩] [2, 3] := fun h => by
    have hfirst := (List.forall₂_cons.mp h).1.2
    exact absurd hfirst (by decide)
  have hslice : prefixToSlice [⟨1, 0⟩, ⟨0, 3⟩] [2] 3 = some (some (8, 1)) := by decide
  rw [h hout] at hslice
  exact absurd hslice (by decide)

end Icarus.Netmisc
