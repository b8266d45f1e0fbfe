import Icarus.Vvp.Symbols.Table

/-!
# Keys and the entries of a leaf

The comparison of keys is that of their lexicographic order. The loop over the entries of
a leaf gives the sorted entries with the key among them; it does the same to any sorted
entries around the leaf, less and greater than the key.
-/

namespace Icarus.Vvp.Symbols

variable {V : Type}

theorem strcmp_eq_zero {a b : Key} : strcmp a b = 0 ↔ a = b := by
  induction a generalizing b with
  | nil => cases b <;> simp [strcmp]
  | cons x a ih =>
    cases b with
    | nil => simp [strcmp]
    | cons y b =>
      rw [strcmp, List.cons.injEq]
      rcases lt_trichotomy x y with h | rfl | h
      · simp [h, h.ne]
      · simp [ih]
      · simp [h, h.ne', not_lt_of_gt h]

theorem strcmp_neg {a b : Key} : strcmp a b < 0 ↔ a < b := by
  induction a generalizing b with
  | nil => cases b <;> simp [strcmp]
  | cons x a ih =>
    cases b with
    | nil => simp [strcmp]
    | cons y b =>
      rw [strcmp, List.cons_lt_cons_iff]
      rcases lt_trichotomy x y with h | rfl | h
      · simp [h]
      · simp [ih]
      · simp [h, h.ne', not_lt_of_gt h]

/-- The three results of a comparison. -/
theorem strcmp_pos {a b : Key} : 0 < strcmp a b ↔ b < a := by
  have hzero := strcmp_eq_zero (a := a) (b := b)
  have hneg := strcmp_neg (a := a) (b := b)
  constructor
  · intro h
    have hne : a ≠ b := fun he => h.ne' (hzero.mpr he)
    exact lt_of_le_of_ne (le_of_not_gt fun hlt => absurd (hneg.mpr hlt) h.not_gt) hne.symm
  · intro h
    have hne : strcmp a b ≠ 0 := fun he => h.ne' (hzero.mp he)
    have hnlt : ¬ strcmp a b < 0 := fun hlt => absurd (hneg.mp hlt) h.not_gt
    exact lt_of_le_of_ne (not_lt.mp hnlt) hne.symm

/-- Entries in the order of their keys, each key once. -/
def Sorted (items : List (Key × V)) : Prop := items.Pairwise fun a b => a.1 < b.1

/-- The value of a key. -/
def valueAt (items : List (Key × V)) (key : Key) : Option V :=
  (items.find? fun e => e.1 = key).map Prod.snd

theorem valueAt_cons (e : Key × V) (items : List (Key × V)) (key : Key) :
    valueAt (e :: items) key = if e.1 = key then some e.2 else valueAt items key := by
  by_cases h : e.1 = key <;> simp [valueAt, h]

theorem valueAt_eq_none {items : List (Key × V)} {key : Key} (h : ∀ e ∈ items, e.1 ≠ key) :
    valueAt items key = none := by
  rw [valueAt, Option.map_eq_none_iff, List.find?_eq_none]
  simpa using h

variable {key : Key} {val : V} {forceFlag : Bool}

/-- The smaller keys before a leaf. -/
theorem leafEntries_append_left {left items : List (Key × V)} (hleft : ∀ e ∈ left, e.1 < key) :
    leafEntries key val forceFlag (left ++ items) =
      ((leafEntries key val forceFlag items).1,
        left ++ (leafEntries key val forceFlag items).2.1,
        (leafEntries key val forceFlag items).2.2) := by
  induction left with
  | nil => rfl
  | cons e left ih =>
    have hpos : 0 < strcmp key e.1 := strcmp_pos.mpr (hleft e List.mem_cons_self)
    rw [List.cons_append, leafEntries, if_neg hpos.ne', if_neg hpos.not_gt,
      ih fun e' he' => hleft e' (List.mem_cons_of_mem _ he')]
    rfl

/-- The greater keys behind a leaf. -/
theorem leafEntries_append_right {items right : List (Key × V)} (hright : ∀ e ∈ right, key < e.1) :
    leafEntries key val forceFlag (items ++ right) =
      ((leafEntries key val forceFlag items).1,
        (leafEntries key val forceFlag items).2.1 ++ right,
        (leafEntries key val forceFlag items).2.2) := by
  induction items with
  | nil =>
    cases right with
    | nil => rfl
    | cons e right =>
      have hneg : strcmp key e.1 < 0 := strcmp_neg.mpr (hright e List.mem_cons_self)
      have hnil : leafEntries key val forceFlag [] = (true, [(key, val)], val) := rfl
      rw [hnil, List.nil_append, leafEntries, if_neg hneg.ne, if_pos hneg]
      rfl
  | cons e items ih =>
    rw [List.cons_append, leafEntries, leafEntries]
    by_cases hzero : strcmp key e.1 = 0
    · rw [if_pos hzero, if_pos hzero]
      rfl
    · rw [if_neg hzero, if_neg hzero]
      by_cases hneg : strcmp key e.1 < 0
      · rw [if_pos hneg, if_pos hneg]
        rfl
      · rw [if_neg hneg, if_neg hneg, ih]
        rfl

/-- The keys of the new entries. -/
theorem leafEntries_keys {items : List (Key × V)} {e : Key × V}
    (he : e ∈ (leafEntries key val forceFlag items).2.1) : e.1 = key ∨ ∃ e' ∈ items, e'.1 = e.1 := by
  induction items with
  | nil => exact Or.inl (congrArg Prod.fst (List.mem_singleton.mp he))
  | cons e' items ih =>
    rw [leafEntries] at he
    split at he
    · rcases List.mem_cons.mp he with rfl | he
      · exact Or.inr ⟨e', List.mem_cons_self, rfl⟩
      · exact Or.inr ⟨e, List.mem_cons_of_mem _ he, rfl⟩
    · split at he
      · rcases List.mem_cons.mp he with rfl | he
        · exact Or.inl rfl
        · exact Or.inr ⟨e, he, rfl⟩
      · rcases List.mem_cons.mp he with rfl | he
        · exact Or.inr ⟨_, List.mem_cons_self, rfl⟩
        · rcases ih he with h | ⟨e'', he'', h⟩
          · exact Or.inl h
          · exact Or.inr ⟨e'', List.mem_cons_of_mem _ he'', h⟩

/-- The new entries are sorted. -/
theorem sorted_leafEntries {items : List (Key × V)} (hsorted : Sorted items) :
    Sorted (leafEntries key val forceFlag items).2.1 := by
  induction items with
  | nil => exact List.pairwise_singleton _ _
  | cons e items ih =>
    obtain ⟨hhead, htail⟩ := List.pairwise_cons.mp hsorted
    rw [leafEntries]
    split
    · exact List.pairwise_cons.mpr ⟨hhead, htail⟩
    · next hne =>
      split
      · next hneg =>
        have hlt : key < e.1 := strcmp_neg.mp hneg
        refine List.pairwise_cons.mpr ⟨fun e' he' => ?_, hsorted⟩
        rcases List.mem_cons.mp he' with rfl | he'
        · exact hlt
        · exact hlt.trans (hhead e' he')
      · next hnlt =>
        have hlt : e.1 < key := strcmp_pos.mp (lt_of_le_of_ne (not_lt.mp hnlt) (Ne.symm hne))
        refine List.pairwise_cons.mpr ⟨fun e' he' => ?_, ih htail⟩
        rcases leafEntries_keys he' with h | ⟨e'', he'', h⟩
        · rw [h]
          exact hlt
        · rw [← h]
          exact hhead e'' he''

/-- The value of the key is the result, other keys have the values that they had. -/
theorem valueAt_leafEntries {items : List (Key × V)} (hsorted : Sorted items) (k : Key) :
    valueAt (leafEntries key val forceFlag items).2.1 k =
      if k = key then some (leafEntries key val forceFlag items).2.2 else valueAt items k := by
  induction items with
  | nil =>
    rw [leafEntries, valueAt_cons]
    exact if_congr eq_comm rfl rfl
  | cons e items ih =>
    obtain ⟨hhead, htail⟩ := List.pairwise_cons.mp hsorted
    rw [leafEntries]
    split
    · next hzero =>
      have hkey : key = e.1 := strcmp_eq_zero.mp hzero
      rw [valueAt_cons, valueAt_cons, ← hkey]
      by_cases hk : k = key
      · rw [if_pos hk.symm, if_pos hk]
      · rw [if_neg (Ne.symm hk), if_neg hk, if_neg (Ne.symm hk)]
    · next hne =>
      split
      · rw [valueAt_cons]
        exact if_congr eq_comm rfl rfl
      · have hkey : e.1 ≠ key := fun h => hne (strcmp_eq_zero.mpr h.symm)
        rw [valueAt_cons, valueAt_cons, ih htail]
        by_cases hk : e.1 = k
        · rw [if_pos hk, if_pos hk, if_neg (hk ▸ hkey)]
        · rw [if_neg hk, if_neg hk]

/-- The result: the new value where it is forced or the key is new. -/
theorem leafEntries_result {items : List (Key × V)} (hsorted : Sorted items) :
    (leafEntries key val forceFlag items).2.2 =
      if forceFlag then val else (valueAt items key).getD val := by
  induction items with
  | nil => cases forceFlag <;> rfl
  | cons e items ih =>
    obtain ⟨hhead, htail⟩ := List.pairwise_cons.mp hsorted
    rw [leafEntries]
    split
    · next hzero =>
      have hkey : key = e.1 := strcmp_eq_zero.mp hzero
      rw [valueAt_cons, if_pos hkey.symm]
      rfl
    · next hne =>
      have hkey : e.1 ≠ key := fun h => hne (strcmp_eq_zero.mpr h.symm)
      rw [valueAt_cons, if_neg hkey]
      split
      · next hneg =>
        have hlt : key < e.1 := strcmp_neg.mp hneg
        rw [valueAt_eq_none fun e' he' => (hlt.trans (hhead e' he')).ne']
        cases forceFlag <;> rfl
      · exact ih htail

/-- The number of entries. -/
theorem length_leafEntries (key : Key) (val : V) (forceFlag : Bool) (items : List (Key × V)) :
    (leafEntries key val forceFlag items).2.1.length =
      items.length + if (leafEntries key val forceFlag items).1 then 1 else 0 := by
  induction items with
  | nil => rfl
  | cons e items ih =>
    rw [leafEntries]
    split
    · rfl
    · split
      · rfl
      · rw [List.length_cons, List.length_cons, ih]
        exact Nat.add_right_comm _ _ _

end Icarus.Vvp.Symbols
