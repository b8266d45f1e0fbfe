import Mathlib.Logic.Relation

/-!
# Constant groups

Links lie on groups. A link may vary, or drive its group, and a link that drives
may do so with what drives the groups of other links, which it reads. A group is
constant if none of its links varies, at most one drives, and the groups that it
reads are constant. What stays of this when links move is stated here.
-/

namespace Icarus.Netlist

open Relation

/-- What links are. -/
structure Kinds (L V : Type) where
  varies : L → Prop
  drives : L → Prop
  /-- The links that a link reads. -/
  reads : L → L → Prop
  /-- The value that a link drives with, if it is its own. -/
  value : L → Option V
  /-- The value of a group that no link drives. -/
  undriven : V
  /-- A link with a value drives. -/
  drives_of_value : ∀ l v, value l = some v → drives l
  /-- A link that reads drives. -/
  drives_of_reads : ∀ l p, reads l p → drives l

section Groups

variable {L N V : Type} (k : Kinds L V) (on : L → N → Prop)

/-- A link of the group reads a link. -/
def ReadsPin (n : N) (p : L) : Prop := ∃ l, on l n ∧ k.reads l p

/-- A link of the group reads a link of another. -/
def Reads (n m : N) : Prop := ∃ p, ReadsPin k on n p ∧ on p m

/-- No two links of a group drive it. -/
def Single (n : N) : Prop := ∀ x y, on x n → on y n → k.drives x → k.drives y → x = y

/-- The drivers of a group are constant. -/
inductive Constant : N → Prop
  | intro {n : N} (calm : ∀ l, on l n → ¬ k.varies l) (single : Single k on n)
    (inputs : ∀ m, Reads k on n m → Constant m) : Constant n

/-- What drives a group is a value of its own, or it is undriven. -/
def IsValue (n : N) (v : V) : Prop :=
  (∃ l, on l n ∧ k.value l = some v) ∨ (v = k.undriven ∧ ∀ l, on l n → k.value l = none)

theorem constant_iff (n : N) : Constant k on n ↔
    (∀ l, on l n → ¬ k.varies l) ∧ Single k on n ∧ ∀ m, Reads k on n m → Constant k on m :=
  ⟨fun ⟨calm, single, inputs⟩ => ⟨calm, single, inputs⟩,
    fun ⟨calm, single, inputs⟩ => ⟨calm, single, inputs⟩⟩

variable {k on}

theorem Constant.value_unique {n : N} {v w : V} (h : Constant k on n) (hv : IsValue k on n v)
    (hw : IsValue k on n w) : v = w := by
  have hsingle := ((constant_iff k on n).mp h).2.1
  rcases hv with ⟨l, hl, hlv⟩ | ⟨rfl, hnone⟩
  · rcases hw with ⟨m, hm, hmw⟩ | ⟨-, hnone⟩
    · obtain rfl := hsingle l m hl hm (k.drives_of_value l v hlv) (k.drives_of_value m w hmw)
      exact Option.some.inj (hlv.symm.trans hmw)
    · exact absurd (hlv.symm.trans (hnone l hl)) (by simp)
  · rcases hw with ⟨m, hm, hmw⟩ | ⟨rfl, -⟩
    · exact absurd (hmw.symm.trans (hnone m hm)) (by simp)
    · rfl

end Groups

/-! ## When links move -/

section Moves

variable {L N V : Type} {k : Kinds L V} {on on' : L → N → Prop} {n m : N}

variable (k on on') in
/-- The links that a group reads, directly or through others, are on their groups with the same
links as before. -/
def Quiet (n : N) : Prop :=
  ∀ m, ReflTransGen (Reads k on) n m → ∀ p, ReadsPin k on m p →
    ∀ j, (on' p j ↔ on p j) ∧ (on p j → ∀ l, on' l j ↔ on l j)

theorem Quiet.of_reads (h : Quiet k on on' n) (hm : Reads k on n m) : Quiet k on on' m :=
  fun j hj => h j (.head hm hj)

theorem Quiet.pin (h : Quiet k on on' n) {p : L} (hp : ReadsPin k on n p) (j : N) :
    on' p j ↔ on p j := (h n .refl p hp j).1

theorem Quiet.links (h : Quiet k on on' n) (hm : Reads k on n m) (l : L) : on' l m ↔ on l m := by
  obtain ⟨p, hp, hpm⟩ := hm
  exact (h n .refl p hp m).2 hpm l

variable (k on) in
/-- A group reads, directly or through others, from the group of a link. -/
def Watches (n : N) (t : L) : Prop :=
  ∃ m p, ReflTransGen (Reads k on) n m ∧ ReadsPin k on m p ∧ (p = t ∨ ∃ j, on p j ∧ on t j)

/-- Only the groups of some links change, and these are not watched. -/
theorem quiet_of_not_watches {T : L → Prop}
    (hsame : ∀ p, (∀ t, T t → p ≠ t ∧ ∀ j, on p j → ¬ on t j) →
      ∀ j, (on' p j ↔ on p j) ∧ (on p j → ∀ l, on' l j ↔ on l j))
    (hun : ∀ t, T t → ¬ Watches k on n t) : Quiet k on on' n := by
  intro m hm p hp
  refine hsame p fun t ht => ⟨fun heq => ?_, fun j hpj htj => ?_⟩
  · exact hun t ht ⟨m, p, hm, hp, .inl heq⟩
  · exact hun t ht ⟨m, p, hm, hp, .inr ⟨j, hpj, htj⟩⟩

/-- A group with the same links stays constant, or not. -/
theorem constant_congr (h : Quiet k on on' n) (hn : ∀ l, on' l n ↔ on l n) :
    Constant k on' n ↔ Constant k on n := by
  constructor
  · intro hc
    induction hc with
    | @intro n calm single inputs ih =>
      refine ⟨fun l hl => calm l ((hn l).mpr hl), fun x y hx hy => single x y ((hn x).mpr hx)
        ((hn y).mpr hy), fun m hm => ?_⟩
      obtain ⟨p, ⟨l, hl, hlp⟩, hpm⟩ := hm
      have hread : Reads k on n m := ⟨p, ⟨l, hl, hlp⟩, hpm⟩
      exact ih m ⟨p, ⟨l, (hn l).mpr hl, hlp⟩, (h.pin ⟨l, hl, hlp⟩ m).mpr hpm⟩ (h.of_reads hread)
        (h.links hread)
  · intro hc
    induction hc with
    | @intro n calm single inputs ih =>
      refine ⟨fun l hl => calm l ((hn l).mp hl), fun x y hx hy => single x y ((hn x).mp hx)
        ((hn y).mp hy), fun m hm => ?_⟩
      obtain ⟨p, ⟨l, hl, hlp⟩, hpm⟩ := hm
      have hpin : ReadsPin k on n p := ⟨l, (hn l).mp hl, hlp⟩
      have hread : Reads k on n m := ⟨p, hpin, (h.pin hpin m).mp hpm⟩
      exact ih m hread (h.of_reads hread) (h.links hread)

theorem isValue_congr (hn : ∀ l, on' l n ↔ on l n) (v : V) :
    IsValue k on' n v ↔ IsValue k on n v := by
  simp only [IsValue, hn]

/-- What a group reads stays constant, or not. -/
theorem Quiet.inputs (h : Quiet k on on' n) (hm : Reads k on n m) :
    Constant k on' m ↔ Constant k on m := constant_congr (h.of_reads hm) (h.links hm)

/-- A link that does not drive is put on a group. -/
theorem constant_append {r : L} (h : Quiet k on on' n) (hn : ∀ l, on' l n ↔ on l n ∨ l = r)
    (hr : ¬ k.drives r) : Constant k on' n ↔ Constant k on n ∧ ¬ k.varies r := by
  have hreads : ∀ j, Reads k on' n j ↔ Reads k on n j := by
    intro j
    constructor
    · rintro ⟨p, ⟨l, hl, hlp⟩, hpj⟩
      have hl' : on l n := by
        rcases (hn l).mp hl with hl | rfl
        · exact hl
        · exact absurd (k.drives_of_reads l p hlp) hr
      exact ⟨p, ⟨l, hl', hlp⟩, (h.pin ⟨l, hl', hlp⟩ j).mp hpj⟩
    · rintro ⟨p, ⟨l, hl, hlp⟩, hpj⟩
      exact ⟨p, ⟨l, (hn l).mpr (.inl hl), hlp⟩, (h.pin ⟨l, hl, hlp⟩ j).mpr hpj⟩
  have hold : ∀ l, k.drives l → (on' l n ↔ on l n) := by
    intro l hl
    rw [hn, or_iff_left]
    rintro rfl
    exact hr hl
  rw [constant_iff, constant_iff]
  constructor
  · rintro ⟨calm, single, inputs⟩
    refine ⟨⟨fun l hl => calm l ((hn l).mpr (.inl hl)), fun x y hx hy => ?_, fun j hj => ?_⟩,
      calm r ((hn r).mpr (.inr rfl))⟩
    · exact single x y ((hn x).mpr (.inl hx)) ((hn y).mpr (.inl hy))
    · exact (h.inputs hj).mp (inputs j ((hreads j).mpr hj))
  · rintro ⟨⟨calm, single, inputs⟩, hcalm⟩
    refine ⟨fun l hl => ?_, fun x y hx hy hdx hdy => ?_, fun j hj => ?_⟩
    · rcases (hn l).mp hl with hl | rfl
      · exact calm l hl
      · exact hcalm
    · exact single x y ((hold x hdx).mp hx) ((hold y hdy).mp hy) hdx hdy
    · have hread := (hreads j).mp hj
      exact (h.inputs hread).mpr (inputs j hread)

theorem isValue_append {r : L} (hn : ∀ l, on' l n ↔ on l n ∨ l = r) (hr : ¬ k.drives r) (v : V) :
    IsValue k on' n v ↔ IsValue k on n v := by
  have hnone : k.value r = none := by
    cases hv : k.value r with
    | none => rfl
    | some w => exact absurd (k.drives_of_value r w hv) hr
  simp only [IsValue, hn, or_and_right, exists_or, or_imp, forall_and, forall_eq, exists_eq_left,
    hnone, reduceCtorEq, or_false, and_true]

/-- The links of two groups are put together. -/
theorem constant_of_join (h : Quiet k on on' n) (hn : ∀ l, on l n → on' l n)
    (hc : Constant k on' n) : Constant k on n := by
  obtain ⟨calm, single, inputs⟩ := (constant_iff k on' n).mp hc
  refine ⟨fun l hl => calm l (hn l hl), fun x y hx hy => single x y (hn x hx) (hn y hy),
    fun j hj => (h.inputs hj).mp (inputs j ?_)⟩
  obtain ⟨p, ⟨l, hl, hlp⟩, hpj⟩ := hj
  exact ⟨p, ⟨l, hn l hl, hlp⟩, (h.pin ⟨l, hl, hlp⟩ j).mpr hpj⟩

theorem constant_join (hqn : Quiet k on on' n) (hqm : Quiet k on on' m)
    (hn : ∀ l, on' l n ↔ on l n ∨ on l m) (hcn : Constant k on n) (hcm : Constant k on m)
    (hdrives : ∀ x y, on x n → on y m → k.drives x → ¬ k.drives y) : Constant k on' n := by
  obtain ⟨calmn, singlen, inputsn⟩ := (constant_iff k on n).mp hcn
  obtain ⟨calmm, singlem, inputsm⟩ := (constant_iff k on m).mp hcm
  refine ⟨fun l hl => ?_, fun x y hx hy hdx hdy => ?_, fun j hj => ?_⟩
  · rcases (hn l).mp hl with hl | hl
    · exact calmn l hl
    · exact calmm l hl
  · rcases (hn x).mp hx with hx | hx <;> rcases (hn y).mp hy with hy | hy
    · exact singlen x y hx hy hdx hdy
    · exact absurd hdy (hdrives x y hx hy hdx)
    · exact absurd hdx (hdrives y x hy hx hdy)
    · exact singlem x y hx hy hdx hdy
  · obtain ⟨p, ⟨l, hl, hlp⟩, hpj⟩ := hj
    rcases (hn l).mp hl with hl | hl
    · have hread : Reads k on n j := ⟨p, ⟨l, hl, hlp⟩, (hqn.pin ⟨l, hl, hlp⟩ j).mp hpj⟩
      exact (hqn.inputs hread).mpr (inputsn j hread)
    · have hread : Reads k on m j := ⟨p, ⟨l, hl, hlp⟩, (hqm.pin ⟨l, hl, hlp⟩ j).mp hpj⟩
      exact (hqm.inputs hread).mpr (inputsm j hread)

/-- The value stays if one of the groups is undriven and has no driver, or the other has none. -/
theorem isValue_join {v : V} (hn : ∀ l, on' l n ↔ on l n ∨ on l m) (hv : IsValue k on n v)
    (hz : IsValue k on m k.undriven)
    (hdrives : ∀ x y, on x n → on y m → k.drives x → ¬ k.drives y) : IsValue k on' n v := by
  rcases hz with ⟨y, hy, hyv⟩ | ⟨-, hnone⟩
  · rcases hv with ⟨x, hx, hxv⟩ | ⟨rfl, -⟩
    · exact absurd (k.drives_of_value y _ hyv) (hdrives x y hx hy (k.drives_of_value x v hxv))
    · exact .inl ⟨y, (hn y).mpr (.inr hy), hyv⟩
  · rcases hv with ⟨x, hx, hxv⟩ | ⟨rfl, hnone'⟩
    · exact .inl ⟨x, (hn x).mpr (.inl hx), hxv⟩
    · refine .inr ⟨rfl, fun l hl => ?_⟩
      rcases (hn l).mp hl with hl | hl
      · exact hnone' l hl
      · exact hnone l hl

/-- A link that does not drive is taken off a group. -/
theorem constant_remove {a : L} (h : Quiet k on on' n) (hn : ∀ l, on' l n ↔ on l n ∧ l ≠ a)
    (ha : ¬ k.drives a) :
    (Constant k on n → Constant k on' n) ∧
      (Constant k on' n → ¬ k.varies a → Constant k on n) := by
  have hkept : ∀ l, k.drives l → on l n → on' l n := fun l hl hln => (hn l).mpr ⟨hln, by
    rintro rfl
    exact ha hl⟩
  have hreads : ∀ j, Reads k on' n j ↔ Reads k on n j := by
    intro j
    constructor
    · rintro ⟨p, ⟨l, hl, hlp⟩, hpj⟩
      have hpin : ReadsPin k on n p := ⟨l, ((hn l).mp hl).1, hlp⟩
      exact ⟨p, hpin, (h.pin hpin j).mp hpj⟩
    · rintro ⟨p, ⟨l, hl, hlp⟩, hpj⟩
      exact ⟨p, ⟨l, hkept l (k.drives_of_reads l p hlp) hl, hlp⟩,
        (h.pin ⟨l, hl, hlp⟩ j).mpr hpj⟩
  rw [constant_iff, constant_iff]
  constructor
  · rintro ⟨calm, single, inputs⟩
    refine ⟨fun l hl => calm l ((hn l).mp hl).1, fun x y hx hy => single x y ((hn x).mp hx).1
      ((hn y).mp hy).1, fun j hj => ?_⟩
    have hread := (hreads j).mp hj
    exact (h.inputs hread).mpr (inputs j hread)
  · rintro ⟨calm, single, inputs⟩ hcalm
    refine ⟨fun l hl => ?_, fun x y hx hy hdx hdy => single x y (hkept x hdx hx) (hkept y hdy hy)
      hdx hdy, fun j hj => (h.inputs hj).mp (inputs j ((hreads j).mpr hj))⟩
    by_cases hla : l = a
    · rwa [hla]
    · exact calm l ((hn l).mpr ⟨hl, hla⟩)

theorem isValue_remove {a : L} (hn : ∀ l, on' l n ↔ on l n ∧ l ≠ a) (ha : ¬ k.drives a) {v : V}
    (h : IsValue k on n v) : IsValue k on' n v := by
  rcases h with ⟨l, hl, hlv⟩ | ⟨rfl, hnone⟩
  · refine .inl ⟨l, (hn l).mpr ⟨hl, ?_⟩, hlv⟩
    rintro rfl
    exact ha (k.drives_of_value l v hlv)
  · exact .inr ⟨rfl, fun l hl => hnone l ((hn l).mp hl).1⟩

end Moves

end Icarus.Netlist
