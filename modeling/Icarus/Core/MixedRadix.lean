import Mathlib.Algebra.BigOperators.Group.List.Basic
import Mathlib.Data.List.Nodup
import Mathlib.Tactic.Ring

/-!
# Mixed radix numbers

Tuples of digits, each below its own radix, in the order of an array in memory: the last digit
varies fastest. The tuples that begin with given digits have the addresses of a block.
-/

namespace Icarus.Core.MixedRadix

/-- The address of a tuple; of the first digits alone, the lowest address that begins so. -/
def address : List Nat → List Nat → Nat
  | _ :: ws, d :: ds => d * ws.prod + address ws ds
  | _, _ => 0

/-- One digit for each radix, and below it. -/
abbrev Digits (ds ws : List Nat) : Prop := List.Forall₂ (· < ·) ds ws

variable {ws ds es : List Nat} {z k : Nat}

@[simp] theorem address_nil : address ws [] = 0 := by cases ws <;> rfl

theorem address_lt (h : Digits ds ws) : address ws ds < ws.prod := by
  induction h with
  | nil => exact Nat.one_pos
  | @cons d w ds ws hd _ ih =>
    calc address (w :: ws) (d :: ds) = d * ws.prod + address ws ds := rfl
      _ < d * ws.prod + ws.prod := Nat.add_lt_add_left ih _
      _ = (d + 1) * ws.prod := by ring
      _ ≤ w * ws.prod := Nat.mul_le_mul_right _ hd
      _ = (w :: ws).prod := List.prod_cons.symm

theorem address_append : address ws (ds ++ es) = address ws ds + address (ws.drop ds.length) es := by
  induction ds generalizing ws with
  | nil => simp
  | cons d ds ih =>
    cases ws with
    | nil => simp [address]
    | cons w ws =>
      rw [List.cons_append, List.length_cons, List.drop_succ_cons, address, address, ih, add_assoc]

/-- Every address below the product is that of a tuple. -/
theorem exists_digits (h : z < ws.prod) : ∃ ds, Digits ds ws ∧ address ws ds = z := by
  induction ws generalizing z with
  | nil =>
    rw [List.prod_nil, Nat.lt_one_iff] at h
    exact ⟨[], .nil, h.symm⟩
  | cons w ws ih =>
    rw [List.prod_cons] at h
    have hpos : 0 < ws.prod := by
      by_contra h0
      rw [Nat.le_zero.mp (not_lt.mp h0), Nat.mul_zero] at h
      exact Nat.not_lt_zero _ h
    obtain ⟨ds, hds, haddr⟩ := ih (Nat.mod_lt z hpos)
    refine ⟨z / ws.prod :: ds, .cons ?_ hds, ?_⟩
    · exact (Nat.div_lt_iff_lt_mul hpos).mpr h
    · rw [address, haddr, Nat.div_add_mod']

theorem address_inj (hds : Digits ds ws) (hes : Digits es ws)
    (h : address ws ds = address ws es) : ds = es := by
  induction hds generalizing es with
  | nil => cases hes; rfl
  | @cons d w ds ws hd hds ih =>
    cases hes with
    | @cons e _ es _ he hes =>
      have hlt := address_lt hds
      have hlt' := address_lt hes
      have hpos : 0 < ws.prod := Nat.zero_lt_of_lt hlt
      have hdiv : d = e := by
        have hquot := congrArg (· / ws.prod) h
        simpa [address, Nat.mul_comm _ ws.prod, Nat.mul_add_div hpos, Nat.div_eq_of_lt hlt,
          Nat.div_eq_of_lt hlt'] using hquot
      subst hdiv
      rw [ih hes (Nat.add_left_cancel h)]

/-! ## All tuples -/

/-- The tuples of digits, in the order of their addresses. -/
def tuples : List Nat → List (List Nat)
  | [] => [[]]
  | w :: ws => (List.range w).flatMap fun d => (tuples ws).map (d :: ·)

theorem mem_tuples : ds ∈ tuples ws ↔ Digits ds ws := by
  induction ws generalizing ds with
  | nil =>
    rw [tuples, List.mem_singleton]
    exact List.forall₂_nil_right_iff.symm
  | cons w ws ih =>
    rw [tuples, List.mem_flatMap]
    constructor
    · rintro ⟨d, hd, hmem⟩
      obtain ⟨es, hes, rfl⟩ := List.mem_map.mp hmem
      exact .cons (List.mem_range.mp hd) (ih.mp hes)
    · rintro (_ | ⟨hd, htl⟩)
      exact ⟨_, List.mem_range.mpr hd, List.mem_map.mpr ⟨_, ih.mpr htl, rfl⟩⟩

theorem nodup_tuples : (tuples ws).Nodup := by
  induction ws with
  | nil => exact List.nodup_singleton _
  | cons w ws ih =>
    rw [tuples, List.nodup_flatMap]
    refine ⟨fun d _ => ih.map (List.cons_injective), ?_⟩
    refine List.nodup_range.imp fun {d e} hne => ?_
    change List.Disjoint _ _
    rw [List.disjoint_left]
    intro ds hd he
    obtain ⟨xs, -, rfl⟩ := List.mem_map.mp hd
    obtain ⟨ys, -, heq⟩ := List.mem_map.mp he
    exact hne (List.cons.inj heq).1.symm

/-! ## Blocks -/

/-- The addresses of the tuples that begin with the digits. -/
theorem address_block {ps : List Nat} (hds : Digits ds (ws.drop ps.length)) :
    address ws ps ≤ address ws (ps ++ ds) ∧
      address ws (ps ++ ds) < address ws ps + (ws.drop ps.length).prod := by
  rw [address_append]
  exact ⟨Nat.le_add_right _ _, Nat.add_lt_add_left (address_lt hds) _⟩

/-- A block is a part of all addresses. -/
theorem address_add_le (h : Digits ds (ws.take ds.length)) :
    address ws ds + (ws.drop ds.length).prod ≤ ws.prod := by
  induction ds generalizing ws with
  | nil => simp
  | cons d ds ih =>
    cases ws with
    | nil => exact absurd h nofun
    | cons w ws =>
      obtain - | ⟨hd, htl⟩ := h
      calc address (w :: ws) (d :: ds) + ((w :: ws).drop (d :: ds).length).prod
          = d * ws.prod + (address ws ds + (ws.drop ds.length).prod) := Nat.add_assoc _ _ _
        _ ≤ d * ws.prod + ws.prod := Nat.add_le_add_left (ih htl) _
        _ = (d + 1) * ws.prod := by ring
        _ ≤ w * ws.prod := Nat.mul_le_mul_right _ hd
        _ = (w :: ws).prod := List.prod_cons.symm

/-- The blocks of the tuples of one length tile the addresses. -/
theorem existsUnique_block (hk : k ≤ ws.length) (hz : z < ws.prod) :
    ∃! ps, Digits ps (ws.take k) ∧ address ws ps ≤ z ∧
      z < address ws ps + (ws.drop k).prod := by
  obtain ⟨ts, hts, haddr⟩ := exists_digits hz
  have hlen : (ts.take k).length = k := by
    rw [List.length_take, hts.length_eq, min_eq_left hk]
  have htake : Digits (ts.take k) (ws.take k) := List.forall₂_take k hts
  have hdrop : Digits (ts.drop k) (ws.drop (ts.take k).length) := hlen.symm ▸ List.forall₂_drop k hts
  have hblock := address_block hdrop
  rw [List.take_append_drop, haddr, hlen] at hblock
  refine ⟨ts.take k, ⟨htake, hblock⟩, fun ps ⟨hps, hle, hlt⟩ => ?_⟩
  have hplen : ps.length = k := by
    rw [hps.length_eq, List.length_take, min_eq_left hk]
  have hrel : z - address ws ps < (ws.drop k).prod :=
    (Nat.sub_lt_iff_lt_add hle).mpr (Nat.add_comm _ (address ws ps) ▸ hlt)
  obtain ⟨es, hes, hrest⟩ := exists_digits hrel
  have hfull : Digits (ps ++ es) ws := by
    have happ : Digits (ps ++ es) (ws.take k ++ ws.drop k) := List.rel_append hps hes
    rwa [List.take_append_drop] at happ
  have hsame : address ws (ps ++ es) = address ws ts := by
    rw [address_append, hplen, hrest, haddr, Nat.add_sub_cancel' hle]
  rw [← address_inj hfull hts hsame, List.take_left' hplen]

end Icarus.Core.MixedRadix
