import Icarus.Core.Flow
import Icarus.Vvp.Island.Drives
import Icarus.Vvp.Island.Tran
import Mathlib.Data.List.GetD
import Mathlib.Algebra.Order.Ring.Nat

/-!
# What a push does to a value

A whole-width branch that is enabled and not resistive passes values of one strength on as they
are. Each bit of the value that is pushed into is joined with the bit that is pushed, and a change
takes room.
-/

namespace Icarus.Vvp.Island

open Icarus.Core Scalar

/-- The bit that is resolved with across an enabled branch that is not resistive. -/
def passedBit (b : Scalar) : Scalar := switchedBit b .enabled (switchStrengthMap false)

theorem switchStrengthMap_of_le : ∀ {strength : Fin 8}, strength ≤ 6 →
    switchStrengthMap false strength = strength := by decide

theorem passedBit_of_hiz {b : Scalar} (hz : b.isHiz) : passedBit b = hiZ := by
  have hvalue : b.value = .z := by rw [Scalar.value, if_pos hz]
  simp [passedBit, switchedBit, hvalue, ofBit4]

/-- A drive or an unknown of one strength is built again from its bit and its strengths. -/
theorem passedBit_of_driven {b : Scalar} (hb : b.OneStrength) (hz : b.isHiz = false) :
    passedBit b = b := by
  obtain ⟨hcanonical, heven⟩ := hb
  obtain ⟨⟨hone, hstr⟩, ⟨lone, lstr⟩⟩ := b
  have hsame : lstr = hstr := by
    apply Fin.ext
    have heq := heven.even
    rwa [Scalar.range, Half.natAbs_signed, Half.natAbs_signed] at heq
  subst hsame
  have hle : lstr ≤ 6 := by
    have hstrong := heven.strong
    rwa [Scalar.range, Half.natAbs_signed] at hstrong
  have hne : lstr ≠ 0 := by
    rintro rfl
    simp [isHiz] at hz
  have hordered := hcanonical.ordered
  have hmap := switchStrengthMap_of_le hle
  cases hone <;> cases lone
  · simp [passedBit, switchedBit, value, hz, strength0, strength1, hmap, ofBit4, hne]
  · simp only [Half.signed] at hordered
    exfalso
    have hpos : 0 < lstr.val := Nat.pos_of_ne_zero fun h => hne (Fin.ext h)
    simp at hordered
    omega
  · simp [passedBit, switchedBit, value, hz, strength0, strength1, hmap, ofBit4, hne]
  · simp [passedBit, switchedBit, value, hz, strength0, strength1, hmap, ofBit4, hne]

/-- A bit is passed on as it is, and HiZ in its one encoding. -/
theorem passedBit_spec {b : Scalar} (hb : b.OneStrength) :
    (passedBit b).OneStrength ∧ (passedBit b).range = b.range ∧
      ((passedBit b).isHiz → passedBit b = hiZ) := by
  by_cases hz : b.isHiz
  · rw [passedBit_of_hiz hz]
    exact ⟨oneStrength_hiZ, ((isHiz_iff b).mp hz).symm, fun _ => rfl⟩
  · rw [Bool.not_eq_true] at hz
    rw [passedBit_of_driven hb hz]
    exact ⟨hb, rfl, fun h => absurd h (by simp [hz])⟩

/-! ## Vectors -/

/-- All bits have one strength. -/
def Even (v : Vector8) : Prop := ∀ a ∈ v, a.OneStrength

theorem Even.getD {v : Vector8} (hv : Even v) (i : Nat) : (v.getD i hiZ).OneStrength := by
  by_cases hi : i < v.length
  · rw [List.getD_eq_getElem _ _ hi]
    exact hv _ (List.getElem_mem hi)
  · rw [List.getD_eq_default _ _ (Nat.not_lt.mp hi)]
    exact oneStrength_hiZ

open scoped Classical in
/-- The drive of a bit; a bit of a port that has not been visited has none. -/
noncomputable def drive (v : Vector8) (i : Nat) : EvenRange :=
  if h : (v.getD i hiZ).range.Even then ⟨_, h⟩ else ⊥

theorem val_drive {v : Vector8} (hv : Even v) (i : Nat) :
    (drive v i).val = (v.getD i hiZ).range := by
  rw [drive, dif_pos (hv.getD i).even]

theorem drive_nil (i : Nat) : drive [] i = ⊥ :=
  EvenRange.ext (val_drive (fun _ ha => absurd ha List.not_mem_nil) i)

/-- Resolving vectors of one size joins the drives of their bits. -/
theorem resolveVector_spec {v w : Vector8} (hsize : v.length = w.length) (hv : Even v)
    (hw : Even w) :
    (resolveVector v w).length = v.length ∧ Even (resolveVector v w) ∧
      ∀ i, drive (resolveVector v w) i = drive v i ⊔ drive w i := by
  have hlen : (resolveVector v w).length = v.length := by
    rw [resolveVector, List.length_zipWith, hsize, Nat.min_self]
  have heven : Even (resolveVector v w) := by
    intro a ha
    obtain ⟨i, hi, rfl⟩ := List.getElem_of_mem ha
    simp only [resolveVector, List.getElem_zipWith]
    exact (hv _ (List.getElem_mem _)).resolve (hw _ (List.getElem_mem _))
  refine ⟨hlen, heven, fun i => EvenRange.ext ?_⟩
  rw [EvenRange.val_sup, val_drive heven, val_drive hv, val_drive hw,
    ← (hv.getD i).canonical.range_resolve (hw.getD i).canonical]
  by_cases hi : i < v.length
  · rw [List.getD_eq_getElem _ _ (by omega), List.getD_eq_getElem _ _ hi,
      List.getD_eq_getElem _ _ (by omega)]
    simp only [resolveVector, List.getElem_zipWith]
  · rw [List.getD_eq_default _ _ (by omega), List.getD_eq_default _ _ (by omega),
      List.getD_eq_default _ _ (by omega)]
    rfl

/-- The bits are passed on with their drives. -/
theorem passed_spec {val : Vector8} (hval : Even val) :
    Even (val.map passedBit) ∧ ∀ i, drive (val.map passedBit) i = drive val i := by
  have heven : Even (val.map passedBit) := by
    intro a ha
    obtain ⟨b, hb, rfl⟩ := List.mem_map.mp ha
    exact (passedBit_spec (hval b hb)).1
  refine ⟨heven, fun i => EvenRange.ext ?_⟩
  have hdefault : passedBit hiZ = hiZ := passedBit_of_hiz rfl
  rw [val_drive heven, val_drive hval, ← hdefault, List.getD_map, hdefault]
  exact (passedBit_spec (hval.getD i)).2.1

/-- The value of a port after a push across an enabled branch that is not resistive. -/
def pushed (value val : Vector8) : Vector8 := resolveVector value (val.map passedBit)

theorem resolveAmbiguous_eq {value val : Vector8} (hsize : value.length = val.length) :
    resolveAmbiguous value val .enabled (switchStrengthMap false) = some (pushed value val) := by
  rw [resolveAmbiguous, if_pos hsize, pushed, resolveVector, List.zipWith_map_right]
  rfl

/-- A push joins the drives. -/
theorem pushed_drives {value val : Vector8} (hsize : value.length = val.length)
    (hvalue : Even value) (hval : Even val) :
    (pushed value val).length = value.length ∧ Even (pushed value val) ∧
      ∀ i, drive (pushed value val) i = drive value i ⊔ drive val i := by
  obtain ⟨hpassed, hdrive⟩ := passed_spec hval
  obtain ⟨hlen, heven, hjoin⟩ :=
    resolveVector_spec (by rw [List.length_map, hsize]) hvalue hpassed
  exact ⟨hlen, heven, fun i => by rw [pushed, hjoin, hdrive]⟩

/-- How far the bits may still be changed. -/
def roomOf (v : Vector8) : Nat := (v.map Scalar.room).sum

/-- A push that changes a value takes room. -/
theorem roomOf_pushed {value val : Vector8} (hsize : value.length = val.length)
    (hvalue : Even value) (hval : Even val) :
    roomOf (pushed value val) ≤ roomOf value ∧
      (pushed value val ≠ value → roomOf (pushed value val) < roomOf value) := by
  induction value generalizing val with
  | nil => exact ⟨le_rfl, fun h => absurd rfl h⟩
  | cons a value ih =>
    obtain ⟨b, val, rfl⟩ := List.exists_cons_of_length_eq_add_one hsize.symm
    obtain ⟨ha, hvalue'⟩ := List.forall_mem_cons.mp hvalue
    obtain ⟨hb, hval'⟩ := List.forall_mem_cons.mp hval
    obtain ⟨hle, hlt⟩ := ih (by simpa using hsize) hvalue' hval'
    obtain ⟨hpassed, -, hz⟩ := passedBit_spec hb
    have hhead := ha.room_lt hpassed hz
    have hcons : pushed (a :: value) (b :: val) =
        resolve a (passedBit b) :: pushed value val := rfl
    rw [hcons]
    simp only [roomOf, List.map_cons, List.sum_cons, ne_eq, List.cons.injEq] at *
    by_cases hsame : resolve a (passedBit b) = a
    · rw [hsame]
      refine ⟨by omega, fun hne => ?_⟩
      have := hlt fun h => hne ⟨rfl, h⟩
      omega
    · have := hhead hsame
      exact ⟨by omega, fun _ => by omega⟩

theorem roomOf_le (v : Vector8) : roomOf v ≤ 15 * v.length := by
  induction v with
  | nil => exact Nat.zero_le _
  | cons a v ih =>
    have := a.room_le
    simp only [roomOf, List.map_cons, List.sum_cons, List.length_cons] at *
    omega

end Icarus.Vvp.Island
