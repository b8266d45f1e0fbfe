import Icarus.Core.Ring
import Icarus.Netlist.Link
import Mathlib.Data.List.Perm.Subperm

/-!
# The rings of a netlist

Every nexus has a ring of links, and every linked link is on one ring. The last
link of a ring points to the nexus, and the nexus to it; no other link points to
a nexus. What each call does to the rings is stated for the list of a ring.
-/

namespace Icarus

open Icarus.Core

namespace Netlist

/-- `next_` of a link. -/
def next (s : Netlist) (l : Nat) : Option Nat := (s.link l).next

/-- `nexus_` of a link. -/
def nexusOf (s : Netlist) (l : Nat) : Option Nat := (s.link l).nexus

/-- `list_` of a nexus. -/
def list (s : Netlist) (n : Nat) : Option Nat := (s.nexus n).list

theorem link_next (s : Netlist) (l : Nat) : (s.link l).next = s.next l := rfl

theorem link_nexus (s : Netlist) (l : Nat) : (s.link l).nexus = s.nexusOf l := rfl

theorem nexus_list (s : Netlist) (n : Nat) : (s.nexus n).list = s.list n := rfl

/-- The link behind a link on its ring. -/
def succ (s : Netlist) (l : Nat) : Nat := (s.next l).getD l

/-! ## Assignments -/

section Fields

variable (s : Netlist) (l n : Nat)

@[simp] theorem setNext_fields (next : Option Nat) :
    (s.setNext l next).next = Function.update s.next l next ∧
      (s.setNext l next).nexusOf = s.nexusOf ∧ (s.setNext l next).list = s.list ∧
      (s.setNext l next).isLink = s.isLink ∧ (s.setNext l next).links = s.links ∧
      (s.setNext l next).isNexus = s.isNexus ∧ (s.setNext l next).nexuses = s.nexuses := by
  refine ⟨?_, ?_, rfl, rfl, rfl, rfl, rfl⟩ <;> funext k <;> by_cases h : k = l <;>
    simp [setNext, Netlist.next, Netlist.nexusOf, h]

@[simp] theorem setNexus_fields (nexus : Option Nat) :
    (s.setNexus l nexus).next = s.next ∧
      (s.setNexus l nexus).nexusOf = Function.update s.nexusOf l nexus ∧
      (s.setNexus l nexus).list = s.list ∧ (s.setNexus l nexus).isLink = s.isLink ∧
      (s.setNexus l nexus).links = s.links ∧ (s.setNexus l nexus).isNexus = s.isNexus ∧
      (s.setNexus l nexus).nexuses = s.nexuses := by
  refine ⟨?_, ?_, rfl, rfl, rfl, rfl, rfl⟩ <;> funext k <;> by_cases h : k = l <;>
    simp [setNexus, Netlist.next, Netlist.nexusOf, h]

@[simp] theorem setList_fields (list : Option Nat) :
    (s.setList n list).next = s.next ∧ (s.setList n list).nexusOf = s.nexusOf ∧
      (s.setList n list).list = Function.update s.list n list ∧
      (s.setList n list).isLink = s.isLink ∧ (s.setList n list).links = s.links ∧
      (s.setList n list).isNexus = s.isNexus ∧ (s.setList n list).nexuses = s.nexuses := by
  refine ⟨rfl, rfl, ?_, rfl, rfl, rfl, rfl⟩
  funext k
  by_cases h : k = n <;> simp [setList, Netlist.list, h]

@[simp] theorem setName_fields (name : Option String) :
    (s.setName n name).next = s.next ∧ (s.setName n name).nexusOf = s.nexusOf ∧
      (s.setName n name).list = s.list ∧ (s.setName n name).isLink = s.isLink ∧
      (s.setName n name).links = s.links ∧ (s.setName n name).isNexus = s.isNexus ∧
      (s.setName n name).nexuses = s.nexuses := by
  refine ⟨rfl, rfl, ?_, rfl, rfl, rfl, rfl⟩
  funext k
  by_cases h : k = n <;> simp [setName, Netlist.list, h]

@[simp] theorem setDriven_fields (driven : Value) :
    (s.setDriven n driven).next = s.next ∧ (s.setDriven n driven).nexusOf = s.nexusOf ∧
      (s.setDriven n driven).list = s.list ∧ (s.setDriven n driven).isLink = s.isLink ∧
      (s.setDriven n driven).links = s.links ∧ (s.setDriven n driven).isNexus = s.isNexus ∧
      (s.setDriven n driven).nexuses = s.nexuses := by
  refine ⟨rfl, rfl, ?_, rfl, rfl, rfl, rfl⟩
  funext k
  by_cases h : k = n <;> simp [setDriven, Netlist.list, h]

end Fields

/-- The pointers are those of the rings. -/
structure Rings (s : Netlist) (ring : Nat → List Nat) : Prop where
  /-- A nexus has the ring behind its last link. -/
  rep : ∀ n, Ring.Rep s.succ (s.list n) (ring n)
  /-- A link is on a ring once. -/
  nodup : ∀ n, (ring n).Nodup
  /-- A link is on one ring. -/
  unique : ∀ m n l, l ∈ ring m → l ∈ ring n → m = n
  /-- The links that have a next one are those on rings. -/
  linked : ∀ l, s.next l ≠ none ↔ ∃ n, l ∈ ring n
  /-- Nexus and last link point to each other. -/
  last : ∀ l n, s.nexusOf l = some n ↔ s.list n = some l
  /-- The nexuses that exist are those with a ring. -/
  live : ∀ n, s.isNexus n = true ↔ ring n ≠ []
  /-- The links on rings exist. -/
  exist : ∀ n, ∀ l ∈ ring n, s.isLink l = true
  /-- Links have used addresses. -/
  links_le : ∀ l, s.links ≤ l → s.isLink l = false
  /-- Nexuses have used addresses. -/
  nexuses_le : ∀ n, s.nexuses ≤ n → s.isNexus n = false

namespace Rings

variable {s : Netlist} {ring : Nat → List Nat} (h : s.Rings ring)
include h

theorem next_of_mem {n l : Nat} (hl : l ∈ ring n) : s.next l = some (s.succ l) := by
  obtain ⟨k, hk⟩ := Option.ne_none_iff_exists'.mp ((h.linked l).mpr ⟨n, hl⟩)
  rw [succ, hk, Option.getD_some]

theorem list_isSome {n : Nat} (hn : ring n ≠ []) :
    ∃ l, s.list n = some l ∧ (ring n).getLast? = some l ∧ l ∈ ring n := by
  cases hl : s.list n with
  | none => exact absurd ((h.rep n).eq_none_iff.mp hl) hn
  | some l =>
    have hrep := h.rep n
    rw [hl] at hrep
    exact ⟨l, rfl, hrep.1, hrep.tail_mem⟩

/-- A ring is not longer than the number of links. -/
theorem length_le (n : Nat) : (ring n).length ≤ s.links := by
  have hsub : ring n ⊆ List.range s.links := by
    intro l hl
    rw [List.mem_range]
    by_contra hge
    have hexist := h.exist n l hl
    rw [h.links_le l (Nat.not_lt.mp hge)] at hexist
    cases hexist
  have hle := ((h.nodup n).subperm hsub).length_le
  rwa [List.length_range] at hle

/-- Every member of a ring finds the nexus. -/
theorem findNexus_eq {n l : Nat} (hl : l ∈ ring n) : s.findNexus l = some (some n) := by
  obtain ⟨t, ht, hlast, htmem⟩ := h.list_isSome (List.ne_nil_of_mem hl)
  have hnext := h.next_of_mem hl
  have htn := (h.last t n).mpr ht
  rw [findNexus, link_next, hnext]
  dsimp only
  by_cases hlt : l = t
  · rw [link_nexus, hlt, htn, Option.isSome_some, if_pos rfl]
  · have honly : ∀ k ∈ ring n, k ≠ t → s.nexusOf k = none := by
      intro k hk hkt
      by_contra hsome
      obtain ⟨m, hm⟩ := Option.ne_none_iff_exists'.mp hsome
      have hlist := (h.last k m).mp hm
      have hrep := h.rep m
      rw [hlist] at hrep
      have hmn := h.unique m n k hrep.tail_mem hk
      rw [hmn, ht, Option.some_inj] at hlist
      exact hkt hlist.symm
    have hrep := h.rep n
    rw [ht] at hrep
    obtain ⟨as, bs, hsplit⟩ := List.append_of_mem hl
    have hnodup := h.nodup n
    rw [hsplit] at hlast hnodup hrep
    have hbs : bs ≠ [] := by
      rintro rfl
      rw [List.getLast?_append_of_ne_nil _ (List.cons_ne_nil _ _)] at hlast
      exact hlt (by simpa using hlast)
    obtain ⟨b, bs, rfl⟩ := List.exists_cons_of_ne_nil hbs
    rw [List.getLast?_append_of_ne_nil _ (List.cons_ne_nil _ _), List.getLast?_cons_cons] at hlast
    have hchain := (List.isChain_append.mp
      (List.isChain_cons.mp hrep.2).2).2.1
    obtain ⟨hsucc, hrest⟩ := List.isChain_cons_cons.mp hchain
    have hmem : ∀ k ∈ b :: bs, k ∈ ring n := by
      intro k hk
      rw [hsplit]
      exact List.mem_append_right _ (List.mem_cons_of_mem _ hk)
    have hnl : l ∉ b :: bs := (List.nodup_cons.mp (List.nodup_append.mp hnodup).2.1).1
    have hwalk : Loop.whileLoop (fun cur => cur ≠ l ∧ (s.link cur).nexus = none)
        (fun cur => (s.link cur).next) (s.links + 1) b = some t := by
      apply Ring.whileLoop_walk b hrest hlast
      · intro k hk
        rw [decide_eq_true_eq, link_nexus]
        constructor
        · rintro ⟨-, hnone⟩ rfl
          rw [htn] at hnone
          cases hnone
        · exact fun hkt => ⟨fun hkl => hnl (hkl ▸ hk), honly k (hmem k hk) hkt⟩
      · exact fun k hk => h.next_of_mem (hmem k hk)
      · have hle := h.length_le n
        rw [hsplit, List.length_append, List.length_cons, List.length_cons] at hle
        omega
    rw [hsucc, hwalk, link_nexus, honly l hl hlt, Option.map_some, if_neg (Ne.symm hlt), link_nexus,
      htn]
    rfl

/-! ## What the calls do to the rings -/

/-- A link that is on no ring has no next one and points to no nexus. -/
theorem fields_of_not_mem {l : Nat} (hl : ∀ n, l ∉ ring n) :
    s.next l = none ∧ s.nexusOf l = none := by
  constructor
  · by_contra hne
    obtain ⟨n, hn⟩ := (h.linked l).mp hne
    exact hl n hn
  · by_contra hne
    obtain ⟨n, hn⟩ := Option.ne_none_iff_exists'.mp hne
    have hrep := h.rep n
    rw [(h.last l n).mp hn] at hrep
    exact hl n hrep.tail_mem

/-- A fresh link is on no ring. -/
theorem newLink (dir : Dir) : (s.newLink dir).Rings ring := by
  have hfresh : ∀ n, s.links ∉ ring n := by
    intro n hmem
    have hexist := h.exist n _ hmem
    rw [h.links_le _ (Nat.le_refl _)] at hexist
    cases hexist
  obtain ⟨hnext, hnexus⟩ := h.fields_of_not_mem hfresh
  have hnext' : (s.newLink dir).next = s.next := by
    funext l
    by_cases hl : l = s.links
    · rw [hl, hnext]
      simp [Netlist.newLink, next]
    · simp [Netlist.newLink, next, hl]
  have hnexus' : (s.newLink dir).nexusOf = s.nexusOf := by
    funext l
    by_cases hl : l = s.links
    · rw [hl, hnexus]
      simp [Netlist.newLink, nexusOf]
    · simp [Netlist.newLink, nexusOf, hl]
  have hsucc : (s.newLink dir).succ = s.succ := by
    funext l
    rw [succ, succ, hnext']
  refine ⟨fun n => hsucc ▸ h.rep n, h.nodup, h.unique, fun l => hnext' ▸ h.linked l,
    fun l n => hnexus' ▸ h.last l n, h.live, fun n l hl => ?_, fun l hl => ?_, h.nexuses_le⟩
  · have hne : l ≠ s.links := fun he => hfresh n (he ▸ hl)
    exact (Function.update_of_ne hne _ _).trans (h.exist n l hl)
  · have hle : s.links + 1 ≤ l := hl
    exact (Function.update_of_ne (show l ≠ s.links by omega) _ _).trans (h.links_le l (by omega))

theorem setDir (l : Nat) (dir : Dir) : (s.setDir l dir).Rings ring := by
  have hnext : (s.setDir l dir).next = s.next := by
    funext k
    by_cases hk : k = l <;> simp [Netlist.setDir, next, hk]
  have hnexus : (s.setDir l dir).nexusOf = s.nexusOf := by
    funext k
    by_cases hk : k = l <;> simp [Netlist.setDir, nexusOf, hk]
  have hsucc : (s.setDir l dir).succ = s.succ := by
    funext k
    rw [succ, succ, hnext]
  exact ⟨fun n => hsucc ▸ h.rep n, h.nodup, h.unique, fun k => hnext ▸ h.linked k,
    fun k n => hnexus ▸ h.last k n, h.live, h.exist, h.links_le, h.nexuses_le⟩

end Rings

/-- Membership after a link is appended to a ring. -/
theorem mem_append (ring : Nat → List Nat) (n r m l : Nat) :
    l ∈ Function.update ring n (ring n ++ [r]) m ↔ m = n ∧ l = r ∨ l ∈ ring m := by
  by_cases hm : m = n
  · rw [hm, Function.update_self]
    simp [or_comm]
  · rw [Function.update_of_ne hm]
    simp [hm]

/-- Membership after a ring is put behind another. -/
theorem mem_join (ring : Nat → List Nat) {n m : Nat} (hmn : m ≠ n) (k l : Nat) :
    l ∈ Function.update (Function.update ring n (ring n ++ ring m)) m [] k ↔
      k = n ∧ l ∈ ring m ∨ k ≠ m ∧ l ∈ ring k := by
  by_cases hkm : k = m
  · rw [hkm, Function.update_self]
    simp [hmn]
  · rw [Function.update_of_ne hkm]
    by_cases hkn : k = n
    · rw [hkn, Function.update_self]
      simp [hmn.symm, or_comm]
    · rw [Function.update_of_ne hkn]
      simp [hkm, hkn]

/-- Following `next_` after an assignment. -/
theorem succ_update {s s' : Netlist} {l k : Nat}
    (hs : s'.next = Function.update s.next l (some k)) :
    s'.succ = Function.update s.succ l k := by
  funext j
  rw [succ, hs]
  by_cases hj : j = l
  · rw [hj, Function.update_self, Function.update_self, Option.getD_some]
  · rw [Function.update_of_ne hj, Function.update_of_ne hj, succ]

namespace Rings

variable {s s' : Netlist} {ring : Nat → List Nat} (h : s.Rings ring)
include h

theorem mem_of_list {n l : Nat} (hl : s.list n = some l) : l ∈ ring n := by
  have hrep := h.rep n
  rw [hl] at hrep
  exact hrep.tail_mem

/-- A link on no ring is put at the end of a ring, or on a ring of its own. -/
theorem insert {n r : Nat} (hr : ∀ m, r ∉ ring m) (hlink : s.isLink r = true)
    (hsucc : s'.succ = (Ring.enqueue s.succ (s.list n) r).1)
    (hnext : ∀ l, s'.next l ≠ none ↔ l = r ∨ s.next l ≠ none)
    (hnexus : ∀ l, s'.nexusOf l = if l = r then some n
      else if s.list n = some l then none else s.nexusOf l)
    (hlist : s'.list = Function.update s.list n (some r))
    (hisLink : s'.isLink = s.isLink) (hlinks : s'.links = s.links)
    (hisNexus : ∀ m, s'.isNexus m = true ↔ m = n ∨ s.isNexus m = true)
    (hnexuses : ∀ m, s'.nexuses ≤ m → s'.isNexus m = false) :
    s'.Rings (Function.update ring n (ring n ++ [r])) := by
  have hmem := mem_append ring n r
  refine ⟨fun m => ?_, fun m => ?_, fun m k l hm hk => ?_, fun l => ?_, fun l m => ?_, fun m => ?_,
    fun m l hl => ?_, fun l hl => ?_, hnexuses⟩
  · rw [hsucc, hlist]
    by_cases hm : m = n
    · rw [hm, Function.update_self, Function.update_self]
      have hrep := (h.rep n).enqueue (h.nodup n) (hr n)
      have hsecond : (Ring.enqueue s.succ (s.list n) r).2 = some r := by
        cases s.list n <;> rfl
      rwa [hsecond] at hrep
    · rw [Function.update_of_ne hm, Function.update_of_ne hm]
      refine (h.rep m).congr fun l hl => Ring.enqueue_next_of_ne ?_ ?_
      · rintro rfl
        exact hr m hl
      · exact fun he => hm (h.unique m n l hl (h.mem_of_list he))
  · by_cases hm : m = n
    · rw [hm, Function.update_self]
      exact List.nodup_append.mpr ⟨h.nodup n, List.nodup_singleton r, fun a ha b hb => by
        rw [List.mem_singleton] at hb
        rintro rfl
        exact hr n (hb ▸ ha)⟩
    · rw [Function.update_of_ne hm]
      exact h.nodup m
  · rcases (hmem m l).mp hm with ⟨hmn, hlr⟩ | hm <;> rcases (hmem k l).mp hk with ⟨hkn, hlr'⟩ | hk
    · rw [hmn, hkn]
    · exact absurd (hlr ▸ hk) (hr k)
    · exact absurd (hlr' ▸ hm) (hr m)
    · exact h.unique m k l hm hk
  · rw [hnext, h.linked]
    constructor
    · rintro (rfl | ⟨m, hm⟩)
      · exact ⟨n, (hmem _ _).mpr (.inl ⟨rfl, rfl⟩)⟩
      · exact ⟨m, (hmem _ _).mpr (.inr hm)⟩
    · rintro ⟨m, hm⟩
      rcases (hmem m l).mp hm with ⟨-, rfl⟩ | hm
      · exact .inl rfl
      · exact .inr ⟨m, hm⟩
  · rw [hnexus, hlist]
    by_cases hm : m = n
    · rw [hm, Function.update_self, Option.some_inj]
      split_ifs with hlr hlast
      · simp [hlr]
      · simp [Ne.symm hlr]
      · rw [h.last]
        simp [hlast, Ne.symm hlr]
    · rw [Function.update_of_ne hm]
      split_ifs with hlr hlast
      · have hnot : s.list m ≠ some l := fun he => hr m (hlr ▸ h.mem_of_list he)
        simp [Ne.symm hm, hnot]
      · have hnot : s.list m ≠ some l :=
          fun he => hm (h.unique m n l (h.mem_of_list he) (h.mem_of_list hlast))
        simp [hnot]
      · exact h.last l m
  · rw [hisNexus, h.live]
    by_cases hm : m = n
    · rw [hm, Function.update_self]
      simp
    · rw [Function.update_of_ne hm]
      simp [hm]
  · rw [hisLink]
    rcases (hmem m l).mp hl with ⟨-, rfl⟩ | hl
    · exact hlink
    · exact h.exist m l hl
  · rw [hisLink]
    exact h.links_le l (hlinks ▸ hl)

/-- The ring of a nexus is put behind that of another, and the nexus is deleted. -/
theorem join {n m t₁ t₂ : Nat} (hmn : m ≠ n) (ht₁ : s.list n = some t₁) (ht₂ : s.list m = some t₂)
    (hsucc : s'.succ = Ring.splice s.succ t₁ t₂)
    (hnext : ∀ l, s'.next l ≠ none ↔ s.next l ≠ none)
    (hnexus : ∀ l, s'.nexusOf l = if l = t₂ then some n else if l = t₁ then none
      else s.nexusOf l)
    (hlist : ∀ k, s'.list k = if k = m then none else if k = n then some t₂ else s.list k)
    (hisLink : s'.isLink = s.isLink) (hlinks : s'.links = s.links)
    (hisNexus : s'.isNexus = Function.update s.isNexus m false)
    (hnexuses : s'.nexuses = s.nexuses) :
    s'.Rings (Function.update (Function.update ring n (ring n ++ ring m)) m []) := by
  obtain ⟨ring', hring'⟩ : ∃ ring', ring' =
    Function.update (Function.update ring n (ring n ++ ring m)) m [] := ⟨_, rfl⟩
  have hm : ring' m = [] := by rw [hring', Function.update_self]
  have hn : ring' n = ring n ++ ring m := by
    rw [hring', Function.update_of_ne hmn.symm, Function.update_self]
  have hk : ∀ k, k ≠ m → k ≠ n → ring' k = ring k := by
    intro k hkm hkn
    rw [hring', Function.update_of_ne hkm, Function.update_of_ne hkn]
  have hmem := mem_join ring hmn
  rw [← hring'] at hmem ⊢
  have hmem₁ := h.mem_of_list ht₁
  have hmem₂ := h.mem_of_list ht₂
  have hboth : (ring n ++ ring m).Nodup := List.nodup_append.mpr ⟨h.nodup n, h.nodup m, by
    rintro a ha b hb rfl
    exact hmn (h.unique m n a hb ha)⟩
  refine ⟨fun k => ?_, fun k => ?_, fun j k l hj hk' => ?_, fun l => ?_, fun l k => ?_,
    fun k => ?_, fun k l hl => ?_, fun l hl => ?_, fun k hk' => ?_⟩
  · rw [hsucc, hlist]
    by_cases hkm : k = m
    · rw [if_pos hkm, hkm, hm]
      rfl
    · by_cases hkn : k = n
      · have hrep₁ := h.rep n
        have hrep₂ := h.rep m
        rw [ht₁] at hrep₁
        rw [ht₂] at hrep₂
        rw [if_neg hkm, if_pos hkn, hkn, hn]
        exact hrep₁.splice hrep₂ hboth
      · rw [if_neg hkm, if_neg hkn, hk k hkm hkn]
        refine (h.rep k).congr fun l hl => ?_
        have hne₁ : l ≠ t₁ := by
          rintro rfl
          exact hkn (h.unique k n l hl hmem₁)
        have hne₂ : l ≠ t₂ := by
          rintro rfl
          exact hkm (h.unique k m l hl hmem₂)
        rw [Ring.splice, Function.update_of_ne hne₂, Function.update_of_ne hne₁]
  · by_cases hkm : k = m
    · rw [hkm, hm]
      exact List.nodup_nil
    · by_cases hkn : k = n
      · rw [hkn, hn]
        exact hboth
      · rw [hk k hkm hkn]
        exact h.nodup k
  · have hsame : ∀ j, l ∈ ring' j → j = n ∧ l ∈ ring m ∨ j ≠ m ∧ l ∈ ring j := fun j => (hmem j l).mp
    rcases hsame j hj with ⟨rfl, hlm⟩ | ⟨hjm, hlj⟩ <;>
      rcases hsame k hk' with ⟨rfl, hlm'⟩ | ⟨hkm, hlk⟩
    · rfl
    · exact absurd (h.unique k m l hlk hlm) hkm
    · exact absurd (h.unique j m l hlj hlm') hjm
    · exact h.unique j k l hlj hlk
  · rw [hnext, h.linked]
    constructor
    · rintro ⟨k, hl⟩
      by_cases hkm : k = m
      · exact ⟨n, (hmem _ _).mpr (.inl ⟨rfl, hkm ▸ hl⟩)⟩
      · exact ⟨k, (hmem _ _).mpr (.inr ⟨hkm, hl⟩)⟩
    · rintro ⟨k, hl⟩
      rcases (hmem k l).mp hl with ⟨-, hl⟩ | ⟨-, hl⟩
      · exact ⟨m, hl⟩
      · exact ⟨k, hl⟩
  · rw [hnexus, hlist]
    by_cases hkm : k = m
    · rw [if_pos hkm]
      have hnot : ¬ s.nexusOf l = some k ∨ l = t₂ := by
        rw [h.last, hkm, ht₂, Option.some_inj]
        exact (em (t₂ = l)).symm.imp_right Eq.symm
      split_ifs with hl hl'
      · rw [Option.some_inj]
        exact iff_of_false (fun he => hmn (hkm.symm.trans he.symm)) (by simp)
      · simp
      · exact iff_of_false (hnot.resolve_right hl) (by simp)
    · rw [if_neg hkm]
      by_cases hkn : k = n
      · rw [if_pos hkn, hkn]
        split_ifs with hl hl'
        · simp [hl]
        · simp [Ne.symm hl]
        · rw [h.last, ht₁]
          simp [Ne.symm hl, Ne.symm hl']
      · rw [if_neg hkn]
        split_ifs with hl hl'
        · have hnot : s.list k ≠ some l :=
            fun he => hkm (h.unique k m l (h.mem_of_list he) (hl ▸ hmem₂))
          simp [Ne.symm hkn, hnot]
        · have hnot : s.list k ≠ some l :=
            fun he => hkn (h.unique k n l (h.mem_of_list he) (hl' ▸ hmem₁))
          simp [hnot]
        · exact h.last l k
  · rw [hisNexus]
    by_cases hkm : k = m
    · rw [hkm, Function.update_self, hm]
      simp
    · rw [Function.update_of_ne hkm, h.live]
      by_cases hkn : k = n
      · rw [hkn, hn]
        simp [List.ne_nil_of_mem hmem₁]
      · rw [hk k hkm hkn]
  · rw [hisLink]
    rcases (hmem k l).mp hl with ⟨-, hl⟩ | ⟨-, hl⟩
    · exact h.exist m l hl
    · exact h.exist k l hl
  · rw [hisLink]
    exact h.links_le l (hlinks ▸ hl)
  · rw [hisNexus]
    by_cases hkm : k = m
    · rw [hkm, Function.update_self]
    · rw [Function.update_of_ne hkm]
      exact h.nexuses_le k (hnexuses ▸ hk')

/-- Membership after a link is taken off its ring. -/
theorem mem_remove {n a : Nat} {as bs : List Nat} (hsplit : ring n = as ++ a :: bs) (m l : Nat) :
    l ∈ Function.update ring n (as ++ bs) m ↔ l ≠ a ∧ l ∈ ring m := by
  have hnodup := h.nodup n
  rw [hsplit] at hnodup
  have hperm : (as ++ a :: bs).Perm (a :: (as ++ bs)) := List.perm_middle
  obtain ⟨ha, -⟩ := List.nodup_cons.mp (hperm.nodup_iff.mp hnodup)
  have hin : l ∈ ring n ↔ l = a ∨ l ∈ as ++ bs := by rw [hsplit, hperm.mem_iff, List.mem_cons]
  by_cases hm : m = n
  · rw [hm, Function.update_self, hin]
    constructor
    · exact fun hl => ⟨fun he => ha (he ▸ hl), .inr hl⟩
    · exact fun hl => hl.2.resolve_left hl.1
  · rw [Function.update_of_ne hm]
    refine ⟨fun hl => ⟨?_, hl⟩, And.right⟩
    rintro rfl
    exact hm (h.unique m n l hl (hin.mpr (.inl rfl)))

/-- A link is taken off its ring; the nexus of a ring that is then empty is deleted. -/
theorem remove {n a : Nat} {as bs : List Nat} (hsplit : ring n = as ++ a :: bs)
    (hsucc : Ring.Rep s'.succ (s'.list n) (as ++ bs))
    (hframe : ∀ l, (∀ m ≠ n, l ∈ ring m → s'.succ l = s.succ l))
    (hnext : ∀ l, s'.next l ≠ none ↔ l ≠ a ∧ s.next l ≠ none)
    (hnexus : ∀ l, s'.nexusOf l = some n ↔ s'.list n = some l)
    (hnexus' : ∀ l, ∀ m ≠ n, s'.nexusOf l = some m ↔ s.nexusOf l = some m)
    (hlist : ∀ m ≠ n, s'.list m = s.list m)
    (hisLink : s'.isLink = s.isLink) (hlinks : s'.links = s.links)
    (hisNexus : s'.isNexus = if as ++ bs = [] then Function.update s.isNexus n false else s.isNexus)
    (hnexuses : s'.nexuses = s.nexuses) :
    s'.Rings (Function.update ring n (as ++ bs)) := by
  have hmem := h.mem_remove hsplit
  refine ⟨fun m => ?_, fun m => ?_, fun m k l hm hk => ?_, fun l => ?_, fun l m => ?_, fun m => ?_,
    fun m l hl => ?_, fun l hl => ?_, fun m hm => ?_⟩
  · by_cases hm : m = n
    · rw [hm, Function.update_self]
      exact hsucc
    · rw [Function.update_of_ne hm, hlist m hm]
      exact (h.rep m).congr fun l hl => hframe l m hm hl
  · by_cases hm : m = n
    · rw [hm, Function.update_self]
      have hnodup := h.nodup n
      rw [hsplit, List.perm_middle.nodup_iff] at hnodup
      exact hnodup.of_cons
    · rw [Function.update_of_ne hm]
      exact h.nodup m
  · exact h.unique m k l ((hmem m l).mp hm).2 ((hmem k l).mp hk).2
  · rw [hnext, h.linked, ← exists_and_left]
    exact exists_congr fun m => (hmem m l).symm
  · by_cases hm : m = n
    · rw [hm]
      exact hnexus l
    · rw [hnexus' l m hm, hlist m hm]
      exact h.last l m
  · rw [hisNexus]
    by_cases hm : m = n
    · rw [hm, Function.update_self]
      split_ifs with hnil
      · simp [hnil]
      · exact iff_of_true ((h.live n).mpr (by simp [hsplit])) hnil
    · rw [Function.update_of_ne hm]
      split_ifs
      · rw [Function.update_of_ne hm]
        exact h.live m
      · exact h.live m
  · rw [hisLink]
    exact h.exist m l ((hmem m l).mp hl).2
  · rw [hisLink]
    exact h.links_le l (hlinks ▸ hl)
  · rw [hisNexus]
    rw [hnexuses] at hm
    split_ifs
    · by_cases hmn : m = n
      · rw [hmn, Function.update_self]
      · rw [Function.update_of_ne hmn]
        exact h.nexuses_le m hm
    · exact h.nexuses_le m hm

end Rings

end Netlist

end Icarus
