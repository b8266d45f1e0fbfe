import Icarus.Netlist.Rings
import Mathlib.Data.Option.Basic

/-!
# The calls on links

Every call that is allowed goes through: no assertion fails, no null pointer is
followed and no loop runs on. What it does to the rings is the list operation
that its comments describe.
-/

namespace Icarus

open Icarus.Core

namespace Netlist

private theorem guard_true {p : Prop} [Decidable p] (h : p) : (guard p : Option Unit) = some () := by
  rw [guard, if_pos h]
  rfl

/-- A change of the guess alone. -/
private theorem guess_fields (s : Netlist) (n : Nat) (guess : Prop) [Decidable guess]
    (driven : Value) :
    (if guess then s.setDriven n driven else s).next = s.next ∧
      (if guess then s.setDriven n driven else s).nexusOf = s.nexusOf ∧
      (if guess then s.setDriven n driven else s).list = s.list ∧
      (if guess then s.setDriven n driven else s).isLink = s.isLink ∧
      (if guess then s.setDriven n driven else s).links = s.links ∧
      (if guess then s.setDriven n driven else s).isNexus = s.isNexus ∧
      (if guess then s.setDriven n driven else s).nexuses = s.nexuses := by
  split_ifs <;> simp

namespace Rings

variable {s : Netlist} {ring : Nat → List Nat} (h : s.Rings ring)
include h

/-- A link on no ring is appended to the ring of the nexus. -/
theorem connectNexus_append {n r : Nat} (hn : ring n ≠ []) (hr : ∀ m, r ∉ ring m)
    (hlink : s.isLink r = true) : ∃ s', s.connectNexus n r = some s' ∧
      s'.Rings (Function.update ring n (ring n ++ [r])) ∧ s'.isLink = s.isLink := by
  obtain ⟨hnext, hnexus⟩ := h.fields_of_not_mem hr
  obtain ⟨t, ht, -, htmem⟩ := h.list_isSome hn
  have hne : r ≠ t := fun he => hr n (he ▸ htmem)
  obtain ⟨s₁, hs₁⟩ : ∃ s₁, s₁ = if (s.link r).dir ≠ .input then
      (s.setName n none).setDriven n .noGuess else s.setName n none := ⟨_, rfl⟩
  obtain ⟨h₁, h₂, h₃, h₄, h₅, h₆, h₇⟩ := guess_fields (s.setName n none) n
    ((s.link r).dir ≠ .input) .noGuess
  rw [← hs₁] at h₁ h₂ h₃ h₄ h₅ h₆ h₇
  simp only [setName_fields] at h₁ h₂ h₃ h₄ h₅ h₆ h₇
  have hrun : s.connectNexus n r = some (((((s₁.setNexus r (some n)).setNext r (s₁.next t)).setNext
      t (some r)).setNexus t none).setList n (some r)) := by
    have hlist : ((s.setName n none).nexus n).list = some t := by
      rw [nexus_list, (setName_fields s n none).2.2.1, ht]
    have hnext' : ((s.setName n none).link r).next = none := hnext
    have hdir : ((s.setName n none).link r).dir = (s.link r).dir := rfl
    rw [connectNexus, link_next, hnext]
    simp only [Option.isSome_none, Bool.false_eq_true, if_false, Option.pure_def,
      Option.bind_eq_bind, Option.bind_some, reduceCtorEq, hlist, hnext', hdir, ← hs₁]
    rw [link_next, (setNexus_fields s₁ r (some n)).1]
  refine ⟨_, hrun, h.insert (n := n) (r := r) hr hlink ?_ (fun l => ?_) (fun l => ?_) ?_ ?_ ?_
    (fun m => ?_) (fun m hm => ?_), ?_⟩
  · have hnextt : s.next t = some (s.succ t) := h.next_of_mem htmem
    rw [ht, Ring.enqueue]
    funext l
    rw [succ]
    simp only [setList_fields, setNexus_fields, setNext_fields, h₁]
    by_cases hlt : l = t
    · rw [hlt, Function.update_self, Function.update_self, Option.getD_some]
    · rw [Function.update_of_ne hlt, Function.update_of_ne hlt]
      by_cases hlr : l = r
      · rw [hlr, Function.update_self, Function.update_self, hnextt, Option.getD_some]
      · rw [Function.update_of_ne hlr, Function.update_of_ne hlr, succ]
  · simp only [setList_fields, setNexus_fields, setNext_fields, h₁]
    by_cases hlt : l = t
    · simp [hlt, h.next_of_mem htmem]
    · by_cases hlr : l = r
      · rw [hlr, Function.update_of_ne hne, Function.update_self, h.next_of_mem htmem]
        simp
      · simp [hlt, hlr]
  · simp only [setList_fields, setNexus_fields, setNext_fields, h₂, ht, Option.some_inj]
    by_cases hlt : l = t
    · rw [hlt, Function.update_self, if_neg hne.symm, if_pos rfl]
    · rw [Function.update_of_ne hlt, if_neg (Ne.symm hlt)]
      by_cases hlr : l = r
      · rw [hlr, Function.update_self, if_pos rfl]
      · rw [Function.update_of_ne hlr, if_neg hlr]
  · simp only [setList_fields, setNexus_fields, setNext_fields, h₃]
  · simp only [setList_fields, setNexus_fields, setNext_fields, h₄]
  · simp only [setList_fields, setNexus_fields, setNext_fields, h₅]
  · simp only [setList_fields, setNexus_fields, setNext_fields, h₆]
    exact ⟨.inr, fun hm => hm.elim (fun he => he ▸ (h.live n).mpr hn) id⟩
  · simp only [setList_fields, setNexus_fields, setNext_fields, h₆, h₇] at hm ⊢
    exact h.nexuses_le m hm
  · simp only [setList_fields, setNexus_fields, setNext_fields, h₄]

/-- The links of another nexus are moved behind those of the nexus. -/
theorem connectNexus_join {n m r : Nat} (hn : ring n ≠ []) (hmn : m ≠ n) (hr : r ∈ ring m) :
    ∃ s', s.connectNexus n r = some s' ∧
      s'.Rings (Function.update (Function.update ring n (ring n ++ ring m)) m []) ∧
      s'.isLink = s.isLink := by
  have hnextr := h.next_of_mem hr
  have hfind := h.findNexus_eq hr
  obtain ⟨t₁, ht₁, -, hmem₁⟩ := h.list_isSome hn
  obtain ⟨t₂, ht₂, -, hmem₂⟩ := h.list_isSome (List.ne_nil_of_mem hr)
  have hne : t₁ ≠ t₂ := by
    rintro rfl
    exact hmn (h.unique m n t₁ hmem₂ hmem₁)
  obtain ⟨s₁, hs₁⟩ : ∃ s₁, s₁ = if ((s.setName n none).nexus m).driven ≠ .vz then
      (s.setName n none).setDriven n .noGuess else s.setName n none := ⟨_, rfl⟩
  obtain ⟨h₁, h₂, h₃, h₄, h₅, h₆, h₇⟩ := guess_fields (s.setName n none) n
    (((s.setName n none).nexus m).driven ≠ .vz) .noGuess
  rw [← hs₁] at h₁ h₂ h₃ h₄ h₅ h₆ h₇
  simp only [setName_fields] at h₁ h₂ h₃ h₄ h₅ h₆ h₇
  obtain ⟨s₂, hs₂⟩ : ∃ s₂, s₂ = (((((s₁.setNext t₁ (s.next t₂)).setNext t₂ (s.next t₁)).setNexus t₁
      none).setList n (some t₂)).setNexus t₂ (some n)).setList m none := ⟨_, rfl⟩
  have hempty : (s₂.nexus m).list = none := by
    rw [nexus_list, hs₂, (setList_fields _ _ _).2.2.1, Function.update_self]
  have hrun : s.connectNexus n r =
      some { s₂ with isNexus := Function.update s₂.isNexus m false } := by
    have hlist : ((s.setName n none).nexus n).list = some t₁ := by
      rw [nexus_list, (setName_fields s n none).2.2.1, ht₁]
    have hnext' : ((s.setName n none).link r).next = some (s.succ r) := hnextr
    have hlist₂ : (s₁.nexus m).list = some t₂ := by
      rw [nexus_list, h₃, ht₂]
    have hnextt : (s₁.link t₁).next = s.next t₁ := congrFun h₁ t₁
    have hnextt' : (s₁.link t₂).next = s.next t₂ := congrFun h₁ t₂
    rw [connectNexus, link_next, hnextr, hfind]
    simp only [Option.isSome_some, if_true, Option.pure_def, Option.bind_eq_bind, Option.bind_some,
      Option.some_inj, Ne.symm hmn, if_false, hlist, hnext', ← hs₁, hlist₂, hnextt, hnextt', ← hs₂]
    rw [deleteNexus, if_pos hempty]
  refine ⟨_, hrun, h.join hmn ht₁ ht₂ ?_ (fun l => ?_) (fun l => ?_) (fun k => ?_) ?_ ?_ ?_ ?_, ?_⟩
  · funext l
    change (s₂.next l).getD l = _
    simp only [hs₂, setList_fields, setNexus_fields, setNext_fields, h₁, Ring.splice]
    by_cases hl₂ : l = t₂
    · rw [hl₂, Function.update_self, Function.update_self, h.next_of_mem hmem₁, Option.getD_some]
    · rw [Function.update_of_ne hl₂, Function.update_of_ne hl₂]
      by_cases hl₁ : l = t₁
      · rw [hl₁, Function.update_self, Function.update_self, h.next_of_mem hmem₂, Option.getD_some]
      · rw [Function.update_of_ne hl₁, Function.update_of_ne hl₁, succ]
  · change s₂.next l ≠ none ↔ _
    simp only [hs₂, setList_fields, setNexus_fields, setNext_fields, h₁]
    by_cases hl₂ : l = t₂
    · rw [hl₂, Function.update_self, h.next_of_mem hmem₁, h.next_of_mem hmem₂]
      simp
    · rw [Function.update_of_ne hl₂]
      by_cases hl₁ : l = t₁
      · rw [hl₁, Function.update_self, h.next_of_mem hmem₁, h.next_of_mem hmem₂]
        simp
      · rw [Function.update_of_ne hl₁]
  · change s₂.nexusOf l = _
    simp only [hs₂, setList_fields, setNexus_fields, setNext_fields, h₂]
    by_cases hl₂ : l = t₂
    · rw [hl₂, Function.update_self, if_pos rfl]
    · rw [Function.update_of_ne hl₂, if_neg hl₂]
      by_cases hl₁ : l = t₁
      · rw [hl₁, Function.update_self, if_pos rfl]
      · rw [Function.update_of_ne hl₁, if_neg hl₁]
  · change s₂.list k = _
    simp only [hs₂, setList_fields, setNexus_fields, setNext_fields, h₃]
    by_cases hkm : k = m
    · rw [hkm, Function.update_self, if_pos rfl]
    · rw [Function.update_of_ne hkm, if_neg hkm]
      by_cases hkn : k = n
      · rw [hkn, Function.update_self, if_pos rfl]
      · rw [Function.update_of_ne hkn, if_neg hkn]
  · change s₂.isLink = _
    simp only [hs₂, setList_fields, setNexus_fields, setNext_fields, h₄]
  · change s₂.links = _
    simp only [hs₂, setList_fields, setNexus_fields, setNext_fields, h₅]
  · change Function.update s₂.isNexus m false = _
    simp only [hs₂, setList_fields, setNexus_fields, setNext_fields, h₆]
  · change s₂.nexuses = _
    simp only [hs₂, setList_fields, setNexus_fields, setNext_fields, h₇]
  · change s₂.isLink = _
    simp only [hs₂, setList_fields, setNexus_fields, setNext_fields, h₄]

/-- A link that is on the ring of the nexus is left there. -/
theorem connectNexus_self {n r : Nat} (hr : r ∈ ring n) : s.connectNexus n r = some s := by
  rw [connectNexus, link_next, h.next_of_mem hr, h.findNexus_eq hr]
  simp only [Option.isSome_some, if_true, Option.bind_eq_bind, Option.bind_some, Option.pure_def]

/-- A link on no ring gets a nexus of its own. -/
theorem newNexus_spec {l : Nat} (hl : ∀ m, l ∉ ring m) (hlink : s.isLink l = true) :
    ring s.nexuses = [] ∧ ∃ s', s.newNexus l = some (s.nexuses, s') ∧
      s'.Rings (Function.update ring s.nexuses [l]) ∧ s'.isLink = s.isLink := by
  obtain ⟨hnext, -⟩ := h.fields_of_not_mem hl
  have hempty : ring s.nexuses = [] := by
    by_contra hne
    have hlive := (h.live _).mpr hne
    rw [h.nexuses_le _ (Nat.le_refl _)] at hlive
    cases hlive
  have hnone : s.list s.nexuses = none := (h.rep _).eq_none_iff.mpr hempty
  obtain ⟨s₁, hs₁⟩ : ∃ s₁, s₁ = ({ s with
    isNexus := Function.update s.isNexus s.nexuses true
    nexuses := s.nexuses + 1
    nexus := Function.update s.nexus s.nexuses ⟨none, none, .noGuess⟩ } : Netlist) := ⟨_, rfl⟩
  have hrun : s.newNexus l = some (s.nexuses, (((s₁.setList s.nexuses (some l)).setNext l
      (some l)).setNexus l (some s.nexuses)).setDriven s.nexuses .noGuess) := by
    rw [newNexus]
    simp only [← hs₁]
    rw [link_next, hnext]
  have hlist₁ : s₁.list = s.list := by
    rw [hs₁]
    funext m
    by_cases hm : m = s.nexuses
    · rw [hm, hnone]
      simp [list]
    · simp [list, hm]
  have hnext₁ : s₁.next = s.next := by rw [hs₁]; rfl
  have hnexus₁ : s₁.nexusOf = s.nexusOf := by rw [hs₁]; rfl
  have hisLink₁ : s₁.isLink = s.isLink := by rw [hs₁]
  have hlinks₁ : s₁.links = s.links := by rw [hs₁]
  have hisNexus₁ : s₁.isNexus = Function.update s.isNexus s.nexuses true := by rw [hs₁]
  have hnexuses₁ : s₁.nexuses = s.nexuses + 1 := by rw [hs₁]
  have hring : Function.update ring s.nexuses [l] =
      Function.update ring s.nexuses (ring s.nexuses ++ [l]) := by rw [hempty, List.nil_append]
  rw [hring]
  refine ⟨hempty, _, hrun, h.insert hl hlink ?_ (fun k => ?_) (fun k => ?_) ?_ ?_ ?_ (fun m => ?_)
    (fun m hm => ?_), ?_⟩
  · rw [hnone, Ring.enqueue]
    apply succ_update
    simp only [setDriven_fields, setNexus_fields, setNext_fields, setList_fields, hnext₁]
  · simp only [setDriven_fields, setNexus_fields, setNext_fields, setList_fields, hnext₁]
    by_cases hk : k = l
    · simp [hk]
    · simp [hk]
  · simp only [setDriven_fields, setNexus_fields, setNext_fields, setList_fields, hnexus₁, hnone]
    by_cases hk : k = l
    · simp [hk]
    · simp [hk]
  · simp only [setDriven_fields, setNexus_fields, setNext_fields, setList_fields, hlist₁]
  · simp only [setDriven_fields, setNexus_fields, setNext_fields, setList_fields, hisLink₁]
  · simp only [setDriven_fields, setNexus_fields, setNext_fields, setList_fields, hlinks₁]
  · simp only [setDriven_fields, setNexus_fields, setNext_fields, setList_fields, hisNexus₁]
    by_cases hm : m = s.nexuses
    · simp [hm]
    · simp [hm]
  · simp only [setDriven_fields, setNexus_fields, setNext_fields, setList_fields, hisNexus₁,
      hnexuses₁] at hm ⊢
    rw [Function.update_of_ne (show m ≠ s.nexuses by omega)]
    exact h.nexuses_le m (by omega)
  · simp only [setDriven_fields, setNexus_fields, setNext_fields, setList_fields, hisLink₁]

/-- A link with others is taken off the ring of the nexus. -/
theorem unlinkNexus_others {n a : Nat} {as bs : List Nat} (hsplit : ring n = as ++ a :: bs)
    (hothers : as ++ bs ≠ []) : ∃ s', s.unlinkNexus n a = some s' ∧
      s'.Rings (Function.update ring n (as ++ bs)) ∧ s'.isLink = s.isLink ∧
      (s'.nexus n).list ≠ none := by
  have hmem : a ∈ ring n := hsplit ▸ List.mem_append_right _ List.mem_cons_self
  have hnodup := h.nodup n
  have hrep := h.rep n
  obtain ⟨t, ht, hlast, htmem⟩ := h.list_isSome (List.ne_nil_of_mem hmem)
  rw [ht, hsplit] at hrep
  rw [hsplit] at hnodup hlast
  have hself : s.succ a ≠ a := fun he => hothers (hrep.eq_of_next_self hnodup he)
  obtain ⟨prev, hprev⟩ : ∃ prev, (t :: as).getLast? = some prev :=
    ⟨_, List.getLast?_eq_some_getLast (List.cons_ne_nil t as)⟩
  obtain ⟨-, habs, hdisj⟩ := List.nodup_append.mp hnodup
  have haas : a ∉ as := fun hm => hdisj a hm a List.mem_cons_self rfl
  have hchain := hrep.2
  rw [← List.cons_append] at hchain
  obtain ⟨hfront, -, hlink⟩ := List.isChain_append.mp hchain
  have hprevnext : s.succ prev = a := hlink prev hprev a rfl
  have hsub : ∀ x ∈ t :: as, x ∈ ring n := by
    intro x hx
    rcases List.mem_cons.mp hx with rfl | hx
    · exact htmem
    · exact hsplit ▸ List.mem_append_left _ hx
  have hpmem := hsub prev (List.mem_of_getLast? hprev)
  have hpa : prev ≠ a := by
    rintro rfl
    exact hself hprevnext
  have hnextp := h.next_of_mem hpmem
  rw [hprevnext] at hnextp
  obtain ⟨s₁, hs₁⟩ : ∃ s₁, s₁ = if (s.link a).dir ≠ .input then
      (s.setName n none).setDriven n .noGuess else s.setName n none := ⟨_, rfl⟩
  obtain ⟨h₁, h₂, h₃, h₄, h₅, h₆, h₇⟩ := guess_fields (s.setName n none) n
    ((s.link a).dir ≠ .input) .noGuess
  rw [← hs₁] at h₁ h₂ h₃ h₄ h₅ h₆ h₇
  simp only [setName_fields] at h₁ h₂ h₃ h₄ h₅ h₆ h₇
  have hwalk : Loop.whileLoop (fun prev => (s₁.link prev).next ≠ some a)
      (fun prev => (s₁.link prev).next) (s₁.links + 1) t = some prev := by
    apply Ring.whileLoop_walk t hfront hprev
    · intro x hx
      rw [decide_eq_true_eq, link_next, h₁, h.next_of_mem (hsub x hx), ne_eq, Option.some_inj]
      constructor
      · rintro hne rfl
        exact hne hprevnext
      · exact fun hne he => haas (he ▸ Ring.next_mem_of_chain hfront hprev hx hne)
    · intro x hx
      rw [link_next, h₁]
      exact h.next_of_mem (hsub x hx)
    · have hle := h.length_le n
      rw [hsplit, List.length_append] at hle
      rw [h₅]
      omega
  obtain ⟨s₂, hs₂⟩ : ∃ s₂, s₂ = (((if t = a then ((s₁.setNext prev (s.next a)).setList n
      (some prev)).setNexus prev (some n) else s₁.setNext prev (s.next a)).setNexus a none).setNext
      a none) := ⟨_, rfl⟩
  have hrun : s.unlinkNexus n a = some s₂ := by
    have hnext' : ((s.setName n none).link a).next = some (s.succ a) := h.next_of_mem hmem
    have hdir : ((s.setName n none).link a).dir = (s.link a).dir := rfl
    have hlist₁ : (s₁.nexus n).list = some t := by rw [nexus_list, h₃, ht]
    have hlist₂ : ((s₁.setNext prev (s.next a)).nexus n).list = some t := hlist₁
    have hnexta : (s₁.link a).next = s.next a := congrFun h₁ a
    have hnexus₂ : t = a → ((s₁.setNext prev (s.next a)).link a).nexus = some n := by
      intro hta
      rw [link_nexus, (setNext_fields _ _ _).2.1, h₂, h.last, ht, hta]
    rw [unlinkNexus]
    simp only [hnext', Option.some_inj, hself, if_false, hdir, ← hs₁, hlist₁, hnexta, hlist₂,
      Option.bind_eq_bind, Option.bind_some, Option.pure_def, hwalk]
    by_cases hta : t = a
    · rw [if_pos hta, hs₂, if_pos hta, hnexus₂ hta, guard_true rfl, Option.bind_some]
    · rw [if_neg hta, hs₂, if_neg hta]
  have hnext₂ : s₂.next = Function.update (Function.update s.next prev (s.next a)) a none := by
    rw [hs₂]
    split_ifs <;> simp only [setNext_fields, setNexus_fields, setList_fields, h₁]
  have hnexus₂ : s₂.nexusOf = Function.update (if t = a then Function.update s.nexusOf prev (some n)
      else s.nexusOf) a none := by
    rw [hs₂]
    split_ifs <;> simp only [setNext_fields, setNexus_fields, setList_fields, h₂]
  have hlist₂ : s₂.list = Function.update s.list n (some (if t = a then prev else t)) := by
    rw [hs₂]
    split_ifs
    · simp only [setNext_fields, setNexus_fields, setList_fields, h₃]
    · simp only [setNext_fields, setNexus_fields, h₃]
      rw [← ht, Function.update_eq_self]
  have hsucc₂ : ∀ l, l ≠ a → s₂.succ l = Ring.skip s.succ prev a l := by
    intro l hla
    rw [succ, hnext₂, Function.update_of_ne hla, Ring.skip]
    by_cases hlp : l = prev
    · rw [hlp, Function.update_self, Function.update_self, h.next_of_mem hmem, Option.getD_some]
    · rw [Function.update_of_ne hlp, Function.update_of_ne hlp, succ]
  have hsame : s₂.isLink = s.isLink ∧ s₂.links = s.links ∧ s₂.isNexus = s.isNexus ∧
      s₂.nexuses = s.nexuses := by
    rw [hs₂]
    split_ifs <;>
      simp only [setNext_fields, setNexus_fields, setList_fields, h₄, h₅, h₆, h₇, and_self]
  refine ⟨s₂, hrun, h.remove hsplit ?_ (fun l m hm hl => ?_) (fun l => ?_) (fun l => ?_)
    (fun l m hm => ?_) (fun m hm => ?_) hsame.1 hsame.2.1 ?_ hsame.2.2.2, hsame.1, ?_⟩
  · have hskip := hrep.skip hnodup hothers hprev
    rw [hlist₂, Function.update_self]
    refine hskip.congr fun l hl => hsucc₂ l ?_
    rintro rfl
    rcases List.mem_append.mp hl with hl | hl
    · exact haas hl
    · exact (List.nodup_cons.mp habs).1 hl
  · have hla : l ≠ a := by
      rintro rfl
      exact hm (h.unique m n l hl hmem)
    have hlp : l ≠ prev := by
      rintro rfl
      exact hm (h.unique m n l hl hpmem)
    rw [hsucc₂ l hla, Ring.skip, Function.update_of_ne hlp]
  · rw [hnext₂]
    by_cases hla : l = a
    · rw [hla, Function.update_self]
      simp
    · rw [Function.update_of_ne hla]
      by_cases hlp : l = prev
      · rw [hlp, Function.update_self, hnextp, h.next_of_mem hmem]
        simp [hpa]
      · rw [Function.update_of_ne hlp]
        simp [hla]
  · rw [hnexus₂, hlist₂, Function.update_self, Option.some_inj]
    by_cases hla : l = a
    · rw [hla, Function.update_self]
      split_ifs with hta
      · simp [hpa]
      · simp [hta]
    · rw [Function.update_of_ne hla]
      split_ifs with hta
      · by_cases hlp : l = prev
        · rw [hlp, Function.update_self]
          simp
        · rw [Function.update_of_ne hlp, h.last, ht, hta, Option.some_inj]
          exact iff_of_false (Ne.symm hla) (Ne.symm hlp)
      · rw [h.last, ht, Option.some_inj]
  · have hnot : ∀ k ∈ ring n, s.nexusOf k ≠ some m := fun k hk he =>
      hm (h.unique m n k (h.mem_of_list ((h.last k m).mp he)) hk)
    rw [hnexus₂]
    by_cases hla : l = a
    · rw [hla, Function.update_self]
      exact iff_of_false (by simp) (hnot a hmem)
    · rw [Function.update_of_ne hla]
      split_ifs
      · by_cases hlp : l = prev
        · rw [hlp, Function.update_self, Option.some_inj]
          exact iff_of_false (Ne.symm hm) (hnot prev hpmem)
        · rw [Function.update_of_ne hlp]
      · rfl
  · rw [hlist₂, Function.update_of_ne hm]
  · rw [if_neg hothers]
    exact hsame.2.2.1
  · rw [nexus_list, hlist₂, Function.update_self]
    simp

/-- A lone link leaves its nexus, which is then without a list. -/
theorem unlinkNexus_alone {n a : Nat} (ha : ring n = [a]) : ∃ s', s.unlinkNexus n a = some s' ∧
    (s'.nexus n).list = none ∧
    ({ s' with isNexus := Function.update s'.isNexus n false } : Netlist).Rings
      (Function.update ring n []) ∧ s'.isLink = s.isLink := by
  have hmem : a ∈ ring n := ha ▸ List.mem_singleton_self a
  obtain ⟨t, ht, hlast, htmem⟩ := h.list_isSome (List.ne_nil_of_mem hmem)
  obtain rfl : t = a := List.mem_singleton.mp (ha ▸ htmem)
  have hrep := h.rep n
  rw [ht, ha] at hrep
  have hnext : s.next t = some t := (h.next_of_mem hmem).trans (congrArg some hrep.next_tail)
  have hnexus : s.nexusOf t = some n := (h.last t n).mpr ht
  have hlist₀ : ((s.setName n none).nexus n).list = some t := by
    rw [nexus_list, (setName_fields s n none).2.2.1, ht]
  obtain ⟨s₂, hs₂⟩ : ∃ s₂, s₂ = ((((s.setName n none).setList n none).setDriven n .noGuess).setNexus
    t none).setNext t none := ⟨_, rfl⟩
  have hrun : s.unlinkNexus n t = some s₂ := by
    have hnext' : ((s.setName n none).link t).next = some t := hnext
    have hnexus' : ((s.setName n none).link t).nexus = some n := hnexus
    rw [unlinkNexus]
    simp only [hnext', if_true, hnexus', hlist₀, guard_true trivial, Option.bind_eq_bind,
      Option.bind_some, Option.pure_def, ← hs₂]
  have hnext₂ : s₂.next = Function.update s.next t none := by
    simp only [hs₂, setNext_fields, setNexus_fields, setDriven_fields, setList_fields,
      setName_fields]
  have hnexus₂ : s₂.nexusOf = Function.update s.nexusOf t none := by
    simp only [hs₂, setNext_fields, setNexus_fields, setDriven_fields, setList_fields,
      setName_fields]
  have hlist₂ : s₂.list = Function.update s.list n none := by
    simp only [hs₂, setNext_fields, setNexus_fields, setDriven_fields, setList_fields,
      setName_fields]
  have hsame : s₂.isLink = s.isLink ∧ s₂.links = s.links ∧ s₂.isNexus = s.isNexus ∧
      s₂.nexuses = s.nexuses := by
    simp only [hs₂, setNext_fields, setNexus_fields, setDriven_fields, setList_fields,
      setName_fields, and_self]
  have hnone : s₂.list n = none := by rw [hlist₂, Function.update_self]
  refine ⟨s₂, hrun, hnone, ?_, hsame.1⟩
  refine @Rings.remove s _ ring h n t [] [] ha ?_ (fun l m hm hl => ?_) (fun l => ?_) (fun l => ?_)
    (fun l m hm => ?_) (fun m hm => ?_) hsame.1 hsame.2.1 ?_ hsame.2.2.2
  · change Ring.Rep _ (s₂.list n) _
    rw [hnone]
    rfl
  · have hlt : l ≠ t := by
      rintro rfl
      exact hm (h.unique m n l hl hmem)
    change (s₂.next l).getD l = _
    rw [hnext₂, Function.update_of_ne hlt, succ]
  · change s₂.next l ≠ none ↔ _
    rw [hnext₂]
    by_cases hlt : l = t
    · simp [hlt]
    · simp [hlt]
  · change s₂.nexusOf l = _ ↔ s₂.list n = _
    rw [hnexus₂, hnone]
    by_cases hlt : l = t
    · simp [hlt]
    · rw [Function.update_of_ne hlt, h.last, ht, Option.some_inj]
      exact iff_of_false (Ne.symm hlt) (by simp)
  · change s₂.nexusOf l = _ ↔ _
    rw [hnexus₂]
    by_cases hlt : l = t
    · rw [hlt, Function.update_self, hnexus, Option.some_inj]
      exact iff_of_false (by simp) (Ne.symm hm)
    · rw [Function.update_of_ne hlt]
  · change s₂.list m = _
    rw [hlist₂, Function.update_of_ne hm]
  · change Function.update s₂.isNexus n false = _
    rw [if_pos (List.append_nil []), hsame.2.2.1]

end Rings

end Netlist

end Icarus
