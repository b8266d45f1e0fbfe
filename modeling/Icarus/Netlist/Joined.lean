import Icarus.Core.Runs
import Icarus.Netlist.Calls

/-!
# Which links are joined

What connecting is for: two links share a nexus if they have been joined, by
however many connections, and not been parted since. A connection joins the two
classes; a link that is unlinked or destroyed is parted from all others, which
stay joined.
-/

namespace Icarus

open Icarus.Core

namespace Netlist

/-- The classes of two links become one. -/
def Merged (joined : Nat → Nat → Prop) (l r : Nat) (x y : Nat) : Prop :=
  joined x y ∨ joined x l ∧ joined r y ∨ joined x r ∧ joined l y

/-- A link is parted from all others. -/
def Parted (joined : Nat → Nat → Prop) (l : Nat) (x y : Nat) : Prop :=
  x = y ∨ joined x y ∧ x ≠ l ∧ y ≠ l

/-- What a call does to the classes of links. -/
def joins (joined : Nat → Nat → Prop) : Call → Nat → Nat → Prop
  | .newLink _ | .setDir _ _ | .nexus _ => joined
  | .connect l r => Merged joined l r
  | .unlink l | .deleteLink l => Parted joined l

/-- Which links are joined after a list of calls. -/
def Joined (cs : List Call) : Nat → Nat → Prop := cs.foldl joins Eq

/-- Two links are the same, or on one ring. -/
def Together (ring : Nat → List Nat) (x y : Nat) : Prop := x = y ∨ ∃ n, x ∈ ring n ∧ y ∈ ring n

/-- Connecting makes the smallest equivalence in which the two links are joined. -/
theorem merged_iff_eqvGen {joined : Nat → Nat → Prop} (hj : Equivalence joined) (l r x y : Nat) :
    Merged joined l r x y ↔
      Relation.EqvGen (fun a b => joined a b ∨ a = l ∧ b = r) x y := by
  constructor
  · have hgen : ∀ {a b}, joined a b →
        Relation.EqvGen (fun a b => joined a b ∨ a = l ∧ b = r) a b :=
      fun h => .rel _ _ (.inl h)
    have hlr : Relation.EqvGen (fun a b => joined a b ∨ a = l ∧ b = r) l r :=
      .rel _ _ (.inr ⟨rfl, rfl⟩)
    rintro (h | ⟨h₁, h₂⟩ | ⟨h₁, h₂⟩)
    · exact hgen h
    · exact (hgen h₁).trans _ _ _ (hlr.trans _ _ _ (hgen h₂))
    · exact (hgen h₁).trans _ _ _ ((hlr.symm _ _).trans _ _ _ (hgen h₂))
  · intro h
    induction h with
    | rel a b hab =>
      rcases hab with hab | ⟨rfl, rfl⟩
      · exact .inl hab
      · exact .inr (.inl ⟨hj.refl _, hj.refl _⟩)
    | refl a => exact .inl (hj.refl a)
    | symm a b _ ih =>
      rcases ih with h | ⟨h₁, h₂⟩ | ⟨h₁, h₂⟩
      · exact .inl (hj.symm h)
      · exact .inr (.inr ⟨hj.symm h₂, hj.symm h₁⟩)
      · exact .inr (.inl ⟨hj.symm h₂, hj.symm h₁⟩)
    | trans a b c _ _ ih₁ ih₂ =>
      rcases ih₁ with h | ⟨h₁, h₂⟩ | ⟨h₁, h₂⟩ <;> rcases ih₂ with h' | ⟨h₁', h₂'⟩ | ⟨h₁', h₂'⟩
      · exact .inl (hj.trans h h')
      · exact .inr (.inl ⟨hj.trans h h₁', h₂'⟩)
      · exact .inr (.inr ⟨hj.trans h h₁', h₂'⟩)
      · exact .inr (.inl ⟨h₁, hj.trans h₂ h'⟩)
      · exact .inr (.inl ⟨h₁, h₂'⟩)
      · exact .inl (hj.trans h₁ h₂')
      · exact .inr (.inr ⟨h₁, hj.trans h₂ h'⟩)
      · exact .inl (hj.trans h₁ h₂')
      · exact .inr (.inr ⟨h₁, h₂'⟩)

theorem together_of_not_mem {ring : Nat → List Nat} {l x : Nat} (hl : ∀ n, l ∉ ring n) :
    Together ring x l ↔ x = l := by
  constructor
  · rintro (rfl | ⟨m, -, hm⟩)
    · rfl
    · exact absurd hm (hl m)
  · exact fun hx => .inl hx

/-- A link on no ring is joined to no other, and parting it changes nothing. -/
theorem parted_of_not_mem {ring : Nat → List Nat} {l : Nat} (hl : ∀ n, l ∉ ring n) (x y : Nat) :
    Together ring x y ↔ Parted (Together ring) l x y := by
  constructor
  · rintro (rfl | ⟨n, hx, hy⟩)
    · exact .inl rfl
    · exact .inr ⟨.inr ⟨n, hx, hy⟩, fun he => hl n (he ▸ hx), fun he => hl n (he ▸ hy)⟩
  · rintro (rfl | ⟨hxy, -⟩)
    · exact .inl rfl
    · exact hxy

namespace Rings

variable {s : Netlist} {ring : Nat → List Nat} (h : s.Rings ring)
include h

theorem together_equivalence : Equivalence (Together ring) where
  refl x := .inl rfl
  symm := by
    rintro x y (rfl | ⟨n, hx, hy⟩)
    · exact .inl rfl
    · exact .inr ⟨n, hy, hx⟩
  trans := by
    rintro x y z (rfl | ⟨n, hx, hy⟩) (rfl | ⟨m, hy', hz⟩)
    · exact .inl rfl
    · exact .inr ⟨m, hy', hz⟩
    · exact .inr ⟨n, hx, hy⟩
    · exact .inr ⟨n, hx, h.unique m n y hy' hy ▸ hz⟩

theorem together_of_mem {n l x : Nat} (hl : l ∈ ring n) : Together ring x l ↔ x ∈ ring n := by
  constructor
  · rintro (rfl | ⟨m, hx, hm⟩)
    · exact hl
    · exact h.unique m n l hm hl ▸ hx
  · exact fun hx => .inr ⟨n, hx, hl⟩

/-- The classes after a connection, in rings. -/
theorem merged_iff {l r : Nat} (x y : Nat) : Merged (Together ring) l r x y ↔
    Together ring x y ∨ Together ring x l ∧ Together ring y r ∨
      Together ring x r ∧ Together ring y l := by
  have hsymm : ∀ a b, Together ring a b ↔ Together ring b a :=
    fun a b => ⟨h.together_equivalence.symm, h.together_equivalence.symm⟩
  rw [Merged, hsymm r y, hsymm l y]

/-- A link that is appended is joined to the links of the ring. -/
theorem together_append {n l r : Nat} (hl : l ∈ ring n) (hr : ∀ m, r ∉ ring m) (x y : Nat) :
    Together (Function.update ring n (ring n ++ [r])) x y ↔ Merged (Together ring) l r x y := by
  rw [h.merged_iff, h.together_of_mem hl, h.together_of_mem hl, together_of_not_mem hr,
    together_of_not_mem hr, Together, Together]
  simp only [mem_append]
  constructor
  · rintro (rfl | ⟨m, ⟨rfl, rfl⟩ | hx, ⟨hm, rfl⟩ | hy⟩)
    · exact .inl (.inl rfl)
    · exact .inl (.inl rfl)
    · exact .inr (.inr ⟨rfl, hy⟩)
    · exact .inr (.inl ⟨hm ▸ hx, rfl⟩)
    · exact .inl (.inr ⟨m, hx, hy⟩)
  · rintro ((rfl | ⟨m, hx, hy⟩) | ⟨hx, rfl⟩ | ⟨rfl, hy⟩)
    · exact .inl rfl
    · exact .inr ⟨m, .inr hx, .inr hy⟩
    · exact .inr ⟨n, .inr hx, .inl ⟨rfl, rfl⟩⟩
    · exact .inr ⟨n, .inl ⟨rfl, rfl⟩, .inr hy⟩

/-- The links of two rings are joined. -/
theorem together_join {n m l r : Nat} (hmn : m ≠ n) (hl : l ∈ ring n) (hr : r ∈ ring m)
    (x y : Nat) : Together (Function.update (Function.update ring n (ring n ++ ring m)) m []) x y ↔
      Merged (Together ring) l r x y := by
  rw [h.merged_iff, h.together_of_mem hl, h.together_of_mem hl, h.together_of_mem hr,
    h.together_of_mem hr, Together, Together]
  simp only [mem_join ring hmn]
  constructor
  · rintro (rfl | ⟨j, ⟨rfl, hx⟩ | ⟨hj, hx⟩, ⟨hj', hy⟩ | ⟨-, hy⟩⟩)
    · exact .inl (.inl rfl)
    · exact .inl (.inr ⟨m, hx, hy⟩)
    · exact .inr (.inr ⟨hx, hy⟩)
    · exact .inr (.inl ⟨hj' ▸ hx, hy⟩)
    · exact .inl (.inr ⟨j, hx, hy⟩)
  · rintro ((rfl | ⟨j, hx, hy⟩) | ⟨hx, hy⟩ | ⟨hx, hy⟩)
    · exact .inl rfl
    · by_cases hj : j = m
      · exact .inr ⟨n, .inl ⟨rfl, hj ▸ hx⟩, .inl ⟨rfl, hj ▸ hy⟩⟩
      · exact .inr ⟨j, .inr ⟨hj, hx⟩, .inr ⟨hj, hy⟩⟩
    · exact .inr ⟨n, .inr ⟨hmn.symm, hx⟩, .inl ⟨rfl, hy⟩⟩
    · exact .inr ⟨n, .inl ⟨rfl, hx⟩, .inr ⟨hmn.symm, hy⟩⟩

/-- Links of one ring are joined already. -/
theorem together_self {n l r : Nat} (hl : l ∈ ring n) (hr : r ∈ ring n) (x y : Nat) :
    Together ring x y ↔ Merged (Together ring) l r x y := by
  rw [h.merged_iff, h.together_of_mem hl, h.together_of_mem hl, h.together_of_mem hr,
    h.together_of_mem hr]
  refine ⟨.inl, ?_⟩
  rintro (hxy | ⟨hx, hy⟩ | ⟨hx, hy⟩)
  · exact hxy
  · exact .inr ⟨n, hx, hy⟩
  · exact .inr ⟨n, hx, hy⟩

/-- A link that is taken off its ring is parted from the others. -/
theorem together_remove {n a : Nat} {as bs : List Nat} (hsplit : ring n = as ++ a :: bs)
    (x y : Nat) : Together (Function.update ring n (as ++ bs)) x y ↔
      Parted (Together ring) a x y := by
  rw [Together, Parted, Together]
  simp only [h.mem_remove hsplit]
  constructor
  · rintro (rfl | ⟨m, ⟨hxa, hx⟩, ⟨hya, hy⟩⟩)
    · exact .inl rfl
    · exact .inr ⟨.inr ⟨m, hx, hy⟩, hxa, hya⟩
  · rintro (rfl | ⟨rfl | ⟨m, hx, hy⟩, hxa, hya⟩)
    · exact .inl rfl
    · exact .inl rfl
    · exact .inr ⟨m, ⟨hxa, hx⟩, ⟨hya, hy⟩⟩

/-- A destroyed link is on no ring. -/
theorem forget {l : Nat} (hl : ∀ n, l ∉ ring n) :
    ({ s with isLink := Function.update s.isLink l false } : Netlist).Rings ring where
  rep := h.rep
  nodup := h.nodup
  unique := h.unique
  linked := h.linked
  last := h.last
  live := h.live
  exist n k hk := by
    have hkl : k ≠ l := by
      rintro rfl
      exact hl n hk
    exact (Function.update_of_ne hkl _ _).trans (h.exist n k hk)
  links_le k hk := by
    change Function.update s.isLink l false k = false
    by_cases hkl : k = l
    · rw [hkl, Function.update_self]
    · rw [Function.update_of_ne hkl]
      exact h.links_le k hk
  nexuses_le := h.nexuses_le

/-- Parting a lone link changes nothing either. -/
theorem parted_of_alone {n l : Nat} (hl : ring n = [l]) (x y : Nat) :
    Together ring x y ↔ Parted (Together ring) l x y := by
  have halone : ∀ {m x y}, x ∈ ring m → y ∈ ring m → x = l → x = y := by
    intro m x y hx hy hxl
    have hmn := h.unique m n l (hxl ▸ hx) (hl ▸ List.mem_singleton_self l)
    rw [hmn, hl, List.mem_singleton] at hy
    exact hxl.trans hy.symm
  constructor
  · rintro (rfl | ⟨m, hx, hy⟩)
    · exact .inl rfl
    · by_cases hxl : x = l
      · exact .inl (halone hx hy hxl)
      · by_cases hyl : y = l
        · exact .inl (halone hy hx hyl).symm
        · exact .inr ⟨.inr ⟨m, hx, hy⟩, hxl, hyl⟩
  · rintro (rfl | ⟨hxy, -⟩)
    · exact .inl rfl
    · exact hxy

/-- `Nexus::connect` joins a link to those of the nexus. -/
theorem connectNexus_spec {n l r : Nat} (hl : l ∈ ring n) (hr : s.isLink r = true) :
    ∃ s' ring', s.connectNexus n r = some s' ∧ s'.Rings ring' ∧
      ∀ x y, Together ring' x y ↔ Merged (Together ring) l r x y := by
  have hn := List.ne_nil_of_mem hl
  by_cases hmem : ∃ m, r ∈ ring m
  · obtain ⟨m, hm⟩ := hmem
    by_cases hmn : m = n
    · exact ⟨s, ring, h.connectNexus_self (hmn ▸ hm), h, h.together_self hl (hmn ▸ hm)⟩
    · obtain ⟨s', hrun, hrings, -⟩ := h.connectNexus_join hn hmn hm
      exact ⟨s', _, hrun, hrings, h.together_join hmn hl hm⟩
  · have hnone : ∀ m, r ∉ ring m := fun m hm => hmem ⟨m, hm⟩
    obtain ⟨s', hrun, hrings, -⟩ := h.connectNexus_append hn hnone hr
    exact ⟨s', _, hrun, hrings, h.together_append hl hnone⟩

/-- A new nexus leaves the classes as they are. -/
theorem newNexus_together {l : Nat} (hl : ∀ m, l ∉ ring m) (hlink : s.isLink l = true) :
    ∃ s', s.newNexus l = some (s.nexuses, s') ∧
      s'.Rings (Function.update ring s.nexuses [l]) ∧
      l ∈ Function.update ring s.nexuses [l] s.nexuses ∧
      Together (Function.update ring s.nexuses [l]) = Together ring ∧ s'.isLink = s.isLink := by
  obtain ⟨hempty, s', hnew, hrings, hisLink⟩ := h.newNexus_spec hl hlink
  have hmem : ∀ m k, k ∈ Function.update ring s.nexuses [l] m ↔
      m = s.nexuses ∧ k = l ∨ k ∈ ring m := by
    intro m k
    have hmem := mem_append ring s.nexuses l m k
    rwa [hempty, List.nil_append] at hmem
  refine ⟨s', hnew, hrings, (hmem _ _).mpr (.inl ⟨rfl, rfl⟩), ?_, hisLink⟩
  have hnot : ∀ k, k ∉ ring s.nexuses := fun k => by rw [hempty]; exact List.not_mem_nil
  funext x y
  apply propext
  rw [Together, Together]
  simp only [hmem]
  constructor
  · rintro (rfl | ⟨m, ⟨rfl, rfl⟩ | hx, ⟨hm, rfl⟩ | hy⟩)
    · exact .inl rfl
    · exact .inl rfl
    · exact absurd hy (hnot _)
    · exact absurd (hm ▸ hx) (hnot _)
    · exact .inr ⟨m, hx, hy⟩
  · rintro (rfl | ⟨m, hx, hy⟩)
    · exact .inl rfl
    · exact .inr ⟨m, .inr hx, .inr hy⟩

section Dispatch

variable {l r n : Nat}

theorem connect_left (hne : l ≠ r) (hl : l ∈ ring n) : s.connect l r = s.connectNexus n r := by
  have hguard : (guard (l ≠ r) : Option Unit) = some () := by
    rw [guard, if_pos hne]
    rfl
  rw [connect, hguard]
  simp only [link_next, h.next_of_mem hl, h.findNexus_eq hl, Option.isSome_some, if_true,
    Option.bind_eq_bind, Option.bind_some]

theorem connect_right (hne : l ≠ r) (hl : ∀ m, l ∉ ring m) (hr : r ∈ ring n) :
    s.connect l r = s.connectNexus n l := by
  have hguard : (guard (l ≠ r) : Option Unit) = some () := by
    rw [guard, if_pos hne]
    rfl
  rw [connect, hguard]
  simp only [link_next, (h.fields_of_not_mem hl).1, h.next_of_mem hr, h.findNexus_eq hr,
    Option.isSome_some, Option.isSome_none, Bool.false_eq_true, if_true, if_false,
    Option.bind_eq_bind, Option.bind_some]

theorem connect_new (hne : l ≠ r) (hl : ∀ m, l ∉ ring m) (hr : ∀ m, r ∉ ring m) {s₁ : Netlist}
    (hnew : s.newNexus l = some (n, s₁)) : s.connect l r = s₁.connectNexus n r := by
  have hguard : (guard (l ≠ r) : Option Unit) = some () := by
    rw [guard, if_pos hne]
    rfl
  rw [connect, hguard]
  simp only [link_next, (h.fields_of_not_mem hl).1, (h.fields_of_not_mem hr).1,
    Option.isSome_none, Bool.false_eq_true, if_false, Option.bind_eq_bind, Option.bind_some, hnew]

theorem linkNexus_eq (hl : l ∈ ring n) : s.linkNexus l = some (some n, s) := by
  rw [linkNexus, link_next, h.next_of_mem hl, h.findNexus_eq hl]
  rfl

theorem linkNexus_new (hl : ∀ m, l ∉ ring m) :
    s.linkNexus l = (s.newNexus l).map fun r => (some r.1, r.2) := by
  obtain ⟨hnext, hnexus⟩ := h.fields_of_not_mem hl
  rw [linkNexus, link_next, hnext, link_nexus, hnexus]
  rfl

/-- A link is linked if its ring has others. -/
theorem isLinked_iff {as bs : List Nat} (hsplit : ring n = as ++ l :: bs) :
    s.isLinked l = true ↔ as ++ bs ≠ [] := by
  have hmem : l ∈ ring n := by simp [hsplit]
  obtain ⟨t, ht, -, -⟩ := h.list_isSome (List.ne_nil_of_mem hmem)
  have hrep := h.rep n
  rw [ht, hsplit] at hrep
  rw [isLinked, link_next, h.next_of_mem hmem]
  constructor
  · intro hlinked hnil
    obtain ⟨rfl, rfl⟩ := List.append_eq_nil_iff.mp hnil
    obtain rfl : l = t := by simpa using hrep.1
    have hself : s.succ l = l := hrep.next_tail
    rw [hself] at hlinked
    simp at hlinked
  · intro hothers
    have hself : s.succ l ≠ l := fun he => hothers (hrep.eq_of_next_self (hsplit ▸ h.nodup n) he)
    simp [hself]

theorem unlink_alone (hl : ring n = [l]) : s.unlink l = some s := by
  have hsplit : ring n = [] ++ l :: [] := hl
  refine if_neg ?_
  rw [h.isLinked_iff hsplit]
  exact fun hne => hne rfl

theorem unlink_others {as bs : List Nat} (hsplit : ring n = as ++ l :: bs)
    (hothers : as ++ bs ≠ []) : s.unlink l = s.unlinkNexus n l := by
  have hmem : l ∈ ring n := by simp [hsplit]
  rw [unlink, if_pos ((h.isLinked_iff hsplit).mpr hothers), h.findNexus_eq hmem]
  rfl

theorem unlink_not_mem (hl : ∀ m, l ∉ ring m) : s.unlink l = some s := by
  rw [unlink, isLinked, link_next, (h.fields_of_not_mem hl).1]
  rfl

end Dispatch

/-- `connect` joins two links. -/
theorem connect_spec {l r : Nat} (hl : s.isLink l = true) (hr : s.isLink r = true) (hne : l ≠ r) :
    ∃ s' ring', s.connect l r = some s' ∧ s'.Rings ring' ∧
      ∀ x y, Together ring' x y ↔ Merged (Together ring) l r x y := by
  by_cases hlmem : ∃ n, l ∈ ring n
  · obtain ⟨n, hn⟩ := hlmem
    rw [h.connect_left hne hn]
    exact h.connectNexus_spec hn hr
  · have hlnone : ∀ n, l ∉ ring n := fun n hn => hlmem ⟨n, hn⟩
    by_cases hrmem : ∃ n, r ∈ ring n
    · obtain ⟨n, hn⟩ := hrmem
      obtain ⟨s', ring', hrun, hrings, hjoin⟩ := h.connectNexus_spec hn hl
      refine ⟨s', ring', (h.connect_right hne hlnone hn).trans hrun, hrings,
        fun x y => (hjoin x y).trans ?_⟩
      rw [Merged, Merged, or_comm (a := _ ∧ _)]
    · have hrnone : ∀ n, r ∉ ring n := fun n hn => hrmem ⟨n, hn⟩
      obtain ⟨s₁, hnew, hrings₁, hmem₁, htogether, hlinks₁⟩ := h.newNexus_together hlnone hl
      obtain ⟨s', ring', hrun, hrings, hjoin⟩ :=
        hrings₁.connectNexus_spec hmem₁ (r := r) (by rw [hlinks₁]; exact hr)
      refine ⟨s', ring', (h.connect_new hne hlnone hrnone hnew).trans hrun, hrings, fun x y => ?_⟩
      rw [hjoin, htogether]

/-- `Link::unlink` parts a link from the others. -/
theorem unlink_spec (l : Nat) : ∃ s' ring', s.unlink l = some s' ∧ s'.Rings ring' ∧
    ∀ x y, Together ring' x y ↔ Parted (Together ring) l x y := by
  by_cases hmem : ∃ n, l ∈ ring n
  · obtain ⟨n, hn⟩ := hmem
    obtain ⟨as, bs, hsplit⟩ := List.append_of_mem hn
    by_cases hothers : as ++ bs = []
    · obtain ⟨rfl, rfl⟩ := List.append_eq_nil_iff.mp hothers
      exact ⟨s, ring, h.unlink_alone hsplit, h, h.parted_of_alone hsplit⟩
    · obtain ⟨s', hrun, hrings, -⟩ := h.unlinkNexus_others hsplit hothers
      exact ⟨s', _, (h.unlink_others hsplit hothers).trans hrun, hrings,
        h.together_remove hsplit⟩
  · have hnone : ∀ n, l ∉ ring n := fun n hn => hmem ⟨n, hn⟩
    exact ⟨s, ring, h.unlink_not_mem hnone, h, parted_of_not_mem hnone⟩

/-- `Link::nexus` gives a link a nexus of its own, if it has none. -/
theorem linkNexus_spec {l : Nat} (hl : s.isLink l = true) :
    ∃ n s' ring', s.linkNexus l = some (some n, s') ∧ s'.Rings ring' ∧ l ∈ ring' n ∧
      ∀ x y, Together ring' x y ↔ Together ring x y := by
  by_cases hmem : ∃ n, l ∈ ring n
  · obtain ⟨n, hn⟩ := hmem
    exact ⟨n, s, ring, h.linkNexus_eq hn, h, hn, fun _ _ => Iff.rfl⟩
  · have hnone : ∀ n, l ∉ ring n := fun n hn => hmem ⟨n, hn⟩
    obtain ⟨s', hnew, hrings, hmem', htogether, -⟩ := h.newNexus_together hnone hl
    refine ⟨_, s', _, ?_, hrings, hmem', fun x y => by rw [htogether]⟩
    rw [h.linkNexus_new hnone, hnew]
    rfl

/-- What `Link::~Link` does to the ring of a link, and what is left of the nexus. -/
theorem deleteLink_mem {l n : Nat} {as bs : List Nat} (hsplit : ring n = as ++ l :: bs) :
    ∃ s₁ s₂ : Netlist, s.unlinkNexus n l = some s₁ ∧ (s₂ = s₁ ∨ s₁.deleteNexus n = some s₂) ∧
      s.deleteLink l = some { s₂ with isLink := Function.update s₂.isLink l false } ∧
      s₂.isLink = s.isLink ∧
      ({ s₂ with isLink := Function.update s₂.isLink l false } : Netlist).Rings
        (Function.update ring n (as ++ bs)) := by
  have hn : l ∈ ring n := by simp [hsplit]
  have hnot : ∀ m, l ∉ Function.update ring n (as ++ bs) m :=
    fun m hm => ((h.mem_remove hsplit m l).mp hm).1 rfl
  by_cases hothers : as ++ bs = []
  · obtain ⟨rfl, rfl⟩ := List.append_eq_nil_iff.mp hothers
    obtain ⟨s₁, hrun, hnone, hrings, hisLink⟩ := h.unlinkNexus_alone hsplit
    have hdelete : s₁.deleteNexus n =
        some { s₁ with isNexus := Function.update s₁.isNexus n false } := if_pos hnone
    refine ⟨s₁, _, hrun, .inr hdelete, ?_, hisLink, hrings.forget hnot⟩
    rw [deleteLink, link_next, h.next_of_mem hn]
    simp only [Option.isSome_some, if_true, h.linkNexus_eq hn, Option.bind_eq_bind,
      Option.bind_some, hrun, hnone, hdelete, Option.pure_def]
  · obtain ⟨s₁, hrun, hrings, hisLink, hsome⟩ := h.unlinkNexus_others hsplit hothers
    refine ⟨s₁, s₁, hrun, .inl rfl, ?_, hisLink, hrings.forget hnot⟩
    rw [deleteLink, link_next, h.next_of_mem hn]
    simp only [Option.isSome_some, if_true, h.linkNexus_eq hn, Option.bind_eq_bind,
      Option.bind_some, hrun, hsome, if_false, Option.pure_def]

theorem deleteLink_not_mem {l : Nat} (hl : ∀ m, l ∉ ring m) :
    s.deleteLink l = some { s with isLink := Function.update s.isLink l false } := by
  rw [deleteLink, link_next, (h.fields_of_not_mem hl).1]
  simp only [Option.isSome_none, Bool.false_eq_true, if_false, Option.bind_eq_bind,
    Option.bind_some, Option.pure_def]

/-- `Link::~Link` parts a link from the others, and deletes a nexus that has no links left. -/
theorem deleteLink_spec (l : Nat) : ∃ s' ring', s.deleteLink l = some s' ∧ s'.Rings ring' ∧
    ∀ x y, Together ring' x y ↔ Parted (Together ring) l x y := by
  by_cases hmem : ∃ n, l ∈ ring n
  · obtain ⟨n, hn⟩ := hmem
    obtain ⟨as, bs, hsplit⟩ := List.append_of_mem hn
    obtain ⟨_, _, -, -, hrun, -, hrings⟩ := h.deleteLink_mem hsplit
    exact ⟨_, _, hrun, hrings, h.together_remove hsplit⟩
  · have hnone : ∀ n, l ∉ ring n := fun n hn => hmem ⟨n, hn⟩
    exact ⟨_, ring, h.deleteLink_not_mem hnone, h.forget hnone, parted_of_not_mem hnone⟩

/-- Every allowed call goes through, keeps the rings and changes the classes as it should. -/
theorem step_spec {c : Call} (hc : s.Allowed c) : ∃ s' ring', s.step c = some s' ∧ s'.Rings ring' ∧
    ∀ x y, Together ring' x y ↔ joins (Together ring) c x y := by
  rw [step.eq_def, if_pos hc]
  cases c with
  | newLink dir => exact ⟨_, ring, rfl, h.newLink dir, fun _ _ => Iff.rfl⟩
  | setDir l dir => exact ⟨_, ring, rfl, h.setDir l dir, fun _ _ => Iff.rfl⟩
  | connect l r => exact h.connect_spec hc.1 hc.2.1 hc.2.2
  | unlink l => exact h.unlink_spec l
  | nexus l =>
    obtain ⟨n, s', ring', hrun, hrings, -, hsame⟩ := h.linkNexus_spec hc
    exact ⟨s', ring', by dsimp only; rw [hrun]; rfl, hrings, hsame⟩
  | deleteLink l => exact h.deleteLink_spec l

/-- A run keeps the rings, and its calls make the classes. -/
theorem run_spec {cs : List Call} {s' : Netlist} (hrun : Runs.run step s cs = some s') :
    ∃ ring', s'.Rings ring' ∧ Together ring' = cs.foldl joins (Together ring) := by
  induction cs generalizing s ring with
  | nil =>
    rw [Runs.run_nil, Option.some_inj] at hrun
    exact ⟨ring, hrun ▸ h, rfl⟩
  | cons c cs ih =>
    rw [Runs.run_cons] at hrun
    obtain ⟨s₁, hstep, hrun⟩ := Option.bind_eq_some_iff.mp hrun
    have hc : s.Allowed c := by
      by_contra hnot
      rw [step.eq_def, if_neg hnot] at hstep
      cases hstep
    obtain ⟨s₂, ring₂, hstep₂, hrings, hjoins⟩ := h.step_spec hc
    obtain rfl : s₂ = s₁ := Option.some_inj.mp (hstep₂.symm.trans hstep)
    obtain ⟨ring', hrings', htogether⟩ := ih hrings hrun
    refine ⟨ring', hrings', ?_⟩
    rw [htogether, List.foldl_cons]
    congr 1
    funext x y
    exact propext (hjoins x y)

end Rings

/-- At first there are no rings. -/
theorem rings_empty : empty.Rings fun _ => [] where
  rep _ := rfl
  nodup _ := List.nodup_nil
  unique _ _ _ hm := absurd hm List.not_mem_nil
  linked _ := iff_of_false (fun hne => hne rfl) (fun ⟨_, hm⟩ => absurd hm List.not_mem_nil)
  last _ _ := iff_of_false nofun nofun
  live _ := iff_of_false nofun (fun hne => hne rfl)
  exist _ _ hm := absurd hm List.not_mem_nil
  links_le _ _ := rfl
  nexuses_le _ _ := rfl

namespace Rings

variable {s : Netlist} {ring : Nat → List Nat} (h : s.Rings ring)
include h

/-- A link finds a nexus just if it is on its ring. -/
theorem findNexus_iff (l n : Nat) : s.findNexus l = some (some n) ↔ l ∈ ring n := by
  constructor
  · intro hfind
    by_cases hmem : ∃ m, l ∈ ring m
    · obtain ⟨m, hm⟩ := hmem
      rw [h.findNexus_eq hm, Option.some_inj, Option.some_inj] at hfind
      exact hfind ▸ hm
    · have hnone : ∀ m, l ∉ ring m := fun m hm => hmem ⟨m, hm⟩
      rw [findNexus, link_next, (h.fields_of_not_mem hnone).1] at hfind
      cases hfind
  · exact h.findNexus_eq

/-- The links of a ring follow each other in a circle. -/
theorem next_getElem (n : Nat) {i : Nat} (hi : i < (ring n).length) :
    s.next (ring n)[i] = (ring n)[(i + 1) % (ring n).length]? := by
  have hn : ring n ≠ [] := List.ne_nil_of_length_pos (Nat.zero_lt_of_lt hi)
  obtain ⟨t, ht, -, -⟩ := h.list_isSome hn
  have hrep := h.rep n
  rw [ht] at hrep
  rw [h.next_of_mem (List.getElem_mem hi), hrep.next_getElem hi]

/-- One link of a ring points to a nexus. -/
theorem nexusOf_iff {n l : Nat} (hl : l ∈ ring n) (m : Nat) :
    s.nexusOf l = some m ↔ m = n ∧ s.list n = some l := by
  rw [h.last]
  constructor
  · intro hm
    obtain rfl := h.unique m n l (h.mem_of_list hm) hl
    exact ⟨rfl, hm⟩
  · rintro ⟨rfl, hm⟩
    exact hm

end Rings

/-- After every sequence of calls the linked links are on rings, one for each nexus; each ring has
one link that points to the nexus, all its links find it, and those links share a nexus that have
been joined. No assertion fails in the next call. -/
theorem links_on_rings {cs : List Call} {s : Netlist} (hrun : Runs.run step empty cs = some s) :
    (∀ c, s.Allowed c → (s.step c).isSome) ∧
      (∃ ring : Nat → List Nat,
        (∀ l, s.next l ≠ none ↔ ∃ n, l ∈ ring n) ∧
        (∀ l m n, l ∈ ring m → l ∈ ring n → m = n) ∧
        (∀ n, s.isNexus n = true ↔ ring n ≠ []) ∧
        ∀ n, (ring n).Nodup ∧
          (∀ i, (hi : i < (ring n).length) →
            s.next (ring n)[i] = (ring n)[(i + 1) % (ring n).length]?) ∧
          (ring n ≠ [] → ∃ t ∈ ring n, s.list n = some t ∧ s.nexusOf t = some n ∧
            ∀ l ∈ ring n, s.nexusOf l ≠ none → l = t) ∧
          ∀ l, s.findNexus l = some (some n) ↔ l ∈ ring n) ∧
      ∀ x y, x ≠ y → (Joined cs x y ↔
        ∃ n, s.findNexus x = some (some n) ∧ s.findNexus y = some (some n)) := by
  obtain ⟨ring, h, htogether⟩ := rings_empty.run_spec hrun
  have hstart : Together (fun _ => []) = Eq := by
    ext x y
    exact or_iff_left fun ⟨_, hx, _⟩ => absurd hx List.not_mem_nil
  rw [hstart] at htogether
  refine ⟨fun c hc => ?_, ⟨ring, h.linked, fun l m n => h.unique m n l, h.live, fun n =>
    ⟨h.nodup n, fun i hi => h.next_getElem n hi, fun hn => ?_, fun l => h.findNexus_iff l n⟩⟩,
    fun x y hne => ?_⟩
  · obtain ⟨s', _, hstep, -, -⟩ := h.step_spec hc
    rw [hstep]
    rfl
  · obtain ⟨t, ht, -, hmem⟩ := h.list_isSome hn
    refine ⟨t, hmem, ht, (h.nexusOf_iff hmem n).mpr ⟨rfl, ht⟩, fun l hl hne => ?_⟩
    obtain ⟨m, hm⟩ := Option.ne_none_iff_exists'.mp hne
    have hlist := ((h.nexusOf_iff hl m).mp hm).2
    exact Option.some_inj.mp (hlist.symm.trans ht)
  · rw [Joined, ← htogether, Together, or_iff_right hne]
    simp only [h.findNexus_iff]

/-- Three links are joined in a row, and the middle one is unlinked. -/
theorem links_on_rings_three :
    ∃ s, Runs.run step empty [.newLink .passive, .newLink .output, .newLink .input, .connect 0 1,
      .connect 1 2, .unlink 1] = some s ∧
      ∃ n, s.findNexus 0 = some (some n) ∧ s.findNexus 2 = some (some n) := by
  obtain ⟨s, hs⟩ : ∃ s, Runs.run step empty [.newLink .passive, .newLink .output, .newLink .input,
      .connect 0 1, .connect 1 2, .unlink 1] = some s :=
    Option.isSome_iff_exists.mp (by decide +kernel)
  refine ⟨s, hs, ((links_on_rings hs).2.2 0 2 (by decide)).mp ?_⟩
  refine Or.inr ⟨?_, by decide, by decide⟩
  exact Or.inr (Or.inl ⟨Or.inr (Or.inl ⟨rfl, rfl⟩), Or.inl rfl⟩)

end Netlist

end Icarus
