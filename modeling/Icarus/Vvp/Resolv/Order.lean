import Icarus.Vvp.Resolv.Ends
import Icarus.Vvp.Resolv.Incremental

/-!
# Order of the drivers

Which drivers of a `resolv_tri` may be connected to its ports in any order. The
values of a net are order independent exactly when the ambiguous ones all sit
around every unambiguous one in one of three ways.
-/

namespace Icarus.Vvp.Resolv

open Icarus.Core.QuadTree

/-- The signed strengths of the unambiguous values. -/
def drives (V : Set Scalar) : Set Int := {v | v ≠ 0 ∧ ∃ u ∈ V, u.range = ⟨v, v⟩}

/-- The ranges of the ambiguous values. -/
def spans (V : Set Scalar) : Set Range := {r | r.lo < r.hi ∧ ∃ e ∈ V, e.range = r}

/-- Values that may drive one net in any order. -/
structure Compatible (V : Set Scalar) : Prop where
  /-- HiZ is encoded in one way. -/
  hiz : ∀ a ∈ V, ∀ b ∈ V, a.isHiz → b.isHiz → a = b
  /-- The ambiguous values sit around every unambiguous one in one way. -/
  sits : ∀ v ∈ drives V, ∃ m, ∀ r ∈ spans V, Range.Sits m v r
  /-- Next to opposite drives of one strength they sit within. -/
  opposite : ∀ v ∈ drives V, -v ∈ drives V → ∀ r ∈ spans V, Range.Sits .within v r

/-- The value finally sent does not depend on the ports that the latest values are on, nor on
the updates that brought them there. -/
def OrderIndependent (V : Set Scalar) : Prop :=
  ∀ (hizValue : Scalar) (n w : Nat) (us vs : List (Nat × Vector8)) (s t : Resolver Vector8),
    hizValue.isHiz ∨ hizValue.unambig → 0 < n → 0 < w →
    (∀ u ∈ us, u.1 < n) → (∀ u ∈ vs, u.1 < n) →
    (∀ v ∈ latest [] n us, v.length = w ∧ ∀ x ∈ v, x ∈ V) →
    (latest [] n us).Perm (latest [] n vs) →
    runTri hizValue n us = some s → runTri hizValue n vs = some t → s.sent = t.sent

/-! ## Compatible values -/

/-- A range that sits within a drive sits within every stronger one, if it sits around that. -/
private theorem sits_within_of_lt {m : Range.Mode} {v w : Int} {r : Range}
    (hr : r.lo < r.hi) (hlt : v.natAbs < w.natAbs) (hw : Range.Sits m w r)
    (hv : Range.Sits .within v r) : Range.Sits .within w r := by
  cases m with
  | within => exact hw
  | aside | outside =>
    simp only [Range.Sits, Range.Inside, Range.Crosses, Range.Beyond, Range.Outside] at *
    split_ifs at * <;> omega

/-- Compatible values have a way to sit around every drive. -/
theorem Compatible.surroundings {V : Set Scalar} (h : Compatible V) :
    ∃ mode, Range.Surroundings (drives V) mode ∧
      ∀ v ∈ drives V, ∀ r ∈ spans V, Range.Sits (mode v) v r := by
  classical
  have hmode : Nonempty Range.Mode := ⟨.within⟩
  choose! f hf using h.sits
  refine ⟨fun v => if ∀ r ∈ spans V, Range.Sits .within v r then .within else f v, ⟨?_, ?_⟩, ?_⟩
  · exact fun v hv => hv.1
  · intro v hv hneg w hw hle
    apply if_pos
    intro r hr
    have hwithin := h.opposite v hv hneg r hr
    rcases Nat.lt_or_eq_of_le hle with hlt | heq
    · exact sits_within_of_lt hr.1 hlt (hf w hw r hr) hwithin
    · rcases Int.natAbs_eq_natAbs_iff.mp heq with rfl | hopp
      · exact hwithin
      · obtain rfl : w = -v := by omega
        exact h.opposite (-v) hneg (by simpa using hv) r hr
  · intro v hv r hr
    simp only
    split_ifs with hall
    · exact hall r hr
    · exact hf v hv r hr

/-- Canonical scalars whose ranges are resolved in any order. -/
def resolvable (z : Scalar) (D : Set Int) (mode : Int → Range.Mode) : Set Scalar :=
  {a | a.Canonical ∧ (a.isHiz → a = z) ∧ a.range ∈ Range.members D mode}

theorem resolves_resolvable {D : Set Int} {mode : Int → Range.Mode}
    (hD : Range.Surroundings D mode) (z : Scalar) : Resolves resolve (resolvable z D mode) where
  closed a ha b hb := by
    refine ⟨ha.1.resolve hb.1, ?_, ?_⟩
    · by_cases hza : a.isHiz
      · rw [resolve, if_pos hza]
        exact hb.2.1
      by_cases hzb : b.isHiz
      · rw [resolve, if_neg hza, if_pos hzb]
        exact ha.2.1
      simp only [Bool.not_eq_true] at hza hzb
      rw [(ha.1.resolved hb.1 hza hzb).driven]
      exact fun h => absurd h Bool.false_ne_true
    · rw [ha.1.range_resolve hb.1]
      exact hD.resolves.closed _ ha.2.2 _ hb.2.2
  comm a ha b hb := by
    apply ha.1.resolve_comm hb.1
    intro hza hzb
    rw [ha.2.1 hza, hb.2.1 hzb]
  assoc a ha b hb c hc := by
    apply ha.1.resolve_assoc hb.1 hc.1
    exact hD.resolves.assoc _ ha.2.2 _ hb.2.2 _ hc.2.2

/-- Bitwise operations on vectors of one size keep the laws of the operation on bits. -/
theorem resolves_vector {f : Scalar → Scalar → Scalar} {S : Set Scalar} (hS : Resolves f S)
    {w : Nat} (hw : 0 < w) :
    Resolves (merge [] (List.zipWith f)) {v : Vector8 | v.length = w ∧ ∀ x ∈ v, x ∈ S} := by
  have hmerge : ∀ a b : Vector8, a.length = w → b.length = w →
      merge [] (List.zipWith f) a b = List.zipWith f a b := by
    intro a b ha hb
    have hna : a ≠ [] := List.ne_nil_of_length_pos (by omega)
    have hnb : b ≠ [] := List.ne_nil_of_length_pos (by omega)
    simp only [merge, hna, hnb, if_false]
  have hlen : ∀ a b : Vector8, a.length = w → b.length = w →
      (List.zipWith f a b).length = w := by
    intro a b ha hb
    rw [List.length_zipWith, ha, hb, Nat.min_self]
  constructor
  · rintro a ⟨ha, haS⟩ b ⟨hb, hbS⟩
    rw [hmerge a b ha hb]
    refine ⟨hlen a b ha hb, ?_⟩
    intro x hx
    obtain ⟨i, hi, rfl⟩ := List.getElem_of_mem hx
    rw [List.getElem_zipWith]
    exact hS.closed _ (haS _ (List.getElem_mem _)) _ (hbS _ (List.getElem_mem _))
  · rintro a ⟨ha, haS⟩ b ⟨hb, hbS⟩
    rw [hmerge a b ha hb, hmerge b a hb ha]
    apply List.ext_getElem (by rw [hlen a b ha hb, hlen b a hb ha])
    intro i h₁ h₂
    rw [List.getElem_zipWith, List.getElem_zipWith]
    exact hS.comm _ (haS _ (List.getElem_mem _)) _ (hbS _ (List.getElem_mem _))
  · rintro a ⟨ha, haS⟩ b ⟨hb, hbS⟩ c ⟨hc, hcS⟩
    have hab := hlen a b ha hb
    have hbc := hlen b c hb hc
    rw [hmerge a b ha hb, hmerge b c hb hc, hmerge _ c hab hc, hmerge a _ ha hbc]
    apply List.ext_getElem (by rw [hlen _ c hab hc, hlen a _ ha hbc])
    intro i h₁ h₂
    simp only [List.getElem_zipWith]
    exact hS.assoc _ (haS _ (List.getElem_mem _)) _ (hbS _ (List.getElem_mem _)) _
      (hcS _ (List.getElem_mem _))

/-- Once every port has a value, the tree over the latest values has been sent. -/
private theorem sent_of_runTri {hizValue : Scalar} {n w : Nat} {us : List (Nat × Vector8)}
    {s : Resolver Vector8} (hp : hizValue.isHiz ∨ hizValue.unambig) (hn : 0 < n) (hw : 0 < w)
    (hu : ∀ u ∈ us, u.1 < n) (hlen : ∀ v ∈ latest [] n us, v.length = w)
    (hs : runTri hizValue n us = some s) :
    s.sent = some (pullVector hizValue (root (merge [] resolveVector) [] (latest [] n us))) := by
  obtain ⟨s', hs', _, hsent⟩ := runTri_sends_root hp hn hu
  obtain rfl : s' = s := Option.some.inj (hs'.symm.trans hs)
  rcases hsent with hsent | ⟨_, hnil⟩
  · exact hsent
  · have hpos : 0 < (latest [] n us).length := by
      rw [length_latest]
      exact hn
    have hmem := List.getElem_mem hpos
    have := hlen _ hmem
    rw [hnil _ hmem, List.length_nil] at this
    omega

/-- Compatible values drive a net in any order. -/
theorem Compatible.orderIndependent {V : Set Scalar} (hV : ∀ x ∈ V, x.Canonical)
    (h : Compatible V) : OrderIndependent V := by
  intro hizValue n w us vs s t hp hn hw hu hv hlatest hperm hs ht
  obtain ⟨mode, hD, hsits⟩ := h.surroundings
  obtain ⟨z, hz⟩ : ∃ z, ∀ a ∈ V, a.isHiz → a = z := by
    by_cases hex : ∃ a ∈ V, a.isHiz
    · obtain ⟨z, hzV, hz⟩ := hex
      exact ⟨z, fun a ha hza => h.hiz a ha z hzV hza hz⟩
    · exact ⟨Scalar.hiZ, fun a ha hza => absurd ⟨a, ha, hza⟩ hex⟩
  have hmem : ∀ x ∈ V, x ∈ resolvable z (drives V) mode := by
    intro x hx
    refine ⟨hV x hx, hz x hx, ?_⟩
    by_cases hzx : x.isHiz
    · exact Or.inl ((Scalar.isHiz_iff x).mp hzx)
    · right
      rcases lt_or_eq_of_le (hV x hx).ordered with hlt | heq
      · right
        exact ⟨hlt, fun v hv => hsits v hv _ ⟨hlt, x, hx, rfl⟩⟩
      · left
        have hr : x.range = ⟨x.hi.signed, x.hi.signed⟩ := by rw [Scalar.range, heq]
        refine ⟨x.hi.signed, ⟨?_, x, hx, hr⟩, hr⟩
        intro h0
        rw [h0] at hr
        exact hzx ((Scalar.isHiz_iff x).mpr hr)
  have hS := resolves_vector (resolves_resolvable hD z) hw
  have hlen : ∀ v ∈ latest [] n vs, v.length = w := fun v hv =>
    (hlatest v (hperm.mem_iff.mpr hv)).1
  have hroot : root (merge [] resolveVector) [] (latest [] n us) =
      root (merge [] resolveVector) [] (latest [] n vs) := by
    apply hS.root_perm [] hperm
    exact fun v hv => ⟨(hlatest v hv).1, fun x hx => hmem x ((hlatest v hv).2 x hx)⟩
  rw [sent_of_runTri hp hn hw hu (fun v hv => (hlatest v hv).1) hs,
    sent_of_runTri hp hn hw hv hlen ht, hroot]

/-! ## Order independent values -/

/-- The last two of three drivers may be exchanged. -/
theorem OrderIndependent.right_comm {V : Set Scalar} (h : OrderIndependent V) {a b c : Scalar}
    (ha : a ∈ V) (hb : b ∈ V) (hc : c ∈ V) :
    resolve (resolve a b) c = resolve (resolve a c) b := by
  have hports : ∀ x y z : Scalar, ∀ u ∈ [(0, [x]), (1, [y]), (2, [z])], u.1 < 3 := by simp
  have hp : Scalar.hiZ.isHiz ∨ Scalar.hiZ.unambig := Or.inl rfl
  have hlatest : ∀ x y z : Scalar, latest [] 3 [(0, [x]), (1, [y]), (2, [z])] = [[x], [y], [z]] :=
    fun _ _ _ => rfl
  have hrun : ∀ x y z : Scalar, ∃ s, runTri Scalar.hiZ 3 [(0, [x]), (1, [y]), (2, [z])] = some s ∧
      s.sent = some [resolve (resolve x y) z] := by
    intro x y z
    obtain ⟨s, hs, _, _⟩ := runTri_sends_root hp (show 0 < 3 by omega) (hports x y z)
    have hlen : ∀ v ∈ latest [] 3 [(0, [x]), (1, [y]), (2, [z])], v.length = 1 := by
      simp [hlatest]
    refine ⟨s, hs, ?_⟩
    rw [sent_of_runTri hp (by omega) (by omega) (hports x y z) hlen hs, hlatest]
    simp [root, level, merge, resolveVector, pullVector, Scalar.hiZ, Scalar.isHiz]
  obtain ⟨s, hs, hsent⟩ := hrun a b c
  obtain ⟨t, ht, hsent'⟩ := hrun a c b
  have heq := h Scalar.hiZ 3 1 _ _ s t hp (by omega) (by omega) (hports a b c) (hports a c b)
    (by simp [hlatest, ha, hb, hc])
    (by
      rw [hlatest, hlatest]
      exact List.Perm.cons _ (List.Perm.swap _ _ _)) hs ht
  rw [hsent, hsent'] at heq
  simpa using heq

/-- The ranges of order independent values have no three whose order matters. -/
private theorem not_orderMatters {V : Set Scalar} (hV : ∀ x ∈ V, x.Canonical)
    (h : OrderIndependent V) : ¬ Range.OrderMatters (Scalar.range '' V) := by
  rintro ⟨_, ⟨a, ha, rfl⟩, _, ⟨b, hb, rfl⟩, _, ⟨c, hc, rfl⟩, hne⟩
  apply hne
  have hcomm := congrArg Scalar.range (h.right_comm ha hb hc)
  rwa [((hV a ha).resolve (hV b hb)).range_resolve (hV c hc), (hV a ha).range_resolve (hV b hb),
    ((hV a ha).resolve (hV c hc)).range_resolve (hV b hb), (hV a ha).range_resolve (hV c hc)]
    at hcomm

/-- Order independent values are compatible. -/
theorem OrderIndependent.compatible {V : Set Scalar} (hV : ∀ x ∈ V, x.Canonical)
    (h : OrderIndependent V) : Compatible V := by
  have hno := not_orderMatters hV h
  constructor
  · intro a ha b hb hza hzb
    have hcomm := h.right_comm ha ha hb
    simpa [resolve, hza, hzb] using hcomm.symm
  · rintro v ⟨hv, u, hu, hur⟩
    by_contra hall
    push Not at hall
    apply hno
    refine Range.orderMatters_of_not_sits hv ⟨u, hu, hur⟩ fun m => ?_
    obtain ⟨r, ⟨hlt, e, he, her⟩, hns⟩ := hall m
    exact ⟨r, ⟨e, he, her⟩, hlt, hns⟩
  · rintro v ⟨hv, u, hu, hur⟩ ⟨_, u', hu', hur'⟩ r ⟨hlt, e, he, her⟩
    by_contra hns
    exact hno (Range.orderMatters_of_opposite hv ⟨u, hu, hur⟩ ⟨u', hu', hur'⟩ ⟨e, he, her⟩ hlt hns)

/-- The drivers of a net may be connected in any order exactly when their values are
compatible. -/
theorem resolv_tri_order_independent_iff {V : Set Scalar} (hV : ∀ x ∈ V, x.Built) :
    OrderIndependent V ↔ Compatible V :=
  ⟨OrderIndependent.compatible fun x hx => (hV x hx).canonical,
    Compatible.orderIndependent fun x hx => (hV x hx).canonical⟩

/-- A pull drive and an ambiguous strong one. -/
theorem resolv_tri_order_independent_iff_example :
    OrderIndependent {Scalar.ofBit4 .one 5 5, Scalar.ofBit4 .x 6 0} ↔
      Compatible {Scalar.ofBit4 .one 5 5, Scalar.ofBit4 .x 6 0} := by
  apply resolv_tri_order_independent_iff
  rintro x (rfl | rfl)
  · exact .ofBit4 .one 5 5
  · exact .ofBit4 .x 6 0

/-- Opposite pull drives with an `L`: the net is 0 or unknown, by the order of the ports. -/
theorem resolv_tri_order_dependent :
    (runTri Scalar.hiZ 3 [(0, [Scalar.ofBit4 .x 6 0]), (1, [Scalar.ofBit4 .zero 5 5]),
        (2, [Scalar.ofBit4 .one 5 5])]).bind (fun s => s.sent.map (List.map Scalar.value)) =
      some [.zero] ∧
    (runTri Scalar.hiZ 3 [(0, [Scalar.ofBit4 .x 6 0]), (1, [Scalar.ofBit4 .one 5 5]),
        (2, [Scalar.ofBit4 .zero 5 5])]).bind (fun s => s.sent.map (List.map Scalar.value)) =
      some [.x] ∧
    ¬ ∀ V : Set Scalar, (∀ x ∈ V, x.Built) → OrderIndependent V := by
  refine ⟨by decide, by decide, fun hall => ?_⟩
  have hbuilt : ∀ x ∈ Set.range fun v : Bit4 × Fin 8 × Fin 8 => Scalar.ofBit4 v.1 v.2.1 v.2.2,
      x.Built := by
    rintro _ ⟨v, rfl⟩
    exact .ofBit4 v.1 v.2.1 v.2.2
  have hcomm := (hall _ hbuilt).right_comm ⟨(.x, 6, 0), rfl⟩ ⟨(.zero, 5, 5), rfl⟩
    ⟨(.one, 5, 5), rfl⟩
  exact absurd hcomm (by decide)

/-- Values received by `recv_vec4_` drive a net in any order. -/
theorem strong_orderIndependent :
    OrderIndependent (Set.range fun b => Scalar.ofBit4 b 6 6) := by
  have hspan : ∀ r ∈ spans (Set.range fun b => Scalar.ofBit4 b 6 6), r = ⟨-6, 6⟩ := by
    rintro r ⟨hlt, _, ⟨b, rfl⟩, rfl⟩
    cases b with
    | x => rfl
    | zero | one | z => exact absurd hlt (by decide)
  have hdrive : ∀ v ∈ drives (Set.range fun b => Scalar.ofBit4 b 6 6), v = 6 ∨ v = -6 := by
    rintro v ⟨hv, _, ⟨b, rfl⟩, hr⟩
    have hlo := congrArg Range.lo hr
    have hhi := congrArg Range.hi hr
    cases b <;> simp [Scalar.range, Scalar.ofBit4, Scalar.hiZ, Half.signed] at hlo hhi <;> omega
  have hsits : ∀ v ∈ drives (Set.range fun b => Scalar.ofBit4 b 6 6),
      ∀ r ∈ spans (Set.range fun b => Scalar.ofBit4 b 6 6), Range.Sits .within v r := by
    intro v hv r hr
    rw [hspan r hr]
    rcases hdrive v hv with rfl | rfl <;> exact Or.inr (by simp [Range.Crosses])
  apply Compatible.orderIndependent
  · rintro _ ⟨b, rfl⟩
    exact Scalar.canonical_ofBit4 b 6 6
  · constructor
    · rintro _ ⟨a, rfl⟩ _ ⟨b, rfl⟩ ha hb
      cases a <;> cases b <;> first | rfl | exact absurd ha (by decide) | exact absurd hb (by decide)
    · exact fun v hv => ⟨.within, hsits v hv⟩
    · exact fun v hv _ => hsits v hv

end Icarus.Vvp.Resolv
