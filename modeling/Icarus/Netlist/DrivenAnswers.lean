import Icarus.Netlist.DrivenScan

/-!
# Answers about drivers

With right guesses and without any guess the answers are the same. There is an
answer if no substitution reads what it drives and the stack has room.
-/

namespace Icarus

open Icarus.Core

namespace Netlist

variable {obj : Nat → Obj} {ring : Nat → List Nat} {s s' : Netlist} {n : Nat}

/-! ## Right guesses -/

/-- All guesses are right. -/
def Guesses (obj : Nat → Obj) (ring : Nat → List Nat) (s : Netlist) : Prop :=
  ∀ n, ring n ≠ [] → Right obj (OnRing ring) n (s.nexus n).driven

theorem rightBut_false : RightBut obj ring (fun _ => False) s ↔ Guesses obj ring s := by
  refine forall_congr' fun n => forall_congr' fun _ => and_congr_right fun _ => ?_
  exact ⟨fun h => h not_false, fun h _ => h⟩

theorem guesses_forget (s : Netlist) : Guesses obj ring s.forget :=
  fun _ _ => ⟨nofun, fun _ hv => absurd hv nofun⟩

theorem fits_forget (h : Fits obj ring s) : Fits obj ring s.forget := h.of_forget rfl

/-- An answer about the drivers is right. -/
theorem driversConstant_right (hs : Fits obj ring s) (hg : Guesses obj ring s) (hn : ring n ≠ [])
    {depth : Nat} {b : Bool} (h : driversConstant obj depth s n = some (b, s')) :
    (b = true ↔ Constant (kinds obj) (OnRing ring) n) ∧ s'.forget = s.forget ∧
      Guesses obj ring s' := by
  obtain ⟨heq, hright, hfalse, htrue⟩ :=
    driversConstant_answers obj ring depth _ s n b s' hs (rightBut_false.mpr hg) hn h
  refine ⟨⟨fun hb => htrue hb fun _ => id, fun hc => ?_⟩, heq, rightBut_false.mp hright⟩
  cases b with
  | false => exact absurd hc (hfalse rfl)
  | true => rfl

/-! ## The value -/

/-- The scan for the value of a nexus with at most one driver. -/
theorem valueScan_eq (hs : s.Rings ring) (hsingle : Single (kinds obj) (OnRing ring) n)
    {as bs : List Nat} (hsplit : ring n = as ++ bs) {v : Verinum.V}
    (hv : (∃ x ∈ as, (obj x).value = some v) ∨ v = .vz ∧ ∀ x ∈ as, (obj x).value = none)
    {fuel : Nat} (hfuel : bs.length < fuel) : ∃ w, valueScan obj fuel s v bs.head? = some w ∧
      IsValue (kinds obj) (OnRing ring) n w := by
  induction fuel generalizing as bs v with
  | zero => omega
  | succ fuel ih =>
    cases bs with
    | nil =>
      rw [List.append_nil] at hsplit
      rw [← hsplit] at hv
      exact ⟨v, rfl, hv⟩
    | cons cur bs =>
      have hnext := hs.nextNlink_eq hsplit
      have hcur : cur ∈ ring n := by simp [hsplit]
      have hsplit' : ring n = as ++ [cur] ++ bs := by rw [hsplit, List.append_assoc]; rfl
      have hfuel' : bs.length < fuel := Nat.lt_of_succ_lt_succ hfuel
      rw [List.head?_cons, valueScan, hnext]
      cases hw : (obj cur).value with
      | none =>
        refine ih hsplit' ?_ hfuel'
        rcases hv with ⟨x, hx, hxv⟩ | ⟨rfl, hnone⟩
        · exact .inl ⟨x, List.mem_append_left _ hx, hxv⟩
        · refine .inr ⟨rfl, fun x hx => ?_⟩
          rcases List.mem_append.mp hx with hx | hx
          · exact hnone x hx
          · rwa [List.mem_singleton.mp hx]
      | some w =>
        have hvz : v = .vz := by
          rcases hv with ⟨x, hx, hxv⟩ | ⟨hvz, -⟩
          · -- A link with a value before would be a second driver.
            have hnodup := hs.nodup n
            rw [hsplit] at hnodup
            have hxcur := hsingle x cur (by show x ∈ ring n; simp [hsplit, hx]) hcur
              (Obj.dir_of_value hxv) (Obj.dir_of_value hw)
            exact absurd hxcur ((List.nodup_append.mp hnodup).2.2 x hx cur List.mem_cons_self)
          · exact hvz
        dsimp only
        rw [if_pos hvz]
        exact ih hsplit' (.inl ⟨cur, by simp, hw⟩) hfuel'

/-- A nexus with constant drivers has a value, and its guess stays right. -/
theorem drivenValue_right (hs : Fits obj ring s) (hg : Guesses obj ring s) (hn : ring n ≠ [])
    (hc : Constant (kinds obj) (OnRing ring) n) : ∃ v s', drivenValue obj s n = some (v, s') ∧
      IsValue (kinds obj) (OnRing ring) n v ∧ s'.forget = s.forget ∧ Guesses obj ring s' := by
  have hn' := hg n hn
  rw [drivenValue]
  cases hguess : (s.nexus n).driven with
  | noGuess =>
    have hlen := hs.rings.length_le n
    obtain ⟨v, hscan, hv⟩ := valueScan_eq hs.rings ((constant_iff _ _ n).mp hc).2.1
      (List.nil_append _).symm (.inr ⟨rfl, fun x hx => absurd hx List.not_mem_nil⟩)
      (Nat.lt_succ_of_le hlen)
    dsimp only
    rw [hs.rings.firstNlink_eq hn, hscan]
    refine ⟨v, _, rfl, hv, forget_setDriven s n _, fun m hm => ?_⟩
    rw [driven_setDriven]
    by_cases hmn : m = n
    · rw [hmn, if_pos rfl]
      cases v <;> exact ⟨nofun, fun w hw => ⟨hc, Option.some.inj hw ▸ hv⟩⟩
    · rw [if_neg hmn]
      exact hg m hm
  | var =>
    rw [hguess] at hn'
    exact absurd hc (hn'.1 rfl)
  | _ =>
    rw [hguess] at hn'
    exact ⟨_, s, rfl, (hn'.2 _ rfl).2, rfl, hg⟩

/-! ## Answers there are -/

/-- What a substitution reads has a lower rank than what it drives. -/
def Ranked (obj : Nat → Obj) (s : Netlist) (rank : Nat → Nat) : Prop :=
  ∀ l n pin1 pin2, s.pinNexus l = some n → obj l = .substitute pin1 pin2 →
    ∀ pin, pin = pin1 ∨ pin = pin2 → ∃ m, s.pinNexus pin = some m ∧ rank m < rank n

/-- The same for the rings. -/
def RankedRings (obj : Nat → Obj) (ring : Nat → List Nat) (rank : Nat → Nat) : Prop :=
  ∀ n, ∀ l ∈ ring n, ∀ pin1 pin2, obj l = .substitute pin1 pin2 →
    ∀ pin, pin = pin1 ∨ pin = pin2 → ∃ m, pin ∈ ring m ∧ rank m < rank n

theorem Ranked.rings {rank : Nat → Nat} (h : Ranked obj s rank) (hs : s.Rings ring) :
    RankedRings obj ring rank := by
  intro n l hl pin1 pin2 hobj pin hpin
  obtain ⟨m, hm, hlt⟩ := h l n pin1 pin2 (hs.pinNexus_eq_some.mpr hl) hobj pin hpin
  exact ⟨m, hs.pinNexus_eq_some.mp hm, hlt⟩

variable {rank : Nat → Nat} {constant : Netlist → Nat → Option (Bool × Netlist)}

/-- The scan goes on if the nexuses that it asks have answers. -/
theorem visit_isSome {cur drivers : Nat} (hdir : (s.link cur).dir = (obj cur).dir)
    (hreads : ∀ pin1 pin2, obj cur = .substitute pin1 pin2 →
      ∃ m₁ b₁ s₁, s.pinNexus pin1 = some m₁ ∧ constant s m₁ = some (b₁, s₁) ∧
        ∃ m₂ r, s₁.pinNexus pin2 = some m₂ ∧ constant s₁ m₂ = some r) :
    ∃ r, visit obj constant n s drivers cur = some r := by
  rw [visit, hdir]
  by_cases htarget : (obj cur).isTarget = true
  · exact ⟨_, if_pos htarget⟩
  · by_cases htran : (obj cur).isTran = true
    · exact ⟨_, (if_neg htarget).trans (if_pos htran)⟩
    · rw [if_neg htarget, if_neg htran]
      cases hd : (obj cur).dir with
      | input => exact ⟨_, rfl⟩
      | passive =>
        dsimp only
        split_ifs <;> exact ⟨_, rfl⟩
      | output =>
        cases hpull : (obj cur).pull with
        | some v => exact ⟨_, rfl⟩
        | none =>
          cases hobj : obj cur with
          | substitute pin1 pin2 =>
            obtain ⟨m₁, b₁, s₁, hm₁, hs₁, m₂, r, hm₂, hs₂⟩ := hreads pin1 pin2 hobj
            cases b₁ with
            | false => exact ⟨(none, s₁), by simp [hm₁, hs₁]⟩
            | true => exact ⟨(if r.1 then some (drivers + 1) else none, r.2), by
                simp [hm₁, hs₁, hm₂, hs₂]⟩
          | _ => exact ⟨_, rfl⟩

/-- The scan has an answer if the nexuses of a lower rank have one. -/
theorem scan_isSome (hc : Answers obj ring constant) (hr : RankedRings obj ring rank)
    (hlower : ∀ P m s, rank m < rank n → Fits obj ring s → RightBut obj ring P s → ring m ≠ [] →
      ∃ r, constant s m = some r)
    {P : Nat → Prop} {as bs : List Nat} {drivers : Nat}
    (h : Scanned obj ring P n as s drivers) (hsplit : ring n = as ++ bs) {fuel : Nat}
    (hfuel : bs.length < fuel) : ∃ r, scan obj constant n fuel s drivers bs.head? = some r := by
  induction fuel generalizing as bs s drivers with
  | zero => omega
  | succ fuel ih =>
    cases bs with
    | nil =>
      rw [List.head?_nil, scan]
      split_ifs <;> exact ⟨_, rfl⟩
    | cons cur bs =>
      have hcur : cur ∈ ring n := by simp [hsplit]
      have hdir := h.fits.dir cur (h.fits.rings.exist n cur hcur)
      have hvisit : ∃ r, visit obj constant n s drivers cur = some r := by
        refine visit_isSome hdir fun pin1 pin2 hobj => ?_
        obtain ⟨m₁, hm₁, hlt₁⟩ := hr n cur hcur pin1 pin2 hobj pin1 (.inl rfl)
        obtain ⟨m₂, hm₂, hlt₂⟩ := hr n cur hcur pin1 pin2 hobj pin2 (.inr rfl)
        obtain ⟨⟨b₁, s₁⟩, hs₁⟩ := hlower _ m₁ s hlt₁ h.fits h.right (List.ne_nil_of_mem hm₁)
        obtain ⟨heq, hright, -⟩ := hc _ s m₁ b₁ s₁ h.fits h.right (List.ne_nil_of_mem hm₁) hs₁
        have hfits := h.fits.of_forget heq
        obtain ⟨r, hs₂⟩ := hlower _ m₂ s₁ hlt₂ hfits hright (List.ne_nil_of_mem hm₂)
        exact ⟨m₁, b₁, s₁, h.fits.rings.pinNexus_eq_some.mpr hm₁, hs₁, m₂, r,
          hfits.rings.pinNexus_eq_some.mpr hm₂, hs₂⟩
      obtain ⟨⟨r, s₁⟩, hvisit⟩ := hvisit
      obtain ⟨-, hstep⟩ := h.step hc hcur (visited hdir hvisit)
      rw [List.head?_cons, scan, hvisit, Option.bind_some]
      cases r with
      | none => exact ⟨_, rfl⟩
      | some d =>
        dsimp only at hstep ⊢
        rw [hstep.fits.rings.nextNlink_eq hsplit]
        exact ih hstep (by rw [hsplit, List.append_assoc]; rfl) (Nat.lt_of_succ_lt_succ hfuel)

/-- `drivers_constant` has an answer if the stack has room for the rank. -/
theorem driversConstant_isSome (hr : RankedRings obj ring rank) {P : Nat → Prop}
    (hs : Fits obj ring s) (hright : RightBut obj ring P s) (hn : ring n ≠ []) {depth : Nat}
    (hdepth : rank n < depth) : ∃ r, driversConstant obj depth s n = some r := by
  induction depth generalizing s n P with
  | zero => omega
  | succ depth ih =>
    rw [driversConstant]
    cases hguess : (s.nexus n).driven with
    | noGuess =>
      dsimp only
      rw [hs.rings.firstNlink_eq hn]
      refine scan_isSome (driversConstant_answers obj ring depth) hr ?_ (Scanned.start hs hright)
        rfl (Nat.lt_succ_of_le (hs.rings.length_le n))
      intro Q m s' hlt hs' hright' hm
      exact ih hs' hright' hm (by omega)
    | _ => exact ⟨_, rfl⟩

end Netlist

end Icarus
