import Icarus.Netlist.Constants
import Icarus.Netlist.Driven
import Icarus.Netlist.Joined

/-!
# The scan of the drivers

If the guesses of a netlist are right, the scan tells whether the drivers of a
nexus are constant, and leaves right guesses. While a scan is under way, the
guess of its nexus may be the value of a pullup that is not the only driver.
-/

namespace Icarus

open Icarus.Core

namespace Netlist

/-! ## Links as drivers -/

/-- Something that is not a constant drives the link, or may do so. -/
def Obj.varies : Obj → Bool
  | net sig => 0 < sig.lref || (sig.dir = .passive && (net sig).isRootPort) ||
      (sig.dir = .output && (net sig).pull = none)
  | tran _ => true
  | other dir => dir = .output
  | _ => false

theorem Net.dir_ne_input (sig : Net) : sig.dir ≠ .input := by
  rw [dir]
  cases sig.type <;> exact nofun

theorem Obj.dir_of_pull {o : Obj} {v : Value} (h : o.pull = some v) : o.dir = .output := by
  cases o with
  | net sig =>
    rw [pull] at h
    rw [dir, Net.dir]
    cases htype : sig.type <;> simp_all
  | _ => exact absurd h (by simp [pull])

theorem Obj.dir_of_value {o : Obj} {v : Verinum.V} (h : o.value = some v) : o.dir = .output := by
  cases o with
  | const _ => rfl
  | net sig =>
    obtain ⟨w, hw, -⟩ := Option.bind_eq_some_iff.mp h
    exact dir_of_pull hw
  | _ => exact absurd h (by simp [value, pull])

/-- The links of a netlist. -/
def kinds (obj : Nat → Obj) : Kinds Nat Verinum.V where
  varies l := (obj l).varies = true
  drives l := (obj l).dir = .output
  reads l p := ∃ q, obj l = .substitute p q ∨ obj l = .substitute q p
  value l := (obj l).value
  undriven := .vz
  drives_of_value _ _ h := Obj.dir_of_value h
  drives_of_reads l p := by
    rintro ⟨q, h | h⟩ <;> rw [h] <;> rfl

/-- A guess is right for a nexus. -/
def Right (obj : Nat → Obj) (on : Nat → Nat → Prop) (n : Nat) (g : Value) : Prop :=
  (g = .var → ¬ Constant (kinds obj) on n) ∧
    ∀ v, g.bit = some v → Constant (kinds obj) on n ∧ IsValue (kinds obj) on n v

/-! ## What a scan leaves as it is -/

section Frame

variable {s s' : Netlist} {ring : Nat → List Nat}

theorem rings_forget : s.forget.Rings ring ↔ s.Rings ring :=
  ⟨fun h => ⟨h.rep, h.nodup, h.unique, h.linked, h.last, h.live, h.exist, h.links_le, h.nexuses_le⟩,
    fun h => ⟨h.rep, h.nodup, h.unique, h.linked, h.last, h.live, h.exist, h.links_le, h.nexuses_le⟩⟩

theorem Rings.of_forget (h : s.Rings ring) (heq : s'.forget = s.forget) : s'.Rings ring :=
  rings_forget.mp (heq ▸ rings_forget.mpr h)

theorem forget_setDriven (s : Netlist) (n : Nat) (g : Value) :
    (s.setDriven n g).forget = s.forget := by
  rw [forget, forget, setDriven]
  congr 1
  funext m
  by_cases hm : m = n
  · rw [hm]
    dsimp only
    rw [Function.update_self]
  · dsimp only
    rw [Function.update_of_ne hm]

theorem link_of_forget (heq : s'.forget = s.forget) : s'.link = s.link := by
  show s'.forget.link = s.forget.link
  rw [heq]

theorem driven_setDriven (s : Netlist) (n m : Nat) (g : Value) :
    ((s.setDriven n g).nexus m).driven = if m = n then g else (s.nexus m).driven := by
  by_cases hm : m = n
  · rw [hm, if_pos rfl, setDriven]
    dsimp only
    rw [Function.update_self]
  · rw [if_neg hm, setDriven]
    dsimp only
    rw [Function.update_of_ne hm]

end Frame

/-! ## The way along a ring -/

namespace Rings

variable {s : Netlist} {ring : Nat → List Nat} (h : s.Rings ring)
include h

theorem firstNlink_eq {n : Nat} (hn : ring n ≠ []) : s.firstNlink n = (ring n).head? := by
  obtain ⟨t, ht, hlast, htmem⟩ := h.list_isSome hn
  have hpos := List.length_pos_iff.mpr hn
  rw [List.getLast?_eq_getElem?] at hlast
  obtain ⟨hi, htlast⟩ := List.getElem?_eq_some_iff.mp hlast
  have hnext := h.next_getElem n hi
  rw [htlast, Nat.sub_add_cancel hpos, Nat.mod_self] at hnext
  rw [firstNlink, nexus_list, ht, Option.bind_some, link_next, hnext, List.head?_eq_getElem?]

theorem nextNlink_eq {n l : Nat} {as bs : List Nat} (hsplit : ring n = as ++ l :: bs) :
    s.nextNlink l = bs.head? := by
  have hmem : l ∈ ring n := by simp [hsplit]
  obtain ⟨t, ht, hlast, htmem⟩ := h.list_isSome (List.ne_nil_of_mem hmem)
  have hnodup := h.nodup n
  rw [hsplit] at hnodup hlast
  cases bs with
  | nil =>
    obtain rfl : l = t := by simpa using hlast
    rw [nextNlink, link_nexus, (h.last l n).mpr ht]
    rfl
  | cons b bs =>
    have hne : l ≠ t := by
      rintro rfl
      rw [List.getLast?_append_cons, List.getLast?_cons_cons] at hlast
      exact (List.nodup_cons.mp (List.nodup_append.mp hnodup).2.1).1 (List.mem_of_getLast? hlast)
    have hnone : s.nexusOf l = none := by
      by_contra hsome
      obtain ⟨m, hm⟩ := Option.ne_none_iff_exists'.mp hsome
      exact hne (Option.some.inj ((((h.nexusOf_iff hmem m).mp hm).2).symm.trans ht))
    have hget : (ring n)[as.length]? = some l := by simp [hsplit]
    obtain ⟨hi, hl⟩ := List.getElem?_eq_some_iff.mp hget
    have hlt : as.length + 1 < (ring n).length := by simp [hsplit]
    have hnext := h.next_getElem n hi
    rw [hl, Nat.mod_eq_of_lt hlt] at hnext
    rw [nextNlink, link_nexus, hnone, link_next, hnext, hsplit]
    simp

theorem pinNexus_eq_some {l n : Nat} : s.pinNexus l = some n ↔ l ∈ ring n := by
  rw [pinNexus, Option.join_eq_some_iff, h.findNexus_iff]

end Rings

/-! ## One link of the scan -/

section Visit

variable {obj : Nat → Obj} {constant : Netlist → Nat → Option (Bool × Netlist)} {s : Netlist}
  {n drivers cur : Nat}

variable (obj constant s n drivers cur) in
/-- What the scan finds at a link. -/
inductive Visited : Option Nat → Netlist → Prop
  | varies (h : (obj cur).varies = true) : Visited none s
  | passes (h : (obj cur).varies = false) (hdir : (obj cur).dir ≠ .output) :
      Visited (some drivers) s
  | pulls {v : Value} (h : (obj cur).varies = false) (hpull : (obj cur).pull = some v) :
      Visited (some (drivers + 1)) (s.setDriven n v)
  | constant {v : Verinum.V} (h : obj cur = .const v) : Visited (some (drivers + 1)) s
  | stops {pin1 pin2 m : Nat} {s' : Netlist} (h : obj cur = .substitute pin1 pin2)
      (hm : s.pinNexus pin1 = some m) (hs' : constant s m = some (false, s')) : Visited none s'
  | reads {pin1 pin2 m₁ m₂ : Nat} {b : Bool} {s₁ s₂ : Netlist} (h : obj cur = .substitute pin1 pin2)
      (hm₁ : s.pinNexus pin1 = some m₁) (hs₁ : constant s m₁ = some (true, s₁))
      (hm₂ : s₁.pinNexus pin2 = some m₂) (hs₂ : constant s₁ m₂ = some (b, s₂)) :
      Visited (if b then some (drivers + 1) else none) s₂

theorem visited {r : Option Nat} {s' : Netlist} (hdir : (s.link cur).dir = (obj cur).dir)
    (h : visit obj constant n s drivers cur = some (r, s')) :
    Visited obj constant s n drivers cur r s' := by
  rw [visit, hdir] at h
  cases hobj : obj cur with
  | tran enable =>
    rw [hobj] at h
    obtain ⟨rfl, rfl⟩ := Prod.mk.inj (Option.some.inj h)
    exact .varies (by rw [hobj]; rfl)
  | const v =>
    rw [hobj] at h
    obtain ⟨rfl, rfl⟩ := Prod.mk.inj (Option.some.inj h)
    exact .constant hobj
  | other dir =>
    rw [hobj] at h
    cases dir with
    | output =>
      obtain ⟨rfl, rfl⟩ := Prod.mk.inj (Option.some.inj h)
      exact .varies (by rw [hobj]; rfl)
    | _ =>
      obtain ⟨rfl, rfl⟩ := Prod.mk.inj (Option.some.inj h)
      exact .passes (by rw [hobj]; rfl) (by rw [hobj]; exact nofun)
  | substitute pin1 pin2 =>
    rw [hobj] at h
    change ((s.pinNexus pin1).bind fun m => (constant s m).bind fun r => _) = some (r, s') at h
    obtain ⟨m₁, hm₁, h⟩ := Option.bind_eq_some_iff.mp h
    obtain ⟨⟨b, s₁⟩, hs₁, h⟩ := Option.bind_eq_some_iff.mp h
    cases b with
    | false =>
      obtain ⟨rfl, rfl⟩ := Prod.mk.inj (Option.some.inj h)
      exact .stops hobj hm₁ hs₁
    | true =>
      change ((s₁.pinNexus pin2).bind fun m => (constant s₁ m).bind fun r => _) = some (r, s') at h
      obtain ⟨m₂, hm₂, h⟩ := Option.bind_eq_some_iff.mp h
      obtain ⟨⟨b, s₂⟩, hs₂, h⟩ := Option.bind_eq_some_iff.mp h
      obtain ⟨rfl, rfl⟩ := Prod.mk.inj (Option.some.inj h)
      exact .reads hobj hm₁ hs₁ hm₂ hs₂
  | net sig =>
    have hvaries : (obj cur).varies = ((Obj.net sig).isTarget ||
        (sig.dir = .passive && (Obj.net sig).isRootPort) ||
        (sig.dir = .output && (Obj.net sig).pull = none)) := by
      rw [hobj]
      rfl
    have hsame : (obj cur).dir = sig.dir := by
      rw [hobj]
      rfl
    rw [hobj] at h
    by_cases htarget : (Obj.net sig).isTarget = true
    · rw [if_pos htarget] at h
      obtain ⟨rfl, rfl⟩ := Prod.mk.inj (Option.some.inj h)
      exact .varies (by rw [hvaries, htarget]; rfl)
    · rw [if_neg htarget, if_neg (by exact Bool.false_ne_true)] at h
      rw [Bool.not_eq_true] at htarget
      have hd : (Obj.net sig).dir = sig.dir := rfl
      rw [hd] at h
      cases hdir' : sig.dir with
      | input => exact absurd hdir' sig.dir_ne_input
      | passive =>
        rw [hdir'] at h
        dsimp only at h
        split_ifs at h with hroot
        · obtain ⟨rfl, rfl⟩ := Prod.mk.inj (Option.some.inj h)
          exact .varies (by rw [hvaries, hdir', hroot]; simp)
        · obtain ⟨rfl, rfl⟩ := Prod.mk.inj (Option.some.inj h)
          rw [Bool.not_eq_true] at hroot
          exact .passes (by rw [hvaries, htarget, hdir', hroot]; rfl)
            (by rw [hsame, hdir']; exact nofun)
      | output =>
        rw [hdir'] at h
        dsimp only at h
        cases hpull : (Obj.net sig).pull with
        | none =>
          rw [hpull] at h
          obtain ⟨rfl, rfl⟩ := Prod.mk.inj (Option.some.inj h)
          exact .varies (by rw [hvaries, hdir', hpull]; simp)
        | some v =>
          rw [hpull] at h
          obtain ⟨rfl, rfl⟩ := Prod.mk.inj (Option.some.inj h)
          exact .pulls (by rw [hvaries, htarget, hdir', hpull]; rfl) (by rw [hobj, hpull])

end Visit

/-! ## The whole scan -/

section Scan

variable (obj : Nat → Obj) (ring : Nat → List Nat)

/-- Links on the rings of the nexuses. -/
def OnRing (l n : Nat) : Prop := l ∈ ring n

/-- The rings are those of the netlist, and the directions those of the objects. -/
structure Fits (s : Netlist) : Prop where
  rings : s.Rings ring
  dir : ∀ l, s.isLink l = true → (s.link l).dir = (obj l).dir

/-- The guesses are right, but for values that some nexuses have. -/
def RightBut (P : Nat → Prop) (s : Netlist) : Prop :=
  ∀ n, ring n ≠ [] →
    ((s.nexus n).driven = .var → ¬ Constant (kinds obj) (OnRing ring) n) ∧
      (¬ P n → ∀ v, (s.nexus n).driven.bit = some v →
        Constant (kinds obj) (OnRing ring) n ∧ IsValue (kinds obj) (OnRing ring) n v)

/-- The answers of a scan are right, and it leaves right guesses. -/
def Answers (constant : Netlist → Nat → Option (Bool × Netlist)) : Prop :=
  ∀ P s n b s', Fits obj ring s → RightBut obj ring P s → ring n ≠ [] →
    constant s n = some (b, s') → s'.forget = s.forget ∧ RightBut obj ring P s' ∧
      (b = false → ¬ Constant (kinds obj) (OnRing ring) n) ∧
      (b = true → (∀ m, ¬ P m) → Constant (kinds obj) (OnRing ring) n)

/-- How many links drive. -/
def driverCount (ls : List Nat) : Nat := (ls.filter fun l => (obj l).dir = .output).length

/-- What is known when the scan of a nexus has come behind some links. -/
structure Scanned (P : Nat → Prop) (n : Nat) (as : List Nat) (s : Netlist) (drivers : Nat) :
    Prop where
  fits : Fits obj ring s
  /-- Behind a pullup, the guess of the nexus may be wrong. -/
  right : RightBut obj ring (fun m => P m ∨ m = n ∧ ∃ x ∈ as, (obj x).pull ≠ none) s
  calm : ∀ x ∈ as, (obj x).varies = false
  count : drivers = driverCount obj as
  /-- A pullup that is the only driver has set the guess. -/
  guess : ∀ x ∈ as, ∀ v, (obj x).pull = some v → drivers = 1 → (s.nexus n).driven = v
  inputs : (∀ m, ¬ P m) → (∀ x ∈ as, (obj x).pull = none) →
    ∀ x ∈ as, ∀ p, (kinds obj).reads x p → ∀ m, p ∈ ring m → Constant (kinds obj) (OnRing ring) m

variable {obj ring} {P : Nat → Prop} {s s' : Netlist} {n drivers : Nat} {as bs : List Nat}

theorem Fits.of_forget (h : Fits obj ring s) (heq : s'.forget = s.forget) : Fits obj ring s' where
  rings := h.rings.of_forget heq
  dir l hl := by
    have hlink : s.isLink l = true := by
      rw [← hl]
      exact congrFun (congrArg Netlist.isLink heq.symm) l
    rw [link_of_forget heq, h.dir l hlink]

/-- A guess is set. -/
theorem RightBut.setDriven {Q : Nat → Prop} (h : RightBut obj ring Q s) {g : Value}
    (hQ : ∀ m, m ≠ n → Q m → P m)
    (hg : (g = .var → ¬ Constant (kinds obj) (OnRing ring) n) ∧ (¬ P n → ∀ v, g.bit = some v →
      Constant (kinds obj) (OnRing ring) n ∧ IsValue (kinds obj) (OnRing ring) n v)) :
    RightBut obj ring P (s.setDriven n g) := by
  intro m hm
  rw [driven_setDriven]
  by_cases hmn : m = n
  · rw [hmn, if_pos rfl]
    exact hg
  · rw [if_neg hmn]
    exact ⟨(h m hm).1, fun hP => (h m hm).2 fun hQm => hP (hQ m hmn hQm)⟩

theorem RightBut.mono {Q : Nat → Prop} (h : RightBut obj ring Q s) (hQ : ∀ m, Q m → P m) :
    RightBut obj ring P s :=
  fun n hn => ⟨(h n hn).1, fun hP => (h n hn).2 fun hQn => hP (hQ n hQn)⟩

theorem driverCount_append (as bs : List Nat) :
    driverCount obj (as ++ bs) = driverCount obj as + driverCount obj bs := by
  rw [driverCount, List.filter_append, List.length_append, driverCount, driverCount]

theorem driverCount_singleton (l : Nat) :
    driverCount obj [l] = if (obj l).dir = .output then 1 else 0 := by
  rw [driverCount]
  by_cases h : (obj l).dir = .output <;> simp [h]

/-- Before the scan has seen a link, nothing is known. -/
theorem Scanned.start (hs : Fits obj ring s) (hP : RightBut obj ring P s) :
    Scanned obj ring P n [] s 0 where
  fits := hs
  right := hP.mono fun _ hm => .inl hm
  calm _ hx := absurd hx List.not_mem_nil
  count := rfl
  guess _ hx := absurd hx List.not_mem_nil
  inputs _ _ _ hx := absurd hx List.not_mem_nil

theorem driverCount_pos {l : Nat} (hl : l ∈ as) (hdir : (obj l).dir = .output) :
    0 < driverCount obj as :=
  List.length_pos_of_mem (List.mem_filter.mpr ⟨hl, decide_eq_true hdir⟩)

theorem not_constant_of_reads {cur p m : Nat} (hcur : cur ∈ ring n)
    (hp : (kinds obj).reads cur p) (hm : p ∈ ring m)
    (hnot : ¬ Constant (kinds obj) (OnRing ring) m) : ¬ Constant (kinds obj) (OnRing ring) n :=
  fun h => hnot (((constant_iff _ _ n).mp h).2.2 m ⟨p, ⟨cur, hcur, hp⟩, hm⟩)

theorem Obj.pull_ne_var {o : Obj} {v : Value} (h : o.pull = some v) :
    v ≠ .var ∧ o.value = v.bit := by
  cases o with
  | net sig =>
    constructor
    · rintro rfl
      rw [pull] at h
      split at h <;> exact absurd h (by simp)
    · show ((net sig).pull.bind Value.bit) = v.bit
      rw [h, Option.bind_some]
  | _ => exact absurd h (by simp [pull])

namespace Scanned

variable {cur : Nat}

/-- The scan ends with a nexus that is not constant. -/
theorem stop (h : RightBut obj ring (fun m => P m ∨ m = n ∧ ∃ x ∈ as, (obj x).pull ≠ none) s)
    (hnot : ¬ Constant (kinds obj) (OnRing ring) n) : RightBut obj ring P (s.setDriven n .var) := by
  refine h.setDriven (fun m hm hQ => hQ.resolve_right fun he => hm he.1) ⟨fun _ => hnot, ?_⟩
  exact fun _ v hv => absurd hv (by simp [Value.bit])

/-- A driver without a value of a pullup is counted. -/
theorem drive (h : Scanned obj ring P n as s drivers) (heq : s'.forget = s.forget)
    (hright : RightBut obj ring (fun m => P m ∨ m = n ∧ ∃ x ∈ as, (obj x).pull ≠ none) s')
    (hcalm : (obj cur).varies = false) (hdir : (obj cur).dir = .output)
    (hpull : (obj cur).pull = none)
    (hinputs : (∀ m, ¬ P m) → (∀ x ∈ as, (obj x).pull = none) → ∀ p, (kinds obj).reads cur p →
      ∀ m, p ∈ ring m → Constant (kinds obj) (OnRing ring) m) :
    Scanned obj ring P n (as ++ [cur]) s' (drivers + 1) where
  fits := h.fits.of_forget heq
  right := hright.mono fun m hm => hm.imp id fun ⟨hmn, x, hx, hxp⟩ =>
    ⟨hmn, x, List.mem_append_left _ hx, hxp⟩
  calm x hx := by
    rcases List.mem_append.mp hx with hx | hx
    · exact h.calm x hx
    · rwa [List.mem_singleton.mp hx]
  count := by rw [driverCount_append, driverCount_singleton, if_pos hdir, h.count]
  guess x hx v hv hone := by
    rcases List.mem_append.mp hx with hx | hx
    · have hpos := driverCount_pos hx (Obj.dir_of_pull hv)
      rw [← h.count] at hpos
      omega
    · rw [List.mem_singleton.mp hx, hpull] at hv
      exact absurd hv (by simp)
  inputs hP hnone x hx p hp m hm := by
    have hold : ∀ x ∈ as, (obj x).pull = none := fun x hx => hnone x (List.mem_append_left _ hx)
    rcases List.mem_append.mp hx with hx | hx
    · exact h.inputs hP hold x hx p hp m hm
    · rw [List.mem_singleton.mp hx] at hp
      exact hinputs hP hold p hp m hm

/-- A link that does not drive is passed. -/
theorem pass (h : Scanned obj ring P n as s drivers) (hcalm : (obj cur).varies = false)
    (hdir : (obj cur).dir ≠ .output) : Scanned obj ring P n (as ++ [cur]) s drivers where
  fits := h.fits
  right := h.right.mono fun m hm => hm.imp id fun ⟨hmn, x, hx, hxp⟩ =>
    ⟨hmn, x, List.mem_append_left _ hx, hxp⟩
  calm x hx := by
    rcases List.mem_append.mp hx with hx | hx
    · exact h.calm x hx
    · rwa [List.mem_singleton.mp hx]
  count := by
    rw [driverCount_append, driverCount_singleton, if_neg hdir, Nat.add_zero]
    exact h.count
  guess x hx v hv hone := by
    rcases List.mem_append.mp hx with hx | hx
    · exact h.guess x hx v hv hone
    · rw [List.mem_singleton.mp hx] at hv
      exact absurd (Obj.dir_of_pull hv) hdir
  inputs hP hnone x hx p hp m hm := by
    have hold : ∀ x ∈ as, (obj x).pull = none := fun x hx => hnone x (List.mem_append_left _ hx)
    rcases List.mem_append.mp hx with hx | hx
    · exact h.inputs hP hold x hx p hp m hm
    · rw [List.mem_singleton.mp hx] at hp
      exact absurd ((kinds obj).drives_of_reads cur p hp) hdir

/-- A pullup sets the guess. -/
theorem pull (h : Scanned obj ring P n as s drivers) {v : Value} (hcalm : (obj cur).varies = false)
    (hpull : (obj cur).pull = some v) :
    Scanned obj ring P n (as ++ [cur]) (s.setDriven n v) (drivers + 1) where
  fits := h.fits.of_forget (forget_setDriven s n v)
  right := by
    have hcur : cur ∈ as ++ [cur] := by simp
    refine h.right.setDriven (fun m hm hQ => .inl (hQ.resolve_right fun he => hm he.1))
      ⟨fun hvar => absurd hvar (Obj.pull_ne_var hpull).1, fun hnot => absurd (.inr ⟨rfl, ?_⟩) hnot⟩
    exact ⟨cur, hcur, by rw [hpull]; exact nofun⟩
  calm x hx := by
    rcases List.mem_append.mp hx with hx | hx
    · exact h.calm x hx
    · rwa [List.mem_singleton.mp hx]
  count := by
    rw [driverCount_append, driverCount_singleton, if_pos (Obj.dir_of_pull hpull), h.count]
  guess x hx w hw hone := by
    rcases List.mem_append.mp hx with hx | hx
    · have hpos := driverCount_pos hx (Obj.dir_of_pull hw)
      rw [← h.count] at hpos
      omega
    · rw [List.mem_singleton.mp hx, hpull] at hw
      rw [driven_setDriven, if_pos rfl]
      exact Option.some.inj hw
  inputs _ hnone := by
    have hcur := hnone cur (by simp)
    rw [hpull] at hcur
    exact absurd hcur (by simp)

/-- The scan goes on behind a link, or ends with a nexus that is not constant. -/
theorem step {constant : Netlist → Nat → Option (Bool × Netlist)}
    (hc : Answers obj ring constant) (h : Scanned obj ring P n as s drivers) (hcur : cur ∈ ring n)
    {r : Option Nat} (hv : Visited obj constant s n drivers cur r s') :
    s'.forget = s.forget ∧
      match r with
      | some drivers => Scanned obj ring P n (as ++ [cur]) s' drivers
      | none => ¬ Constant (kinds obj) (OnRing ring) n ∧
          RightBut obj ring P (s'.setDriven n .var) := by
  cases hv with
  | varies hvaries =>
    have hnot : ¬ Constant (kinds obj) (OnRing ring) n := fun hconst =>
      ((constant_iff _ _ n).mp hconst).1 cur hcur hvaries
    exact ⟨rfl, hnot, stop h.right hnot⟩
  | passes hcalm hdir => exact ⟨rfl, h.pass hcalm hdir⟩
  | pulls hcalm hpull => exact ⟨forget_setDriven s n _, h.pull hcalm hpull⟩
  | constant hobj =>
    refine ⟨rfl, h.drive rfl h.right ?_ ?_ ?_ ?_⟩
    · rw [hobj]
      rfl
    · rw [hobj]
      rfl
    · rw [hobj]
      rfl
    · rintro - - p ⟨q, hq | hq⟩ <;> exact absurd (hobj.symm.trans hq) (by simp)
  | @stops pin1 pin2 m _ hobj hm hs' =>
    have hpin := h.fits.rings.pinNexus_eq_some.mp hm
    obtain ⟨heq, hright, hfalse, -⟩ := hc _ s m false s' h.fits h.right
      (List.ne_nil_of_mem hpin) hs'
    have hnot := not_constant_of_reads hcur ⟨pin2, .inl hobj⟩ hpin (hfalse rfl)
    exact ⟨heq, hnot, stop hright hnot⟩
  | @reads pin1 pin2 m₁ m₂ b s₁ _ hobj hm₁ hs₁ hm₂ hs₂ =>
    have hpin₁ := h.fits.rings.pinNexus_eq_some.mp hm₁
    obtain ⟨heq₁, hright₁, -, htrue₁⟩ := hc _ s m₁ true s₁ h.fits h.right
      (List.ne_nil_of_mem hpin₁) hs₁
    have hfits₁ := h.fits.of_forget heq₁
    have hpin₂ := hfits₁.rings.pinNexus_eq_some.mp hm₂
    obtain ⟨heq₂, hright₂, hfalse₂, htrue₂⟩ := hc _ s₁ m₂ b s' hfits₁ hright₁
      (List.ne_nil_of_mem hpin₂) hs₂
    refine ⟨heq₂.trans heq₁, ?_⟩
    cases b with
    | false =>
      have hnot := not_constant_of_reads hcur ⟨pin1, .inr hobj⟩ hpin₂ (hfalse₂ rfl)
      exact ⟨hnot, stop hright₂ hnot⟩
    | true =>
      refine h.drive (heq₂.trans heq₁) hright₂ ?_ ?_ ?_ ?_
      · rw [hobj]
        rfl
      · rw [hobj]
        rfl
      · rw [hobj]
        rfl
      · intro hP hnone p hp m hm
        have hQ : ∀ m, ¬ (P m ∨ m = n ∧ ∃ x ∈ as, (obj x).pull ≠ none) := fun m hm =>
          hm.elim (hP m) fun ⟨_, x, hx, hxp⟩ => hxp (hnone x hx)
        obtain ⟨q, hq | hq⟩ := hp
        · obtain ⟨rfl, -⟩ := Obj.substitute.inj (hobj.symm.trans hq)
          rw [h.fits.rings.unique m m₁ _ hm hpin₁]
          exact htrue₁ rfl hQ
        · obtain ⟨-, rfl⟩ := Obj.substitute.inj (hobj.symm.trans hq)
          rw [h.fits.rings.unique m m₂ _ hm hpin₂]
          exact htrue₂ rfl hQ

theorem single_iff (hs : s.Rings ring) :
    Single (kinds obj) (OnRing ring) n ↔ driverCount obj (ring n) ≤ 1 := by
  have hnodup : ((ring n).filter fun l => (obj l).dir = .output).Nodup := (hs.nodup n).filter _
  have hmem : ∀ l, l ∈ (ring n).filter (fun l => (obj l).dir = .output) ↔
      l ∈ ring n ∧ (obj l).dir = .output := fun l => by
    rw [List.mem_filter, decide_eq_true_eq]
  rw [driverCount]
  constructor
  · intro hsingle
    by_contra hlt
    obtain ⟨x, y, rest, hfilter⟩ : ∃ x y rest,
        (ring n).filter (fun l => (obj l).dir = .output) = x :: y :: rest := by
      match hf : (ring n).filter (fun l => (obj l).dir = .output) with
      | [] => simp [hf] at hlt
      | [_] => simp [hf] at hlt
      | x :: y :: rest => exact ⟨x, y, rest, rfl⟩
    rw [hfilter] at hnodup hmem
    obtain ⟨hx, hdx⟩ := (hmem x).mp (by simp)
    obtain ⟨hy, hdy⟩ := (hmem y).mp (by simp)
    obtain rfl := hsingle x y hx hy hdx hdy
    exact (List.nodup_cons.mp hnodup).1 List.mem_cons_self
  · intro hle x y hx hy hdx hdy
    have hx' := (hmem x).mpr ⟨hx, hdx⟩
    have hy' := (hmem y).mpr ⟨hy, hdy⟩
    match hf : (ring n).filter (fun l => (obj l).dir = .output) with
    | [] => exact absurd (hf ▸ hx') List.not_mem_nil
    | [z] =>
      rw [hf] at hx' hy'
      rw [List.mem_singleton.mp hx', List.mem_singleton.mp hy']
    | _ :: _ :: _ => simp [hf] at hle

/-- At the end of the links, the number of drivers decides. -/
theorem finish (h : Scanned obj ring P n (ring n) s drivers) (hle : drivers ≤ 1) :
    RightBut obj ring P s ∧ ((∀ m, ¬ P m) → Constant (kinds obj) (OnRing ring) n) := by
  have hcalm : ∀ l, OnRing ring l n → ¬ (kinds obj).varies l := fun l hl hv => by
    have hfalse := h.calm l hl
    rw [show (obj l).varies = true from hv] at hfalse
    exact Bool.noConfusion hfalse
  have hcount := h.count
  have hsingle : Single (kinds obj) (OnRing ring) n :=
    (single_iff h.fits.rings).mpr (hcount ▸ hle)
  by_cases hnone : ∀ x ∈ ring n, (obj x).pull = none
  · refine ⟨h.right.mono fun m hm => hm.resolve_right fun ⟨_, x, hx, hxp⟩ => hxp (hnone x hx),
      fun hP => ⟨hcalm, hsingle, ?_⟩⟩
    rintro m ⟨p, ⟨l, hl, hp⟩, hm⟩
    exact h.inputs hP hnone l hl p hp m hm
  · -- The pullup is the only driver, so that the nexus reads no other.
    rw [not_forall] at hnone
    obtain ⟨x, hnone⟩ := hnone
    rw [Classical.not_imp] at hnone
    obtain ⟨hx, hxp⟩ := hnone
    obtain ⟨v, hv⟩ := Option.ne_none_iff_exists'.mp hxp
    have hdir := Obj.dir_of_pull hv
    have hpos := driverCount_pos hx hdir
    have hguess := h.guess x hx v hv (by omega)
    have hconst : Constant (kinds obj) (OnRing ring) n := by
      refine ⟨hcalm, hsingle, ?_⟩
      rintro m ⟨p, ⟨l, hl, hp⟩, hm⟩
      obtain rfl := hsingle l x hl hx ((kinds obj).drives_of_reads l p hp) hdir
      obtain ⟨q, hq | hq⟩ := hp <;> exact absurd (hq ▸ hv) (by simp [Obj.pull])
    refine ⟨fun m hm => ?_, fun _ => hconst⟩
    by_cases hmn : m = n
    · subst hmn
      rw [hguess]
      refine ⟨fun hvar => absurd hvar (Obj.pull_ne_var hv).1, fun _ w hw => ⟨hconst, ?_⟩⟩
      exact .inl ⟨x, hx, (Obj.pull_ne_var hv).2.trans hw⟩
    · exact ⟨(h.right m hm).1, fun hPm => (h.right m hm).2 fun hQ =>
        hPm (hQ.resolve_right fun he => hmn he.1)⟩

end Scanned

/-- The scan answers right. -/
theorem scan_answers {constant : Netlist → Nat → Option (Bool × Netlist)}
    (hc : Answers obj ring constant) {fuel : Nat} {b : Bool}
    (h : Scanned obj ring P n as s drivers) (hsplit : ring n = as ++ bs)
    (hscan : scan obj constant n fuel s drivers bs.head? = some (b, s')) :
    s'.forget = s.forget ∧ RightBut obj ring P s' ∧
      (b = false → ¬ Constant (kinds obj) (OnRing ring) n) ∧
      (b = true → (∀ m, ¬ P m) → Constant (kinds obj) (OnRing ring) n) := by
  induction fuel generalizing as bs s drivers with
  | zero => exact absurd hscan (by simp [scan])
  | succ fuel ih =>
    cases bs with
    | nil =>
      rw [List.append_nil] at hsplit
      rw [List.head?_nil, scan] at hscan
      rw [← hsplit] at h
      split_ifs at hscan with hlt
      · obtain ⟨rfl, rfl⟩ := Prod.mk.inj (Option.some.inj hscan)
        have hnot : ¬ Constant (kinds obj) (OnRing ring) n := fun hconst => by
          have hle := (Scanned.single_iff h.fits.rings).mp ((constant_iff _ _ n).mp hconst).2.1
          rw [← h.count] at hle
          omega
        exact ⟨forget_setDriven s n _, Scanned.stop h.right hnot, fun _ => hnot, nofun⟩
      · obtain ⟨rfl, rfl⟩ := Prod.mk.inj (Option.some.inj hscan)
        obtain ⟨hright, hconst⟩ := h.finish (by omega)
        exact ⟨rfl, hright, nofun, fun _ => hconst⟩
    | cons cur bs =>
      have hcur : cur ∈ ring n := by simp [hsplit]
      rw [List.head?_cons, scan] at hscan
      obtain ⟨⟨r, s₁⟩, hvisit, hscan⟩ := Option.bind_eq_some_iff.mp hscan
      obtain ⟨heq, hstep⟩ := h.step hc hcur (visited (h.fits.dir cur (h.fits.rings.exist n cur hcur)) hvisit)
      cases r with
      | none =>
        obtain ⟨rfl, rfl⟩ := Prod.mk.inj (Option.some.inj hscan)
        exact ⟨(forget_setDriven s₁ n _).trans heq, hstep.2, fun _ => hstep.1, nofun⟩
      | some d =>
        have hnext := hstep.fits.rings.nextNlink_eq hsplit
        dsimp only at hscan hstep
        rw [hnext] at hscan
        obtain ⟨heq', hrest⟩ := ih hstep (by rw [hsplit, List.append_assoc]; rfl) hscan
        exact ⟨heq'.trans heq, hrest⟩

/-- `drivers_constant` answers right. -/
theorem driversConstant_answers (obj : Nat → Obj) (ring : Nat → List Nat) (depth : Nat) :
    Answers obj ring (driversConstant obj depth) := by
  induction depth with
  | zero => exact fun _ _ _ _ _ _ _ _ h => absurd h (by simp [driversConstant])
  | succ depth ih =>
    intro P s n b s' hfits hright hn h
    rw [driversConstant] at h
    have hn' := hright n hn
    cases hguess : (s.nexus n).driven with
    | noGuess =>
      rw [hguess] at h
      dsimp only at h
      rw [hfits.rings.firstNlink_eq hn] at h
      exact scan_answers ih (Scanned.start hfits hright) rfl h
    | var =>
      rw [hguess] at h hn'
      obtain ⟨rfl, rfl⟩ := Prod.mk.inj (Option.some.inj h)
      exact ⟨rfl, hright, fun _ => hn'.1 rfl, nofun⟩
    | _ =>
      rw [hguess] at h hn'
      obtain ⟨rfl, rfl⟩ := Prod.mk.inj (Option.some.inj h)
      exact ⟨rfl, hright, nofun, fun _ hP => (hn'.2 (hP n) _ rfl).1⟩

end Scan

end Netlist

end Icarus
