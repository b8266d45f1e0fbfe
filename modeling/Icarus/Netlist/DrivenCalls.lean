import Icarus.Netlist.DrivenAnswers

/-!
# Guesses and calls

What the calls on links do to the guesses and the directions, and which guesses
stay right.
-/

namespace Icarus

open Icarus.Core

namespace Netlist

/-- `driven_` of a nexus. -/
def guess (s : Netlist) (n : Nat) : Value := (s.nexus n).driven

/-- `dir_` of a link. -/
def dirOf (s : Netlist) (l : Nat) : Dir := (s.link l).dir

theorem nexus_driven (s : Netlist) (n : Nat) : (s.nexus n).driven = s.guess n := rfl

/-! ## Assignments -/

section Fields

variable (s : Netlist) (l n : Nat)

@[simp] theorem setNext_kept (next : Option Nat) :
    (s.setNext l next).guess = s.guess ∧ (s.setNext l next).dirOf = s.dirOf := by
  refine ⟨rfl, ?_⟩
  funext k
  by_cases h : k = l <;> simp [setNext, dirOf, h]

@[simp] theorem setNexus_kept (nexus : Option Nat) :
    (s.setNexus l nexus).guess = s.guess ∧ (s.setNexus l nexus).dirOf = s.dirOf := by
  refine ⟨rfl, ?_⟩
  funext k
  by_cases h : k = l <;> simp [setNexus, dirOf, h]

@[simp] theorem setList_kept (list : Option Nat) :
    (s.setList n list).guess = s.guess ∧ (s.setList n list).dirOf = s.dirOf := by
  refine ⟨?_, rfl⟩
  funext k
  by_cases h : k = n <;> simp [setList, guess, h]

@[simp] theorem setName_kept (name : Option String) :
    (s.setName n name).guess = s.guess ∧ (s.setName n name).dirOf = s.dirOf := by
  refine ⟨?_, rfl⟩
  funext k
  by_cases h : k = n <;> simp [setName, guess, h]

@[simp] theorem setDriven_kept (driven : Value) :
    (s.setDriven n driven).guess = Function.update s.guess n driven ∧
      (s.setDriven n driven).dirOf = s.dirOf := by
  refine ⟨?_, rfl⟩
  funext k
  by_cases h : k = n <;> simp [setDriven, guess, h]

end Fields

/-! ## Calls -/

section Calls

variable {s s' : Netlist} {n r : Nat}

/-- A link that is appended drops the guess, if it is no input. -/
theorem connectNexus_append_kept {t : Nat} (hlist : s.list n = some t) (hr : s.next r = none)
    (h : s.connectNexus n r = some s') : s'.dirOf = s.dirOf ∧
      s'.guess = Function.update s.guess n
        (if s.dirOf r ≠ .input then .noGuess else s.guess n) := by
  have hlist' : ((s.setName n none).nexus n).list = some t := by
    rw [nexus_list, (setName_fields s n none).2.2.1, hlist]
  have hnext : ((s.setName n none).link r).next = none := hr
  have hdir : ((s.setName n none).link r).dir = s.dirOf r := rfl
  rw [connectNexus, link_next, hr] at h
  simp only [Option.isSome_none, Bool.false_eq_true, if_false, Option.pure_def,
    Option.bind_eq_bind, Option.bind_some, reduceCtorEq, hlist', hnext, hdir] at h
  obtain rfl := Option.some.inj h
  split_ifs <;> simp

theorem deleteNexus_kept (h : s.deleteNexus n = some s') :
    s'.guess = s.guess ∧ s'.dirOf = s.dirOf := by
  rw [deleteNexus] at h
  split_ifs at h
  obtain rfl := Option.some.inj h
  exact ⟨rfl, rfl⟩

/-- A nexus that is joined drops the guess, if its own is not that it is undriven. -/
theorem connectNexus_join_kept {m t₁ t₂ k : Nat} (hlist : s.list n = some t₁)
    (hlist' : s.list m = some t₂) (hr : s.next r = some k) (hfind : s.findNexus r = some (some m))
    (hmn : m ≠ n) (h : s.connectNexus n r = some s') : s'.dirOf = s.dirOf ∧
      s'.guess = Function.update s.guess n
        (if s.guess m ≠ .vz then .noGuess else s.guess n) := by
  have hlist₁ : ((s.setName n none).nexus n).list = some t₁ := by
    rw [nexus_list, (setName_fields s n none).2.2.1, hlist]
  have hnext : ((s.setName n none).link r).next = some k := hr
  have hguess : ((s.setName n none).nexus m).driven = s.guess m :=
    congrFun (setName_kept s n none).1 m
  obtain ⟨s₁, hs₁⟩ : ∃ s₁, s₁ = if s.guess m ≠ .vz then
      (s.setName n none).setDriven n .noGuess else s.setName n none := ⟨_, rfl⟩
  have hlist₂ : (s₁.nexus m).list = some t₂ := by
    rw [nexus_list, hs₁]
    split_ifs <;> simp [hlist']
  have hkept : s₁.dirOf = s.dirOf ∧ s₁.guess = Function.update s.guess n
      (if s.guess m ≠ .vz then .noGuess else s.guess n) := by
    rw [hs₁]
    split_ifs <;> simp
  rw [connectNexus, link_next, hr, hfind] at h
  simp only [Option.isSome_some, if_true, Option.pure_def, Option.bind_eq_bind, Option.bind_some,
    Option.some_inj, Ne.symm hmn, if_false, hlist₁, hnext, hguess, ← hs₁, hlist₂] at h
  obtain ⟨hguess', hdir'⟩ := deleteNexus_kept h
  rw [hguess', hdir', ← hkept.1, ← hkept.2]
  simp

/-- A new nexus has no guess. -/
theorem newNexus_kept {l : Nat} (hl : s.next l = none) (h : s.newNexus l = some (n, s')) :
    s'.dirOf = s.dirOf ∧ s'.guess = Function.update s.guess n .noGuess := by
  obtain ⟨s₁, hs₁⟩ : ∃ s₁, s₁ = ({ s with
    isNexus := Function.update s.isNexus s.nexuses true
    nexuses := s.nexuses + 1
    nexus := Function.update s.nexus s.nexuses ⟨none, none, .noGuess⟩ } : Netlist) := ⟨_, rfl⟩
  have hkept : s₁.dirOf = s.dirOf ∧
      s₁.guess = Function.update s.guess s.nexuses .noGuess := by
    rw [hs₁]
    refine ⟨rfl, ?_⟩
    funext k
    by_cases hk : k = s.nexuses <;> simp [hk, guess]
  rw [newNexus] at h
  simp only [← hs₁] at h
  rw [link_next, hl] at h
  obtain ⟨rfl, rfl⟩ := Prod.mk.inj (Option.some.inj h)
  simp [hkept]

/-- A link that is taken off drops the guess, if it is no input. -/
theorem unlinkNexus_others_kept {a : Nat} (ha : s.next a ≠ some a)
    (h : s.unlinkNexus n a = some s') : s'.dirOf = s.dirOf ∧
      s'.guess = Function.update s.guess n
        (if s.dirOf a ≠ .input then .noGuess else s.guess n) := by
  obtain ⟨s₁, hs₁⟩ : ∃ s₁, s₁ = if s.dirOf a ≠ .input then
      (s.setName n none).setDriven n .noGuess else s.setName n none := ⟨_, rfl⟩
  have hkept : s₁.dirOf = s.dirOf ∧ s₁.guess = Function.update s.guess n
      (if s.dirOf a ≠ .input then .noGuess else s.guess n) := by
    rw [hs₁]
    split_ifs <;> simp
  have hnext : ((s.setName n none).link a).next = s.next a := rfl
  have hdir : ((s.setName n none).link a).dir = s.dirOf a := rfl
  rw [unlinkNexus] at h
  simp only [hnext, ha, if_false, hdir, ← hs₁, Option.bind_eq_bind, Option.pure_def] at h
  obtain ⟨list, -, h⟩ := Option.bind_eq_some_iff.mp h
  obtain ⟨prev, -, h⟩ := Option.bind_eq_some_iff.mp h
  rw [← hkept.2, ← hkept.1]
  split_ifs at h
  · obtain ⟨-, -, h⟩ := Option.bind_eq_some_iff.mp h
    obtain rfl := Option.some.inj h
    simp
  · obtain rfl := Option.some.inj h
    simp

/-- The last link of a nexus drops the guess. -/
theorem unlinkNexus_alone_kept {a : Nat} (ha : s.next a = some a)
    (h : s.unlinkNexus n a = some s') : s'.dirOf = s.dirOf ∧
      s'.guess = Function.update s.guess n .noGuess := by
  have hnext : ((s.setName n none).link a).next = some a := ha
  rw [unlinkNexus] at h
  simp only [hnext, if_true, Option.bind_eq_bind, Option.pure_def] at h
  obtain ⟨-, -, h⟩ := Option.bind_eq_some_iff.mp h
  obtain ⟨-, -, h⟩ := Option.bind_eq_some_iff.mp h
  obtain rfl := Option.some.inj h
  simp

end Calls

/-! ## Guesses that stay right

A guess is kept when an input comes or goes, and when an undriven nexus is joined.
It stays right if nothing changes that it was made of: no enable of a switch and
no second driver, and no nexus that substitutions read for it. -/

variable {obj : Nat → Obj} {ring ring' : Nat → List Nat} {s s' : Netlist} {n : Nat}

section Change

theorem Right.congr {g : Value}
    (hq : g ≠ .noGuess → Quiet (kinds obj) (OnRing ring) (OnRing ring') n)
    (hn : ∀ l, OnRing ring' l n ↔ OnRing ring l n) (h : Right obj (OnRing ring) n g) :
    Right obj (OnRing ring') n g := by
  constructor
  · rintro rfl hc
    exact h.1 rfl ((constant_congr (hq nofun) hn).mp hc)
  · intro v hv
    obtain ⟨hc, hval⟩ := h.2 v hv
    have hne : g ≠ .noGuess := by
      rintro rfl
      exact absurd hv nofun
    exact ⟨(constant_congr (hq hne) hn).mpr hc, (isValue_congr hn v).mpr hval⟩

theorem right_noGuess (on : Nat → Nat → Prop) : Right obj on n .noGuess :=
  ⟨nofun, fun _ hv => absurd hv nofun⟩

/-- The ring of one nexus changes, and nothing that a guess was made of watches the links. -/
theorem Guesses.of_change {T : Nat → Prop} (hg : Guesses obj ring s)
    (hsame : ∀ p, (∀ t, T t → p ≠ t ∧ ∀ j, OnRing ring p j → ¬ OnRing ring t j) →
      ∀ j, (OnRing ring' p j ↔ OnRing ring p j) ∧
        (OnRing ring p j → ∀ l, OnRing ring' l j ↔ OnRing ring l j))
    (hun : ∀ t, T t → ∀ k, s.guess k ≠ .noGuess → ¬ Watches (kinds obj) (OnRing ring) k t)
    (hother : ∀ k, k ≠ n → ring' k ≠ [] → ring' k = ring k ∧ s'.guess k = s.guess k)
    (hn : ring' n ≠ [] →
      (∀ k, s.guess k ≠ .noGuess → Quiet (kinds obj) (OnRing ring) (OnRing ring') k) →
        Right obj (OnRing ring') n (s'.guess n)) : Guesses obj ring' s' := by
  have hquiet : ∀ k, s.guess k ≠ .noGuess → Quiet (kinds obj) (OnRing ring) (OnRing ring') k :=
    fun k hk => quiet_of_not_watches hsame fun t ht => hun t ht k hk
  intro k hk
  rw [nexus_driven]
  by_cases hkn : k = n
  · subst hkn
    exact hn hk hquiet
  · obtain ⟨hring, hguess⟩ := hother k hkn hk
    rw [hguess]
    refine (hg k (hring ▸ hk)).congr (hquiet k) fun l => ?_
    rw [OnRing, hring]
    rfl

/-- An input that varies is the enable of a switch. -/
theorem Obj.eq_enable {o : Obj} (hdir : o.dir = .input) (hvaries : o.varies = true) :
    o = .tran true := by
  cases o with
  | tran enable =>
    cases enable with
    | true => rfl
    | false => exact absurd hdir nofun
  | net sig => exact absurd hdir sig.dir_ne_input
  | other dir =>
    rw [show dir = .input from hdir] at hvaries
    exact absurd hvaries (by decide)
  | _ => exact absurd hvaries nofun

/-- Links on no ring get a new nexus. -/
theorem Guesses.fresh (hg : Guesses obj ring s) {ls : List Nat} (hempty : ring n = [])
    (hguess : s'.guess = Function.update s.guess n .noGuess)
    (hun : ∀ l ∈ ls, ∀ k, s.guess k ≠ .noGuess → ¬ Watches (kinds obj) (OnRing ring) k l) :
    Guesses obj (Function.update ring n ls) s' := by
  refine hg.of_change (T := fun l => l ∈ ls) (n := n) ?_ hun (fun k hk _ => ?_) fun _ _ => ?_
  · intro p hp j
    have hpls : p ∉ ls := fun hmem => (hp p hmem).1 rfl
    simp only [OnRing]
    by_cases hjn : j = n
    · rw [hjn, Function.update_self, hempty]
      exact ⟨iff_of_false hpls List.not_mem_nil, fun h => absurd h List.not_mem_nil⟩
    · rw [Function.update_of_ne hjn]
      exact ⟨Iff.rfl, fun _ _ => Iff.rfl⟩
  · rw [hguess, Function.update_of_ne hk, Function.update_of_ne hk]
    exact ⟨rfl, rfl⟩
  · rw [hguess, Function.update_self]
    exact right_noGuess _

/-- A link is appended to a ring. -/
theorem Guesses.append {l r : Nat} (hg : Guesses obj ring s) (hl : l ∈ ring n)
    (hdir : s.dirOf r = (obj r).dir)
    (hguess : s'.guess = Function.update s.guess n
      (if s.dirOf r ≠ .input then .noGuess else s.guess n))
    (hunl : ∀ k, s.guess k ≠ .noGuess → ¬ Watches (kinds obj) (OnRing ring) k l)
    (hunr : ∀ k, s.guess k ≠ .noGuess → ¬ Watches (kinds obj) (OnRing ring) k r)
    (hlate : obj r = .tran true → (s.guess n).bit = none) :
    Guesses obj (Function.update ring n (ring n ++ [r])) s' := by
  have hmem : ∀ m x, OnRing (Function.update ring n (ring n ++ [r])) x m ↔
      m = n ∧ x = r ∨ x ∈ ring m := fun m x => mem_append ring n r m x
  refine hg.of_change (T := fun t => t = l ∨ t = r) (n := n) ?_ ?_ (fun k hk _ => ?_)
    fun _ hquiet => ?_
  · intro p hp j
    have hpr := (hp r (.inr rfl)).1
    have hpl := (hp l (.inl rfl)).2
    refine ⟨by rw [hmem, or_iff_right fun h => hpr h.2]; rfl, fun hpj x => ?_⟩
    rw [hmem, or_iff_right]
    · rfl
    · rintro ⟨rfl, -⟩
      exact hpl j hpj hl
  · rintro t (rfl | rfl)
    · exact hunl
    · exact hunr
  · rw [hguess, Function.update_of_ne hk, Function.update_of_ne hk]
    exact ⟨rfl, rfl⟩
  · rw [hguess, Function.update_self]
    split_ifs with hinput
    · exact right_noGuess _
    · rw [not_not, hdir] at hinput
      have hdrives : ¬ (kinds obj).drives r := fun h => by
        rw [show (obj r).dir = .output from h] at hinput
        exact absurd hinput nofun
      have hn : ∀ x, OnRing (Function.update ring n (ring n ++ [r])) x n ↔
          OnRing ring x n ∨ x = r := fun x => by
        rw [hmem, and_iff_right rfl, or_comm]
        rfl
      have hright := hg n (List.ne_nil_of_mem hl)
      rw [nexus_driven] at hright
      constructor
      · intro hvar hc
        have hq := hquiet n (by rw [hvar]; exact nofun)
        exact hright.1 hvar ((constant_append hq hn hdrives).mp hc).1
      · intro v hv
        have hq := hquiet n fun hno => by
          rw [hno] at hv
          exact absurd hv nofun
        obtain ⟨hc, hval⟩ := hright.2 v hv
        refine ⟨(constant_append hq hn hdrives).mpr ⟨hc, fun hvaries => ?_⟩,
          (isValue_append hn hdrives v).mpr hval⟩
        rw [hlate (Obj.eq_enable hinput hvaries)] at hv
        exact absurd hv nofun

/-- The links of another nexus are put behind those of a nexus. -/
theorem Guesses.join {l r m : Nat} (hg : Guesses obj ring s) (hl : l ∈ ring n) (hr : r ∈ ring m)
    (hmn : m ≠ n)
    (hguess : s'.guess = Function.update s.guess n
      (if s.guess m ≠ .vz then .noGuess else s.guess n))
    (hunl : ∀ k, s.guess k ≠ .noGuess → ¬ Watches (kinds obj) (OnRing ring) k l)
    (hunr : ∀ k, s.guess k ≠ .noGuess → ¬ Watches (kinds obj) (OnRing ring) k r)
    (hdrives : s.guess m = .vz → (s.guess n).bit ≠ none → ∀ x y, x ∈ ring n → y ∈ ring m →
      (obj x).dir = .output → (obj y).dir ≠ .output) :
    Guesses obj (Function.update (Function.update ring n (ring n ++ ring m)) m []) s' := by
  have hmem : ∀ k x,
      OnRing (Function.update (Function.update ring n (ring n ++ ring m)) m []) x k ↔
        k = n ∧ x ∈ ring m ∨ k ≠ m ∧ x ∈ ring k := fun k x => mem_join ring hmn k x
  refine hg.of_change (T := fun t => t = l ∨ t = r) (n := n) ?_ ?_ (fun k hk hne => ?_)
    fun _ hquiet => ?_
  · intro p hp j
    have hpl := (hp l (.inl rfl)).2
    have hpr := (hp r (.inr rfl)).2
    have hpm : p ∉ ring m := fun h => hpr m h hr
    constructor
    · rw [hmem, or_iff_right fun h => hpm h.2]
      exact and_iff_right_of_imp fun h hjm => hpm (hjm ▸ h)
    · intro hpj x
      have hjn : j ≠ n := by
        rintro rfl
        exact hpl j hpj hl
      have hjm : j ≠ m := by
        rintro rfl
        exact hpm hpj
      rw [hmem, or_iff_right fun h => hjn h.1, and_iff_right hjm]
      rfl
  · rintro t (rfl | rfl)
    · exact hunl
    · exact hunr
  · have hkm : k ≠ m := by
      rintro rfl
      exact hne (Function.update_self _ _ _)
    rw [hguess, Function.update_of_ne hk, Function.update_of_ne hkm, Function.update_of_ne hk]
    exact ⟨rfl, rfl⟩
  · rw [hguess, Function.update_self]
    split_ifs with hvz
    · exact right_noGuess _
    · rw [not_not] at hvz
      have hn : ∀ x, OnRing (Function.update (Function.update ring n (ring n ++ ring m)) m []) x n ↔
          OnRing ring x n ∨ OnRing ring x m := fun x => by
        rw [hmem, and_iff_right rfl, and_iff_right hmn.symm, or_comm]
        rfl
      have hright := hg n (List.ne_nil_of_mem hl)
      have hrightm := hg m (List.ne_nil_of_mem hr)
      rw [nexus_driven] at hright hrightm
      obtain ⟨hcm, hvm⟩ := hrightm.2 .vz (by rw [hvz]; rfl)
      have hqm := hquiet m (by rw [hvz]; exact nofun)
      constructor
      · intro hvar hc
        have hqn := hquiet n (by rw [hvar]; exact nofun)
        exact hright.1 hvar (constant_of_join hqn (fun x hx => (hn x).mpr (.inl hx)) hc)
      · intro v hv
        have hbit : (s.guess n).bit ≠ none := by
          rw [hv]
          exact nofun
        have hqn := hquiet n fun hno => by
          rw [hno] at hbit
          exact hbit rfl
        obtain ⟨hc, hval⟩ := hright.2 v hv
        exact ⟨constant_join hqn hqm hn hc hcm (hdrives hvz hbit),
          isValue_join hn hval hvm (hdrives hvz hbit)⟩

/-- A link is taken off a ring. -/
theorem Guesses.remove {a : Nat} {as bs : List Nat} (hs : s.Rings ring) (hg : Guesses obj ring s)
    (hsplit : ring n = as ++ a :: bs) (hdir : s.dirOf a = (obj a).dir)
    (hguess : ∀ k, k ≠ n → s'.guess k = s.guess k)
    (hguessn : as ++ bs ≠ [] →
      s'.guess n = if s.dirOf a ≠ .input then .noGuess else s.guess n)
    (hun : ∀ k, s.guess k ≠ .noGuess → ¬ Watches (kinds obj) (OnRing ring) k a)
    (henable : as ++ bs ≠ [] → obj a = .tran true → s.guess n = .var →
      (∃ x ∈ ring n, x ≠ a ∧ (obj x).varies = true) ∨
        ∃ x ∈ ring n, ∃ y ∈ ring n, x ≠ y ∧ (obj x).dir = .output ∧ (obj y).dir = .output) :
    Guesses obj (Function.update ring n (as ++ bs)) s' := by
  have ha : a ∈ ring n := by simp [hsplit]
  have hmem : ∀ m x, OnRing (Function.update ring n (as ++ bs)) x m ↔ x ≠ a ∧ x ∈ ring m :=
    fun m x => hs.mem_remove hsplit m x
  refine hg.of_change (T := fun t => t = a) (n := n) ?_ ?_ (fun k hk _ => ?_)
    fun hothers hquiet => ?_
  · intro p hp j
    have hpa := hp a rfl
    refine ⟨by rw [hmem, and_iff_right hpa.1]; rfl, fun hpj x => ?_⟩
    rw [hmem]
    refine and_iff_right_of_imp fun hx => ?_
    rintro rfl
    exact hpa.2 j hpj hx
  · rintro t rfl
    exact hun
  · rw [Function.update_of_ne hk]
    exact ⟨rfl, hguess k hk⟩
  · rw [Function.update_self] at hothers
    rw [hguessn hothers]
    split_ifs with hinput
    · exact right_noGuess _
    · rw [not_not, hdir] at hinput
      have hdrives : ¬ (kinds obj).drives a := fun h => by
        rw [show (obj a).dir = .output from h] at hinput
        exact absurd hinput nofun
      have hn : ∀ x, OnRing (Function.update ring n (as ++ bs)) x n ↔ OnRing ring x n ∧ x ≠ a :=
        fun x => (hmem n x).trans and_comm
      have hright := hg n (List.ne_nil_of_mem ha)
      rw [nexus_driven] at hright
      constructor
      · intro hvar hc
        have hq := hquiet n (by rw [hvar]; exact nofun)
        by_cases hvaries : (obj a).varies = true
        · -- The switch was not the only reason.
          obtain ⟨calm, single, -⟩ := (constant_iff _ _ n).mp hc
          rcases henable hothers (Obj.eq_enable hinput hvaries) hvar with
            ⟨x, hx, hxa, hxv⟩ | ⟨x, hx, y, hy, hxy, hdx, hdy⟩
          · exact calm x ((hn x).mpr ⟨hx, hxa⟩) hxv
          · have hne : ∀ z, (obj z).dir = .output → z ≠ a := by
              rintro z hz rfl
              exact hdrives hz
            exact hxy (single x y ((hn x).mpr ⟨hx, hne x hdx⟩) ((hn y).mpr ⟨hy, hne y hdy⟩) hdx hdy)
        · exact hright.1 hvar ((constant_remove hq hn hdrives).2 hc hvaries)
      · intro v hv
        have hq := hquiet n fun hno => by
          rw [hno] at hv
          exact absurd hv nofun
        obtain ⟨hc, hval⟩ := hright.2 v hv
        exact ⟨(constant_remove hq hn hdrives).1 hc, isValue_remove hn hdrives hval⟩

end Change

end Netlist

end Icarus
