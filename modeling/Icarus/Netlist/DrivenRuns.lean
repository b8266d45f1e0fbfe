import Icarus.Netlist.DrivenCalls

/-!
# Answers over runs

In a run in which no kept guess loses what it was made of, every answer about
the drivers of a nexus is the one that there would be without any guess.
-/

namespace Icarus

open Icarus.Core

namespace Netlist

/-! ## Undisturbed uses -/

section Conditions

variable (obj : Nat → Obj) (s : Netlist)

/-- Links on nexuses. -/
def On (l n : Nat) : Prop := s.pinNexus l = some n

/-- No guess was made of what drives the nexus of a link. -/
def Unread (t : Nat) : Prop := ∀ k, s.guess k ≠ .noGuess → ¬ Watches (kinds obj) s.On k t

/-- If a nexus keeps a value when another is joined, only one of them has drivers. -/
def OneDriven (l r : Nat) : Prop :=
  ∀ n m, s.On l n → s.On r m → s.guess m = .vz → (s.guess n).bit ≠ none →
    ∀ x y, s.On x n → s.On y m → (obj x).dir = .output → (obj y).dir ≠ .output

/-- The enable of a switch does not come to a nexus with a value. -/
def EarlyEnable (l r : Nat) : Prop :=
  obj r = .tran true → (∀ m, ¬ s.On r m) → ∀ n, s.On l n → (s.guess n).bit = none

/-- The enable of a switch is not the only reason that a nexus is not constant. -/
def OtherReason (l : Nat) : Prop :=
  obj l = .tran true → ∀ n, s.On l n → s.guess n = .var →
    (∃ x, s.On x n ∧ x ≠ l ∧ (obj x).varies = true) ∨
      ∃ x y, s.On x n ∧ s.On y n ∧ x ≠ y ∧ (obj x).dir = .output ∧ (obj y).dir = .output

/-- A use after which every guess is made of what there is. -/
def Undisturbed : Use → Prop
  | .call (.connect l r) =>
    (∀ n, ¬ (s.On l n ∧ s.On r n)) → Unread obj s l ∧ Unread obj s r ∧ OneDriven obj s l r ∧
      EarlyEnable obj s l r ∧ EarlyEnable obj s r l
  | .call (.unlink l) => s.isLinked l = true → Unread obj s l ∧ OtherReason obj s l
  | .call (.deleteLink l) => Unread obj s l ∧ (s.isLinked l = true → OtherReason obj s l)
  | .call (.nexus l) => (∀ n, ¬ s.On l n) → Unread obj s l
  | _ => True

end Conditions

/-! ## One use -/

section Uses

variable {obj : Nat → Obj} {ring : Nat → List Nat} {s s' : Netlist}

theorem Rings.on_eq (h : s.Rings ring) : s.On = OnRing ring := by
  funext l n
  exact propext h.pinNexus_eq_some

theorem Unread.rings {t : Nat} (hun : Unread obj s t) (h : s.Rings ring) (k : Nat)
    (hk : s.guess k ≠ .noGuess) : ¬ Watches (kinds obj) (OnRing ring) k t := by
  have hwatch := hun k hk
  rwa [h.on_eq] at hwatch

/-- The guesses of some rings are right. -/
def Kept (obj : Nat → Obj) (s : Netlist) : Prop := ∃ ring, Fits obj ring s ∧ Guesses obj ring s

theorem Fits.of_kept {ring' : Nat → List Nat} (h : Fits obj ring s) (hrings : s'.Rings ring')
    (hlink : ∀ l, s'.isLink l = true → s.isLink l = true) (hdir : s'.dirOf = s.dirOf) :
    Fits obj ring' s' where
  rings := hrings
  dir l hl := (congrFun hdir l).trans (h.dir l (hlink l hl))

/-- A link is connected to a nexus. -/
theorem connectNexus_keeps {l r n : Nat} (hs : Fits obj ring s) (hg : Guesses obj ring s)
    (hl : l ∈ ring n) (hr : s.isLink r = true)
    (h : (∀ n, ¬ (s.On l n ∧ s.On r n)) → Unread obj s l ∧ Unread obj s r ∧
      OneDriven obj s l r ∧ EarlyEnable obj s l r)
    (hrun : s.connectNexus n r = some s') : Kept obj s' := by
  have hn := List.ne_nil_of_mem hl
  obtain ⟨t, ht, -, -⟩ := hs.rings.list_isSome hn
  by_cases hmem : ∃ m, r ∈ ring m
  · obtain ⟨m, hm⟩ := hmem
    by_cases hmn : m = n
    · rw [hs.rings.connectNexus_self (hmn ▸ hm)] at hrun
      obtain rfl := Option.some.inj hrun
      exact ⟨ring, hs, hg⟩
    · have hapart : ∀ k, ¬ (s.On l k ∧ s.On r k) := by
        rintro k ⟨hlk, hrk⟩
        rw [hs.rings.on_eq] at hlk hrk
        exact hmn ((hs.rings.unique m k r hm hrk).trans (hs.rings.unique k n l hlk hl))
      obtain ⟨hunl, hunr, hone, -⟩ := h hapart
      obtain ⟨t', ht', -, -⟩ := hs.rings.list_isSome (List.ne_nil_of_mem hm)
      obtain ⟨s₁, hrun₁, hrings, hlink⟩ := hs.rings.connectNexus_join hn hmn hm
      obtain rfl := Option.some.inj (hrun₁.symm.trans hrun)
      obtain ⟨hdir, hguess⟩ := connectNexus_join_kept ht ht' (hs.rings.next_of_mem hm)
        (hs.rings.findNexus_eq hm) hmn hrun
      refine ⟨_, hs.of_kept hrings (fun k hk => hlink ▸ hk) hdir, hg.join hl hm hmn hguess
        (hunl.rings hs.rings) (hunr.rings hs.rings) ?_⟩
      intro hvz hbit x y hx hy
      have hone' := hone n m
      rw [hs.rings.on_eq] at hone'
      exact hone' hl hm hvz hbit x y hx hy
  · have hnone : ∀ m, r ∉ ring m := fun m hm => hmem ⟨m, hm⟩
    have hapart : ∀ k, ¬ (s.On l k ∧ s.On r k) := by
      rintro k ⟨-, hrk⟩
      rw [hs.rings.on_eq] at hrk
      exact hnone k hrk
    obtain ⟨hunl, hunr, -, hearly⟩ := h hapart
    obtain ⟨s₁, hrun₁, hrings, hlink⟩ := hs.rings.connectNexus_append hn hnone hr
    obtain rfl := Option.some.inj (hrun₁.symm.trans hrun)
    obtain ⟨hdir, hguess⟩ := connectNexus_append_kept ht (hs.rings.fields_of_not_mem hnone).1 hrun
    refine ⟨_, hs.of_kept hrings (fun k hk => hlink ▸ hk) hdir, hg.append hl (hs.dir r hr) hguess
      (hunl.rings hs.rings) (hunr.rings hs.rings) fun htran => ?_⟩
    rw [EarlyEnable, hs.rings.on_eq] at hearly
    exact hearly htran hnone n hl

/-- A link gets a nexus of its own. -/
theorem newNexus_keeps {l n : Nat} (hs : Fits obj ring s) (hg : Guesses obj ring s)
    (hl : ∀ m, l ∉ ring m) (hlink : s.isLink l = true) (hun : Unread obj s l)
    (hrun : s.newNexus l = some (n, s')) : Kept obj s' := by
  obtain ⟨hempty, s₁, hnew, hrings, hisLink⟩ := hs.rings.newNexus_spec hl hlink
  obtain ⟨rfl, rfl⟩ := Prod.mk.inj (Option.some.inj (hnew.symm.trans hrun))
  obtain ⟨hdir, hguess⟩ := newNexus_kept (hs.rings.fields_of_not_mem hl).1 hrun
  refine ⟨_, hs.of_kept hrings (fun k hk => hisLink ▸ hk) hdir, hg.fresh hempty hguess ?_⟩
  intro k hk
  rw [List.mem_singleton.mp hk]
  exact hun.rings hs.rings

/-- Two links on no nexus get one. -/
theorem connect_fresh {l r : Nat} (hs : Fits obj ring s) (hg : Guesses obj ring s)
    (hl : s.isLink l = true) (hr : s.isLink r = true) (hne : l ≠ r) (hlnone : ∀ m, l ∉ ring m)
    (hrnone : ∀ m, r ∉ ring m) (hunl : Unread obj s l) (hunr : Unread obj s r)
    (hrun : s.connect l r = some s') : Kept obj s' := by
  obtain ⟨hempty, s₁, hnew, hrings₁, hlink₁⟩ := hs.rings.newNexus_spec hlnone hl
  obtain ⟨hdir₁, hguess₁⟩ := newNexus_kept (hs.rings.fields_of_not_mem hlnone).1 hnew
  rw [hs.rings.connect_new hne hlnone hrnone hnew] at hrun
  have hself : Function.update ring s.nexuses [l] s.nexuses = [l] := Function.update_self _ _ _
  have hrnone₁ : ∀ m, r ∉ Function.update ring s.nexuses [l] m := by
    intro m
    by_cases hm : m = s.nexuses
    · rw [hm, hself, List.mem_singleton]
      exact hne.symm
    · rw [Function.update_of_ne hm]
      exact hrnone m
  have hn : Function.update ring s.nexuses [l] s.nexuses ≠ [] := by rw [hself]; simp
  obtain ⟨t, ht, -, -⟩ := hrings₁.list_isSome hn
  obtain ⟨s₂, hrun₂, hrings₂, hlink₂⟩ := hrings₁.connectNexus_append hn hrnone₁ (hlink₁ ▸ hr)
  obtain rfl := Option.some.inj (hrun₂.symm.trans hrun)
  obtain ⟨hdir₂, hguess₂⟩ :=
    connectNexus_append_kept ht (hrings₁.fields_of_not_mem hrnone₁).1 hrun
  rw [Function.update_idem, hself] at hrings₂
  refine ⟨_, hs.of_kept hrings₂ (fun k hk => hlink₁ ▸ hlink₂ ▸ hk) (hdir₂.trans hdir₁),
    hg.fresh hempty ?_ ?_⟩
  · rw [hguess₂, hguess₁, Function.update_self, ite_self, Function.update_idem]
  · intro k hk
    rcases List.mem_pair.mp hk with rfl | rfl
    · exact hunl.rings hs.rings
    · exact hunr.rings hs.rings

/-- Two links are connected. -/
theorem connect_keeps {l r : Nat} (hs : Fits obj ring s) (hg : Guesses obj ring s)
    (hl : s.isLink l = true) (hr : s.isLink r = true) (hne : l ≠ r)
    (h : Undisturbed obj s (.call (.connect l r))) (hrun : s.connect l r = some s') :
    Kept obj s' := by
  by_cases hlmem : ∃ n, l ∈ ring n
  · obtain ⟨n, hn⟩ := hlmem
    rw [hs.rings.connect_left hne hn] at hrun
    refine connectNexus_keeps hs hg hn hr (fun hapart => ?_) hrun
    obtain ⟨hunl, hunr, hone, hearly, -⟩ := h hapart
    exact ⟨hunl, hunr, hone, hearly⟩
  · have hlnone : ∀ n, l ∉ ring n := fun n hn => hlmem ⟨n, hn⟩
    by_cases hrmem : ∃ n, r ∈ ring n
    · obtain ⟨n, hn⟩ := hrmem
      rw [hs.rings.connect_right hne hlnone hn] at hrun
      refine connectNexus_keeps hs hg hn hl (fun hapart => ?_) hrun
      obtain ⟨hunl, hunr, -, -, hearly⟩ := h fun k hk => hapart k hk.symm
      refine ⟨hunr, hunl, fun n m _ hm => ?_, hearly⟩
      rw [hs.rings.on_eq] at hm
      exact absurd hm (hlnone m)
    · have hrnone : ∀ n, r ∉ ring n := fun n hn => hrmem ⟨n, hn⟩
      have hapart : ∀ k, ¬ (s.On l k ∧ s.On r k) := by
        rintro k ⟨hlk, -⟩
        rw [hs.rings.on_eq] at hlk
        exact hlnone k hlk
      obtain ⟨hunl, hunr, -⟩ := h hapart
      exact connect_fresh hs hg hl hr hne hlnone hrnone hunl hunr hrun

theorem Rings.next_ne_self {l n : Nat} {as bs : List Nat} (h : s.Rings ring)
    (hsplit : ring n = as ++ l :: bs) (hothers : as ++ bs ≠ []) : s.next l ≠ some l := by
  have hlinked := (h.isLinked_iff hsplit).mpr hothers
  rw [isLinked, Bool.and_eq_true, decide_eq_true_eq] at hlinked
  exact hlinked.2

theorem Rings.next_of_alone {l n : Nat} (h : s.Rings ring) (hl : ring n = [l]) :
    s.next l = some l := by
  have hsplit : ring n = [] ++ l :: [] := hl
  have hmem : l ∈ ring n := by simp [hl]
  have halone : s.isLinked l ≠ true := fun hlinked => (h.isLinked_iff hsplit).mp hlinked rfl
  rw [isLinked, link_next, h.next_of_mem hmem] at halone
  rw [h.next_of_mem hmem]
  simpa using halone

theorem OtherReason.rings {l n : Nat} (hother : OtherReason obj s l) (h : s.Rings ring)
    (hl : l ∈ ring n) (htran : obj l = .tran true) (hvar : s.guess n = .var) :
    (∃ x ∈ ring n, x ≠ l ∧ (obj x).varies = true) ∨
      ∃ x ∈ ring n, ∃ y ∈ ring n, x ≠ y ∧ (obj x).dir = .output ∧ (obj y).dir = .output := by
  rw [OtherReason, h.on_eq] at hother
  rcases hother htran n hl hvar with ⟨x, hx, hrest⟩ | ⟨x, y, hx, hy, hrest⟩
  · exact .inl ⟨x, hx, hrest⟩
  · exact .inr ⟨x, hx, y, hy, hrest⟩

/-- A link is unlinked. -/
theorem unlink_keeps {l : Nat} (hs : Fits obj ring s) (hg : Guesses obj ring s)
    (h : s.isLinked l = true → Unread obj s l ∧ OtherReason obj s l)
    (hrun : s.unlink l = some s') : Kept obj s' := by
  by_cases hmem : ∃ n, l ∈ ring n
  · obtain ⟨n, hn⟩ := hmem
    obtain ⟨as, bs, hsplit⟩ := List.append_of_mem hn
    by_cases hothers : as ++ bs = []
    · obtain ⟨rfl, rfl⟩ := List.append_eq_nil_iff.mp hothers
      rw [hs.rings.unlink_alone hsplit] at hrun
      obtain rfl := Option.some.inj hrun
      exact ⟨ring, hs, hg⟩
    · obtain ⟨hun, hother⟩ := h ((hs.rings.isLinked_iff hsplit).mpr hothers)
      rw [hs.rings.unlink_others hsplit hothers] at hrun
      obtain ⟨s₁, hrun₁, hrings, hlink, -⟩ := hs.rings.unlinkNexus_others hsplit hothers
      obtain rfl := Option.some.inj (hrun₁.symm.trans hrun)
      obtain ⟨hdir, hguess⟩ :=
        unlinkNexus_others_kept (hs.rings.next_ne_self hsplit hothers) hrun
      refine ⟨_, hs.of_kept hrings (fun k hk => hlink ▸ hk) hdir, hg.remove hs.rings hsplit
        (hs.dir l (hs.rings.exist n l hn)) (fun k hk => ?_) (fun _ => ?_) (hun.rings hs.rings)
        fun _ => hother.rings hs.rings hn⟩
      · rw [hguess, Function.update_of_ne hk]
      · rw [hguess, Function.update_self]
  · have hnone : ∀ n, l ∉ ring n := fun n hn => hmem ⟨n, hn⟩
    rw [hs.rings.unlink_not_mem hnone] at hrun
    obtain rfl := Option.some.inj hrun
    exact ⟨ring, hs, hg⟩

/-- A link is destroyed. -/
theorem deleteLink_keeps {l : Nat} (hs : Fits obj ring s) (hg : Guesses obj ring s)
    (hun : Unread obj s l) (h : s.isLinked l = true → OtherReason obj s l)
    (hrun : s.deleteLink l = some s') : Kept obj s' := by
  have hsub : ∀ k, Function.update s.isLink l false k = true → s.isLink k = true := by
    intro k hk
    by_cases hkl : k = l
    · rw [hkl, Function.update_self] at hk
      exact absurd hk nofun
    · rwa [Function.update_of_ne hkl] at hk
  by_cases hmem : ∃ n, l ∈ ring n
  · obtain ⟨n, hn⟩ := hmem
    obtain ⟨as, bs, hsplit⟩ := List.append_of_mem hn
    obtain ⟨s₁, s₂, hunlink, hdelete, hrun₁, hlink, hrings⟩ := hs.rings.deleteLink_mem hsplit
    obtain rfl := Option.some.inj (hrun₁.symm.trans hrun)
    have hkept : s₂.guess = s₁.guess ∧ s₂.dirOf = s₁.dirOf := by
      rcases hdelete with rfl | hdelete
      · exact ⟨rfl, rfl⟩
      · exact deleteNexus_kept hdelete
    have hafter : s₁.dirOf = s.dirOf ∧ (∀ k, k ≠ n → s₁.guess k = s.guess k) ∧
        (as ++ bs ≠ [] → s₁.guess n = if s.dirOf l ≠ .input then .noGuess else s.guess n) := by
      by_cases hothers : as ++ bs = []
      · obtain ⟨rfl, rfl⟩ := List.append_eq_nil_iff.mp hothers
        have hself : s.next l = some l := hs.rings.next_of_alone hsplit
        obtain ⟨hdir, hguess⟩ := unlinkNexus_alone_kept hself hunlink
        refine ⟨hdir, fun k hk => ?_, fun hne => absurd rfl hne⟩
        rw [hguess, Function.update_of_ne hk]
      · obtain ⟨hdir, hguess⟩ :=
          unlinkNexus_others_kept (hs.rings.next_ne_self hsplit hothers) hunlink
        refine ⟨hdir, fun k hk => ?_, fun _ => ?_⟩
        · rw [hguess, Function.update_of_ne hk]
        · rw [hguess, Function.update_self]
    obtain ⟨hdir, hguess, hguessn⟩ := hafter
    refine ⟨_, hs.of_kept hrings (fun k hk => hsub k (hlink ▸ hk)) (hkept.2.trans hdir),
      hg.remove hs.rings hsplit (hs.dir l (hs.rings.exist n l hn))
        (fun k hk => (congrFun hkept.1 k).trans (hguess k hk))
        (fun hothers => (congrFun hkept.1 n).trans (hguessn hothers)) (hun.rings hs.rings)
        fun hothers => ?_⟩
    exact (h ((hs.rings.isLinked_iff hsplit).mpr hothers)).rings hs.rings hn
  · have hnone : ∀ n, l ∉ ring n := fun n hn => hmem ⟨n, hn⟩
    rw [hs.rings.deleteLink_not_mem hnone] at hrun
    obtain rfl := Option.some.inj hrun
    exact ⟨ring, hs.of_kept (hs.rings.forget hnone) hsub rfl, hg⟩

/-- A new link has the direction of its object. -/
theorem Fits.newLink {dir : Dir} (hs : Fits obj ring s) (hdir : dir = (obj s.links).dir) :
    Fits obj ring (s.newLink dir) where
  rings := hs.rings.newLink dir
  dir l hl := by
    have hlink : (s.newLink dir).link = Function.update s.link s.links ⟨dir, none, none⟩ := rfl
    have hisLink : (s.newLink dir).isLink = Function.update s.isLink s.links true := rfl
    rw [hlink]
    by_cases hls : l = s.links
    · rw [hls, Function.update_self]
      exact hdir
    · rw [hisLink, Function.update_of_ne hls] at hl
      rw [Function.update_of_ne hls]
      exact hs.dir l hl

theorem call_keeps {c : Call} (hk : Kept obj s) (hmade : Made obj s c)
    (h : Undisturbed obj s (.call c)) (hrun : s.step c = some s') : Kept obj s' := by
  obtain ⟨ring, hs, hg⟩ := hk
  have hc : s.Allowed c := by
    by_contra hnot
    rw [step.eq_def, if_neg hnot] at hrun
    cases hrun
  rw [step.eq_def, if_pos hc] at hrun
  cases c with
  | newLink dir =>
    obtain rfl := Option.some.inj hrun
    exact ⟨ring, hs.newLink hmade, hg⟩
  | setDir l dir => exact absurd hmade id
  | connect l r => exact connect_keeps hs hg hc.1 hc.2.1 hc.2.2 h hrun
  | unlink l => exact unlink_keeps hs hg h hrun
  | nexus l =>
    by_cases hmem : ∃ n, l ∈ ring n
    · obtain ⟨n, hn⟩ := hmem
      dsimp only at hrun
      rw [hs.rings.linkNexus_eq hn] at hrun
      obtain rfl := Option.some.inj hrun
      exact ⟨ring, hs, hg⟩
    · have hnone : ∀ n, l ∉ ring n := fun n hn => hmem ⟨n, hn⟩
      have hun : Unread obj s l := h fun n hon => by
        rw [hs.rings.on_eq] at hon
        exact hnone n hon
      dsimp only at hrun
      rw [hs.rings.linkNexus_new hnone, Option.map_map] at hrun
      obtain ⟨⟨n, s₁⟩, hnew, rfl⟩ := Option.map_eq_some_iff.mp hrun
      exact newNexus_keeps hs hg hnone hc hun hnew
  | deleteLink l => exact deleteLink_keeps hs hg h.1 h.2 hrun

/-- A use that is undisturbed leaves right guesses. -/
theorem use_keeps {depth : Nat} {u : Use} (hk : Kept obj s) (h : Undisturbed obj s u)
    (hrun : useStep obj depth s u = some s') : Kept obj s' := by
  cases u with
  | call c =>
    rw [useStep] at hrun
    split_ifs at hrun with hmade
    exact call_keeps hk hmade h hrun
  | constant l =>
    obtain ⟨ring, hs, hg⟩ := hk
    obtain ⟨n, hn, hrun⟩ := Option.bind_eq_some_iff.mp hrun
    obtain ⟨⟨b, s₁⟩, hask, rfl⟩ := Option.map_eq_some_iff.mp hrun
    have hring := List.ne_nil_of_mem (hs.rings.pinNexus_eq_some.mp hn)
    obtain ⟨-, heq, hg'⟩ := driversConstant_right hs hg hring hask
    exact ⟨ring, hs.of_forget heq, hg'⟩
  | value l =>
    obtain ⟨ring, hs, hg⟩ := hk
    obtain ⟨n, hn, hrun⟩ := Option.bind_eq_some_iff.mp hrun
    split_ifs at hrun with hasked
    obtain ⟨⟨b, s₁⟩, hask, rfl⟩ := Option.map_eq_some_iff.mp hasked
    have hring := List.ne_nil_of_mem (hs.rings.pinNexus_eq_some.mp hn)
    have hc := (driversConstant_right hs hg hring hask).1.mp rfl
    obtain ⟨v, s₂, hvalue, -, heq, hg'⟩ := drivenValue_right hs hg hring hc
    rw [hvalue, Option.map_some] at hrun
    obtain rfl := Option.some.inj hrun
    exact ⟨ring, hs.of_forget heq, hg'⟩

end Uses

/-! ## Runs -/

section Answers

variable {obj : Nat → Obj} {s : Netlist}

theorem kept_empty (obj : Nat → Obj) : Kept obj empty :=
  ⟨fun _ => [], ⟨rings_empty, fun _ hl => absurd hl nofun⟩, fun _ hn => absurd rfl hn⟩

/-- Every undisturbed run leaves right guesses. -/
theorem run_keeps {depth : Nat} {us : List Use}
    (hmeets : Runs.Meets (useStep obj depth) (Undisturbed obj) empty us)
    (hrun : Runs.run (useStep obj depth) empty us = some s) : Kept obj s :=
  Runs.invariant_of_meets (fun _ _ _ hk h hstep => use_keeps hk h hstep) (kept_empty obj) hmeets
    hrun

/-- After a run in which no kept guess loses what it was made of, the answers are those that there
would be without any guess; there are answers if no substitution reads what it drives and the
stack has room. -/
theorem answers_as_fresh {depth : Nat} {us : List Use}
    (hmeets : Runs.Meets (useStep obj depth) (Undisturbed obj) empty us)
    (hrun : Runs.run (useStep obj depth) empty us = some s) {l n : Nat}
    (hl : s.pinNexus l = some n) :
    (∀ d d' r r', driversConstant obj d s n = some r → driversConstant obj d' s.forget n = some r' →
      r.1 = r'.1) ∧
    (∀ rank, Ranked obj s rank → ∀ d, rank n < d →
      (driversConstant obj d s n).isSome ∧ (driversConstant obj d s.forget n).isSome) ∧
    ∀ d r, driversConstant obj d s n = some r → r.1 = true → ∃ v,
      (drivenValue obj s.forget n).map (·.1) = some v ∧
        (drivenValue obj s n).map (·.1) = some v ∧ (drivenValue obj r.2 n).map (·.1) = some v := by
  obtain ⟨ring, hs, hg⟩ := run_keeps hmeets hrun
  have hn : ring n ≠ [] := List.ne_nil_of_mem (hs.rings.pinNexus_eq_some.mp hl)
  have hfresh := fits_forget hs
  have hgfresh : Guesses obj ring s.forget := guesses_forget s
  refine ⟨fun d d' r r' hr hr' => ?_, fun rank hrank d hd => ⟨?_, ?_⟩, fun d r hr htrue => ?_⟩
  · have hiff := (driversConstant_right hs hg hn hr).1
    have hiff' := (driversConstant_right hfresh hgfresh hn hr').1
    exact Bool.eq_iff_iff.mpr (hiff.trans hiff'.symm)
  · exact Option.isSome_iff_exists.mpr
      (driversConstant_isSome (hrank.rings hs.rings) hs (rightBut_false.mpr hg) hn hd)
  · exact Option.isSome_iff_exists.mpr
      (driversConstant_isSome (hrank.rings hs.rings) hfresh (rightBut_false.mpr hgfresh) hn hd)
  · obtain ⟨hiff, heq, hg'⟩ := driversConstant_right hs hg hn hr
    have hc := hiff.mp htrue
    obtain ⟨v, _, hv, hisv, -⟩ := drivenValue_right hfresh hgfresh hn hc
    obtain ⟨w, _, hw, hisw, -⟩ := drivenValue_right hs hg hn hc
    obtain ⟨u, _, hu, hisu, -⟩ := drivenValue_right (hs.of_forget heq) hg' hn hc
    obtain rfl := hc.value_unique hisv hisw
    obtain rfl := hc.value_unique hisv hisu
    rw [hv, hw, hu]
    exact ⟨v, rfl, rfl, rfl⟩

/-- Without substitutions and enables of switches, and with one driver, nothing is disturbed. -/
theorem undisturbed_of_plain (hsub : ∀ l pin1 pin2, obj l ≠ .substitute pin1 pin2)
    (htran : ∀ l, obj l ≠ .tran true)
    (hone : ∀ x y, (obj x).dir = .output → (obj y).dir = .output → x = y) (s : Netlist) (u : Use) :
    Undisturbed obj s u := by
  have hun : ∀ t, Unread obj s t := by
    rintro t k - ⟨_, p, -, ⟨l, -, q, hobj | hobj⟩, -⟩
    · exact hsub l p q hobj
    · exact hsub l q p hobj
  have hearly : ∀ l r, EarlyEnable obj s l r := fun _ r h => absurd h (htran r)
  have hother : ∀ l, OtherReason obj s l := fun l h => absurd h (htran l)
  cases u with
  | call c =>
    cases c with
    | connect l r =>
      refine fun hapart => ⟨hun l, hun r, fun n m hl hr _ _ x y hx hy hdx hdy => ?_, hearly l r,
        hearly r l⟩
      obtain rfl := hone x y hdx hdy
      obtain rfl : n = m := Option.some.inj (hx.symm.trans hy)
      exact hapart n ⟨hl, hr⟩
    | unlink l => exact fun _ => ⟨hun l, hother l⟩
    | deleteLink l => exact ⟨hun l, fun _ => hother l⟩
    | nexus l => exact fun _ => hun l
    | _ => trivial
  | _ => trivial

/-- A constant, a wire and an input. -/
private def wireObj (l : Nat) : Obj :=
  if l = 0 then .const .v1 else if l = 1 then .net ⟨.wire, .notAPort, 0, false⟩ else .other .input

private theorem dir_wireObj {l : Nat} (hl : (wireObj l).dir = .output) : l = 0 := by
  by_contra h0
  by_cases h1 : l = 1
  · subst h1
    exact absurd hl (by decide)
  · simp [wireObj, h0, h1, Obj.dir] at hl

/-- The wire is asked for its value, and then the input is connected. -/
private def wireUses : List Use :=
  [.call (.newLink .output), .call (.newLink .passive), .call (.newLink .input),
    .call (.connect 0 1), .constant 1, .value 1, .call (.connect 1 2)]

private theorem wireUses_meets :
    Runs.Meets (useStep wireObj 1) (Undisturbed wireObj) empty wireUses := by
  refine Runs.meets_of_forall fun s u => undisturbed_of_plain ?_ ?_ ?_ s u
  · intro l pin1 pin2 h
    obtain rfl := dir_wireObj (l := l) (by rw [h]; rfl)
    cases h
  · intro l h
    by_cases h0 : l = 0
    · subst h0
      cases h
    · by_cases h1 : l = 1 <;> simp [wireObj, h0, h1] at h
  · intro x y hx hy
    rw [dir_wireObj hx, dir_wireObj hy]

/-- The wire is still constant and has the value 1. -/
theorem answers_as_fresh_wire :
    ∃ (s : Netlist) (n : Nat) (r : Bool × Netlist),
      Runs.run (useStep wireObj 1) empty wireUses = some s ∧ s.pinNexus 2 = some n ∧
        driversConstant wireObj 1 s n = some r ∧ r.1 = true ∧
          (drivenValue wireObj s.forget n).map (·.1) = some .v1 ∧
            (drivenValue wireObj r.2 n).map (·.1) = some .v1 := by
  have hrun : ((Runs.run (useStep wireObj 1) empty wireUses).any fun s => s.pinNexus 2 = some 0 ∧
      (driversConstant wireObj 1 s 0).any (·.1) ∧
        (drivenValue wireObj s 0).map (·.1) = some .v1) = true := by decide +kernel
  obtain ⟨s, hrun, hs⟩ := (Option.any_eq_true _ _).mp hrun
  obtain ⟨hn, hasked, hv1⟩ := of_decide_eq_true hs
  obtain ⟨r, hr, htrue⟩ := (Option.any_eq_true _ _).mp hasked
  obtain ⟨v, hfresh, hkept, hafter⟩ := (answers_as_fresh wireUses_meets hrun hn).2.2 1 r hr htrue
  obtain rfl := Option.some.inj (hkept.symm.trans hv1)
  exact ⟨s, 0, r, hrun, hn, hr, htrue, hfresh, hafter⟩

/-- Two constants and two wires. -/
private def constObj (l : Nat) : Obj :=
  if l = 0 then .const .v1 else if l = 2 then .const .vz else .net ⟨.wire, .notAPort, 0, false⟩

/-- Each wire is asked for its value, and then they are connected. -/
private def constUses : List Use :=
  [.call (.newLink .output), .call (.newLink .passive), .call (.newLink .output),
    .call (.newLink .passive), .call (.connect 0 1), .call (.connect 2 3), .constant 0, .value 0,
    .constant 2, .value 2, .call (.connect 0 2)]

/-- A nexus with the value 1 is joined with one that a constant z drives, and keeps its guess. -/
theorem not_answers_as_fresh :
    ¬ ∀ (obj : Nat → Obj) (depth : Nat) (us : List Use) (s : Netlist),
      Runs.run (useStep obj depth) empty us = some s → ∀ l n, s.pinNexus l = some n →
        ∀ d d' r r', driversConstant obj d s n = some r →
          driversConstant obj d' s.forget n = some r' → r.1 = r'.1 := by
  intro hall
  have hrun : ((Runs.run (useStep constObj 1) empty constUses).any fun s => s.pinNexus 0 = some 0 ∧
      (driversConstant constObj 1 s 0).any (·.1) ∧
        (driversConstant constObj 1 s.forget 0).any (!·.1)) = true := by decide +kernel
  obtain ⟨s, hrun, hs⟩ := (Option.any_eq_true _ _).mp hrun
  obtain ⟨hn, hkept, hfresh⟩ := of_decide_eq_true hs
  obtain ⟨r, hr, htrue⟩ := (Option.any_eq_true _ _).mp hkept
  obtain ⟨r', hr', hfalse⟩ := (Option.any_eq_true _ _).mp hfresh
  have heq := hall constObj 1 constUses s hrun 0 0 hn 1 1 r r' hr hr'
  rw [← heq, htrue] at hfalse
  cases hfalse

end Answers

end Netlist

end Icarus
