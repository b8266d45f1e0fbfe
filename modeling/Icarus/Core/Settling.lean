import Mathlib.Data.Fintype.Pigeonhole

/-!
# Passes until nothing changes

A pass says whether it has changed something, and passes are made until one has not. If what a pass
does depends on finitely many keys, the passes end unless one of them brings back the key of an
earlier one. They do not bring it back if the parts of the key can be ordered so that each depends
on earlier ones only.
-/

namespace Icarus.Core.Settling

variable {σ κ : Type*}

/-- Make passes, at most so many, until one changes nothing. -/
def loop (pass : σ → Option (σ × Bool)) : Nat → σ → Option σ
  | 0, _ => none
  | passes + 1, s => (pass s).bind fun r => if r.2 then loop pass passes r.1 else some r.1

/-- A pass that is given enough depth. -/
def Made (pass : Nat → σ → Option (σ × Bool)) (s s' : σ) (changed : Bool) : Prop :=
  ∃ depth, pass depth s = some (s', changed)

/-- So many passes change something, and one more does not. -/
inductive SettlesIn (Step : σ → σ → Bool → Prop) : Nat → σ → Prop
  | done {s s' : σ} : Step s s' false → SettlesIn Step 0 s
  | again {n : Nat} {s s' : σ} : Step s s' true → SettlesIn Step n s' → SettlesIn Step (n + 1) s

/-- Passes that all change something bring back a key. -/
def Recurs (Step : σ → σ → Bool → Prop) (key : σ → κ) (s : σ) : Prop :=
  ∃ (f : Nat → σ) (i j : Nat), f 0 = s ∧ i < j ∧ (∀ a < j, Step (f a) (f (a + 1)) true) ∧
    key (f i) = key (f j)

/-- What a pass does depends on the key alone. -/
def Keyed (Step : σ → σ → Bool → Prop) (key : σ → κ) (Inv : σ → Prop) : Prop :=
  ∀ s t s' t' b c, Inv s → Inv t → key s = key t → Step s s' b → Step t t' c →
    b = c ∧ key s' = key t'

/-! ## The loop -/

section Loop

variable {pass : Nat → σ → Option (σ × Bool)}

/-- With enough depth the loop makes the passes that settle. -/
theorem SettlesIn.loop (hmono : ∀ d d' s r, d ≤ d' → pass d s = some r → pass d' s = some r)
    {m : Nat} {s : σ} (h : SettlesIn (Made pass) m s) :
    ∃ enough, ∀ depth, enough ≤ depth → ∀ passes, m < passes →
      ∃ s', Settling.loop (pass depth) passes s = some s' := by
  induction h with
  | @done s s' hstep =>
    obtain ⟨enough, hpass⟩ := hstep
    refine ⟨enough, fun depth hdepth passes hpasses => ⟨s', ?_⟩⟩
    obtain ⟨passes, rfl⟩ : ∃ k, passes = k + 1 := ⟨passes - 1, by omega⟩
    simp [Settling.loop, hmono _ _ _ _ hdepth hpass]
  | @again m s s' hstep _ ih =>
    obtain ⟨first, hpass⟩ := hstep
    obtain ⟨rest, hrest⟩ := ih
    refine ⟨max first rest, fun depth hdepth passes hpasses => ?_⟩
    obtain ⟨passes, rfl⟩ : ∃ k, passes = k + 1 := ⟨passes - 1, by omega⟩
    obtain ⟨s'', hs''⟩ := hrest depth (by omega) passes (by omega)
    refine ⟨s'', ?_⟩
    rw [Settling.loop, hmono _ _ _ _ (by omega) hpass]
    exact hs''

/-- A loop that ends has settled. -/
theorem settlesIn_of_loop {depth : Nat} {passes : Nat} :
    ∀ {s s' : σ}, loop (pass depth) passes s = some s' →
      ∃ m < passes, SettlesIn (Made pass) m s := by
  induction passes with
  | zero => exact fun h => absurd h (by simp [loop])
  | succ passes ih =>
    intro s s' h
    obtain ⟨⟨t, changed⟩, hpass, hrest⟩ := Option.bind_eq_some_iff.mp h
    cases changed with
    | false => exact ⟨0, Nat.succ_pos _, .done ⟨depth, hpass⟩⟩
    | true =>
      obtain ⟨m, hm, hsettles⟩ := ih hrest
      exact ⟨m + 1, Nat.succ_lt_succ hm, .again ⟨depth, hpass⟩ hsettles⟩

end Loop

/-! ## Recurring keys -/

section Rules

variable {Step : σ → σ → Bool → Prop} {key : σ → κ} {Inv : σ → Prop}

/-- What holds at first holds along passes that change something. -/
theorem along (hinv : ∀ s s', Inv s → Step s s' true → Inv s') {f : Nat → σ} (hs : Inv (f 0))
    {n : Nat} (hf : ∀ a < n, Step (f a) (f (a + 1)) true) : ∀ a ≤ n, Inv (f a) := by
  intro a
  induction a with
  | zero => exact fun _ => hs
  | succ a ih => exact fun ha => hinv _ _ (ih (by omega)) (hf a (by omega))

/-- States with one key settle in the same number of passes. -/
theorem SettlesIn.unique (hkey : Keyed Step key Inv)
    (hinv : ∀ s s', Inv s → Step s s' true → Inv s') {m n : Nat} {s t : σ} (hs : Inv s)
    (ht : Inv t) (hst : key s = key t) (hm : SettlesIn Step m s) (hn : SettlesIn Step n t) :
    m = n := by
  induction hm generalizing n t with
  | done hstep =>
    cases hn with
    | done => rfl
    | again hstep' => exact absurd (hkey _ _ _ _ _ _ hs ht hst hstep hstep').1 Bool.false_ne_true
  | again hstep _ ih =>
    cases hn with
    | done hstep' =>
      exact absurd (hkey _ _ _ _ _ _ hs ht hst hstep hstep').1.symm Bool.false_ne_true
    | again hstep' hrest =>
      rw [ih (hinv _ _ hs hstep) (hinv _ _ ht hstep')
        (hkey _ _ _ _ _ _ hs ht hst hstep hstep').2 hrest]

/-- Passes that change something leave so many fewer to be made. -/
private theorem SettlesIn.after (hkey : Keyed Step key Inv)
    (hinv : ∀ s s', Inv s → Step s s' true → Inv s') {f : Nat → σ} {n : Nat}
    (hf : ∀ a < n, Step (f a) (f (a + 1)) true) {m : Nat} (hs : Inv (f 0))
    (hm : SettlesIn Step m (f 0)) :
    ∃ rest t, m = rest + n ∧ Inv t ∧ key t = key (f n) ∧ SettlesIn Step rest t := by
  induction n with
  | zero => exact ⟨m, f 0, rfl, hs, rfl, hm⟩
  | succ n ih =>
    obtain ⟨rest, t, rfl, ht, hkeys, hrest⟩ := ih fun a ha => hf a (by omega)
    have hn := along hinv hs hf n (Nat.le_succ n)
    have hchange := hf n (Nat.lt_succ_self n)
    cases hrest with
    | done hstep =>
      exact absurd (hkey _ _ _ _ _ _ ht hn hkeys hstep hchange).1 Bool.false_ne_true
    | @again k _ t' hstep hrest =>
      exact ⟨k, t', by omega, hinv _ _ ht hstep, (hkey _ _ _ _ _ _ ht hn hkeys hstep hchange).2,
        hrest⟩

/-- Passes that settle bring back no key. -/
theorem SettlesIn.not_recurs (hkey : Keyed Step key Inv)
    (hinv : ∀ s s', Inv s → Step s s' true → Inv s') {m : Nat} {s : σ} (hs : Inv s)
    (hm : SettlesIn Step m s) : ¬ Recurs Step key s := by
  rintro ⟨f, i, j, rfl, hij, hf, hsame⟩
  have hfirst : ∀ a < i, Step (f a) (f (a + 1)) true := fun a ha => hf a (by omega)
  obtain ⟨rest, t, rfl, ht, hkeys, hrest⟩ := hm.after hkey hinv hfirst hs
  obtain ⟨rest', t', heq, ht', hkeys', hrest'⟩ := hm.after hkey hinv hf hs
  have := hrest.unique hkey hinv ht ht' (hkeys.trans (hsame.trans hkeys'.symm)) hrest'
  omega

/-- Passes before the ones that settle. -/
private theorem SettlesIn.prepend {f : Nat → σ} {n : Nat}
    (hf : ∀ a < n, Step (f a) (f (a + 1)) true) {m : Nat} (hm : SettlesIn Step m (f n)) :
    SettlesIn Step (m + n) (f 0) := by
  induction n generalizing m with
  | zero => exact hm
  | succ n ih =>
    have := ih (fun a ha => hf a (by omega)) (.again (hf n (Nat.lt_succ_self n)) hm)
    rwa [Nat.add_right_comm, Nat.add_assoc] at this

open scoped Classical in
/-- A pass that changes something, if there is one. -/
private noncomputable def next (Step : σ → σ → Bool → Prop) (s : σ) : σ :=
  if h : ∃ s', Step s s' true then h.choose else s

private theorem step_next {s s' : σ} (h : Step s s' true) : Step s (next Step s) true := by
  have hex : ∃ s', Step s s' true := ⟨s', h⟩
  rw [next, dif_pos hex]
  exact hex.choose_spec

/-- With finitely many keys the passes settle before all of them are used up, or they bring back
one. -/
theorem settles_or_recurs [Fintype κ] (htotal : ∀ s, Inv s → ∃ s' b, Step s s' b)
    (hinv : ∀ s s', Inv s → Step s s' true → Inv s') {s : σ} (hs : Inv s) :
    (∃ m < Fintype.card κ, SettlesIn Step m s) ∨ Recurs Step key s := by
  by_cases hsettles : ∃ m < Fintype.card κ, SettlesIn Step m s
  · exact Or.inl hsettles
  · let f (a : Nat) : σ := (next Step)^[a] s
    have hf : ∀ a < Fintype.card κ, Step (f a) (f (a + 1)) true := by
      intro a
      induction a using Nat.strong_induction_on with
      | _ a ih =>
        intro ha
        have hchain : ∀ b < a, Step (f b) (f (b + 1)) true := fun b hb => ih b hb (by omega)
        obtain ⟨s', changed, hstep⟩ := htotal _ (along hinv hs hchain a le_rfl)
        cases changed with
        | false =>
          have hdone := (SettlesIn.done hstep).prepend hchain
          exact absurd ⟨a, ha, Nat.zero_add a ▸ hdone⟩ hsettles
        | true =>
          have hnext : f (a + 1) = next Step (f a) := Function.iterate_succ_apply' ..
          rw [hnext]
          exact step_next hstep
    obtain ⟨i, j, hne, hsame⟩ := Fintype.exists_ne_map_eq_of_card_lt
      (fun a : Fin (Fintype.card κ + 1) => key (f a)) (by simp)
    have hrecurs : ∀ i j : Fin (Fintype.card κ + 1), i < j → key (f i) = key (f j) →
        Recurs Step key s := fun i j hij hsame =>
      ⟨f, i, j, rfl, hij, fun a ha => hf a (by omega), hsame⟩
    rcases lt_or_gt_of_ne hne with hij | hij
    · exact Or.inr (hrecurs i j hij hsame)
    · exact Or.inr (hrecurs j i hij hsame.symm)

/-- No key comes back if its parts can be ordered so that a pass keeps a part, or gives it a value
that depends on earlier parts only. -/
theorem not_recurs_of_rank {ι α : Type*} {key : σ → ι → α} (rank : ι → Nat)
    (hpart : ∀ k, (∀ s s', Inv s → Step s s' true → key s' k = key s k) ∨
      ∀ s t s' t', Inv s → Inv t → Step s s' true → Step t t' true →
        (∀ l, rank l < rank k → key s l = key t l) → key s' k = key t' k)
    (hchange : ∀ s s', Inv s → Step s s' true → key s' ≠ key s)
    (hinv : ∀ s s', Inv s → Step s s' true → Inv s') {s : σ} (hs : Inv s) :
    ¬ Recurs Step key s := by
  rintro ⟨f, i, j, rfl, hij, hf, hsame⟩
  have hall := along hinv hs hf
  have hconst : ∀ d k, rank k = d → ∀ a, i ≤ a → a ≤ j → key (f a) k = key (f i) k := by
    intro d
    induction d using Nat.strong_induction_on with
    | _ d ih =>
      rintro k rfl
      rcases hpart k with hkept | hfed
      · refine Nat.le_induction (fun _ => rfl) fun a hia iha haj => ?_
        rw [hkept _ _ (hall a (by omega)) (hf a (by omega)), iha (by omega)]
      · intro a hia haj
        rcases Nat.eq_or_lt_of_le hia with rfl | hlt
        · rfl
        · obtain ⟨a, rfl⟩ : ∃ k, a = k + 1 := ⟨a - 1, by omega⟩
          obtain ⟨j, rfl⟩ : ∃ k, j = k + 1 := ⟨j - 1, by omega⟩
          rw [hsame]
          refine hfed _ _ _ _ (hall a (by omega)) (hall j (by omega)) (hf a (by omega))
            (hf j (by omega)) fun l hl => ?_
          rw [ih _ hl l rfl a (by omega) (by omega), ih _ hl l rfl j (by omega) (by omega)]
  refine hchange _ _ (hall i hij.le) (hf i hij) (funext fun k => ?_)
  exact hconst _ k rfl (i + 1) (Nat.le_succ i) hij

end Rules

end Icarus.Core.Settling
