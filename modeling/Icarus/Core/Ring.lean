import Icarus.Core.Loop
import Mathlib.Data.List.Chain
import Mathlib.Data.List.Nodup

/-!
# Circular lists with a tail pointer

A queue of nodes is threaded through one `next` map and named by a pointer to
its last node, whose `next` is the first node. `Rep next tail xs` says that the
ring behind `tail` holds exactly `xs` from first to last. Appending, pushing in
front and removing the first node are proved against the list, and every ring
that shares no node with the edited one is left as it was.
-/

namespace Icarus.Core.Ring

variable {α : Type*} [DecidableEq α]

/-- Link a fresh node after the tail and make it the new tail. -/
def enqueue (next : α → α) (tail : Option α) (a : α) : (α → α) × Option α :=
  match tail with
  | none => (Function.update next a a, some a)
  | some t =>
    let next := Function.update next a (next t)
    (Function.update next t a, some a)

/-- Link a fresh node in front of the first node; the tail is unchanged. -/
def push (next : α → α) (tail : Option α) (a : α) : (α → α) × Option α :=
  match tail with
  | none => (Function.update next a a, some a)
  | some t =>
    let next := Function.update next a (next t)
    (Function.update next t a, some t)

/-- Unlink the first node, clearing the tail when it was the only one. -/
def dequeue (next : α → α) (tail : Option α) : Option (α × (α → α) × Option α) :=
  match tail with
  | none => none
  | some t =>
    let cur := next t
    if next cur = cur then some (cur, next, none)
    else some (cur, Function.update next t (next cur), some t)

omit [DecidableEq α] in
/-- The ring behind `tail` holds exactly `xs`, first node first. -/
def Rep (next : α → α) (tail : Option α) (xs : List α) : Prop :=
  match tail with
  | none => xs = []
  | some t => xs.getLast? = some t ∧ List.IsChain (fun a b => next a = b) (t :: xs)

omit [DecidableEq α] in
@[simp] theorem rep_none {next : α → α} {xs : List α} : Rep next none xs ↔ xs = [] := Iff.rfl

omit [DecidableEq α] in
theorem rep_some {next : α → α} {t : α} {xs : List α} :
    Rep next (some t) xs ↔
      xs.getLast? = some t ∧ List.IsChain (fun a b => next a = b) (t :: xs) := Iff.rfl

omit [DecidableEq α] in
/-- A tail pointer is null exactly when its ring is empty. -/
theorem Rep.eq_none_iff {next : α → α} {tail : Option α} {xs : List α}
    (h : Rep next tail xs) : tail = none ↔ xs = [] := by
  cases tail with
  | none => simpa using h
  | some t =>
    obtain ⟨hl, _⟩ := h
    constructor
    · intro ht
      cases ht
    · rintro rfl
      simp at hl

omit [DecidableEq α] in
/-- The tail pointer names a node of its own ring. -/
theorem Rep.tail_mem {next : α → α} {t : α} {xs : List α}
    (h : Rep next (some t) xs) : t ∈ xs := List.mem_of_getLast? h.1

omit [DecidableEq α] in
private theorem chain_congr {next next' : α → α} {xs : List α}
    (hs : ∀ a ∈ xs, next' a = next a) (h : List.IsChain (fun a b => next a = b) xs) :
    List.IsChain (fun a b => next' a = b) xs := by
  refine h.imp_of_mem_imp ?_
  intro a b ha _ hab
  rw [hs a ha, hab]

omit [DecidableEq α] in
/-- A ring only depends on the `next` of its own nodes. -/
theorem Rep.congr {next next' : α → α} {tail : Option α} {xs : List α}
    (hs : ∀ a ∈ xs, next' a = next a) (h : Rep next tail xs) : Rep next' tail xs := by
  cases tail with
  | none => exact h
  | some t =>
    refine ⟨h.1, chain_congr ?_ h.2⟩
    intro a ha
    rcases List.mem_cons.mp ha with rfl | ha
    · exact hs a h.tail_mem
    · exact hs a ha

/-- Appending writes the `next` of the fresh node and of the old tail only. -/
theorem enqueue_next_of_ne {next : α → α} {tail : Option α} {a b : α}
    (hb : b ≠ a) (ht : tail ≠ some b) : (enqueue next tail a).1 b = next b := by
  cases tail with
  | none => simp [enqueue, hb]
  | some t =>
    have hbt : b ≠ t := fun he => ht (by rw [he])
    simp [enqueue, hb, hbt]

/-- Pushing writes the `next` of the fresh node and of the tail only. -/
theorem push_next_of_ne {next : α → α} {tail : Option α} {a b : α}
    (hb : b ≠ a) (ht : tail ≠ some b) : (push next tail a).1 b = next b := by
  cases tail with
  | none => simp [push, hb]
  | some t =>
    have hbt : b ≠ t := fun he => ht (by rw [he])
    simp [push, hb, hbt]

omit [DecidableEq α] in
/-- The last node's `next` is not a link inside its own chain. -/
private theorem chain_redirect_last {next next' : α → α} {t : α} {xs : List α}
    (hl : xs.getLast? = some t) (hn : xs.Nodup) (hs : ∀ a ∈ xs, a ≠ t → next' a = next a)
    (h : List.IsChain (fun a b => next a = b) xs) :
    List.IsChain (fun a b => next' a = b) xs := by
  obtain ⟨ys, rfl⟩ : ∃ ys, xs = ys ++ [t] := List.getLast?_eq_some_iff.mp hl
  have hne : ∀ a ∈ ys, a ≠ t := fun a ha => (List.nodup_append.mp hn).2.2 a ha t (by simp)
  have hys : ∀ a ∈ ys, next' a = next a :=
    fun a ha => hs a (List.mem_append_left _ ha) (hne a ha)
  rw [List.isChain_append] at h ⊢
  refine ⟨chain_congr hys h.1, by simp, ?_⟩
  intro a ha b hb
  rw [hys a (List.mem_of_getLast? ha)]
  exact h.2.2 a ha b hb

/-- Rerouting the tail through a fresh node keeps the links of the old ring. -/
private theorem chain_insert {next : α → α} {t a : α} {xs : List α}
    (hn : xs.Nodup) (ha : a ∉ xs) (h : Rep next (some t) xs) :
    List.IsChain (fun x y => (Function.update (Function.update next a (next t)) t a) x = y)
      (a :: xs) := by
  have hat : a ≠ t := fun he => ha (he ▸ h.tail_mem)
  obtain ⟨hl, hc⟩ := h
  cases xs with
  | nil => simp at hl
  | cons x xs =>
    have hx : next t = x := (List.isChain_cons_cons.mp hc).1
    refine List.isChain_cons_cons.mpr ⟨by simp [hat, hx], ?_⟩
    refine chain_redirect_last hl hn ?_ (List.isChain_cons_cons.mp hc).2
    intro b hb hbt
    have hba : b ≠ a := fun he => ha (he ▸ hb)
    simp [hbt, hba]

/-- Appending a fresh node puts it last. -/
theorem Rep.enqueue {next : α → α} {tail : Option α} {xs : List α} {a : α}
    (h : Rep next tail xs) (hn : xs.Nodup) (ha : a ∉ xs) :
    Rep (enqueue next tail a).1 (enqueue next tail a).2 (xs ++ [a]) := by
  cases tail with
  | none =>
    have hx : xs = [] := h
    subst hx
    simp [Ring.enqueue, rep_some]
  | some t =>
    have hc := chain_insert hn ha h
    refine ⟨by simp, ?_⟩
    change List.IsChain _ ((a :: xs) ++ [a])
    refine List.isChain_append.mpr ⟨hc, by simp, ?_⟩
    intro b hb c hc'
    obtain rfl : a = c := by simpa using hc'
    have hbt : b = t := by
      have hl := h.1
      cases xs with
      | nil => simp at hl
      | cons x xs => simpa [List.getLast?_cons_cons, hl] using hb.symm
    subst hbt
    simp [Ring.enqueue]

/-- Pushing a fresh node puts it first. -/
theorem Rep.push {next : α → α} {tail : Option α} {xs : List α} {a : α}
    (h : Rep next tail xs) (hn : xs.Nodup) (ha : a ∉ xs) :
    Rep (push next tail a).1 (push next tail a).2 (a :: xs) := by
  cases tail with
  | none =>
    have hx : xs = [] := h
    subst hx
    simp [Ring.push, rep_some]
  | some t =>
    have hc := chain_insert hn ha h
    refine ⟨?_, List.isChain_cons_cons.mpr ⟨by simp [Ring.push], hc⟩⟩
    have hl := h.1
    cases xs with
    | nil => simp at hl
    | cons x xs => simpa [List.getLast?_cons_cons] using hl

/-- Removing from a nonempty ring yields its first node and leaves the rest. -/
theorem Rep.dequeue {next : α → α} {tail : Option α} {x : α} {xs : List α}
    (h : Rep next tail (x :: xs)) (hn : (x :: xs).Nodup) :
    ∃ next' tail', dequeue next tail = some (x, next', tail') ∧ Rep next' tail' xs ∧
      ∀ b, tail ≠ some b → next' b = next b := by
  cases tail with
  | none => cases h
  | some t =>
    obtain ⟨hl, hc⟩ := h
    have hx : next t = x := (List.isChain_cons_cons.mp hc).1
    have hrest := (List.isChain_cons_cons.mp hc).2
    cases xs with
    | nil =>
      obtain rfl : x = t := by simpa using hl
      exact ⟨next, none, by simp [Ring.dequeue, hx], rfl, fun _ _ => rfl⟩
    | cons y ys =>
      have hxy : next x = y := (List.isChain_cons_cons.mp hrest).1
      have hne : y ≠ x := by
        rintro rfl
        simp at hn
      have hlt : (y :: ys).getLast? = some t := by simpa [List.getLast?_cons_cons] using hl
      have htx : t ≠ x := by
        rintro rfl
        exact (List.nodup_cons.mp hn).1 (List.mem_of_getLast? hlt)
      refine ⟨Function.update next t y, some t, by simp [Ring.dequeue, hx, hxy, hne], ?_, ?_⟩
      · refine ⟨hlt, List.isChain_cons_cons.mpr ⟨by simp, ?_⟩⟩
        refine chain_redirect_last hlt (List.nodup_cons.mp hn).2 ?_
          (List.isChain_cons_cons.mp hrest).2
        intro b _ hbt
        simp [hbt]
      · intro b hb
        have hbt : b ≠ t := fun he => hb (by rw [he])
        simp [hbt]

/-! ## Splicing and removing -/

/-- Exchange what follows two tails: the first ring is put in front of the second. -/
def splice (next : α → α) (t₁ t₂ : α) : α → α :=
  Function.update (Function.update next t₁ (next t₂)) t₂ (next t₁)

/-- Let the node before `a` skip it. -/
def skip (next : α → α) (prev a : α) : α → α := Function.update next prev (next a)

omit [DecidableEq α] in
private theorem Rep.ne_nil {next : α → α} {t : α} {xs : List α} (h : Rep next (some t) xs) :
    xs ≠ [] := by
  rintro rfl
  cases h.1

omit [DecidableEq α] in
/-- What follows the tail is the first node. -/
theorem Rep.next_tail {next : α → α} {t x : α} {xs : List α}
    (h : Rep next (some t) (x :: xs)) : next t = x := (List.isChain_cons_cons.mp h.2).1

/-- Two rings without a common node become one. -/
theorem Rep.splice {next : α → α} {t₁ t₂ : α} {xs ys : List α} (h₁ : Rep next (some t₁) xs)
    (h₂ : Rep next (some t₂) ys) (hn : (xs ++ ys).Nodup) :
    Rep (splice next t₁ t₂) (some t₂) (xs ++ ys) := by
  obtain ⟨hx, hy, hdisj⟩ := List.nodup_append.mp hn
  have hne : t₁ ≠ t₂ := hdisj t₁ h₁.tail_mem t₂ h₂.tail_mem
  have hsame : ∀ a, a ≠ t₁ → a ≠ t₂ → Ring.splice next t₁ t₂ a = next a := by
    intro a ha₁ ha₂
    rw [Ring.splice, Function.update_of_ne ha₂, Function.update_of_ne ha₁]
  have hfirst : Ring.splice next t₁ t₂ t₁ = next t₂ := by
    rw [Ring.splice, Function.update_of_ne hne, Function.update_self]
  have hsecond : Ring.splice next t₁ t₂ t₂ = next t₁ := Function.update_self ..
  obtain ⟨x, xs, rfl⟩ := List.exists_cons_of_ne_nil h₁.ne_nil
  obtain ⟨y, ys, rfl⟩ := List.exists_cons_of_ne_nil h₂.ne_nil
  have hxs : List.IsChain (fun a b => Ring.splice next t₁ t₂ a = b) (x :: xs) :=
    chain_redirect_last h₁.1 hx
      (fun a ha hat => hsame a hat (hdisj a ha t₂ h₂.tail_mem)) (List.isChain_cons_cons.mp h₁.2).2
  have hys : List.IsChain (fun a b => Ring.splice next t₁ t₂ a = b) (y :: ys) :=
    chain_redirect_last h₂.1 hy
      (fun a ha hat => hsame a (hdisj t₁ h₁.tail_mem a ha).symm hat)
      (List.isChain_cons_cons.mp h₂.2).2
  refine ⟨?_, List.isChain_cons_cons.mpr ⟨hsecond.trans h₁.next_tail, ?_⟩⟩
  · rw [List.getLast?_append, h₂.1]
    rfl
  · refine List.isChain_append.mpr ⟨hxs, hys, ?_⟩
    intro a ha b hb
    rw [h₁.1, Option.mem_some_iff] at ha
    rw [List.head?_cons, Option.mem_some_iff] at hb
    rw [← ha, ← hb, hfirst]
    exact h₂.next_tail

/-- A node is removed when the one before it skips it; the tail moves back if it was the tail. -/
theorem Rep.skip {next : α → α} {t a prev : α} {as bs : List α}
    (h : Rep next (some t) (as ++ a :: bs)) (hn : (as ++ a :: bs).Nodup) (hne : as ++ bs ≠ [])
    (hprev : (t :: as).getLast? = some prev) :
    Rep (skip next prev a) (some (if t = a then prev else t)) (as ++ bs) := by
  obtain ⟨hlast, hchain⟩ := h
  obtain ⟨has, habs, hdisj⟩ := List.nodup_append.mp hn
  obtain ⟨habs', hbs⟩ := List.nodup_cons.mp habs
  have hta : t ∈ a :: bs := by
    have hmem := List.mem_of_getLast? hlast
    rw [List.getLast?_append_of_ne_nil _ (List.cons_ne_nil a bs)] at hlast
    exact List.mem_of_getLast? hlast
  have htas : t ∉ as := fun hmem => hdisj t hmem t hta rfl
  have htas' : (t :: as).Nodup := List.nodup_cons.mpr ⟨htas, has⟩
  rw [← List.cons_append, List.isChain_append] at hchain
  obtain ⟨hfront, hback, hlink⟩ := hchain
  have hself : Ring.skip next prev a prev = next a := Function.update_self ..
  have hsame : ∀ b, b ≠ prev → Ring.skip next prev a b = next b :=
    fun b hb => Function.update_of_ne hb ..
  have hfront' : List.IsChain (fun a' b => Ring.skip next prev a a' = b) (t :: as) :=
    chain_redirect_last hprev htas' (fun b _ hb => hsame b hb) hfront
  have hpmem := List.mem_of_getLast? hprev
  cases bs with
  | nil =>
    obtain rfl : t = a := by simpa using hta
    obtain ⟨x, xs, rfl⟩ := List.exists_cons_of_ne_nil (show as ≠ [] by simpa using hne)
    rw [List.append_nil, if_pos rfl]
    rw [List.getLast?_cons_cons] at hprev
    obtain ⟨hnext, hxs⟩ := List.isChain_cons_cons.mp hfront'
    refine ⟨hprev, List.isChain_cons_cons.mpr ⟨?_, hxs⟩⟩
    rw [hself]
    exact (List.isChain_cons_cons.mp hfront).1
  | cons b bs =>
    have htb : t ∈ b :: bs := by
      rw [List.getLast?_append_of_ne_nil _ (List.cons_ne_nil _ _), List.getLast?_cons_cons] at hlast
      exact List.mem_of_getLast? hlast
    have hne' : t ≠ a := by
      rintro rfl
      exact habs' htb
    have hblast : (b :: bs).getLast? = some t := by
      rw [List.getLast?_append_of_ne_nil _ (List.cons_ne_nil _ _), List.getLast?_cons_cons] at hlast
      exact hlast
    have hback' : List.IsChain (fun a' b => Ring.skip next prev a a' = b) (b :: bs) := by
      refine chain_redirect_last hblast hbs (fun c hc hct => hsame c ?_)
        (List.isChain_cons_cons.mp hback).2
      rintro rfl
      rcases List.mem_cons.mp hpmem with rfl | hmem
      · exact hct rfl
      · exact hdisj c hmem c (List.mem_cons_of_mem _ hc) rfl
    rw [if_neg hne']
    refine ⟨?_, ?_⟩
    · rw [List.getLast?_append_of_ne_nil _ (List.cons_ne_nil b bs), hblast]
    · rw [← List.cons_append]
      refine List.isChain_append.mpr ⟨hfront', hback', ?_⟩
      intro c hc d hd
      rw [hprev, Option.mem_some_iff] at hc
      rw [List.head?_cons, Option.mem_some_iff] at hd
      rw [← hc, ← hd, hself]
      exact (List.isChain_cons_cons.mp hback).1

omit [DecidableEq α] in
/-- Inside a chain every node but the last is followed by a node of the chain. -/
theorem next_mem_of_chain {next : α → α} {a x t : α} {xs : List α}
    (hchain : List.IsChain (fun a b => next a = b) (a :: xs)) (hlast : (a :: xs).getLast? = some t)
    (hx : x ∈ a :: xs) (hne : x ≠ t) : next x ∈ xs := by
  induction xs generalizing a with
  | nil =>
    obtain rfl : a = t := by simpa using hlast
    exact absurd (List.mem_singleton.mp hx) hne
  | cons b xs ih =>
    obtain ⟨hnext, hrest⟩ := List.isChain_cons_cons.mp hchain
    rw [List.getLast?_cons_cons] at hlast
    rcases List.mem_cons.mp hx with rfl | hx
    · exact hnext ▸ List.mem_cons_self
    · exact List.mem_cons_of_mem _ (ih hrest hlast hx)

omit [DecidableEq α] in
/-- A node that is its own successor is alone. -/
theorem Rep.eq_of_next_self {next : α → α} {t a : α} {as bs : List α}
    (h : Rep next (some t) (as ++ a :: bs)) (hn : (as ++ a :: bs).Nodup) (ha : next a = a) :
    as ++ bs = [] := by
  obtain ⟨hlast, hchain⟩ := h
  obtain ⟨-, habs, hdisj⟩ := List.nodup_append.mp hn
  have hback := (List.isChain_append.mp (List.isChain_cons.mp hchain).2).2.1
  cases bs with
  | cons b bs =>
    have hnext := (List.isChain_cons_cons.mp hback).1
    rw [ha] at hnext
    exact absurd (hnext ▸ List.mem_cons_self) (List.nodup_cons.mp habs).1
  | nil =>
    obtain rfl : a = t := by simpa using hlast
    cases as with
    | nil => rfl
    | cons x as =>
      have hnext := (List.isChain_cons_cons.mp hchain).1
      rw [ha] at hnext
      exact absurd hnext.symm (hdisj x List.mem_cons_self a List.mem_cons_self)

omit [DecidableEq α] in
/-- Every node of a ring is followed by the next one, the last by the first. -/
theorem Rep.next_getElem {next : α → α} {t : α} {xs : List α} (h : Rep next (some t) xs) {i : Nat}
    (hi : i < xs.length) :
    xs[(i + 1) % xs.length]? = some (next xs[i]) := by
  obtain ⟨hlast, hchain⟩ := h
  have hstep := List.isChain_iff_getElem.mp hchain
  by_cases hend : i + 1 < xs.length
  · have hnext := hstep (i + 1) (by simpa using hend)
    simp only [List.getElem_cons_succ] at hnext
    rw [Nat.mod_eq_of_lt hend, List.getElem?_eq_getElem hend, hnext]
  · have hlen : i + 1 = xs.length := by omega
    have hnext := hstep 0 (by simpa using Nat.zero_lt_of_lt hi)
    have hti : xs[i] = t := by
      rw [List.getLast?_eq_getElem?, ← hlen, Nat.add_sub_cancel, List.getElem?_eq_getElem hi,
        Option.some_inj] at hlast
      exact hlast
    simp only [List.getElem_cons_zero, List.getElem_cons_succ] at hnext
    rw [hlen, Nat.mod_self, hti, hnext, List.getElem?_eq_getElem (Nat.zero_lt_of_lt hi)]

omit [DecidableEq α] in
/-- From any node of a ring a chain leads over all others and back. -/
theorem Rep.around {next : α → α} {t a : α} {as bs : List α}
    (h : Rep next (some t) (as ++ a :: bs)) :
    List.IsChain (fun a b => next a = b) (a :: (bs ++ as) ++ [a]) := by
  obtain ⟨hlast, hchain⟩ := h
  rw [List.getLast?_append_of_ne_nil _ (List.cons_ne_nil a bs)] at hlast
  rw [← List.cons_append, List.isChain_append] at hchain
  obtain ⟨hfront, hback, hlink⟩ := hchain
  have hreturn : List.IsChain (fun a b => next a = b) (t :: (as ++ [a])) := by
    rw [← List.cons_append]
    refine List.isChain_append.mpr ⟨hfront, List.isChain_singleton a, ?_⟩
    intro x hx y hy
    exact hlink x hx y (by simpa using hy)
  have hall : List.IsChain (fun a b => next a = b) ((a :: bs) ++ (as ++ [a])) := by
    refine List.isChain_append.mpr ⟨hback, hreturn.tail, ?_⟩
    intro x hx y hy
    rw [hlast, Option.mem_some_iff] at hx
    obtain ⟨z, zs, hz⟩ := List.exists_cons_of_ne_nil (show as ++ [a] ≠ [] by simp)
    rw [hz] at hy hreturn
    rw [← hx, ← Option.mem_some_iff.mp hy]
    exact (List.isChain_cons_cons.mp hreturn).1
  simpa using hall

/-- A loop that follows `next` stops at the node it looks for. -/
theorem whileLoop_walk {α : Type} {next : α → α} {cond : α → Bool} {body : α → Option α} {b : α}
    {xs : List α} {fuel : Nat} (a : α) (hchain : List.IsChain (fun a b => next a = b) (a :: xs))
    (hlast : (a :: xs).getLast? = some b) (hcond : ∀ x ∈ a :: xs, cond x = true ↔ x ≠ b)
    (hbody : ∀ x ∈ a :: xs, body x = some (next x)) (hfuel : xs.length < fuel) :
    Loop.whileLoop cond body fuel a = some b := by
  induction xs generalizing a fuel with
  | nil =>
    obtain ⟨fuel, rfl⟩ : ∃ k, fuel = k + 1 := ⟨fuel - 1, by omega⟩
    obtain rfl : a = b := by simpa using hlast
    rw [Loop.whileLoop, if_neg fun h => (hcond a (by simp)).mp h rfl]
  | cons x xs ih =>
    obtain ⟨fuel, rfl⟩ : ∃ k, fuel = k + 1 := ⟨fuel - 1, by omega⟩
    rw [Loop.whileLoop]
    by_cases hab : a = b
    · rw [if_neg fun h => (hcond a (by simp)).mp h hab, hab]
    · obtain ⟨hnext, hrest⟩ := List.isChain_cons_cons.mp hchain
      rw [if_pos ((hcond a (by simp)).mpr hab), hbody a (by simp), Option.bind_some, hnext]
      rw [List.getLast?_cons_cons] at hlast
      exact ih x hrest hlast (fun y hy => hcond y (List.mem_cons_of_mem _ hy))
        (fun y hy => hbody y (List.mem_cons_of_mem _ hy)) (by simpa using hfuel)

end Icarus.Core.Ring
