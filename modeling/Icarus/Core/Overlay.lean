import Mathlib.Data.List.Induction
import Mathlib.Data.List.Nodup

/-!
# Overlays

A list of partial functions, each written over the ones before it; and a log of
keyed writes, in which a write to a key used before replaces the earlier one in
place. Compacting a log keeps the keys in the order of their first use, so that
an overlay made from the log may differ from the one made from all the writes.
-/

namespace Icarus.Core

namespace Overlay

variable {ι β : Type}

/-- What a list of partial functions, later ones over earlier ones, gives at a point. -/
def top : List (ι → Option β) → ι → Option β
  | [], _ => none
  | p :: ps, i => (top ps i).or (p i)

@[simp] theorem top_nil (i : ι) : top ([] : List (ι → Option β)) i = none := rfl

theorem top_append (ps qs : List (ι → Option β)) (i : ι) :
    top (ps ++ qs) i = (top qs i).or (top ps i) := by
  induction ps with
  | nil => rw [List.nil_append, top_nil, Option.or_none]
  | cons p ps ih => rw [List.cons_append, top, ih, top, Option.or_assoc]

theorem top_eq_none_iff {ps : List (ι → Option β)} {i : ι} :
    top ps i = none ↔ ∀ p ∈ ps, p i = none := by
  induction ps with
  | nil => simp
  | cons p ps ih => rw [top, Option.or_eq_none_iff, ih, List.forall_mem_cons, and_comm]

/-- The value at a point is that of the last function defined there. -/
theorem top_eq_some_iff {κ : Type} {ks : List κ} {f : κ → ι → Option β} {i : ι} {b : β} :
    top (ks.map f) i = some b ↔
      ∃ pre k post, ks = pre ++ k :: post ∧ f k i = some b ∧ ∀ k' ∈ post, f k' i = none := by
  constructor
  · intro h
    induction ks with
    | nil => cases h
    | cons k ks ih =>
      rw [List.map_cons, top, Option.or_eq_some_iff] at h
      rcases h with h | ⟨hnone, h⟩
      · obtain ⟨pre, k', post, rfl, hk, hpost⟩ := ih h
        exact ⟨k :: pre, k', post, rfl, hk, hpost⟩
      · exact ⟨[], k, ks, rfl, h, List.forall_mem_map.mp (top_eq_none_iff.mp hnone)⟩
  · rintro ⟨pre, k, post, rfl, hk, hpost⟩
    rw [List.map_append, List.map_cons, top_append, top,
      top_eq_none_iff.mpr (List.forall_mem_map.mpr hpost), hk]
    rfl

/-- Functions that may be missing count as defined nowhere. -/
theorem top_filterMap {κ ν : Type} (ks : List κ) (g : κ → Option ν) (f : ν → ι → Option β)
    (i : ι) :
    top ((ks.filterMap g).map f) i = top (ks.map fun k i => (g k).bind fun v => f v i) i := by
  induction ks with
  | nil => rfl
  | cons k ks ih =>
    rw [List.map_cons, top, ← ih]
    cases hk : g k with
    | none => rw [List.filterMap_cons_none hk, Option.bind_none, Option.or_none]
    | some v => rw [List.filterMap_cons_some hk, List.map_cons, top, Option.bind_some]

end Overlay

/-! ## Logs -/

namespace Log

variable {κ ν : Type} [DecidableEq κ]

/-- Write to a key: in place of its earlier write, or last. -/
def record (k : κ) (v : ν) : List (κ × ν) → List (κ × ν)
  | [] => [(k, v)]
  | e :: log => if e.1 = k then (k, v) :: log else e :: record k v log

/-- All writes, one after the other. -/
def compact (ws : List (κ × ν)) : List (κ × ν) := ws.foldl (fun log w => record w.1 w.2 log) []

/-- The keys in the order of their first use. -/
def firstUses (ks : List κ) : List κ := ks.foldl (fun us k => if k ∈ us then us else us ++ [k]) []

/-- The last write to a key. -/
def latest (ws : List (κ × ν)) (k : κ) : Option ν :=
  ws.foldl (fun v w => if w.1 = k then some w.2 else v) none

theorem compact_concat (ws : List (κ × ν)) (w : κ × ν) :
    compact (ws ++ [w]) = record w.1 w.2 (compact ws) := by
  rw [compact, List.foldl_append]
  rfl

theorem firstUses_concat (ks : List κ) (k : κ) :
    firstUses (ks ++ [k]) = if k ∈ firstUses ks then firstUses ks else firstUses ks ++ [k] := by
  rw [firstUses, List.foldl_append]
  rfl

theorem latest_concat (ws : List (κ × ν)) (w : κ × ν) (k : κ) :
    latest (ws ++ [w]) k = if w.1 = k then some w.2 else latest ws k := by
  rw [latest, List.foldl_append]
  rfl

@[simp] theorem mem_firstUses {ks : List κ} {k : κ} : k ∈ firstUses ks ↔ k ∈ ks := by
  induction ks using List.reverseRecOn with
  | nil => rfl
  | append_singleton ks j ih =>
    rw [firstUses_concat, List.mem_append, List.mem_singleton, ← ih]
    split_ifs with hj
    · constructor
      · exact Or.inl
      · rintro (h | rfl)
        · exact h
        · exact hj
    · rw [List.mem_append, List.mem_singleton]

theorem nodup_firstUses (ks : List κ) : (firstUses ks).Nodup := by
  induction ks using List.reverseRecOn with
  | nil => exact List.nodup_nil
  | append_singleton ks k ih =>
    rw [firstUses_concat]
    split_ifs with hk
    · exact ih
    · exact List.Nodup.append ih (List.nodup_singleton k) (by simpa using hk)

theorem latest_mem {ws : List (κ × ν)} {k : κ} {v : ν} (h : latest ws k = some v) :
    (k, v) ∈ ws := by
  induction ws using List.reverseRecOn with
  | nil => cases h
  | append_singleton ws w ih =>
    rw [latest_concat] at h
    split_ifs at h with hw
    · cases h
      subst hw
      exact List.mem_append_right _ (List.mem_singleton_self _)
    · exact List.mem_append_left _ (ih h)

theorem record_of_notMem {k : κ} {v : ν} {log : List (κ × ν)} (h : k ∉ log.map Prod.fst) :
    record k v log = log ++ [(k, v)] := by
  induction log with
  | nil => rfl
  | cons e log ih =>
    rw [List.map_cons, List.mem_cons, not_or] at h
    rw [record, if_neg (Ne.symm h.1), ih h.2, List.cons_append]

theorem record_append {k : κ} {v v' : ν} {pre post : List (κ × ν)}
    (h : k ∉ pre.map Prod.fst) :
    record k v (pre ++ (k, v') :: post) = pre ++ (k, v) :: post := by
  induction pre with
  | nil => rw [List.nil_append, record, if_pos rfl, List.nil_append]
  | cons e pre ih =>
    rw [List.map_cons, List.mem_cons, not_or] at h
    rw [List.cons_append, record, if_neg (Ne.symm h.1), ih h.2, List.cons_append]

private theorem record_filterMap {us : List κ} {g : κ → Option ν} (hus : us.Nodup)
    (hg : ∀ k ∈ us, (g k).isSome) (k : κ) (v : ν) :
    record k v (us.filterMap fun j => (g j).map (j, ·)) =
      (if k ∈ us then us else us ++ [k]).filterMap fun j =>
        (if k = j then some v else g j).map (j, ·) := by
  have hkeys : ∀ us : List κ, (∀ k ∈ us, (g k).isSome) →
      (us.filterMap fun j => (g j).map (j, ·)).map Prod.fst = us := by
    intro us hg
    induction us with
    | nil => rfl
    | cons j us ih =>
      obtain ⟨w, hw⟩ := Option.isSome_iff_exists.mp (hg j List.mem_cons_self)
      rw [List.filterMap_cons_some (b := (j, w)) (by rw [hw]; rfl), List.map_cons,
        ih fun k hk => hg k (List.mem_cons_of_mem _ hk)]
  have hsame : ∀ us : List κ, k ∉ us → (us.filterMap fun j => (g j).map (j, ·)) =
      us.filterMap fun j => (if k = j then some v else g j).map (j, ·) := by
    intro us hk
    apply List.filterMap_congr
    intro j hj
    rw [if_neg]
    rintro rfl
    exact hk hj
  split_ifs with hk
  · obtain ⟨pre, post, rfl⟩ := List.append_of_mem hk
    rw [List.nodup_append, List.nodup_cons] at hus
    have hpre : k ∉ pre := fun h => hus.2.2 k h k List.mem_cons_self rfl
    obtain ⟨w, hw⟩ := Option.isSome_iff_exists.mp (hg k hk)
    rw [List.filterMap_append, List.filterMap_append,
      List.filterMap_cons_some (b := (k, w)) (by rw [hw]; rfl),
      List.filterMap_cons_some (b := (k, v)) (by rw [if_pos rfl]; rfl), ← hsame pre hpre,
      ← hsame post hus.2.1.1, record_append]
    rwa [hkeys pre fun j hj => hg j (List.mem_append_left _ hj)]
  · rw [List.filterMap_append, ← hsame us hk, record_of_notMem (by rwa [hkeys us hg])]
    rw [List.filterMap_cons_some (b := (k, v)) (by rw [if_pos rfl]; rfl), List.filterMap_nil]

theorem latest_isSome {ws : List (κ × ν)} {k : κ} (h : k ∈ ws.map Prod.fst) :
    (latest ws k).isSome := by
  induction ws using List.reverseRecOn with
  | nil => cases h
  | append_singleton ws w ih =>
    rw [latest_concat]
    split_ifs with hw
    · rfl
    · rw [List.map_append, List.mem_append] at h
      rcases h with h | h
      · exact ih h
      · exact absurd (List.mem_singleton.mp h).symm hw

/-- A compacted log has the keys in the order of their first use, each with its last write. -/
theorem compact_eq (ws : List (κ × ν)) :
    compact ws =
      (firstUses (ws.map Prod.fst)).filterMap fun k => (latest ws k).map (k, ·) := by
  induction ws using List.reverseRecOn with
  | nil => rfl
  | append_singleton ws w ih =>
    rw [compact_concat, ih, record_filterMap (nodup_firstUses _), List.map_append,
      List.map_singleton, firstUses_concat]
    · simp only [latest_concat]
    · intro k hk
      exact latest_isSome (mem_firstUses.mp hk)

theorem nodup_keys_compact (ws : List (κ × ν)) : ((compact ws).map Prod.fst).Nodup := by
  rw [compact_eq, List.map_filterMap]
  refine List.Nodup.filterMap ?_ (nodup_firstUses _)
  intro j k a hj hk
  cases hlj : latest ws j <;> cases hlk : latest ws k <;> simp_all

end Log

end Icarus.Core
