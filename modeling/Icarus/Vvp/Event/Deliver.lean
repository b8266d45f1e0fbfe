import Icarus.Vvp.Event.Merge

/-!
# Delivery of merged events

Merged events against the calls they stand for, as one event input sees them. A
whole value absorbs every part exactly; parts alone are merged by their base,
which may drop bits of a longer part or move a part in front of a newer one.
-/

namespace Icarus.Vvp

open Core

variable {Port Context : Type} [DecidableEq Port] [DecidableEq Context]

/-! ## The merged list of one input -/

namespace DeferCall

/-- A call fits an event input of a width. -/
def Fits (vwid : Nat) (call : DeferCall Port Context) : Prop :=
  call.event.vwid = vwid ∧ call.event.base + call.event.value.length ≤ vwid

/-- The base and the value of a part call. -/
def part : DeferCall Port Context → Option (Nat × Vector4)
  | vec4 _ _ _ => none
  | vec4Pv _ bit base _ _ => some (base, bit)

instance (vwid : Nat) (call : DeferCall Port Context) : Decidable (call.Fits vwid) :=
  inferInstanceAs (Decidable (_ ∧ _))

theorem runAll_concat (calls : List (DeferCall Port Context)) (call : DeferCall Port Context) :
    runAll (calls ++ [call]) = call.run (runAll calls) := by
  rw [runAll, List.foldl_append]
  rfl

end DeferCall

section OneInput

variable {port : Port} {context : Context} {vwid : Nat}

/-- The entry of a part. -/
def partEvent (port : Port) (context : Context) (vwid : Nat) (e : Nat × Vector4) :
    DeferredVec4Event Port Context :=
  ⟨port, context, e.2, e.1, vwid, true⟩

/-- The entry of a whole value. -/
def wholeEvent (port : Port) (context : Context) (w : Vector4) :
    DeferredVec4Event Port Context :=
  ⟨port, context, w, 0, w.length, false⟩

private theorem pvLoop_parts (bit : Vector4) (base : Nat) (log : List (Nat × Vector4)) :
    deferVec4PvLoop port bit base vwid context (log.map (partEvent port context vwid)) =
      if base ∈ log.map Prod.fst then
        some ((Log.record base bit log).map (partEvent port context vwid))
      else none := by
  induction log with
  | nil => rfl
  | cons e log ih =>
    have hsame : sameEventInput port context (partEvent port context vwid e) = true :=
      sameEventInput_eq_true.mpr ⟨rfl, rfl⟩
    rw [List.map_cons, deferVec4PvLoop, if_neg (by rw [hsame]; decide),
      if_neg (by simp [partEvent]), ih]
    by_cases he : e.1 = base
    · subst he
      rw [if_pos ⟨rfl, rfl, rfl⟩, if_pos (by simp), Log.record, if_pos rfl]
      rfl
    · rw [if_neg (by simpa [partEvent] using he), Log.record, if_neg he]
      simp only [List.map_cons, List.mem_cons, Ne.symm he, false_or]
      split_ifs <;> rfl

private theorem record_reverse {base : Nat} {bit : Vector4} {log : List (Nat × Vector4)}
    (hnodup : (log.map Prod.fst).Nodup) (hmem : base ∈ log.map Prod.fst) :
    (Log.record base bit log.reverse).reverse = Log.record base bit log := by
  obtain ⟨⟨k, v⟩, hv, hk⟩ := List.mem_map.mp hmem
  obtain rfl : k = base := hk
  obtain ⟨pre, post, rfl⟩ := List.append_of_mem hv
  simp only [List.map_append, List.map_cons, List.nodup_append, List.nodup_cons] at hnodup
  have hpre : k ∉ pre.map Prod.fst := fun h => hnodup.2.2 k h k List.mem_cons_self rfl
  have hpost : k ∉ post.reverse.map Prod.fst := by
    rw [List.map_reverse, List.mem_reverse]
    exact hnodup.2.1.1
  rw [List.reverse_append, List.reverse_cons, List.append_assoc, List.singleton_append,
    Log.record_append hpost, Log.record_append hpre]
  simp

/-- Part entries are merged by their base alone. -/
private theorem deferVec4Pv_parts {log : List (Nat × Vector4)}
    (hnodup : (log.map Prod.fst).Nodup) (bit : Vector4) (base : Nat) :
    deferVec4Pv (log.map (partEvent port context vwid)) port bit base vwid context =
      (Log.record base bit log).map (partEvent port context vwid) := by
  rw [deferVec4Pv, ← List.map_reverse, pvLoop_parts]
  by_cases hmem : base ∈ log.map Prod.fst
  · rw [if_pos (by simpa using hmem), ← record_reverse hnodup hmem, List.map_reverse]
  · rw [if_neg (by simpa using hmem), Log.record_of_notMem hmem, List.map_append]
    rfl

private theorem deferVec4Pv_whole {w : Vector4} (hw : w.length = vwid) {bit : Vector4}
    {base : Nat} (hfit : base + bit.length ≤ vwid) :
    deferVec4Pv [wholeEvent port context w] port bit base vwid context =
      [wholeEvent port context (Vector4.setVec w base bit)] := by
  rw [deferVec4Pv, List.reverse_singleton, deferVec4PvLoop,
    if_neg (by simp [sameEventInput, wholeEvent]), if_pos ⟨rfl, hw, hfit⟩]
  simp [wholeEvent]

private theorem vec4Loop_same (bit : Vector4) {events : List (DeferredVec4Event Port Context)}
    (hsame : ∀ e ∈ events, sameEventInput port context e = true) :
    deferVec4Loop port bit context events true = ([], true) := by
  induction events with
  | nil => rfl
  | cons cur rest ih =>
    have hcur := hsame cur List.mem_cons_self
    rw [deferVec4Loop, if_neg (by rw [hcur]; decide), if_neg (by decide),
      ih fun e he => hsame e (List.mem_cons_of_mem _ he)]

/-- A whole value is the only entry left. -/
private theorem deferVec4_same (bit : Vector4) {events : List (DeferredVec4Event Port Context)}
    (hsame : ∀ e ∈ events, sameEventInput port context e = true) :
    deferVec4 events port bit context = [wholeEvent port context bit] := by
  cases events with
  | nil => rfl
  | cons cur rest =>
    have hcur := hsame cur List.mem_cons_self
    obtain ⟨rfl, rfl⟩ := sameEventInput_eq_true.mp hcur
    rw [deferVec4, deferVec4Loop, if_neg (by rw [hcur]; decide), if_pos rfl,
      vec4Loop_same bit fun e he => hsame e (List.mem_cons_of_mem _ he)]
    rfl

/-! ## Delivery -/

/-- What a part puts into a bit. -/
def partBit (e : Nat × Vector4) (t : Nat) : Option Bit4 :=
  if e.1 ≤ t then e.2[t - e.1]? else none

/-- The vector a part is written into. -/
def startBits (vwid : Nat) (oldBits : Vector4) : Vector4 :=
  if oldBits.length = 0 then List.replicate vwid .z else oldBits

omit [DecidableEq Port] [DecidableEq Context] in
private theorem deliverEvent_part (port : Port) (context : Context) (oldBits : Vector4)
    {e : Nat × Vector4} (hfit : e.1 + e.2.length ≤ vwid) :
    deliverEvent oldBits (partEvent port context vwid e) =
      if (startBits vwid oldBits).length = vwid then
        some (Vector4.setVec (startBits vwid oldBits) e.1 e.2)
      else none := by
  have hpart : (partEvent port context vwid e).isPart = true := rfl
  rw [deliverEvent, if_pos hpart, anyedgeRecvVec4Pv]
  simp only [partEvent, hfit, true_and, startBits]
  split_ifs <;> simp [anyedgeRecvVec4_fst]

private theorem startBits_of_length {v : Vector4} (vwid : Nat) (hv : v.length = vwid) :
    startBits vwid v = v := by
  rw [startBits]
  split_ifs with h0
  · rw [List.eq_nil_of_length_eq_zero h0, ← hv, h0, List.replicate_zero]
  · rfl

omit [DecidableEq Port] [DecidableEq Context] in
/-- Parts delivered one after the other overlay each other. -/
private theorem deliver_parts (port : Port) (context : Context) {oldBits : Vector4}
    (hold : (startBits vwid oldBits).length = vwid)
    {parts : List (Nat × Vector4)} (hfit : ∀ e ∈ parts, e.1 + e.2.length ≤ vwid)
    (hne : parts ≠ []) :
    ∃ v, (parts.map (partEvent port context vwid)).foldlM deliverEvent oldBits = some v ∧
      v.length = vwid ∧ ∀ t, v[t]? = (startBits vwid oldBits)[t]?.map fun b =>
        (Overlay.top (parts.map partBit) t).getD b := by
  induction parts using List.reverseRecOn with
  | nil => exact absurd rfl hne
  | append_singleton parts e ih =>
    have he : e.1 + e.2.length ≤ vwid := hfit e (by simp)
    rcases eq_or_ne parts [] with rfl | hparts
    · refine ⟨Vector4.setVec (startBits vwid oldBits) e.1 e.2, ?_, ?_, fun t => ?_⟩
      · rw [List.nil_append, List.map_singleton, List.foldlM_cons, deliverEvent_part _ _ _ he,
          if_pos hold]
        rfl
      · rw [Vector4.length_setVec, hold]
      · rw [Vector4.getElem?_setVec, List.nil_append, List.map_singleton, Overlay.top,
          Overlay.top_nil, Option.none_or, partBit]
        split_ifs <;> rfl
    · obtain ⟨v, hv, hlen, hbits⟩ :=
        ih (fun e he => hfit e (List.mem_append_left _ he)) hparts
      refine ⟨Vector4.setVec v e.1 e.2, ?_, ?_, fun t => ?_⟩
      · rw [List.map_append, List.foldlM_append, hv, List.map_singleton]
        simp only [Option.bind_eq_bind, Option.bind_some, List.foldlM_cons,
          deliverEvent_part _ _ _ he, startBits_of_length _ hlen, hlen, if_true]
        rfl
      · rw [Vector4.length_setVec, hlen]
      · rw [Vector4.getElem?_setVec, hbits, Option.map_map, List.map_append, Overlay.top_append,
          List.map_singleton, Overlay.top, Overlay.top_nil, Option.none_or]
        congr 1
        funext b
        rw [partBit, Function.comp_apply]
        split_ifs
        · cases e.2[t - e.1]? <;> rfl
        · rfl

omit [DecidableEq Port] [DecidableEq Context] in
/-- Parts are delivered only to a vector that has none or all of its bits. -/
private theorem startBits_of_deliver {oldBits v : Vector4} {e : Nat × Vector4}
    {parts : List (Nat × Vector4)} (hfit : e.1 + e.2.length ≤ vwid)
    (h : ((e :: parts).map (partEvent port context vwid)).foldlM deliverEvent oldBits = some v) :
    (startBits vwid oldBits).length = vwid := by
  rw [List.map_cons, List.foldlM_cons, deliverEvent_part _ _ _ hfit] at h
  split_ifs at h with hlen
  · exact hlen
  · cases h

/-- The event list of one input: the parts merged by base while there is no whole value, one
whole value after. -/
private theorem runAll_spec {calls : List (DeferCall Port Context)}
    (hinput : ∀ c ∈ calls, c.input port context = true) (hfit : ∀ c ∈ calls, c.Fits vwid) :
    ((∀ c ∈ calls, c.event.isPart = true) ∧
        calls.map DeferCall.event =
          (calls.filterMap DeferCall.part).map (partEvent port context vwid) ∧
        DeferCall.runAll calls =
          (Log.compact (calls.filterMap DeferCall.part)).map (partEvent port context vwid)) ∨
      ((∃ c ∈ calls, c.event.isPart = false) ∧
        ∃ w : Vector4, w.length = vwid ∧ DeferCall.runAll calls = [wholeEvent port context w] ∧
          ∀ oldBits, (calls.map DeferCall.event).foldlM deliverEvent oldBits = some w ∨
            (calls.map DeferCall.event).foldlM deliverEvent oldBits = none) := by
  induction calls using List.reverseRecOn with
  | nil => exact .inl ⟨by simp, rfl, rfl⟩
  | append_singleton calls call ih =>
    have hcall := hinput call (by simp)
    have hcallfit := hfit call (by simp)
    have ih := ih (fun c hc => hinput c (List.mem_append_left _ hc))
      fun c hc => hfit c (List.mem_append_left _ hc)
    cases call with
    | vec4 p bit c =>
      obtain ⟨rfl, rfl⟩ := sameEventInput_eq_true.mp hcall
      refine .inr ⟨⟨_, List.mem_append_right _ (List.mem_singleton_self _), rfl⟩, bit,
        hcallfit.1, ?_, fun oldBits => ?_⟩
      · rw [DeferCall.runAll_concat]
        apply deferVec4_same
        intro e he
        rcases ih with ⟨-, -, hrun⟩ | ⟨-, w, -, hrun, -⟩
        · rw [hrun, List.mem_map] at he
          obtain ⟨e, -, rfl⟩ := he
          exact sameEventInput_eq_true.mpr ⟨rfl, rfl⟩
        · rw [hrun, List.mem_singleton] at he
          rw [he]
          exact sameEventInput_eq_true.mpr ⟨rfl, rfl⟩
      · rw [List.map_append, List.foldlM_append]
        cases (calls.map DeferCall.event).foldlM deliverEvent oldBits with
        | none => exact .inr rfl
        | some u =>
          left
          simp [deliverEvent, DeferCall.event, anyedgeRecvVec4_fst]
    | vec4Pv p bit base wid c =>
      obtain ⟨rfl, rfl⟩ := sameEventInput_eq_true.mp hcall
      obtain ⟨rfl, hbit⟩ := hcallfit
      rcases ih with ⟨hpart, hevents, hrun⟩ | ⟨⟨c', hc', hwhole⟩, w, hw, hrun, hdeliver⟩
      · refine .inl ⟨?_, ?_, ?_⟩
        · intro c' hc'
          rcases List.mem_append.mp hc' with hc' | hc'
          · exact hpart c' hc'
          · rw [List.mem_singleton.mp hc']
            rfl
        · rw [List.map_append, hevents, List.filterMap_append, List.map_append]
          rfl
        · rw [DeferCall.runAll_concat, hrun, List.filterMap_append]
          exact (deferVec4Pv_parts (Log.nodup_keys_compact _) bit base).trans
            (congrArg _ (Log.compact_concat _ (base, bit)).symm)
      · refine .inr ⟨⟨c', List.mem_append_left _ hc', hwhole⟩, Vector4.setVec w base bit, ?_, ?_,
          fun oldBits => ?_⟩
        · rw [Vector4.length_setVec, hw]
        · rw [DeferCall.runAll_concat, hrun]
          exact deferVec4Pv_whole hw hbit
        · rw [List.map_append, List.foldlM_append]
          rcases hdeliver oldBits with h | h
          · left
            have hevent := deliverEvent_part p c w (e := (base, bit)) hbit
            rw [h, List.map_singleton, Option.bind_eq_bind, Option.bind_some, List.foldlM_cons]
            rw [startBits_of_length _ hw, if_pos hw] at hevent
            exact congrArg (· >>= fun s => List.foldlM deliverEvent s []) hevent
          · right
            rw [h]
            rfl

/-! ## When merging keeps the result -/

/-- What the latest part of a base puts into a bit. -/
def latestBit (parts : List (Nat × Vector4)) (base t : Nat) : Option Bit4 :=
  (Log.latest parts base).bind fun v => partBit (base, v) t

/-- Merging by base keeps a sequence of parts: where the last part that covers a bit writes some
value, the bases, in the order of their first use, are such that the last base whose latest part
covers the bit writes the same. -/
def PartsKept (parts : List (Nat × Vector4)) : Prop :=
  ∀ t b, (∃ pre e post, parts = pre ++ e :: post ∧ partBit e t = some b ∧
      ∀ e' ∈ post, partBit e' t = none) →
    ∃ pre base post, Log.firstUses (parts.map Prod.fst) = pre ++ base :: post ∧
      latestBit parts base t = some b ∧ ∀ base' ∈ post, latestBit parts base' t = none

private theorem top_compact (parts : List (Nat × Vector4)) (t : Nat) :
    Overlay.top ((Log.compact parts).map partBit) t =
      Overlay.top ((Log.firstUses (parts.map Prod.fst)).map (latestBit parts)) t := by
  rw [Log.compact_eq, Overlay.top_filterMap]
  congr 1
  apply List.map_congr_left
  intro base _
  funext t
  rw [latestBit]
  cases Log.latest parts base <;> rfl

/-- The merged parts give every bit the same value as all the parts. -/
private theorem top_eq_iff (parts : List (Nat × Vector4)) :
    (∀ t, Overlay.top ((Log.compact parts).map partBit) t =
      Overlay.top (parts.map partBit) t) ↔ PartsKept parts := by
  constructor
  · intro h t b hlast
    have htop := Overlay.top_eq_some_iff.mpr hlast
    rw [← h, top_compact] at htop
    exact Overlay.top_eq_some_iff.mp htop
  · intro h t
    rw [top_compact]
    cases htop : Overlay.top (parts.map partBit) t with
    | none =>
      rw [Overlay.top_eq_none_iff] at htop ⊢
      intro q hq
      obtain ⟨base, -, rfl⟩ := List.mem_map.mp hq
      rw [latestBit, Option.bind_eq_none_iff]
      intro v hv
      exact htop _ (List.mem_map_of_mem (Log.latest_mem hv))
    | some b => exact Overlay.top_eq_some_iff.mpr (h t b (Overlay.top_eq_some_iff.mp htop))

private theorem partBit_eq_none {e : Nat × Vector4} (hfit : e.1 + e.2.length ≤ vwid) {t : Nat}
    (ht : vwid ≤ t) : partBit e t = none := by
  rw [partBit]
  split_ifs
  · exact List.getElem?_eq_none (by omega)
  · rfl

private theorem compact_subset {parts : List (Nat × Vector4)} {e : Nat × Vector4}
    (he : e ∈ Log.compact parts) : e ∈ parts := by
  rw [Log.compact_eq, List.mem_filterMap] at he
  obtain ⟨base, -, he⟩ := he
  obtain ⟨v, hv, rfl⟩ := Option.map_eq_some_iff.mp he
  exact Log.latest_mem hv

private theorem compact_ne_nil {parts : List (Nat × Vector4)} (hne : parts ≠ []) :
    Log.compact parts ≠ [] := by
  obtain ⟨e, he⟩ := List.exists_mem_of_ne_nil parts hne
  have hbase : e.1 ∈ Log.firstUses (parts.map Prod.fst) :=
    Log.mem_firstUses.mpr (List.mem_map_of_mem he)
  obtain ⟨v, hv⟩ := Option.isSome_iff_exists.mp
    (Log.latest_isSome (Log.mem_firstUses.mp hbase))
  rw [Log.compact_eq]
  apply List.ne_nil_of_mem (a := (e.1, v))
  rw [List.mem_filterMap]
  exact ⟨e.1, hbase, by rw [hv]; rfl⟩

omit [DecidableEq Port] [DecidableEq Context] in
/-- Merged parts leave every vector as all the parts do exactly if they are kept. -/
private theorem deliver_compact_iff {parts : List (Nat × Vector4)}
    (hfit : ∀ e ∈ parts, e.1 + e.2.length ≤ vwid) :
    (∀ oldBits v, (parts.map (partEvent port context vwid)).foldlM deliverEvent oldBits = some v →
      ((Log.compact parts).map (partEvent port context vwid)).foldlM deliverEvent oldBits =
        some v) ↔ PartsKept parts := by
  rw [← top_eq_iff]
  rcases eq_or_ne parts [] with rfl | hne
  · exact iff_of_true (fun oldBits v h => h) fun t => rfl
  have hfit' : ∀ e ∈ Log.compact parts, e.1 + e.2.length ≤ vwid :=
    fun e he => hfit e (compact_subset he)
  constructor
  · intro h t
    rcases Nat.lt_or_ge t vwid with ht | ht
    · -- two starting vectors that differ in every bit
      have hbit : ∀ y : Bit4, (Overlay.top ((Log.compact parts).map partBit) t).getD y =
          (Overlay.top (parts.map partBit) t).getD y := by
        intro y
        have hstart := startBits_of_length (v := List.replicate vwid y) vwid
          List.length_replicate
        have hlen : (startBits vwid (List.replicate vwid y)).length = vwid := by
          rw [hstart, List.length_replicate]
        obtain ⟨v, hv, -, hbits⟩ := deliver_parts port context hlen hfit hne
        obtain ⟨v', hv', -, hbits'⟩ :=
          deliver_parts port context hlen hfit' (compact_ne_nil hne)
        have hsame := h _ v hv
        rw [hv', Option.some.injEq] at hsame
        have ht' := hbits' t
        rw [hsame, hbits t, hstart, List.getElem?_replicate_of_lt ht, Option.map_some,
          Option.map_some, Option.some.injEq] at ht'
        exact ht'.symm
      have hzero := hbit .zero
      have hone := hbit .one
      generalize Overlay.top ((Log.compact parts).map partBit) t = b at hzero hone
      generalize Overlay.top (parts.map partBit) t = b' at hzero hone
      cases b with
      | none =>
        cases b' with
        | none => rfl
        | some b' => cases Eq.trans hzero hone.symm
      | some b =>
        cases b' with
        | none => cases Eq.trans hzero.symm hone
        | some b' => exact congrArg some hzero
    · rw [Overlay.top_eq_none_iff.mpr, Overlay.top_eq_none_iff.mpr]
      · intro q hq
        obtain ⟨e, he, rfl⟩ := List.mem_map.mp hq
        exact partBit_eq_none (hfit e he) ht
      · intro q hq
        obtain ⟨e, he, rfl⟩ := List.mem_map.mp hq
        exact partBit_eq_none (hfit' e he) ht
  · intro h oldBits v hv
    obtain ⟨e, rest, rfl⟩ := List.exists_cons_of_ne_nil hne
    have hlen := startBits_of_deliver (hfit e List.mem_cons_self) hv
    obtain ⟨u, hu, -, hbits⟩ := deliver_parts port context hlen hfit hne
    obtain ⟨u', hu', -, hbits'⟩ :=
      deliver_parts port context hlen hfit' (compact_ne_nil hne)
    rw [hu', ← hv, hu, Option.some.injEq]
    apply List.ext_getElem?
    intro t
    rw [hbits, hbits', h]

end OneInput

/-- Delivering the merged events leaves the input as delivering all the calls does, whatever it
held before. -/
def MergedAsSent (calls : List (DeferCall Port Context)) (port : Port) (context : Context) :
    Prop :=
  ∀ oldBits v, deliverEvents port context (calls.map DeferCall.event) oldBits = some v →
    deliverEvents port context (DeferCall.runAll calls) oldBits = some v

/-- Merging loses nothing of an input's vectors exactly if one of them is whole or its parts
are kept. -/
theorem merged_as_sent_iff (calls : List (DeferCall Port Context)) (port : Port)
    (context : Context) (vwid : Nat)
    (hfit : ∀ c ∈ calls, c.input port context = true → c.Fits vwid) :
    MergedAsSent calls port context ↔
      (∃ c ∈ calls, c.input port context = true ∧ c.event.isPart = false) ∨
        PartsKept ((calls.filter (DeferCall.input port context)).filterMap DeferCall.part) := by
  have hinput' : ∀ c ∈ calls.filter (DeferCall.input port context), c.input port context = true :=
    fun c hc => (List.mem_filter.mp hc).2
  have hfit' : ∀ c ∈ calls.filter (DeferCall.input port context), c.Fits vwid :=
    fun c hc => hfit c (List.mem_filter.mp hc).1 (List.mem_filter.mp hc).2
  have hevents : (calls.map DeferCall.event).filter (sameEventInput port context) =
      (calls.filter (DeferCall.input port context)).map DeferCall.event := by
    rw [List.filter_map]
    rfl
  rw [MergedAsSent]
  simp only [deliverEvents, filter_runAll, hevents]
  rcases runAll_spec hinput' hfit' with ⟨hpart, hparts, hrun⟩ | ⟨⟨c, hc, hwhole⟩, w, -, hrun, hw⟩
  · rw [hrun, hparts, deliver_compact_iff, or_iff_right]
    · rintro ⟨c, hc, hin, hwhole⟩
      rw [hpart c (List.mem_filter.mpr ⟨hc, hin⟩)] at hwhole
      cases hwhole
    · intro e he
      obtain ⟨c, hc, he⟩ := List.mem_filterMap.mp he
      cases c with
      | vec4 p bit c => cases he
      | vec4Pv p bit base wid c =>
        cases he
        obtain ⟨hwid, hle⟩ := hfit' _ hc
        exact hle.trans_eq rfl
  · refine iff_of_true ?_ (.inl ⟨c, (List.mem_filter.mp hc).1, (List.mem_filter.mp hc).2, hwhole⟩)
    intro oldBits v hv
    rcases hw oldBits with h | h
    · rw [h, Option.some.injEq] at hv
      rw [hrun, ← hv]
      simp [wholeEvent, deliverEvent, anyedgeRecvVec4_fst]
    · rw [h] at hv
      cases hv

/-- The calls of one input: four ones at the bottom, then two zeros there. -/
private def shorterPart : List (DeferCall Unit Unit) :=
  [.vec4Pv () [.one, .one, .one, .one] 0 4 (), .vec4Pv () [.zero, .zero] 0 4 ()]

/-- Parts written twice, and a whole value after them. -/
theorem merged_as_sent_example :
    MergedAsSent [.vec4Pv () [.one] 0 4 (), .vec4Pv () [.zero] 2 4 (), .vec4Pv () [.zero] 0 4 (),
      .vec4 () [.x, .x, .x, .x] ()] () () := by
  rw [merged_as_sent_iff _ () () 4 (by decide)]
  exact .inl ⟨.vec4 () [.x, .x, .x, .x] (), by decide, by decide, rfl⟩

/-- A shorter part at the base of a longer one takes its place: the high bits are lost. -/
theorem shorter_part_loses_bits :
    ¬ ∀ calls : List (DeferCall Unit Unit),
      (∀ c ∈ calls, c.input () () = true → c.Fits 4) → MergedAsSent calls () () := by
  intro h
  have hsent := h shorterPart (by decide) (List.replicate 4 .x) [.zero, .zero, .one, .one]
    (by decide)
  exact absurd hsent (by decide)

end Icarus.Vvp
