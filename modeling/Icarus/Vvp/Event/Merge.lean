import Icarus.Core.Overlay
import Icarus.Vvp.Bits
import Mathlib.Tactic.Cases

/-!
# Deferred vector events

While a procedural store settles, the vectors sent to an event input are kept in
the event list of a deferral transaction and merged there: a later vector may
rewrite an entry of an earlier one in place. The input sees the entries when the
transaction ends.
-/

namespace Icarus.Vvp

open Core

variable {Port Context : Type} [DecidableEq Port] [DecidableEq Context]

/-- `deferred_vec4_event_s`. -/
structure DeferredVec4Event (Port Context : Type) where
  /-- `port`. -/
  port : Port
  /-- `context`. -/
  context : Context
  /-- `value`. -/
  value : Vector4
  /-- `base`. -/
  base : Nat
  /-- `vwid`. -/
  vwid : Nat
  /-- The flag of a part value. -/
  isPart : Bool
  deriving DecidableEq

/-- `same_event_input`. -/
def sameEventInput (port : Port) (context : Context) (event : DeferredVec4Event Port Context) :
    Bool :=
  event.port = port ∧ event.context = context

/-- The loop of `vvp_event_defer_vec4`: the first entry of the input takes the value, the others
are erased. -/
def deferVec4Loop (port : Port) (bit : Vector4) (context : Context) :
    List (DeferredVec4Event Port Context) → Bool → List (DeferredVec4Event Port Context) × Bool
  | [], found => ([], found)
  | cur :: rest, found =>
    if sameEventInput port context cur = false then
      let (rest, found) := deferVec4Loop port bit context rest found
      (cur :: rest, found)
    else if found = false then
      let (rest, found) := deferVec4Loop port bit context rest true
      ({ cur with value := bit, base := 0, vwid := bit.length, isPart := false } :: rest, found)
    else deferVec4Loop port bit context rest found

/-- `vvp_event_defer_vec4`, on the events of the transaction. -/
def deferVec4 (events : List (DeferredVec4Event Port Context)) (port : Port) (bit : Vector4)
    (context : Context) : List (DeferredVec4Event Port Context) :=
  match deferVec4Loop port bit context events false with
  | (events, true) => events
  | (events, false) => events ++ [⟨port, context, bit, 0, bit.length, false⟩]

/-- The loop of `vvp_event_defer_vec4_pv`, from the last entry to the first: an entry of the
input that can take the part takes it. -/
def deferVec4PvLoop (port : Port) (bit : Vector4) (base vwid : Nat) (context : Context) :
    List (DeferredVec4Event Port Context) → Option (List (DeferredVec4Event Port Context))
  | [] => none
  | cur :: rest =>
    if sameEventInput port context cur = false then
      (deferVec4PvLoop port bit base vwid context rest).map (cur :: ·)
    else if cur.isPart = false ∧ cur.value.length = vwid ∧ base + bit.length ≤ vwid then
      some ({ cur with value := Vector4.setVec cur.value base bit } :: rest)
    else if cur.isPart ∧ cur.base = base ∧ cur.vwid = vwid then
      some ({ cur with value := bit } :: rest)
    else (deferVec4PvLoop port bit base vwid context rest).map (cur :: ·)

/-- `vvp_event_defer_vec4_pv`, on the events of the transaction. -/
def deferVec4Pv (events : List (DeferredVec4Event Port Context)) (port : Port) (bit : Vector4)
    (base vwid : Nat) (context : Context) : List (DeferredVec4Event Port Context) :=
  match deferVec4PvLoop port bit base vwid context events.reverse with
  | some events => events.reverse
  | none => events ++ [⟨port, context, bit, base, vwid, true⟩]

/-- A call of `vvp_event_defer_vec4` or of `vvp_event_defer_vec4_pv`. -/
inductive DeferCall (Port Context : Type)
  | vec4 (port : Port) (bit : Vector4) (context : Context)
  | vec4Pv (port : Port) (bit : Vector4) (base vwid : Nat) (context : Context)
  deriving DecidableEq

namespace DeferCall

/-- The events of the transaction after the call. -/
def run (events : List (DeferredVec4Event Port Context)) :
    DeferCall Port Context → List (DeferredVec4Event Port Context)
  | vec4 port bit context => deferVec4 events port bit context
  | vec4Pv port bit base vwid context => deferVec4Pv events port bit base vwid context

/-- The value of the call as an entry of its own. -/
def event : DeferCall Port Context → DeferredVec4Event Port Context
  | vec4 port bit context => ⟨port, context, bit, 0, bit.length, false⟩
  | vec4Pv port bit base vwid context => ⟨port, context, bit, base, vwid, true⟩

/-- The events of a transaction after all its calls. -/
def runAll (calls : List (DeferCall Port Context)) : List (DeferredVec4Event Port Context) :=
  calls.foldl run []

end DeferCall

/-! ## The event input -/

/-- `anyedge_vec4_value::recv_vec4`: `old_bits` after, and whether it was an edge. -/
def anyedgeRecvVec4 (oldBits bit : Vector4) : Vector4 × Bool :=
  if oldBits.length ≠ bit.length then
    if oldBits.length = 0 then
      let oldBits := List.replicate bit.length .x
      if oldBits = bit then (oldBits, false) else (bit, true)
    else (bit, true)
  else if oldBits = bit then (oldBits, false) else (bit, true)

/-- `anyedge_vec4_value::recv_vec4_pv`; nothing where an assertion fails. -/
def anyedgeRecvVec4Pv (oldBits bit : Vector4) (base vwid : Nat) : Option (Vector4 × Bool) :=
  let tmp := if oldBits.length = 0 then List.replicate vwid .z else oldBits
  if base + bit.length ≤ vwid ∧ tmp.length = vwid then
    some (anyedgeRecvVec4 oldBits (Vector4.setVec tmp base bit))
  else none

/-- An entry delivered: the observed vector after. -/
def deliverEvent (oldBits : Vector4) (cur : DeferredVec4Event Port Context) : Option Vector4 :=
  if cur.isPart then (anyedgeRecvVec4Pv oldBits cur.value cur.base cur.vwid).map Prod.fst
  else some (anyedgeRecvVec4 oldBits cur.value).1

/-- The loop of `finish_event_defer` as one input sees it: its entries, in order. -/
def deliverEvents (port : Port) (context : Context)
    (events : List (DeferredVec4Event Port Context)) (oldBits : Vector4) : Option Vector4 :=
  (events.filter (sameEventInput port context)).foldlM deliverEvent oldBits

/-- The observed vector is always the one received. -/
theorem anyedgeRecvVec4_fst (oldBits bit : Vector4) : (anyedgeRecvVec4 oldBits bit).1 = bit := by
  simp only [anyedgeRecvVec4]
  split_ifs with hlen hzero hx hsame
  · exact hx
  · rfl
  · rfl
  · exact hsame
  · rfl

/-! ## Entries of other inputs -/

section Input

variable {port p : Port} {context c : Context}

@[simp] theorem sameEventInput_eq_true {cur : DeferredVec4Event Port Context} :
    sameEventInput port context cur = true ↔ cur.port = port ∧ cur.context = context := by
  rw [sameEventInput, decide_eq_true_eq]

private theorem sameEventInput_other (h : ¬ (p = port ∧ c = context))
    {cur : DeferredVec4Event Port Context} (hcur : sameEventInput p c cur = true) :
    sameEventInput port context cur = false := by
  rw [sameEventInput_eq_true] at hcur
  rw [Bool.eq_false_iff, Ne, sameEventInput_eq_true]
  rintro ⟨hport, hcontext⟩
  exact h ⟨hcur.1.symm.trans hport, hcur.2.symm.trans hcontext⟩

private theorem filter_vec4Loop_other (h : ¬ (p = port ∧ c = context)) (bit : Vector4)
    (events : List (DeferredVec4Event Port Context)) (found : Bool) :
    (deferVec4Loop p bit c events found).1.filter (sameEventInput port context) =
      events.filter (sameEventInput port context) := by
  induction events generalizing found with
  | nil => rfl
  | cons cur rest ih =>
    rw [deferVec4Loop]
    split_ifs with hother hfound
    · rw [List.filter_cons, List.filter_cons, ih]
    · have hcur := sameEventInput_other h (Bool.eq_true_of_not_eq_false hother)
      rw [List.filter_cons_of_neg (by exact Bool.eq_false_iff.mp hcur),
        List.filter_cons_of_neg (by exact Bool.eq_false_iff.mp hcur), ih]
    · have hcur := sameEventInput_other h (Bool.eq_true_of_not_eq_false hother)
      rw [List.filter_cons_of_neg (Bool.eq_false_iff.mp hcur), ih]

private theorem filter_vec4Loop (bit : Vector4) (events : List (DeferredVec4Event Port Context))
    (found : Bool) :
    (deferVec4Loop port bit context events found).1.filter (sameEventInput port context) =
        (deferVec4Loop port bit context (events.filter (sameEventInput port context)) found).1 ∧
      (deferVec4Loop port bit context events found).2 =
        (deferVec4Loop port bit context (events.filter (sameEventInput port context)) found).2 := by
  induction events generalizing found with
  | nil => exact ⟨rfl, rfl⟩
  | cons cur rest ih =>
    cases hcur : sameEventInput port context cur
    · rw [deferVec4Loop, if_pos hcur, List.filter_cons_of_neg (Bool.eq_false_iff.mp hcur),
        List.filter_cons_of_neg (Bool.eq_false_iff.mp hcur)]
      exact ih found
    · simp only [List.filter_cons_of_pos hcur, deferVec4Loop, hcur, Bool.true_eq_false, ↓reduceIte]
      split_ifs with hfound
      · refine ⟨?_, (ih true).2⟩
        rw [List.filter_cons_of_pos (by exact hcur), (ih true).1]
      · exact ih found

private theorem filter_pvLoop_other (h : ¬ (p = port ∧ c = context)) (bit : Vector4)
    (base vwid : Nat) (events events' : List (DeferredVec4Event Port Context))
    (hloop : deferVec4PvLoop p bit base vwid c events = some events') :
    events'.filter (sameEventInput port context) =
      events.filter (sameEventInput port context) := by
  induction events generalizing events' with
  | nil => cases hloop
  | cons cur rest ih =>
    have hskip : ∀ {o : Option (List (DeferredVec4Event Port Context))},
        o = deferVec4PvLoop p bit base vwid c rest → o.map (cur :: ·) = some events' →
        events'.filter (sameEventInput port context) =
          (cur :: rest).filter (sameEventInput port context) := by
      rintro _ rfl ho
      obtain ⟨es, hes, rfl⟩ := Option.map_eq_some_iff.mp ho
      rw [List.filter_cons, List.filter_cons, ih es hes]
    rw [deferVec4PvLoop] at hloop
    split_ifs at hloop with hother hwhole hpart
    · exact hskip rfl hloop
    · have hcur := sameEventInput_other h (Bool.eq_true_of_not_eq_false hother)
      cases hloop
      rw [List.filter_cons_of_neg (by exact Bool.eq_false_iff.mp hcur),
        List.filter_cons_of_neg (by exact Bool.eq_false_iff.mp hcur)]
    · have hcur := sameEventInput_other h (Bool.eq_true_of_not_eq_false hother)
      cases hloop
      rw [List.filter_cons_of_neg (by exact Bool.eq_false_iff.mp hcur),
        List.filter_cons_of_neg (by exact Bool.eq_false_iff.mp hcur)]
    · exact hskip rfl hloop

private theorem filter_pvLoop (port : Port) (context : Context) (bit : Vector4) (base vwid : Nat)
    (events : List (DeferredVec4Event Port Context)) :
    (deferVec4PvLoop port bit base vwid context events).map
        (List.filter (sameEventInput port context)) =
      deferVec4PvLoop port bit base vwid context
        (events.filter (sameEventInput port context)) := by
  induction events with
  | nil => rfl
  | cons cur rest ih =>
    cases hcur : sameEventInput port context cur
    · rw [List.filter_cons_of_neg (Bool.eq_false_iff.mp hcur), ← ih, deferVec4PvLoop, if_pos hcur,
        Option.map_map]
      congr 1
      funext es
      exact List.filter_cons_of_neg (Bool.eq_false_iff.mp hcur)
    · have hskip : ((deferVec4PvLoop port bit base vwid context rest).map (cur :: ·)).map
          (List.filter (sameEventInput port context)) =
          (deferVec4PvLoop port bit base vwid context
            (rest.filter (sameEventInput port context))).map (cur :: ·) := by
        rw [← ih, Option.map_map, Option.map_map]
        congr 1
        funext es
        exact List.filter_cons_of_pos hcur
      simp only [List.filter_cons_of_pos hcur, deferVec4PvLoop, hcur, Bool.true_eq_false,
        ↓reduceIte]
      split_ifs with hwhole hpart
      · rw [Option.map_some, List.filter_cons_of_pos (by exact hcur)]
      · rw [Option.map_some, List.filter_cons_of_pos (by exact hcur)]
      · exact hskip

/-- The input of a call. -/
def DeferCall.input (port : Port) (context : Context) (call : DeferCall Port Context) : Bool :=
  sameEventInput port context call.event

private theorem filter_run (events : List (DeferredVec4Event Port Context))
    (call : DeferCall Port Context) :
    (call.run events).filter (sameEventInput port context) =
      if call.input port context then call.run (events.filter (sameEventInput port context))
      else events.filter (sameEventInput port context) := by
  cases call with
  | vec4 p bit c =>
    by_cases h : p = port ∧ c = context
    · obtain ⟨rfl, rfl⟩ := h
      obtain ⟨hevents, hfound⟩ := filter_vec4Loop bit events false
      rw [if_pos (by simp [DeferCall.input, DeferCall.event])]
      simp only [DeferCall.run, deferVec4]
      generalize deferVec4Loop p bit c events false = r at hevents hfound
      generalize deferVec4Loop p bit c (events.filter (sameEventInput p c)) false = r'
        at hevents hfound
      obtain ⟨es, found⟩ := r
      obtain ⟨es', found'⟩ := r'
      subst hevents hfound
      cases found with
      | true => rfl
      | false =>
        rw [List.filter_append]
        simp
    · have hloop := filter_vec4Loop_other h bit events false
      rw [if_neg (by simpa [DeferCall.input, DeferCall.event] using h)]
      simp only [DeferCall.run, deferVec4]
      generalize deferVec4Loop p bit c events false = r at hloop
      obtain ⟨es, found⟩ := r
      cases found with
      | true => exact hloop
      | false =>
        rw [List.filter_append, hloop]
        simpa using h
  | vec4Pv p bit base vwid c =>
    by_cases h : p = port ∧ c = context
    · obtain ⟨rfl, rfl⟩ := h
      have hloop := filter_pvLoop p c bit base vwid events.reverse
      rw [if_pos (by simp [DeferCall.input, DeferCall.event])]
      simp only [DeferCall.run, deferVec4Pv]
      rw [List.filter_reverse] at hloop
      rw [← hloop]
      cases deferVec4PvLoop p bit base vwid c events.reverse with
      | none =>
        rw [Option.map_none, List.filter_append]
        simp
      | some es => exact List.filter_reverse
    · rw [if_neg (by simpa [DeferCall.input, DeferCall.event] using h)]
      simp only [DeferCall.run, deferVec4Pv]
      cases hloop : deferVec4PvLoop p bit base vwid c events.reverse with
      | none =>
        rw [List.filter_append]
        simpa using h
      | some es =>
        rw [List.filter_reverse, filter_pvLoop_other h bit base vwid _ es hloop,
          List.filter_reverse, List.reverse_reverse]

/-- The calls of one input are merged as if there were no others. -/
theorem filter_runAll (calls : List (DeferCall Port Context)) :
    (DeferCall.runAll calls).filter (sameEventInput port context) =
      DeferCall.runAll (calls.filter (DeferCall.input port context)) := by
  induction calls using List.reverseRecOn with
  | nil => rfl
  | append_singleton calls call ih =>
    rw [DeferCall.runAll, List.foldl_append, List.foldl_cons, List.foldl_nil, filter_run,
      ← DeferCall.runAll, ih, List.filter_append]
    split_ifs with hcall
    · rw [List.filter_cons_of_pos hcall, List.filter_nil]
      conv_rhs => rw [DeferCall.runAll, List.foldl_append, List.foldl_cons, List.foldl_nil,
        ← DeferCall.runAll]
    · rw [List.filter_cons_of_neg hcall, List.filter_nil, List.append_nil]

end Input

end Icarus.Vvp
