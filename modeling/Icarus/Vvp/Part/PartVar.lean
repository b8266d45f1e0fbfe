import Icarus.Core.Runs
import Icarus.Vvp.Part.Select

/-!
# Variable part selects

A `vvp_fun_part_var` gets the source on port 0 and the select on port 1, each whole or a part
at a time. It sends the part when that changes. The static form has one state, the automatic
form one for each context.
-/

namespace Icarus.Vvp

open Icarus.Core

/-- The parameters of `vvp_fun_part_var`. -/
structure PartVar where
  /-- `wid_`. -/
  wid : BitVec 32
  /-- `is_signed_`. -/
  isSigned : Bool

/-- Ports 0 and 1. -/
inductive PartPort
  | source
  | select
  deriving DecidableEq

/-- What arrives at a port: `recv_vec4`, or `recv_vec4_pv` with the base of the part and the
width of the whole. -/
structure PartDelivery where
  /-- `port`. -/
  port : PartPort
  /-- `bit`. -/
  bit : Vector4
  /-- `base` and `vwid` of a part. -/
  part : Option (Nat × Nat)
  deriving DecidableEq

/-! ## One state -/

/-- `vvp_fun_part_var_state_s`, or the fields of the static form, with the value last sent. -/
structure PartVarState where
  /-- `base`. -/
  base : BitVec 32
  /-- `source`. -/
  source : Vector4
  /-- `ref`. -/
  ref : Vector4
  /-- The value last sent. -/
  sent : Option Vector4
  deriving DecidableEq

namespace PartVarState

/-- The state that the constructor or `alloc_instance` makes. -/
def alloc : PartVarState := ⟨0, [], [], none⟩

/-- `reset_instance`; what was sent is of the instance before. -/
def reset (s : PartVarState) : PartVarState :=
  ⟨0, xVec s.source.length, xVec s.ref.length, none⟩

/-- The end of `recv_vec4_`: the new part, and whether it is to be sent. -/
def update (f : PartVar) (s : PartVarState) : PartVarState × Bool :=
  let res := partVarValue f.wid s.source s.base
  if s.ref ≠ res then ({ s with ref := res }, true) else (s, false)

/-- `recv_vec4_`. -/
def recv (f : PartVar) (port : PartPort) (bit : Vector4) (s : PartVarState) :
    PartVarState × Bool :=
  match port with
  | .source => update f { s with source := bit }
  | .select =>
    let tmp := selectBase f.isSigned bit
    if tmp = s.base then (s, false) else update f { s with base := tmp }

/-- `send_vec4` of the reference, where `recv_vec4_` returns true. -/
def send (r : PartVarState × Bool) : PartVarState :=
  if r.2 then { r.1 with sent := some r.1.ref } else r.1

/-- `recv_vec4`. -/
def recvVec4 (f : PartVar) (port : PartPort) (bit : Vector4) (s : PartVarState) : PartVarState :=
  send (s.recv f port bit)

/-- `recv_vec4_pv`; nothing where an assertion fails. -/
def recvVec4Pv (f : PartVar) (port : PartPort) (bit : Vector4) (base vwid : Nat)
    (s : PartVarState) : Option PartVarState :=
  let tmp := if s.source = [] then xVec vwid else s.source
  if tmp.length ≠ vwid then none
  else if vwid < base + bit.length then none
  else some (s.recvVec4 f port (tmp.setVec base bit))

/-- A delivery to the static form, or to one context. -/
def deliver (f : PartVar) (s : PartVarState) (d : PartDelivery) : Option PartVarState :=
  match d.part with
  | none => some (s.recvVec4 f d.port d.bit)
  | some (base, vwid) => s.recvVec4Pv f d.port d.bit base vwid

end PartVarState

/-! ## The automatic form -/

/-- `vvp_fun_part_var_aa`: the live contexts of its scope and its item in each context. -/
structure PartVarAa (Ctx : Type) where
  /-- `live_contexts`. -/
  live : List Ctx
  /-- A context is linked in once. -/
  live_nodup : live.Nodup
  /-- The item of a context. -/
  state : Ctx → PartVarState

namespace PartVarAa

variable {Ctx : Type} [DecidableEq Ctx]

/-- `recv_vec4` with a context. -/
def recvOne (f : PartVar) (port : PartPort) (bit : Vector4) (s : PartVarAa Ctx) (context : Ctx) :
    PartVarAa Ctx :=
  { s with
    state := Function.update s.state context ((s.state context).recvVec4 f port bit) }

/-- `recv_vec4`. -/
def recvVec4 (f : PartVar) (port : PartPort) (bit : Vector4) (s : PartVarAa Ctx) :
    Option Ctx → PartVarAa Ctx
  | some context => s.recvOne f port bit context
  | none => s.live.foldl (recvOne f port bit) s

/-- `recv_vec4_pv`. -/
def recvVec4Pv (f : PartVar) (port : PartPort) (bit : Vector4) (base vwid : Nat)
    (s : PartVarAa Ctx) : Option Ctx → Option (PartVarAa Ctx)
  | some context =>
    ((s.state context).recvVec4Pv f port bit base vwid).map fun state =>
      { s with state := Function.update s.state context state }
  | none => some (s.live.foldl (recvOne f port bit) s)

/-- A delivery. -/
def deliver (f : PartVar) (s : PartVarAa Ctx) (d : PartDelivery) (context : Option Ctx) :
    Option (PartVarAa Ctx) :=
  match d.part with
  | none => some (s.recvVec4 f d.port d.bit context)
  | some (base, vwid) => s.recvVec4Pv f d.port d.bit base vwid context

end PartVarAa

/-! ## The inputs -/

/-- The vectors on the two inputs. An input that has got nothing is empty; an empty select
stands for zero, the base a state starts with. -/
structure PartInputs where
  /-- The source. -/
  source : Vector4
  /-- The select. -/
  select : Vector4
  deriving DecidableEq

/-- A vector after a delivery. -/
def PartDelivery.onto (d : PartDelivery) (old : Vector4) : Vector4 :=
  match d.part with
  | none => d.bit
  | some (base, vwid) => (if old = [] then xVec vwid else old).setVec base d.bit

/-- The vector on an input. -/
def PartInputs.get (i : PartInputs) : PartPort → Vector4
  | .source => i.source
  | .select => i.select

/-- The inputs after a delivery. -/
def PartInputs.deliver (i : PartInputs) (d : PartDelivery) : PartInputs :=
  match d.port with
  | .source => { i with source := d.onto i.source }
  | .select => { i with select := d.onto i.select }

/-- The value last sent is the part of the source that the select stands for; before anything
is sent, that part is all X. -/
def PartInputs.Shows (f : PartVar) (i : PartInputs) (s : PartVarState) : Prop :=
  s.sent.getD (xVec f.wid.toNat) = meantPart f.isSigned i.select i.source f.wid.toNat

/-- A delivery that brings no part of a select and leaves a base that addresses the part. -/
def PartInputs.Clear (f : PartVar) (i : PartInputs) (d : PartDelivery) : Prop :=
  (d.part = none ∨ d.port = .source) ∧
    Addressed f.isSigned f.wid.toNat (i.deliver d).source (i.deliver d).select

instance (f : PartVar) (i : PartInputs) (d : PartDelivery) : Decidable (i.Clear f d) :=
  inferInstanceAs (Decidable (_ ∧ _))

/-- A delivery of all of a vector. -/
def PartDelivery.Whole (d : PartDelivery) (old : Vector4) : Prop :=
  d.part = none ∨ d.part = some (0, d.bit.length) ∧ (old = [] ∨ old.length = d.bit.length)

instance (d : PartDelivery) (old : Vector4) : Decidable (d.Whole old) :=
  inferInstanceAs (Decidable (_ ∨ _ ∧ _))

/-- All of a vector replaces it. -/
theorem PartDelivery.onto_whole {d : PartDelivery} {old : Vector4} (h : d.Whole old) :
    d.onto old = d.bit := by
  rw [onto]
  rcases h with h | ⟨h, hlen⟩
  · rw [h]
  · rw [h]
    apply List.ext_getElem?
    intro i
    have hwide : (if old = [] then xVec d.bit.length else old).length = d.bit.length := by
      split_ifs with hnil
      · exact length_xVec _
      · exact hlen.resolve_left hnil
    rw [Vector4.getElem?_setVec, Nat.sub_zero]
    generalize (if old = [] then xVec d.bit.length else old) = tmp at hwide
    by_cases hi : i < d.bit.length
    · rw [List.getElem?_eq_getElem (l := tmp) (by omega), Option.map_some,
        if_pos (Nat.zero_le i), List.getElem?_eq_getElem hi, Option.getD_some]
    · rw [List.getElem?_eq_none (by omega), List.getElem?_eq_none (by omega), Option.map_none]

/-! ## What a state keeps -/

/-- A state at the start of a life. -/
structure PartVarState.Fresh (f : PartVar) (s : PartVarState) : Prop where
  /-- The base is zero. -/
  base_eq : s.base = 0
  /-- Nothing is known of the source. -/
  source_eq : ∃ n, s.source = xVec n
  /-- Nothing but X was sent. -/
  ref_eq : s.ref = [] ∨ s.ref = xVec f.wid.toNat
  /-- Nothing is sent yet. -/
  sent_eq : s.sent = none

/-- What was sent last is the part at the base that is kept. -/
structure PartVarState.Current (f : PartVar) (s : PartVarState) : Prop where
  /-- What was sent last is kept. -/
  ref_eq : s.sent = some s.ref ∨ s.sent = none ∧ (s.ref = [] ∨ s.ref = xVec f.wid.toNat)
  /-- It is the part. -/
  sent_eq : s.sent.getD (xVec f.wid.toNat) = partVarValue f.wid s.source s.base

namespace PartVarState

variable {f : PartVar} {s : PartVarState}

theorem alloc_fresh (f : PartVar) : alloc.Fresh f := ⟨rfl, ⟨0, rfl⟩, .inl rfl, rfl⟩

theorem Fresh.current (h : s.Fresh f) : s.Current f where
  ref_eq := .inr ⟨h.sent_eq, h.ref_eq⟩
  sent_eq := by
    obtain ⟨n, hn⟩ := h.source_eq
    rw [h.sent_eq, hn, Option.getD_none, partVarValue_xVec]

@[simp] theorem send_update_base (f : PartVar) (s : PartVarState) :
    (send (s.update f)).base = s.base := by
  rw [send, update]
  split_ifs <;> rfl

@[simp] theorem send_update_source (f : PartVar) (s : PartVarState) :
    (send (s.update f)).source = s.source := by
  rw [send, update]
  split_ifs <;> rfl

/-- The new part is sent unless it is the old one. -/
private theorem send_update_current
    (href : s.sent = some s.ref ∨ s.sent = none ∧ (s.ref = [] ∨ s.ref = xVec f.wid.toNat)) :
    (send (s.update f)).Current f := by
  rw [update]
  by_cases hsame : s.ref = partVarValue f.wid s.source s.base
  · rw [if_neg (not_not.mpr hsame), send, if_neg Bool.false_ne_true]
    refine ⟨href, ?_⟩
    rcases href with hsent | ⟨hsent, hnil | hx⟩
    · rw [hsent, Option.getD_some, hsame]
    · -- the part is empty too
      have hwid := length_partVarValue f.wid s.source s.base
      rw [← hsame, hnil, List.length_nil] at hwid
      rw [hsent, Option.getD_none, ← hsame, hnil, ← hwid]
      rfl
    · rw [hsent, Option.getD_none, ← hsame, hx]
  · rw [if_pos hsame, send, if_pos rfl]
    exact ⟨.inl rfl, rfl⟩

/-- A vector on either port leaves the part at the base sent. -/
theorem Current.recvVec4 (h : s.Current f) (port : PartPort) (bit : Vector4) :
    (s.recvVec4 f port bit).Current f := by
  cases port with
  | source => exact send_update_current h.ref_eq
  | select =>
    rw [PartVarState.recvVec4, recv]
    split_ifs
    · exact h
    · exact send_update_current h.ref_eq

theorem recvVec4_source (f : PartVar) (s : PartVarState) (port : PartPort) (bit : Vector4) :
    (s.recvVec4 f port bit).source = if port = .source then bit else s.source := by
  cases port with
  | source => exact send_update_source f _
  | select =>
    rw [recvVec4, recv, if_neg (by decide : PartPort.select ≠ .source)]
    split_ifs
    · rfl
    · exact send_update_source f _

theorem recvVec4_base (f : PartVar) (s : PartVarState) (port : PartPort) (bit : Vector4) :
    (s.recvVec4 f port bit).base =
      if port = .select then selectBase f.isSigned bit else s.base := by
  cases port with
  | source => exact send_update_base f _
  | select =>
    rw [recvVec4, recv, if_pos (rfl : PartPort.select = .select)]
    split_ifs with hsame
    · exact hsame.symm
    · exact send_update_base f _

end PartVarState

/-! ## What a state follows -/

/-- A state of inputs: it has the source, keeps the base of the select and shows the part. -/
structure PartVarState.Follows (f : PartVar) (i : PartInputs) (s : PartVarState) : Prop where
  /-- What was sent is the part at the base. -/
  current : s.Current f
  /-- The source is the input. -/
  source_eq : s.source = i.source
  /-- The base is the one of the select. -/
  base_eq : s.base = selectBase f.isSigned i.select
  /-- The part that is meant is shown. -/
  shows : i.Shows f s

namespace PartVarState

variable {f : PartVar} {i : PartInputs} {s : PartVarState}

/-- The inputs at the start of a life: nothing but X, and no select. -/
def inputs (s : PartVarState) : PartInputs := ⟨s.source, []⟩

theorem Fresh.follows (h : s.Fresh f) : s.Follows f s.inputs where
  current := h.current
  source_eq := rfl
  base_eq := h.base_eq.trans (selectBase_nil f.isSigned).symm
  shows := by
    obtain ⟨n, hn⟩ := h.source_eq
    rw [PartInputs.Shows, h.sent_eq, inputs, hn, meantPart_nil, Option.getD_none, eq_comm,
      window_eq_xVec_iff]
    intro idx _
    rw [zero_add, bitAt_natCast, xVec, List.getElem?_getD_replicate_default_eq]

/-- Whatever is put on a port, the state follows if the new base addresses the part. -/
private theorem Follows.recvVec4 (h : s.Follows f i) {d : PartDelivery} {bit : Vector4}
    (hbit : bit = d.onto (i.get d.port))
    (haddr : Addressed f.isSigned f.wid.toNat (i.deliver d).source (i.deliver d).select) :
    (s.recvVec4 f d.port bit).Follows f (i.deliver d) := by
  have hcurrent := h.current.recvVec4 d.port bit
  have hsource : (s.recvVec4 f d.port bit).source = (i.deliver d).source := by
    rw [recvVec4_source, PartInputs.deliver]
    cases hport : d.port with
    | source => rw [if_pos rfl, hbit, hport, PartInputs.get]
    | select => rw [if_neg (by decide), h.source_eq]
  have hbase : (s.recvVec4 f d.port bit).base =
      selectBase f.isSigned (i.deliver d).select := by
    rw [recvVec4_base, PartInputs.deliver]
    cases hport : d.port with
    | source => rw [if_neg (by decide), h.base_eq]
    | select => rw [if_pos rfl, hbit, hport, PartInputs.get]
  refine ⟨hcurrent, hsource, hbase, ?_⟩
  rw [PartInputs.Shows, hcurrent.sent_eq, hsource, hbase, partVarValue_select haddr]

/-- A clear delivery to a state is followed. -/
theorem Follows.deliver (h : s.Follows f i) {d : PartDelivery} (hclear : i.Clear f d)
    {s' : PartVarState} (hs' : s.deliver f d = some s') : s'.Follows f (i.deliver d) := by
  obtain ⟨hport, haddr⟩ := hclear
  rw [PartVarState.deliver] at hs'
  cases hpart : d.part with
  | none =>
    rw [hpart] at hs'
    cases hs'
    refine h.recvVec4 ?_ haddr
    rw [PartDelivery.onto, hpart]
  | some p =>
    obtain ⟨base, vwid⟩ := p
    rw [hpart] at hs'
    dsimp only at hs'
    have hsource : d.port = .source :=
      hport.resolve_left (by rw [hpart]; exact Option.some_ne_none _)
    rw [recvVec4Pv, h.source_eq] at hs'
    by_cases hwid : (if i.source = [] then xVec vwid else i.source).length ≠ vwid
    · rw [if_pos hwid] at hs'
      cases hs'
    · rw [if_neg hwid] at hs'
      by_cases hin : vwid < base + d.bit.length
      · rw [if_pos hin] at hs'
        cases hs'
      · rw [if_neg hin] at hs'
        cases hs'
        refine h.recvVec4 ?_ haddr
        rw [PartDelivery.onto, hpart, hsource, PartInputs.get]

end PartVarState

/-! ## Contexts -/

section Contexts

variable {Ctx : Type} [DecidableEq Ctx]

/-- The inputs of the contexts after a delivery, which without a context is one to each live
context. -/
def PartInputs.deliverAa (live : List Ctx) (d : PartDelivery) :
    Option Ctx → (Ctx → PartInputs) → Ctx → PartInputs
  | some context, i => Function.update i context ((i context).deliver d)
  | none, i => fun context => if context ∈ live then (i context).deliver d else i context

/-- A delivery that is clear in each context it is for, and brings all of a vector if it has no
context. -/
def PartInputs.ClearAa (f : PartVar) (live : List Ctx) (i : Ctx → PartInputs) (d : PartDelivery) :
    Option Ctx → Prop
  | some context => (i context).Clear f d
  | none => ∀ context ∈ live, (i context).Clear f d ∧ d.Whole ((i context).get d.port)

instance (f : PartVar) (live : List Ctx) (i : Ctx → PartInputs) (d : PartDelivery) :
    ∀ context, Decidable (PartInputs.ClearAa f live i d context)
  | some _ => inferInstanceAs (Decidable (PartInputs.Clear _ _ _))
  | none => inferInstanceAs (Decidable (∀ context ∈ live, _ ∧ _))

namespace PartVarAa

variable {f : PartVar} {s s' : PartVarAa Ctx}

/-- A walk through contexts delivers to each of them, and to no other. -/
theorem foldl_recvOne_state (f : PartVar) (port : PartPort) (bit : Vector4)
    {contexts : List Ctx} (hnodup : contexts.Nodup) (s : PartVarAa Ctx) (c : Ctx) :
    (contexts.foldl (recvOne f port bit) s).state c =
      if c ∈ contexts then (s.state c).recvVec4 f port bit else s.state c := by
  induction contexts generalizing s with
  | nil => rfl
  | cons context contexts ih =>
    obtain ⟨hfirst, hrest⟩ := List.nodup_cons.mp hnodup
    have hone : (s.recvOne f port bit context).state c =
        if c = context then (s.state context).recvVec4 f port bit else s.state c :=
      Function.update_apply ..
    rw [List.foldl_cons, ih hrest, hone]
    by_cases hc : c = context
    · subst hc
      rw [if_neg hfirst, if_pos rfl, if_pos List.mem_cons_self]
    · rw [if_neg hc]
      simp only [List.mem_cons, hc, false_or]

/-- A delivery with a context is one to its state. -/
theorem deliver_some {d : PartDelivery} {context : Ctx}
    (h : s.deliver f d (some context) = some s') :
    ∃ state, (s.state context).deliver f d = some state ∧
      s'.state = Function.update s.state context state := by
  rw [deliver] at h
  rw [PartVarState.deliver]
  cases hpart : d.part with
  | none =>
    rw [hpart] at h
    cases h
    exact ⟨_, rfl, rfl⟩
  | some p =>
    rw [hpart] at h
    obtain ⟨state, hstate, rfl⟩ := Option.map_eq_some_iff.mp h
    exact ⟨state, hstate, rfl⟩

/-- Without a context what has arrived is put on the port of each live context, be it a part or
not. -/
theorem deliver_none {d : PartDelivery} (h : s.deliver f d none = some s') (c : Ctx) :
    s'.state c = if c ∈ s.live then (s.state c).recvVec4 f d.port d.bit else s.state c := by
  have hfold : s' = s.live.foldl (recvOne f d.port d.bit) s := by
    rw [deliver] at h
    cases hpart : d.part with
    | none =>
      rw [hpart] at h
      exact (Option.some.inj h).symm
    | some p =>
      rw [hpart] at h
      exact (Option.some.inj h).symm
  rw [hfold, foldl_recvOne_state f d.port d.bit s.live_nodup]

/-- A clear delivery is followed in every context. -/
theorem deliver_follows {i : Ctx → PartInputs} (hs : ∀ c, (s.state c).Follows f (i c))
    {d : PartDelivery} {context : Option Ctx} (hclear : PartInputs.ClearAa f s.live i d context)
    (h : s.deliver f d context = some s') (c : Ctx) :
    (s'.state c).Follows f (PartInputs.deliverAa s.live d context i c) := by
  cases context with
  | some context =>
    obtain ⟨state, hstate, heq⟩ := deliver_some h
    rw [heq, PartInputs.deliverAa, Function.update_apply, Function.update_apply]
    by_cases hc : c = context
    · rw [if_pos hc, if_pos hc]
      exact (hs context).deliver hclear hstate
    · rw [if_neg hc, if_neg hc]
      exact hs c
  | none =>
    rw [deliver_none h c, PartInputs.deliverAa]
    dsimp only
    by_cases hc : c ∈ s.live
    · obtain ⟨⟨-, haddr⟩, hwhole⟩ := hclear c hc
      rw [if_pos hc, if_pos hc]
      exact (hs c).recvVec4 (PartDelivery.onto_whole hwhole).symm haddr
    · rw [if_neg hc, if_neg hc]
      exact hs c

end PartVarAa

end Contexts

/-! ## Runs -/

/-- A delivery to the static form, and to its inputs. -/
def PartVar.stepSa (f : PartVar) (x : PartVarState × PartInputs) (d : PartDelivery) :
    Option (PartVarState × PartInputs) :=
  (x.1.deliver f d).map fun s => (s, x.2.deliver d)

/-- A delivery to the automatic form, and to the inputs of its contexts. -/
def PartVar.stepAa {Ctx : Type} [DecidableEq Ctx] (f : PartVar)
    (x : PartVarAa Ctx × (Ctx → PartInputs)) (l : PartDelivery × Option Ctx) :
    Option (PartVarAa Ctx × (Ctx → PartInputs)) :=
  (x.1.deliver f l.1 l.2).map fun s => (s, PartInputs.deliverAa x.1.live l.1 l.2 x.2)

/-- In every run of clear deliveries, from states at the start of their lives, both forms show
the part of the source that the select stands for. -/
theorem part_var_shows (f : PartVar) :
    (∀ (ds : List PartDelivery) (x : PartVarState × PartInputs),
      Runs.Meets f.stepSa (fun x d => x.2.Clear f d) (.alloc, ⟨[], []⟩) ds →
      Runs.run f.stepSa (.alloc, ⟨[], []⟩) ds = some x → x.2.Shows f x.1) ∧
    ∀ (Ctx : Type) [DecidableEq Ctx] (s : PartVarAa Ctx), (∀ c, (s.state c).Fresh f) →
      ∀ (ds : List (PartDelivery × Option Ctx)) (x : PartVarAa Ctx × (Ctx → PartInputs)),
        Runs.Meets f.stepAa (fun x l => PartInputs.ClearAa f x.1.live x.2 l.1 l.2)
          (s, fun c => (s.state c).inputs) ds →
        Runs.run f.stepAa (s, fun c => (s.state c).inputs) ds = some x →
        ∀ c, (x.2 c).Shows f (x.1.state c) := by
  constructor
  · intro ds x hmeets hrun
    have hstep : ∀ (x : PartVarState × PartInputs) (d : PartDelivery)
        (x' : PartVarState × PartInputs), x.1.Follows f x.2 → x.2.Clear f d →
        f.stepSa x d = some x' → x'.1.Follows f x'.2 := by
      intro x d x' hx hclear hx'
      obtain ⟨s, hs, rfl⟩ := Option.map_eq_some_iff.mp hx'
      exact hx.deliver hclear hs
    exact (Runs.invariant_of_meets hstep (PartVarState.alloc_fresh f).follows hmeets hrun).shows
  · intro Ctx _ s hfresh ds x hmeets hrun c
    have hstep : ∀ (x : PartVarAa Ctx × (Ctx → PartInputs)) (l : PartDelivery × Option Ctx)
        (x' : PartVarAa Ctx × (Ctx → PartInputs)), (∀ c, (x.1.state c).Follows f (x.2 c)) →
        PartInputs.ClearAa f x.1.live x.2 l.1 l.2 → f.stepAa x l = some x' →
        ∀ c, (x'.1.state c).Follows f (x'.2 c) := by
      intro x l x' hx hclear hx'
      obtain ⟨s, hs, rfl⟩ := Option.map_eq_some_iff.mp hx'
      exact PartVarAa.deliver_follows hx hclear hs
    exact (Runs.invariant_of_meets hstep (fun c => (hfresh c).follows) hmeets hrun c).shows

/-- A bit of a source of two, which then gets its high bit anew; and the same in two contexts,
where the source comes to both and the select to one. -/
theorem part_var_shows_example :
    (∃ x, Runs.run (PartVar.stepSa ⟨1, false⟩) (.alloc, ⟨[], []⟩)
        [⟨.source, [.zero, .one], none⟩, ⟨.select, [.one], none⟩, ⟨.source, [.zero], some (1, 2)⟩] =
          some x ∧ x.2.Shows ⟨1, false⟩ x.1) ∧
      ∃ x, Runs.run (PartVar.stepAa ⟨1, false⟩) ((⟨[true, false], by decide, fun _ => .alloc⟩ :
          PartVarAa Bool), fun _ => ⟨[], []⟩)
        [(⟨.source, [.zero, .one], none⟩, none), (⟨.select, [.one], none⟩, some true)] = some x ∧
          ∀ c, (x.2 c).Shows ⟨1, false⟩ (x.1.state c) := by
  obtain ⟨hsa, haa⟩ := part_var_shows ⟨1, false⟩
  refine ⟨⟨_, rfl, hsa [⟨.source, [.zero, .one], none⟩, ⟨.select, [.one], none⟩,
    ⟨.source, [.zero], some (1, 2)⟩] _ (by decide) rfl⟩, ⟨_, rfl, haa Bool ⟨[true, false],
    by decide, fun _ => .alloc⟩ (fun _ => PartVarState.alloc_fresh _)
    [(⟨.source, [.zero, .one], none⟩, none), (⟨.select, [.one], none⟩, some true)] _ (by decide)
    rfl⟩⟩

/-- An X among the high bits of a select of 33 is not seen. -/
theorem not_part_var_shows : ¬ ∀ (f : PartVar) (ds : List PartDelivery)
    (x : PartVarState × PartInputs), Runs.run f.stepSa (.alloc, ⟨[], []⟩) ds = some x →
      x.2.Shows f x.1 := by
  intro h
  have hx := h ⟨1, false⟩
    [⟨.source, [.one], none⟩, ⟨.select, List.replicate 32 .zero ++ [.x], none⟩] _ rfl
  revert hx
  unfold PartInputs.Shows
  decide

end Icarus.Vvp
