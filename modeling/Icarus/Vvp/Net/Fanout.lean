import Icarus.Core.Chain
import Icarus.Core.Loop
import Icarus.Core.Runs
import Mathlib.Data.List.Nodup

/-!
# The fan-out of a net

The receivers of a net are chained through the port slots of the receiving nets themselves: `out_`
of the driver names the first receiver, and the slot of each receiver names the next. A modpath
source is linked in front, every other receiver after the modpath sources.
-/

namespace Icarus.Vvp

open Icarus.Core

/-- `vvp_net_ptr_t`, not nil. -/
structure NetPtr (Net : Type) where
  /-- `ptr()`. -/
  net : Net
  /-- `port()`. -/
  port : Fin 4
  deriving DecidableEq

/-- What linking reads and writes of the nets. -/
structure NetHeap (Net : Type) where
  /-- `out_`. -/
  out : Net → Option (NetPtr Net)
  /-- The `port` slot that a pointer names. -/
  port : NetPtr Net → Option (NetPtr Net)

namespace NetHeap

variable {Net : Type} [DecidableEq Net]

/-- Nets that `vvp_net_t()` has made. -/
def init : NetHeap Net := ⟨fun _ => none, fun _ => none⟩

/-- `net->port[..] = next`. -/
def setPort (h : NetHeap Net) (p : NetPtr Net) (next : Option (NetPtr Net)) : NetHeap Net :=
  { h with port := Function.update h.port p next }

/-- `out_ = first`. -/
def setOut (h : NetHeap Net) (net : Net) (first : Option (NetPtr Net)) : NetHeap Net :=
  { h with out := Function.update h.out net first }

/-- A port in front of the fan-out. -/
def pushFront (h : NetHeap Net) (net : Net) (p : NetPtr Net) : NetHeap Net :=
  (h.setPort p (h.out net)).setOut net (some p)

/-- The loop of `link` over the modpath sources: `prev` and `cur` after it. -/
def pastSources (isSrc : Net → Bool) (h : NetHeap Net) (fuel : Nat) (cur : NetPtr Net) :
    Option (Option (NetPtr Net) × Option (NetPtr Net)) :=
  Loop.whileLoop (fun s => s.2.any fun cur => isSrc cur.net)
    (fun s => s.2.map fun cur => (some cur, h.port cur)) fuel (none, some cur)

/-- `vvp_net_t::link`, where `isSrc` tells the nets whose `fun` is a `vvp_fun_modpath_src`. -/
def link (isSrc : Net → Bool) (fuel : Nat) (h : NetHeap Net) (net : Net) (p : NetPtr Net) :
    Option (NetHeap Net) :=
  if isSrc p.net then some (h.pushFront net p)
  else
    match h.out net with
    | none => some (h.pushFront net p)
    | some first =>
      if isSrc first.net then do
        let (prev, cur) ← h.pastSources isSrc fuel first
        let prev ← prev
        some ((h.setPort p cur).setPort prev (some p))
      else some (h.pushFront net p)

/-- The loop of `unlink`: the receiver in front of the port, if there is one. -/
def findPrev (h : NetHeap Net) (fuel : Nat) (p : NetPtr Net) (first : NetPtr Net) :
    Option (Option (NetPtr Net)) :=
  Loop.whileLoop (fun cur => cur.any fun cur => h.port cur ≠ some p)
    (fun cur => cur.map h.port) fuel (some first)

/-- `vvp_net_t::unlink`. -/
def unlink (fuel : Nat) (h : NetHeap Net) (net : Net) (p : NetPtr Net) : Option (NetHeap Net) :=
  match h.out net with
  | none => some (h.setPort p none)
  | some first =>
    if first = p then some ((h.setOut net (h.port p)).setPort p none)
    else (h.findPrev fuel p first).map fun prev =>
      match prev with
      | none => h.setPort p none
      | some prev => (h.setPort prev (h.port p)).setPort p none

/-! ## One call -/

/-- What a call leaves alone: the outputs of the other nets, and the slots of ports that are not
in the fan-out. -/
def FramesLink (net : Net) (p : NetPtr Net) (l : List (NetPtr Net)) (h h' : NetHeap Net) : Prop :=
  (∀ other, other ≠ net → h'.out other = h.out other) ∧
    ∀ q, q ∉ l → q ≠ p → h'.port q = h.port q

section

variable {isSrc : Net → Bool} {h h' : NetHeap Net} {net : Net} {p : NetPtr Net}
  {l : List (NetPtr Net)} {fuel : Nat}

omit [DecidableEq Net] in
/-- The loop of `link` stops behind the modpath sources at the front. -/
theorem pastSources_eq {first : NetPtr Net} (hchain : Chain h.port (some first) l)
    (hfirst : isSrc first.net = true) (hfuel : l.length < fuel) :
    ∃ pre prev post, l = pre ++ prev :: post ∧ (∀ q ∈ pre ++ [prev], isSrc q.net = true) ∧
      (∀ q ∈ post.head?, isSrc q.net = false) ∧
      h.pastSources isSrc fuel first = some (some prev, post.head?) := by
  let Inv (rank : Nat) (s : Option (NetPtr Net) × Option (NetPtr Net)) : Prop :=
    ∃ pre post, l = pre ++ post ∧ s = (pre.getLast?, post.head?) ∧ rank = post.length ∧
      (∀ q ∈ pre, isSrc q.net = true)
  have hinit : Inv l.length (none, some first) :=
    ⟨[], l, rfl, by rw [hchain.start_eq, List.getLast?_nil], rfl, by simp⟩
  obtain ⟨s, rank, hs, ⟨pre, post, hl, rfl, -, hpre⟩, hcond⟩ :=
    @Loop.whileLoop_total _ (fun s => s.2.any fun cur => isSrc cur.net)
      (fun s => s.2.map fun cur => (some cur, h.port cur)) Inv
      (by
        rintro rank s ⟨pre, post, hl, rfl, rfl, hpre⟩ hcond
        cases post with
        | nil => simp at hcond
        | cons c post =>
          have hnext : h.port c = post.head? := (Chain.after (hl ▸ hchain)).start_eq
          refine ⟨_, post.length, rfl, by simp, pre ++ [c], post, by simp [hl], ?_, rfl, ?_⟩
          · simp [hnext]
          · intro q hq
            rcases List.mem_append.mp hq with hq | hq
            · exact hpre q hq
            · rw [List.mem_singleton.mp hq]
              simpa using hcond)
      _ _ _ hinit hfuel
  rcases List.eq_nil_or_concat pre with rfl | ⟨pre, prev, rfl⟩
  · rw [List.nil_append] at hl
    subst hl
    rw [← hchain.start_eq] at hcond
    simp [hfirst] at hcond
  · rw [List.concat_eq_append] at hl hpre hs
    refine ⟨pre, prev, post, by simp [hl], hpre, ?_, ?_⟩
    · intro q hq
      rw [Option.mem_def.mp hq] at hcond
      simpa using hcond
    · rw [pastSources, hs, List.getLast?_append, List.getLast?_singleton, Option.some_or]

@[simp] theorem setPort_port_self (q : Option (NetPtr Net)) : (h.setPort p q).port p = q :=
  Function.update_self ..

theorem setPort_port_of_ne {p' : NetPtr Net} (hp : p' ≠ p) (q : Option (NetPtr Net)) :
    (h.setPort p q).port p' = h.port p' := Function.update_of_ne hp ..

@[simp] theorem setPort_out (q : Option (NetPtr Net)) : (h.setPort p q).out = h.out := rfl

@[simp] theorem setOut_port (q : Option (NetPtr Net)) : (h.setOut net q).port = h.port := rfl

@[simp] theorem setOut_out_self (q : Option (NetPtr Net)) : (h.setOut net q).out net = q :=
  Function.update_self ..

theorem setOut_out_of_ne {other : Net} (hother : other ≠ net) (q : Option (NetPtr Net)) :
    (h.setOut net q).out other = h.out other := Function.update_of_ne hother ..

/-- The slot of a port that is not in a chain does not matter to it. -/
theorem chain_setPort {start q : Option (NetPtr Net)} (hchain : Chain h.port start l)
    (hnot : p ∉ l) : Chain (h.setPort p q).port start l := by
  apply hchain.congr
  intro u hu
  apply setPort_port_of_ne
  rintro rfl
  exact hnot hu

theorem FramesLink.setPort (hframe : FramesLink net p l h h') {p' : NetPtr Net}
    (hp' : p' ∈ p :: l) (q : Option (NetPtr Net)) : FramesLink net p l h (h'.setPort p' q) := by
  refine ⟨hframe.1, fun u hu hp => ?_⟩
  rw [setPort_port_of_ne, hframe.2 u hu hp]
  rintro rfl
  rcases List.mem_cons.mp hp' with rfl | hl
  · exact hp rfl
  · exact hu hl

theorem FramesLink.setOut (hframe : FramesLink net p l h h') (q : Option (NetPtr Net)) :
    FramesLink net p l h (h'.setOut net q) :=
  ⟨fun _ hother => (setOut_out_of_ne hother q).trans (hframe.1 _ hother), hframe.2⟩

omit [DecidableEq Net] in
theorem FramesLink.refl : FramesLink net p l h h := ⟨fun _ _ => rfl, fun _ _ _ => rfl⟩

/-- The slot of a receiver changed: what follows is the chain of the new slot. -/
theorem relink_setPort {pre post post' : List (NetPtr Net)} {prev : NetPtr Net}
    {start q : Option (NetPtr Net)} (hchain : Chain h.port start (pre ++ prev :: post))
    (hpre : prev ∉ pre) (hpost : prev ∉ post') (hlink : Chain h.port q post') :
    Chain (h.setPort prev q).port start (pre ++ prev :: post') := by
  apply hchain.relink
  · rw [setPort_port_self]
    exact chain_setPort hlink hpost
  · intro u hu
    apply setPort_port_of_ne
    rintro rfl
    exact hpre hu

theorem chain_pushFront (hchain : Chain h.port (h.out net) l) (hnot : p ∉ l) :
    Chain (h.pushFront net p).port ((h.pushFront net p).out net) (p :: l) := by
  rw [pushFront, setOut_out_self, setOut_port]
  apply Chain.cons
  rw [setPort_port_self]
  exact chain_setPort hchain hnot

theorem framesLink_pushFront : FramesLink net p l h (h.pushFront net p) :=
  (FramesLink.refl.setPort List.mem_cons_self _).setOut _

/-- A port is linked in between the modpath sources and the rest, or in front if it belongs to a
modpath source itself. -/
theorem link_spec (isSrc : Net → Bool) (hchain : Chain h.port (h.out net) l) (hnot : p ∉ l)
    (hnodup : l.Nodup) (hfuel : l.length < fuel) :
    ∃ h' pre post, h.link isSrc fuel net p = some h' ∧ l = pre ++ post ∧
      Chain h'.port (h'.out net) (pre ++ p :: post) ∧ FramesLink net p l h h' ∧
      (∀ q ∈ pre, isSrc q.net = true) ∧
      (isSrc p.net = true → pre = []) ∧
      (isSrc p.net = false → ∀ q ∈ post.head?, isSrc q.net = false) := by
  by_cases hp : isSrc p.net
  · exact ⟨_, [], l, if_pos hp, rfl, chain_pushFront hchain hnot, framesLink_pushFront, by simp,
      fun _ => rfl, fun hp' => absurd hp (by simp [hp'])⟩
  rw [link, if_neg hp]
  cases hout : h.out net with
  | none =>
    obtain rfl := Chain.eq_nil (hout ▸ hchain)
    exact ⟨_, [], [], rfl, rfl, chain_pushFront hchain hnot, framesLink_pushFront, by simp,
      fun _ => rfl, by simp⟩
  | some first =>
    by_cases hfirst : isSrc first.net
    · obtain ⟨pre, prev, post, rfl, hpre, hpost, hpast⟩ :=
        pastSources_eq (hout ▸ hchain) hfirst hfuel
      obtain ⟨-, hcons, hdisj⟩ := List.nodup_append'.mp hnodup
      have hprev : p ≠ prev := by
        rintro rfl
        exact hnot (by simp)
      refine ⟨(h.setPort p post.head?).setPort prev (some p), pre ++ [prev], post, ?_, by simp, ?_,
        (FramesLink.refl.setPort List.mem_cons_self _).setPort (by simp) _, hpre,
        fun hp' => absurd hp' hp, fun _ => hpost⟩
      · simp [hfirst, hpast]
      · rw [List.append_assoc]
        apply relink_setPort (chain_setPort hchain hnot)
        · exact fun hmem => hdisj hmem List.mem_cons_self
        · rintro (_ | ⟨_, hmem⟩)
          · exact hprev rfl
          · exact (List.nodup_cons.mp hcons).1 hmem
        · apply Chain.cons
          rw [setPort_port_self, ← hchain.after.start_eq]
          exact chain_setPort hchain.after fun hmem => hnot (by simp [hmem])
    · have hstart := hchain.start_eq
      rw [hout] at hstart
      refine ⟨h.pushFront net p, [], l, if_neg hfirst, rfl, chain_pushFront hchain hnot,
        framesLink_pushFront, by simp, fun _ => rfl, fun _ q hq => ?_⟩
      rw [← hstart, Option.mem_def, Option.some.injEq] at hq
      rw [← hq]
      exact Bool.eq_false_iff.mpr hfirst

/-- The loop of `unlink` stops at the receiver in front of the port, or at the end if there is
none. -/
theorem findPrev_eq {first : NetPtr Net} (hchain : Chain h.port (some first) l)
    (hfirst : first ≠ p) (hfuel : l.length < fuel) :
    (h.findPrev fuel p first = some none ∧ p ∉ l) ∨ ∃ pre prev post,
      h.findPrev fuel p first = some (some prev) ∧ l = pre ++ prev :: p :: post := by
  let Inv (rank : Nat) (cur : Option (NetPtr Net)) : Prop :=
    ∃ pre post, l = pre ++ post ∧ cur = post.head? ∧ rank = post.length ∧ p ∉ pre ∧ cur ≠ some p
  have hinit : Inv l.length (some first) :=
    ⟨[], l, rfl, hchain.start_eq, rfl, by simp, by simpa using hfirst⟩
  obtain ⟨cur, rank, hcur, ⟨pre, post, hl, rfl, -, hpre, hhead⟩, hcond⟩ :=
    @Loop.whileLoop_total _ (fun cur => cur.any fun cur => h.port cur ≠ some p)
      (fun cur => cur.map h.port) Inv
      (by
        rintro rank cur ⟨pre, post, hl, rfl, rfl, hpre, hhead⟩ hcond
        cases post with
        | nil => simp at hcond
        | cons c post =>
          have hnext : h.port c = post.head? := (Chain.after (hl ▸ hchain)).start_eq
          have hc : c ≠ p := by simpa using hhead
          refine ⟨h.port c, post.length, rfl, by simp, pre ++ [c], post, by simp [hl], hnext, rfl,
            ?_, by simpa using hcond⟩
          simp [hpre, Ne.symm hc])
      _ _ _ hinit hfuel
  cases post with
  | nil => exact .inl ⟨hcur, by rwa [hl, List.append_nil]⟩
  | cons c post =>
    have hnext : h.port c = post.head? := (Chain.after (hl ▸ hchain)).start_eq
    have hp : post.head? = some p := by
      rw [← hnext]
      simpa using hcond
    obtain ⟨rest, rfl⟩ := List.head?_eq_some_iff.mp hp
    exact .inr ⟨pre, c, rest, hcur, hl⟩

/-- A port is taken out of the fan-out, if it is in it. -/
theorem unlink_spec (p : NetPtr Net) (hchain : Chain h.port (h.out net) l) (hnodup : l.Nodup)
    (hfuel : l.length < fuel) :
    ∃ h', h.unlink fuel net p = some h' ∧ Chain h'.port (h'.out net) (l.erase p) ∧
      FramesLink net p l h h' := by
  have habsent : p ∉ l → Chain (h.setPort p none).port (h.out net) (l.erase p) := by
    intro hnot
    rw [List.erase_of_not_mem hnot]
    exact chain_setPort hchain hnot
  have hnil : FramesLink net p l h (h.setPort p none) :=
    FramesLink.refl.setPort List.mem_cons_self none
  rw [unlink]
  cases hout : h.out net with
  | none =>
    have hempty : l = [] := Chain.eq_nil (hout ▸ hchain)
    exact ⟨_, rfl, habsent (by simp [hempty]), hnil⟩
  | some first =>
    by_cases hfirst : first = p
    · subst hfirst
      obtain ⟨rest, rfl, hrest⟩ := Chain.exists_eq_cons (hout ▸ hchain)
      refine ⟨_, if_pos rfl, ?_, (FramesLink.refl.setOut _).setPort List.mem_cons_self _⟩
      rw [List.erase_cons_head, setPort_out, setOut_out_self]
      exact chain_setPort hrest (List.nodup_cons.mp hnodup).1
    · rcases findPrev_eq (hout ▸ hchain) hfirst hfuel with
        ⟨hprev, hnot⟩ | ⟨pre, prev, post, hprev, rfl⟩
      · refine ⟨h.setPort p none, ?_, habsent hnot, hnil⟩
        simp [hfirst, hprev]
      · obtain ⟨-, hcons, hdisj⟩ := List.nodup_append'.mp hnodup
        obtain ⟨hprev', hcons⟩ := List.nodup_cons.mp hcons
        have hpre : p ∉ pre ++ [prev] := by
          rw [List.mem_append, List.mem_singleton]
          rintro (hmem | rfl)
          · exact hdisj hmem (by simp)
          · exact hprev' List.mem_cons_self
        refine ⟨(h.setPort prev (h.port p)).setPort p none, ?_, ?_,
          (FramesLink.refl.setPort (by simp) _).setPort List.mem_cons_self _⟩
        · simp [hfirst, hprev]
        · rw [List.append_cons, List.erase_append_right _ hpre, List.erase_cons_head,
            List.append_assoc]
          apply chain_setPort
          · apply relink_setPort hchain
            · exact fun hmem => hdisj hmem List.mem_cons_self
            · exact fun hmem => hprev' (List.mem_cons_of_mem _ hmem)
            · rw [List.append_cons] at hchain
              exact hchain.after
          · intro hmem
            rw [← List.append_assoc, List.mem_append] at hmem
            exact hmem.elim hpre (List.nodup_cons.mp hcons).1

end

end NetHeap

/-! ## Calls -/

/-- A call of `link` or `unlink` on the output of a net. -/
inductive LinkCall (Net : Type)
  | link (net : Net) (p : NetPtr Net)
  | unlink (net : Net) (p : NetPtr Net)

/-- The nets, and for each port the net it has been linked to last and not unlinked from. -/
structure LinkRun (Net : Type) where
  /-- The nets as the calls have left them. -/
  heap : NetHeap Net
  /-- Who drives each port. -/
  driver : NetPtr Net → Option Net

namespace LinkRun

variable {Net : Type} [DecidableEq Net]

/-- No port is linked. -/
def init : LinkRun Net := ⟨NetHeap.init, fun _ => none⟩

/-- One call. -/
def step (isSrc : Net → Bool) (fuel : Nat) (s : LinkRun Net) : LinkCall Net → Option (LinkRun Net)
  | .link net p => (s.heap.link isSrc fuel net p).map fun heap =>
      ⟨heap, Function.update s.driver p (some net)⟩
  | .unlink net p => (s.heap.unlink fuel net p).map fun heap =>
      ⟨heap, Function.update s.driver p none⟩

/-- A port that is linked is linked nowhere yet, and one that is unlinked is linked nowhere
else. -/
def Proper (s : LinkRun Net) : LinkCall Net → Prop
  | .link _ p => s.driver p = none
  | .unlink net p => s.driver p = none ∨ s.driver p = some net

instance (s : LinkRun Net) : DecidablePred s.Proper
  | .link _ p => inferInstanceAs (Decidable (s.driver p = none))
  | .unlink net p => inferInstanceAs (Decidable (s.driver p = none ∨ s.driver p = some net))

/-- The fan-out of a net is a list: the slots lead through each port that is linked to the net
once and then end, and no other receiver is in front of a modpath source. -/
structure Fanout (isSrc : Net → Bool) (s : LinkRun Net) (net : Net) (l : List (NetPtr Net)) :
    Prop where
  chain : Chain s.heap.port (s.heap.out net) l
  nodup : l.Nodup
  mem_iff : ∀ p, p ∈ l ↔ s.driver p = some net
  sources_first : l.Pairwise fun a b => isSrc b.net = true → isSrc a.net = true

section

variable {isSrc : Net → Bool} {s : LinkRun Net} {net : Net} {p : NetPtr Net}
  {l : List (NetPtr Net)} {fuel : Nat} {h' : NetHeap Net}

/-- The fan-outs of the other nets stay as they are. -/
theorem Fanout.frame (hl : s.Fanout isSrc net l)
    (hframe : NetHeap.FramesLink net p l s.heap h') {other : Net} (hother : other ≠ net)
    {m : List (NetPtr Net)} (hm : s.Fanout isSrc other m) (hp : p ∉ m) {d : Option Net}
    (hd : d ≠ some other) :
    (⟨h', Function.update s.driver p d⟩ : LinkRun Net).Fanout isSrc other m := by
  refine ⟨?_, hm.nodup, fun q => ?_, hm.sources_first⟩
  · rw [hframe.1 other hother]
    apply hm.chain.congr
    intro q hq
    apply hframe.2
    · intro hql
      have hdriver := (hm.mem_iff q).mp hq
      rw [(hl.mem_iff q).mp hql, Option.some.injEq] at hdriver
      exact hother hdriver.symm
    · rintro rfl
      exact hp hq
  · by_cases hq : q = p
    · subst hq
      simp [hp, hd]
    · rw [hm.mem_iff q]
      simp only [Function.update_of_ne hq]

/-- A linked port is in the fan-out of its net, among receivers whose order stays. -/
theorem fanout_link (hl : s.Fanout isSrc net l) (hp : s.driver p = none)
    (hfuel : l.length < fuel) : ∃ h' l', s.heap.link isSrc fuel net p = some h' ∧
      NetHeap.FramesLink net p l s.heap h' ∧ l'.length = l.length + 1 ∧ l'.erase p = l ∧
      (⟨h', Function.update s.driver p (some net)⟩ : LinkRun Net).Fanout isSrc net l' := by
  have hnot : p ∉ l := by
    rw [hl.mem_iff, hp]
    simp
  obtain ⟨h', pre, post, hlink, rfl, hchain, hframe, hpre, hsrc, hother⟩ :=
    NetHeap.link_spec isSrc hl.chain hnot hl.nodup hfuel
  have hpnot : p ∉ pre := fun hmem => hnot (List.mem_append_left _ hmem)
  refine ⟨h', pre ++ p :: post, hlink, hframe, by simp; omega, ?_, hchain, ?_, ?_, ?_⟩
  · rw [List.erase_append_right _ hpnot, List.erase_cons_head]
  · exact List.nodup_middle.mpr (List.nodup_cons.mpr ⟨hnot, hl.nodup⟩)
  · intro q
    rw [List.mem_append, List.mem_cons, or_left_comm, ← List.mem_append, hl.mem_iff q]
    by_cases hq : q = p
    · simp [hq]
    · simp [hq]
  · obtain ⟨hpre', hpost', -⟩ := List.pairwise_append.mp hl.sources_first
    refine List.pairwise_append.mpr ⟨hpre', List.pairwise_cons.mpr ⟨fun q hq hqsrc => ?_, hpost'⟩,
      fun q hq _ _ _ => hpre q hq⟩
    by_contra hpsrc
    cases post with
    | nil => exact List.not_mem_nil hq
    | cons first rest =>
      have hfirst := hother (Bool.eq_false_iff.mpr hpsrc) first rfl
      have hqfirst : isSrc first.net = true := by
        rcases List.mem_cons.mp hq with rfl | hrest
        · exact hqsrc
        · exact (List.pairwise_cons.mp hpost').1 q hrest hqsrc
      simp [hqfirst] at hfirst

/-- An unlinked port is in the fan-out no more, and the order of the others stays. -/
theorem fanout_unlink (hl : s.Fanout isSrc net l) (p : NetPtr Net) (hfuel : l.length < fuel) :
    ∃ h', s.heap.unlink fuel net p = some h' ∧ NetHeap.FramesLink net p l s.heap h' ∧
      (⟨h', Function.update s.driver p none⟩ : LinkRun Net).Fanout isSrc net (l.erase p) := by
  obtain ⟨h', hunlink, hchain, hframe⟩ := NetHeap.unlink_spec p hl.chain hl.nodup hfuel
  refine ⟨h', hunlink, hframe, hchain, hl.nodup.erase p, fun q => ?_,
    hl.sources_first.sublist List.erase_sublist⟩
  rw [hl.nodup.mem_erase_iff, hl.mem_iff q]
  by_cases hq : q = p
  · simp [hq]
  · simp [hq]

/-- What calls keep: every net has a fan-out, no longer than the number of calls. -/
def Wired (isSrc : Net → Bool) (n : Nat) (s : LinkRun Net) : Prop :=
  ∀ net, ∃ l, s.Fanout isSrc net l ∧ l.length ≤ n

omit [DecidableEq Net] in
theorem Proper.notMem {other : Net} (hproper : s.Proper (.unlink net p)) (hother : other ≠ net)
    (hl : s.Fanout isSrc other l) : p ∉ l := by
  rw [hl.mem_iff]
  rcases hproper with hnone | hnet
  · rw [hnone]
    simp
  · rw [hnet, Option.some.injEq]
    exact Ne.symm hother

/-- An unlink takes the port out of every fan-out, and changes them no further. -/
theorem step_unlink (hwired : ∀ net, ∃ l, s.Fanout isSrc net l ∧ l.length < fuel)
    (hproper : s.Proper (.unlink net p)) : ∃ s', s.step isSrc fuel (.unlink net p) = some s' ∧
      ∀ other l, s.Fanout isSrc other l → s'.Fanout isSrc other (l.erase p) := by
  obtain ⟨l, hl, hlen⟩ := hwired net
  obtain ⟨h', hunlink, hframe, hfan⟩ := fanout_unlink hl p hlen
  refine ⟨_, by rw [step, hunlink, Option.map_some], fun other m hm => ?_⟩
  by_cases hother : other = net
  · subst hother
    rwa [hm.chain.unique hl.chain]
  · have hnot := hproper.notMem hother hm
    rw [List.erase_of_not_mem hnot]
    exact hl.frame hframe hother hm hnot (by simp)

theorem step_wired {n : Nat} {call : LinkCall Net} (hn : n < fuel) (hwired : s.Wired isSrc n)
    (hproper : s.Proper call) :
    ∃ s', s.step isSrc fuel call = some s' ∧ s'.Wired isSrc (n + 1) := by
  cases call with
  | link net p =>
    obtain ⟨l, hl, hlen⟩ := hwired net
    obtain ⟨h', l', hlink, hframe, hlen', -, hfan⟩ :=
      fanout_link hl hproper (Nat.lt_of_le_of_lt hlen hn)
    refine ⟨_, by rw [step, hlink, Option.map_some], fun other => ?_⟩
    by_cases hother : other = net
    · subst hother
      exact ⟨l', hfan, by omega⟩
    · obtain ⟨m, hm, hmlen⟩ := hwired other
      have hnot : p ∉ m := by
        rw [hm.mem_iff, hproper]
        simp
      have hne : some net ≠ some other := fun heq => hother (Option.some.inj heq).symm
      exact ⟨m, hl.frame hframe hother hm hnot hne, by omega⟩
  | unlink net p =>
    have hfans : ∀ net, ∃ l, s.Fanout isSrc net l ∧ l.length < fuel :=
      fun net => (hwired net).imp fun _ hl => ⟨hl.1, Nat.lt_of_le_of_lt hl.2 hn⟩
    obtain ⟨s', hs', hfan⟩ := step_unlink hfans hproper
    refine ⟨s', hs', fun other => ?_⟩
    obtain ⟨m, hm, hmlen⟩ := hwired other
    exact ⟨m.erase p, hfan other m hm, Nat.le_succ_of_le (Nat.le_trans List.length_erase_le hmlen)⟩

omit [DecidableEq Net] in
theorem wired_init (isSrc : Net → Bool) : (init : LinkRun Net).Wired isSrc 0 :=
  fun _ => ⟨[], ⟨.nil, List.nodup_nil, by simp [init], List.Pairwise.nil⟩, Nat.le_refl 0⟩

end

/-- After any calls the fan-out of every net is the ports that are linked to it, each once and the
modpath sources first, and an unlink leaves the other receivers as they are. -/
theorem fanout_right (isSrc : Net → Bool) {fuel : Nat} {calls : List (LinkCall Net)}
    (hproper : Runs.Meets (step isSrc fuel) Proper init calls) (hfuel : calls.length < fuel) :
    ∃ s, Runs.run (step isSrc fuel) init calls = some s ∧
      (∀ net, ∃ l, s.Fanout isSrc net l) ∧
      ∀ net p, s.Proper (.unlink net p) → ∃ s', s.step isSrc fuel (.unlink net p) = some s' ∧
        ∀ other l, s.Fanout isSrc other l → s'.Fanout isSrc other (l.erase p) := by
  have hstep : ∀ n (s : LinkRun Net) call, n < fuel → s.Wired isSrc n → s.Proper call →
      ∃ s', s.step isSrc fuel call = some s' ∧ s'.Wired isSrc (n + 1) :=
    fun n s call hn hs hcall => step_wired hn hs hcall
  obtain ⟨s, hrun, hwired⟩ := Runs.exists_run_within hstep (wired_init isSrc) hproper (by omega)
  refine ⟨s, hrun, fun net => (hwired net).imp fun l hl => hl.1, fun net p hp => ?_⟩
  exact step_unlink (fun net => (hwired net).imp fun _ hl => ⟨hl.1, by omega⟩) hp

/-- A receiver is linked, a modpath source, the first unlinked again. -/
theorem fanout_right_three : ∃ s,
    Runs.run (step (fun net => net = 2) 4) (init : LinkRun (Fin 3))
      [.link 0 ⟨1, 0⟩, .link 0 ⟨2, 0⟩, .unlink 0 ⟨1, 0⟩] = some s ∧
      (∀ net, ∃ l, s.Fanout (fun net => net = 2) net l) ∧
      ∀ net p, s.Proper (.unlink net p) →
        ∃ s', s.step (fun net => net = 2) 4 (.unlink net p) = some s' ∧
          ∀ other l, s.Fanout (fun net => net = 2) other l →
            s'.Fanout (fun net => net = 2) other (l.erase p) :=
  fanout_right (fun net => decide (net = 2)) (by decide) (by decide)

end LinkRun

end Icarus.Vvp
