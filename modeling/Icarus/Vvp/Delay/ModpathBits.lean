import Icarus.Vvp.Delay.Modpath
import Mathlib.Data.List.Nodup

/-!
# The pending bits of module paths

Every scheduled event is in the map under its own time; every bit either has
reached the output or waits in the event of its due time with its newest value.
-/

namespace Icarus.Vvp

open Core

namespace Modpath

/-! ## Events -/

/-- The scheduled events, the map and the allocated events agree. -/
structure Booked (s : Modpath) : Prop where
  /-- A scheduled event is allocated and in the map under its own time, not overdue, and due
  within one round of the 64-bit time. -/
  event : ∀ due e, (due, e) ∈ s.scheduled → ∃ ev, s.heap e = some ev ∧
    ev.time = BitVec.ofNat 64 due ∧ ev.values.length = s.output.length ∧
    s.events ev.time = some e ∧ s.now ≤ due ∧ due < s.now + 2 ^ 64 ∧ e < s.next
  /-- An event in the map is scheduled for that time. -/
  mapped : ∀ t e, s.events t = some e → ∃ due, (due, e) ∈ s.scheduled ∧ BitVec.ofNat 64 due = t
  /-- No event is scheduled twice. -/
  nodup : (s.scheduled.map Prod.snd).Nodup

/-- A bit that has no pending event has reached the output; any other one waits, active and with
its value, in an event scheduled for the time it is due. -/
def BitOk (s : Modpath) (due : Nat) (value : Option Bit4) (i : Nat) : Prop :=
  match s.pending i with
  | none => s.output[i]? = value
  | some e => ∃ ev b, s.heap e = some ev ∧ ev.active i = true ∧ ev.values[i]? = some b ∧
      value = some b ∧ (due, e) ∈ s.scheduled

private theorem simtime_toNat (s : Modpath) : s.simtime.toNat = s.now % 2 ^ 64 :=
  BitVec.toNat_ofNat s.now 64

/-- Two events due within one round at the same 64-bit time are due together. -/
private theorem due_unique {s : Modpath} {due : Nat} (hle : s.now ≤ due)
    (hlt : due < s.now + 2 ^ 64) {delay : BitVec 64}
    (h : BitVec.ofNat 64 due = s.simtime + delay) : due = s.now + delay.toNat := by
  have hdelay := delay.isLt
  have hnat := congrArg BitVec.toNat h
  rw [BitVec.toNat_add, BitVec.toNat_ofNat, simtime_toNat] at hnat
  omega

/-- An event changed in place, its time and its width kept. -/
private theorem Booked.update_heap {s : Modpath} (h : Booked s) {e : Nat} {ev : ModpathEvent}
    (ev' : ModpathEvent) (hev : s.heap e = some ev) (htime : ev'.time = ev.time)
    (hlen : ev'.values.length = ev.values.length) (pending : Nat → Option Nat) :
    Booked { s with heap := Function.update s.heap e (some ev'), pending := pending } where
  event := by
    intro due e' he'
    obtain ⟨ev₀, hev₀, htime₀, hlen₀, hmap, hrest⟩ := h.event due e' he'
    by_cases hsame : e' = e
    · subst hsame
      obtain rfl : ev₀ = ev := Option.some.inj (hev₀.symm.trans hev)
      refine ⟨ev', Function.update_self _ _ _, htime.trans htime₀, hlen.trans hlen₀, ?_, hrest⟩
      rw [htime]
      exact hmap
    · exact ⟨ev₀, (Function.update_of_ne hsame _ _).trans hev₀, htime₀, hlen₀, hmap, hrest⟩
  mapped := h.mapped
  nodup := h.nodup

/-! ## One bit -/

private theorem cancelBit_spec {s : Modpath} (h : Booked s) {i : Nat} {due : Nat → Nat}
    {value : Nat → Option Bit4} (hbits : ∀ j, s.BitOk (due j) (value j) j) :
    Booked (s.cancelBit i) ∧ (s.cancelBit i).pending i = none ∧
      ∀ j, j ≠ i → (s.cancelBit i).BitOk (due j) (value j) j := by
  have hi := hbits i
  rw [BitOk] at hi
  rw [cancelBit]
  cases hp : s.pending i with
  | none => exact ⟨h, hp, fun j _ => hbits j⟩
  | some e =>
    rw [hp] at hi
    obtain ⟨ev, -, hev, -⟩ := hi
    simp only [hev, Option.map_some]
    refine ⟨h.update_heap (ev.clearBit i) hev rfl rfl _, Function.update_self _ _ _, ?_⟩
    intro j hj
    have hbit := hbits j
    simp only [BitOk, Function.update_of_ne hj] at hbit ⊢
    cases hpj : s.pending j with
    | none =>
      rw [hpj] at hbit
      exact hbit
    | some e' =>
      rw [hpj] at hbit
      obtain ⟨ev', b', hev', hactive, hvalue, hsched⟩ := hbit
      by_cases hsame : e' = e
      · subst hsame
        obtain rfl : ev' = ev := Option.some.inj (hev'.symm.trans hev)
        refine ⟨ev'.clearBit i, b', Function.update_self _ _ _, ?_, hvalue, hsched⟩
        exact (Function.update_of_ne hj _ _).trans hactive
      · exact ⟨ev', b', (Function.update_of_ne hsame _ _).trans hev', hactive, hvalue, hsched⟩

/-- The event of a time is booked for it, and nothing else is changed. -/
private theorem eventAt_spec {s : Modpath} (h : Booked s) (delay : BitVec 64) :
    Booked (s.eventAt delay).1 ∧
      (s.now + delay.toNat, (s.eventAt delay).2) ∈ (s.eventAt delay).1.scheduled ∧
      (s.eventAt delay).1.output = s.output ∧ (s.eventAt delay).1.pending = s.pending ∧
      (s.eventAt delay).1.now = s.now ∧
      ∀ j due value, s.BitOk due value j → (s.eventAt delay).1.BitOk due value j := by
  rw [eventAt]
  cases hev : s.events (s.simtime + delay) with
  | some e =>
    dsimp only
    obtain ⟨due, hsched, hdue⟩ := h.mapped _ _ hev
    obtain ⟨ev, -, -, -, -, hle, hlt, -⟩ := h.event due e hsched
    rw [due_unique hle hlt hdue] at hsched
    exact ⟨h, hsched, rfl, rfl, rfl, fun _ _ _ => id⟩
  | none =>
    dsimp only
    have htime : s.simtime + delay = BitVec.ofNat 64 (s.now + delay.toNat) := by
      apply BitVec.eq_of_toNat_eq
      rw [BitVec.toNat_add, BitVec.toNat_ofNat, simtime_toNat]
      omega
    have hold : ∀ due e, (due, e) ∈ s.scheduled → e ≠ s.next := by
      intro due e he
      obtain ⟨ev, -, -, -, -, -, -, hlt⟩ := h.event due e he
      exact Nat.ne_of_lt hlt
    refine ⟨⟨?_, ?_, ?_⟩, List.mem_cons_self, rfl, rfl, rfl, ?_⟩
    · intro due e he
      rcases List.mem_cons.mp he with he | he
      · obtain ⟨rfl, rfl⟩ := Prod.mk.inj he
        have hdelay := delay.isLt
        exact ⟨_, Function.update_self _ _ _, htime, List.length_replicate,
          Function.update_self _ _ _, Nat.le_add_right _ _, Nat.add_lt_add_left hdelay _,
          Nat.lt_succ_self _⟩
      · obtain ⟨ev, hheap, hevt, hlen, hmap, hle, hlt, hfresh⟩ := h.event due e he
        refine ⟨ev, (Function.update_of_ne (hold due e he) _ _).trans hheap, hevt, hlen, ?_, hle,
          hlt, Nat.lt_succ_of_lt hfresh⟩
        have hne : ev.time ≠ s.simtime + delay := by
          intro heq
          rw [heq, hev] at hmap
          cases hmap
        exact (Function.update_of_ne hne _ _).trans hmap
    · intro t e he
      dsimp only at he
      by_cases ht : t = s.simtime + delay
      · subst ht
        rw [Function.update_self, Option.some.injEq] at he
        exact ⟨_, List.mem_cons.mpr (.inl (Prod.ext rfl he.symm)), htime.symm⟩
      · rw [Function.update_of_ne ht] at he
        obtain ⟨due, hsched, hdue⟩ := h.mapped t e he
        exact ⟨due, List.mem_cons_of_mem _ hsched, hdue⟩
    · rw [List.map_cons, List.nodup_cons]
      refine ⟨fun hmem => ?_, h.nodup⟩
      obtain ⟨⟨due, e⟩, he, heq⟩ := List.mem_map.mp hmem
      exact hold due e he heq
    · intro j due value hbit
      simp only [BitOk] at hbit ⊢
      cases hpj : s.pending j with
      | none =>
        rw [hpj] at hbit
        exact hbit
      | some e' =>
        rw [hpj] at hbit
        obtain ⟨ev', b', hev', hactive, hvalue, hsame, hsched⟩ := hbit
        exact ⟨ev', b', (Function.update_of_ne (hold due e' hsched) _ _).trans hev', hactive,
          hvalue, hsame, List.mem_cons_of_mem _ hsched⟩

private theorem scheduleBit_spec {s : Modpath} (h : Booked s) {i : Nat} {due : Nat → Nat}
    {value : Nat → Option Bit4} (hbits : ∀ j, j ≠ i → s.BitOk (due j) (value j) j)
    (hi : i < s.output.length) (b : Bit4) (delay : BitVec 64) :
    Booked (s.scheduleBit i b delay) ∧
      (s.scheduleBit i b delay).BitOk (s.now + delay.toNat) (some b) i ∧
      (s.scheduleBit i b delay).output = s.output ∧ (s.scheduleBit i b delay).now = s.now ∧
      ∀ j, j ≠ i → (s.scheduleBit i b delay).BitOk (due j) (value j) j := by
  obtain ⟨hbook, hsched, hout, hpend, hnow, hkeep⟩ := eventAt_spec h delay
  rw [scheduleBit]
  generalize s.eventAt delay = r at hbook hsched hout hpend hnow hkeep
  obtain ⟨t, e⟩ := r
  dsimp only at hbook hsched hout hpend hnow hkeep ⊢
  obtain ⟨ev, hev, -, hlen, -⟩ := hbook.event _ _ hsched
  rw [hev, Option.map_some]
  refine ⟨hbook.update_heap (ev.setBit i b) hev rfl List.length_set _, ?_, hout, hnow, ?_⟩
  · simp only [BitOk, Function.update_self]
    refine ⟨ev.setBit i b, b, rfl, Function.update_self _ _ _, ?_, rfl, hsched⟩
    exact List.getElem?_set_self (by rw [hlen, hout]; exact hi)
  · intro j hj
    have hbit := hkeep j _ _ (hbits j hj)
    simp only [BitOk, Function.update_of_ne hj] at hbit ⊢
    cases hpj : t.pending j with
    | none =>
      rw [hpj] at hbit
      exact hbit
    | some e' =>
      rw [hpj] at hbit
      obtain ⟨ev', b', hev', hactive, hvalue, hsched'⟩ := hbit
      by_cases hsame : e' = e
      · subst hsame
        obtain rfl : ev' = ev := Option.some.inj (hev'.symm.trans hev)
        refine ⟨ev'.setBit i b, b', Function.update_self _ _ _, ?_, ?_, hsched'⟩
        · exact (Function.update_of_ne hj _ _).trans hactive
        · exact (List.getElem?_set_ne (Ne.symm hj)).trans hvalue
      · exact ⟨ev', b', (Function.update_of_ne hsame _ _).trans hev', hactive, hvalue, hsched'⟩

private theorem changeBit_spec {s : Modpath} (h : Booked s) {i : Nat} {due : Nat → Nat}
    {value : Nat → Option Bit4} (hbits : ∀ j, s.BitOk (due j) (value j) j)
    (hi : i < s.output.length) (b : Bit4) (delay : BitVec 64) :
    Booked (s.changeBit i b delay) ∧ (s.changeBit i b delay).output = s.output ∧
      (s.changeBit i b delay).now = s.now ∧
      (s.changeBit i b delay).BitOk (s.now + delay.toNat) (some b) i ∧
      ∀ j, j ≠ i → (s.changeBit i b delay).BitOk (due j) (value j) j := by
  obtain ⟨hbook, hnone, hothers⟩ := cancelBit_spec (i := i) h hbits
  have hout : (s.cancelBit i).output = s.output := by
    rw [cancelBit]
    cases s.pending i <;> rfl
  have hnow : (s.cancelBit i).now = s.now := by
    rw [cancelBit]
    cases s.pending i <;> rfl
  rw [changeBit]
  generalize s.cancelBit i = t at hbook hnone hothers hout hnow
  split_ifs with hne
  · obtain ⟨hbook', hbit, hout', hnow', hothers'⟩ :=
      scheduleBit_spec hbook hothers (by rw [hout]; exact hi) b delay
    rw [hnow] at hbit
    exact ⟨hbook', hout'.trans hout, hnow'.trans hnow, hbit, hothers'⟩
  · refine ⟨hbook, hout, hnow, ?_, hothers⟩
    rw [not_not, List.getD_eq_getElem?_getD, hout, List.getElem?_eq_getElem hi,
      Option.getD_some] at hne
    rw [BitOk, hnone, hout, List.getElem?_eq_getElem hi, hne]

/-! ## The input -/

/-- The due times after an input: anew for the bits that change. -/
def dueAfter (s : Modpath) (bit : Vector4) (delay : Bit4 → Bit4 → BitVec 64) (due : Nat → Nat)
    (i : Nat) : Nat :=
  if s.input[i]? = bit[i]? then due i
  else s.now + (delay (s.input.getD i .x) (bit.getD i .x)).toNat

private theorem getD_eq_iff {v w : Vector4} {i : Nat} (hv : i < v.length) (hw : i < w.length) :
    v.getD i .x = w.getD i .x ↔ v[i]? = w[i]? := by
  rw [List.getD_eq_getElem?_getD, List.getD_eq_getElem?_getD, List.getElem?_eq_getElem hv,
    List.getElem?_eq_getElem hw, Option.getD_some, Option.getD_some, Option.some.injEq]

private theorem changeBits_prefix {s : Modpath} (h : Booked s) {due : Nat → Nat}
    (hbits : ∀ j, s.BitOk (due j) s.input[j]? j) {bit : Vector4}
    (hlen : s.input.length = bit.length) (hout : s.output.length = bit.length)
    (delay : Bit4 → Bit4 → BitVec 64) {n : Nat} (hn : n ≤ bit.length) :
    ∃ t, (List.range n).foldl
        (fun t idx =>
          let oldValue := s.input.getD idx .x
          let newValue := bit.getD idx .x
          if oldValue = newValue then t
          else t.changeBit idx newValue (delay oldValue newValue)) s = t ∧
      Booked t ∧ t.output = s.output ∧ t.now = s.now ∧
      ∀ j, t.BitOk (if j < n then s.dueAfter bit delay due j else due j)
        (if j < n then bit[j]? else s.input[j]?) j := by
  induction n with
  | zero => exact ⟨s, rfl, h, rfl, rfl, hbits⟩
  | succ n ih =>
    obtain ⟨t, ht, hbook, hto, htn, htbits⟩ := ih (by omega)
    rw [List.range_succ, List.foldl_append, ht, List.foldl_cons, List.foldl_nil]
    have hin : n < s.input.length := by omega
    have hbn : n < bit.length := by omega
    have hpast : ∀ j, j ≠ n → (j < n + 1 ↔ j < n) := by omega
    by_cases hsame : s.input.getD n .x = bit.getD n .x
    · refine ⟨t, by simp only [if_pos hsame], hbook, hto, htn, fun j => ?_⟩
      rcases eq_or_ne j n with rfl | hj
      · have hbit := htbits j
        have heq := (getD_eq_iff hin hbn).mp hsame
        rw [if_neg (lt_irrefl j), if_neg (lt_irrefl j)] at hbit
        rw [if_pos (Nat.lt_succ_self j), if_pos (Nat.lt_succ_self j), dueAfter, if_pos heq, ← heq]
        exact hbit
      · simp only [hpast j hj]
        exact htbits j
    · obtain ⟨hbook', hto', htn', hbit, hothers⟩ := changeBit_spec hbook htbits
        (by rw [hto, hout]; exact hbn) (bit.getD n .x) (delay (s.input.getD n .x) (bit.getD n .x))
      refine ⟨_, by simp only [if_neg hsame], hbook', hto'.trans hto, htn'.trans htn, fun j => ?_⟩
      rcases eq_or_ne j n with rfl | hj
      · have heq : ¬ s.input[j]? = bit[j]? := fun heq => hsame ((getD_eq_iff hin hbn).mpr heq)
        have hget : bit[j]? = some (bit.getD j .x) := by
          rw [List.getD_eq_getElem?_getD, List.getElem?_eq_getElem hbn, Option.getD_some]
        rw [if_pos (Nat.lt_succ_self j), if_pos (Nat.lt_succ_self j), dueAfter, if_neg heq, hget,
          ← htn]
        exact hbit
      · simp only [hpast j hj]
        exact hothers j hj

/-- What holds of a functor in every state. -/
structure Kept (s : Modpath) (due : Nat → Nat) : Prop where
  /-- The events agree. -/
  booked : Booked s
  /-- Input and output have one width. -/
  width : s.output.length = s.input.length
  /-- Every bit is settled or waits for its time. -/
  bits : ∀ i, s.BitOk (due i) s.input[i]? i

theorem init_kept (width : Nat) (srcList ifnoneList : List ModpathSrc) (now : Nat)
    (due : Nat → Nat) : Kept (init width srcList ifnoneList now) due where
  booked :=
    { event := fun _ _ h => absurd h List.not_mem_nil
      mapped := fun _ _ h => nomatch h
      nodup := List.nodup_nil }
  width := rfl
  bits := fun _ => rfl

private theorem recvVec4_kept {s s' : Modpath} {due : Nat → Nat} (h : Kept s due) {bit : Vector4}
    (hrecv : s.recvVec4 bit = some s') :
    Kept s' (s.dueAfter bit s.useDelay due) ∧ s'.output = s.output := by
  rw [recvVec4] at hrecv
  split_ifs at hrecv with hlen hsame
  · cases hrecv
    refine ⟨⟨h.booked, h.width, fun i => ?_⟩, rfl⟩
    rw [dueAfter, if_pos (by rw [hsame])]
    exact h.bits i
  · cases hrecv
    rw [not_not] at hlen
    have hout := h.width.trans hlen
    obtain ⟨t, ht, hbook, hto, -, hbits⟩ :=
      changeBits_prefix h.booked h.bits hlen hout s.useDelay (le_refl bit.length)
    rw [changeBits, ht]
    refine ⟨⟨⟨hbook.event, hbook.mapped, hbook.nodup⟩, ?_, fun i => ?_⟩, hto⟩
    · exact (congrArg List.length hto).trans hout
    · have hbit := hbits i
      by_cases hi : i < bit.length
      · rw [if_pos hi, if_pos hi] at hbit
        exact hbit
      · rw [if_neg hi, if_neg hi] at hbit
        have hin : s.input[i]? = bit[i]? := by
          rw [List.getElem?_eq_none (by omega), List.getElem?_eq_none (by omega)]
        rw [dueAfter, if_pos hin]
        change t.BitOk (due i) bit[i]? i
        rw [← hin]
        exact hbit

/-! ## The events -/

private theorem runBits_spec (e : Nat) (ev : ModpathEvent) (pending : Nat → Option Nat)
    (output : Vector4) {n : Nat} (hn : n ≤ output.length) :
    (∀ j, ((List.range n).foldl (runBit e ev) (pending, output)).1 j =
        if j < n ∧ ev.active j = true ∧ pending j = some e then none else pending j) ∧
      ∀ j, ((List.range n).foldl (runBit e ev) (pending, output)).2[j]? =
        if j < n ∧ ev.active j = true ∧ pending j = some e then some (ev.values.getD j .x)
        else output[j]? := by
  induction n with
  | zero => exact ⟨fun j => by simp, fun j => by simp⟩
  | succ n ih =>
    obtain ⟨hpend, hout⟩ := ih (by omega)
    rw [List.range_succ, List.foldl_append, List.foldl_cons, List.foldl_nil]
    generalize (List.range n).foldl (runBit e ev) (pending, output) = st at hpend hout
    have hpn : st.1 n = pending n := by rw [hpend, if_neg (by omega)]
    have hon : st.2[n]? = output[n]? := by rw [hout, if_neg (by omega)]
    have hpast : ∀ j, j ≠ n → (j < n + 1 ↔ j < n) := by omega
    rw [runBit, hpn]
    by_cases hskip : ev.active n = false ∨ pending n ≠ some e
    · rw [if_pos hskip]
      have hno : ¬ (n < n + 1 ∧ ev.active n = true ∧ pending n = some e) := by
        rintro ⟨-, hactive, hp⟩
        rcases hskip with hskip | hskip
        · rw [hskip] at hactive
          cases hactive
        · exact hskip hp
      constructor
      · intro j
        rcases eq_or_ne j n with rfl | hj
        · rw [if_neg hno, hpn]
        · simp only [hpend, hpast j hj]
      · intro j
        rcases eq_or_ne j n with rfl | hj
        · rw [if_neg hno, hon]
        · simp only [hout, hpast j hj]
    · rw [if_neg hskip]
      rw [not_or, not_not, Bool.not_eq_false] at hskip
      have hlen : n < st.2.length := by
        by_contra hge
        rw [List.getElem?_eq_none (by omega), eq_comm, List.getElem?_eq_none_iff] at hon
        omega
      have hset : (if st.2.getD n .x ≠ ev.values.getD n .x then st.2.set n (ev.values.getD n .x)
          else st.2) = st.2.set n (ev.values.getD n .x) := by
        split_ifs with hne
        · rfl
        · rw [not_not, List.getD_eq_getElem?_getD, List.getElem?_eq_getElem hlen,
            Option.getD_some] at hne
          rw [← hne, List.set_getElem_self]
      dsimp only
      rw [hset]
      constructor
      · intro j
        rcases eq_or_ne j n with rfl | hj
        · rw [Function.update_self, if_pos ⟨Nat.lt_succ_self j, hskip⟩]
        · simp only [Function.update_of_ne hj, hpend, hpast j hj]
      · intro j
        rcases eq_or_ne j n with rfl | hj
        · rw [List.getElem?_set_self hlen, if_pos ⟨Nat.lt_succ_self j, hskip⟩]
        · simp only [List.getElem?_set_ne (Ne.symm hj), hout, hpast j hj]

private theorem length_runBits (e : Nat) (ev : ModpathEvent) (idxs : List Nat)
    (st : (Nat → Option Nat) × Vector4) :
    (idxs.foldl (runBit e ev) st).2.length = st.2.length := by
  induction idxs generalizing st with
  | nil => rfl
  | cons idx idxs ih =>
    rw [List.foldl_cons, ih, runBit]
    dsimp only
    split_ifs
    · rfl
    · exact List.length_set
    · rfl

/-- An event due now runs without a failing assertion: exactly the bits that wait in it take
their values. -/
private theorem runEvent_spec {s : Modpath} {due : Nat → Nat} (h : Kept s due) {e : Nat}
    (hsched : (s.now, e) ∈ s.scheduled) :
    ∃ s', s.runEvent e = some s' ∧
      Kept { s' with scheduled := s'.scheduled.erase (s.now, e) } due ∧
      ∀ i, s'.output[i]? ≠ s.output[i]? → s.pending i = some e ∧ due i = s.now ∧
        s'.output[i]? = s.input[i]? := by
  obtain ⟨ev, hev, htime, hlen, hmap, -⟩ := h.booked.event _ _ hsched
  have hids : ∀ d, (d, e) ∈ s.scheduled → d = s.now := by
    intro d hd
    exact congrArg Prod.fst (List.inj_on_of_nodup_map h.booked.nodup hd hsched rfl)
  -- the bits that wait in the event
  have hwaits : ∀ i, s.pending i = some e → i < s.output.length ∧ ev.active i = true ∧
      due i = s.now ∧ s.input[i]? = some (ev.values.getD i .x) := by
    intro i hp
    have hbit := h.bits i
    rw [BitOk, hp] at hbit
    obtain ⟨ev', b, hev', hactive, hvalue, hinput, hd⟩ := hbit
    obtain rfl : ev' = ev := Option.some.inj (hev'.symm.trans hev)
    obtain ⟨hi, -⟩ := List.getElem?_eq_some_iff.mp hvalue
    refine ⟨by omega, hactive, hids _ hd, ?_⟩
    rw [hinput, List.getD_eq_getElem?_getD, hvalue, Option.getD_some]
  obtain ⟨hpend, hout⟩ := runBits_spec e ev s.pending s.output (le_refl s.output.length)
  have houtlen := length_runBits e ev (List.range s.output.length) (s.pending, s.output)
  have herase : ∀ d e', (d, e') ∈ s.scheduled → e' ≠ e →
      (d, e') ∈ s.scheduled.erase (s.now, e) := by
    intro d e' hd hne
    rw [List.mem_erase_of_ne fun h => hne (congrArg Prod.snd h)]
    exact hd
  refine ⟨_, by rw [runEvent, hev]; simp only [hmap, ne_eq, not_true_eq_false, if_false]; rfl,
    ⟨⟨?_, ?_, ?_⟩, houtlen.trans h.width, fun i => ?_⟩, fun i hne => ?_⟩
  · intro d e' he'
    have hmem := List.mem_of_mem_erase he'
    obtain ⟨ev', hev', htime', hlen', hmap', hrest⟩ := h.booked.event d e' hmem
    have hother : e' ≠ e := by
      rintro rfl
      rw [hids d hmem] at he'
      exact (List.Nodup.not_mem_erase (List.Nodup.of_map _ h.booked.nodup)) he'
    refine ⟨ev', (Function.update_of_ne hother _ _).trans hev', htime', hlen'.trans houtlen.symm,
      ?_, hrest⟩
    have htimes : ev'.time ≠ ev.time := by
      intro heq
      rw [heq, hmap] at hmap'
      exact hother (Option.some.inj hmap').symm
    exact (Function.update_of_ne htimes _ _).trans hmap'
  · intro t e' ht
    dsimp only at ht
    by_cases heq : t = ev.time
    · rw [heq, Function.update_self] at ht
      cases ht
    · rw [Function.update_of_ne heq] at ht
      obtain ⟨d, hd, hdt⟩ := h.booked.mapped t e' ht
      refine ⟨d, herase d e' hd ?_, hdt⟩
      rintro rfl
      rw [hids d hd, ← htime] at hdt
      exact heq hdt.symm
  · exact h.booked.nodup.sublist (List.erase_sublist.map _)
  · have hbit := h.bits i
    rw [BitOk] at hbit ⊢
    dsimp only
    rw [hpend i]
    by_cases hp : s.pending i = some e
    · obtain ⟨hi, hactive, -, hinput⟩ := hwaits i hp
      rw [if_pos ⟨hi, hactive, hp⟩]
      dsimp only
      rw [hout i, if_pos ⟨hi, hactive, hp⟩, hinput]
    · have hno : ¬ (i < s.output.length ∧ ev.active i = true ∧ s.pending i = some e) :=
        fun hc => hp hc.2.2
      rw [if_neg hno]
      cases hpi : s.pending i with
      | none =>
        rw [hpi] at hbit
        dsimp only at hbit ⊢
        rw [hout i, if_neg hno]
        exact hbit
      | some e' =>
        rw [hpi] at hbit
        obtain ⟨ev', b, hev', hactive, hvalue, hinput, hd⟩ := hbit
        have hother : e' ≠ e := by
          rintro rfl
          exact hp hpi
        exact ⟨ev', b, (Function.update_of_ne hother _ _).trans hev', hactive, hvalue, hinput,
          herase _ e' hd hother⟩
  · dsimp only at hne ⊢
    rw [hout i] at hne ⊢
    split_ifs at hne ⊢ with hc
    · obtain ⟨-, -, hdue, hinput⟩ := hwaits i hc.2.2
      exact ⟨hc.2.2, hdue, hinput.symm⟩
    · exact absurd rfl hne

private theorem advance_kept {s : Modpath} {due : Nat → Nat} (h : Kept s due) {time : Nat}
    (hle : s.now ≤ time) (hsched : ∀ p ∈ s.scheduled, time ≤ p.1) :
    Kept { s with now := time } due where
  booked :=
    { event := by
        intro d e hd
        obtain ⟨ev, hev, htime, hlen, hmap, -, hlt, hfresh⟩ := h.booked.event d e hd
        exact ⟨ev, hev, htime, hlen, hmap, hsched (d, e) hd,
          hlt.trans_le (Nat.add_le_add_right hle _), hfresh⟩
      mapped := h.booked.mapped
      nodup := h.booked.nodup }
  width := h.width
  bits := h.bits

end Modpath

/-! ## Runs -/

/-- A functor with the history of its bits: the time of the last change of each input bit and
the delay selected for it. -/
structure ModpathRun where
  /-- The functor. -/
  net : Modpath
  /-- The time of the last change. -/
  changedAt : Nat → Nat
  /-- The delay selected at the last change. -/
  edgeDelay : Nat → BitVec 64

/-- What can happen to the functor. -/
inductive ModpathStep
  | recvVec4 (bit : Vector4)
  | sources (srcList ifnoneList : List ModpathSrc)
  | advance (time : Nat)
  | runEvent (event : Nat)

namespace ModpathRun

/-- A new functor, none of its bits changed yet. -/
def init (width : Nat) (srcList ifnoneList : List ModpathSrc) (now : Nat) : ModpathRun :=
  ⟨.init width srcList ifnoneList now, fun _ => 0, fun _ => 0⟩

/-- A step: the sources may change their delays, wake times and conditions at any time; time
advances to no later than the first scheduled event, and an event runs at its time. -/
def step (s : ModpathRun) : ModpathStep → Option ModpathRun
  | .recvVec4 bit =>
    (s.net.recvVec4 bit).map fun net =>
      { net := net
        changedAt := fun i => if s.net.input[i]? = bit[i]? then s.changedAt i else s.net.now
        edgeDelay := fun i =>
          if s.net.input[i]? = bit[i]? then s.edgeDelay i
          else s.net.useDelay (s.net.input.getD i .x) (bit.getD i .x) }
  | .sources srcList ifnoneList =>
    some { s with net := { s.net with srcList := srcList, ifnoneList := ifnoneList } }
  | .advance time =>
    if s.net.now ≤ time ∧ ∀ p ∈ s.net.scheduled, time ≤ p.1 then
      some { s with net := { s.net with now := time } }
    else none
  | .runEvent e =>
    if (s.net.now, e) ∈ s.net.scheduled then
      (s.net.runEvent e).map fun net =>
        { s with net := { net with scheduled := net.scheduled.erase (s.net.now, e) } }
    else none

/-- The time a bit is due: the delay after its last change. -/
def due (s : ModpathRun) (i : Nat) : Nat := s.changedAt i + (s.edgeDelay i).toNat

/-- The invariant of every run. -/
def Kept (s : ModpathRun) : Prop := s.net.Kept s.due

theorem step_kept {s s' : ModpathRun} (h : Kept s) {l : ModpathStep} (hstep : s.step l = some s') :
    Kept s' := by
  cases l with
  | recvVec4 bit =>
    obtain ⟨net, hrecv, rfl⟩ := Option.map_eq_some_iff.mp hstep
    obtain ⟨hkept, -⟩ := Modpath.recvVec4_kept h hrecv
    have hdue : s.net.dueAfter bit s.net.useDelay s.due = due
        { net := net
          changedAt := fun i => if s.net.input[i]? = bit[i]? then s.changedAt i else s.net.now
          edgeDelay := fun i =>
            if s.net.input[i]? = bit[i]? then s.edgeDelay i
            else s.net.useDelay (s.net.input.getD i .x) (bit.getD i .x) } := by
      funext i
      simp only [Modpath.dueAfter, due]
      split_ifs <;> rfl
    rw [hdue] at hkept
    exact hkept
  | sources srcList ifnoneList =>
    cases hstep
    exact ⟨⟨h.booked.event, h.booked.mapped, h.booked.nodup⟩, h.width, h.bits⟩
  | advance time =>
    rw [step] at hstep
    split_ifs at hstep with hle
    cases hstep
    exact Modpath.advance_kept h hle.1 hle.2
  | runEvent e =>
    rw [step] at hstep
    split_ifs at hstep with hsched
    obtain ⟨net, hrun, rfl⟩ := Option.map_eq_some_iff.mp hstep
    obtain ⟨net', hrun', hkept, -⟩ := Modpath.runEvent_spec h hsched
    obtain rfl : net' = net := Option.some.inj (hrun'.symm.trans hrun)
    exact hkept

theorem run_kept (width : Nat) (srcList ifnoneList : List ModpathSrc) (now : Nat)
    {steps : List ModpathStep} {s : ModpathRun}
    (hrun : Runs.run step (init width srcList ifnoneList now) steps = some s) : Kept s := by
  have hinit : Kept (init width srcList ifnoneList now) :=
    Modpath.init_kept width srcList ifnoneList now _
  exact Runs.invariant (fun _ _ _ hs hstep => step_kept hs hstep) hinit hrun

/-- An output bit changes only by the run of its pending event, at the time it is due and to the
value of the input. -/
private theorem output_changes {s s' : ModpathRun} (h : Kept s) {l : ModpathStep}
    (hstep : s.step l = some s') {i : Nat} (hne : s'.net.output[i]? ≠ s.net.output[i]?) :
    ∃ e, l = .runEvent e ∧ s.net.pending i = some e ∧ s.net.now = s.due i ∧
      s'.net.output[i]? = s.net.input[i]? := by
  cases l with
  | recvVec4 bit =>
    obtain ⟨net, hrecv, rfl⟩ := Option.map_eq_some_iff.mp hstep
    obtain ⟨-, hout⟩ := Modpath.recvVec4_kept h hrecv
    exact absurd (congrArg (·[i]?) hout) hne
  | sources srcList ifnoneList =>
    cases hstep
    exact absurd rfl hne
  | advance time =>
    rw [step] at hstep
    split_ifs at hstep
    cases hstep
    exact absurd rfl hne
  | runEvent e =>
    rw [step] at hstep
    split_ifs at hstep with hsched
    obtain ⟨net, hrun, rfl⟩ := Option.map_eq_some_iff.mp hstep
    obtain ⟨net', hrun', -, hchange⟩ := Modpath.runEvent_spec h hsched
    obtain rfl : net' = net := Option.some.inj (hrun'.symm.trans hrun)
    obtain ⟨hpending, hdue, hvalue⟩ := hchange i hne
    exact ⟨e, rfl, hpending, hdue.symm, hvalue⟩

/-- In every state of every run each bit is settled or waits with its newest value in the event
of its due time; it reaches the output then and at no other time, no assertion of an event
fails, and with nothing pending the output is the input. -/
theorem modpath_bits_on_time (width : Nat) (srcList ifnoneList : List ModpathSrc) (now : Nat)
    (steps : List ModpathStep) (s : ModpathRun)
    (hrun : Runs.run step (init width srcList ifnoneList now) steps = some s) :
    (∀ i, (s.net.pending i = none ∧ s.net.output[i]? = s.net.input[i]?) ∨
      ∃ e ev b, s.net.pending i = some e ∧ s.net.heap e = some ev ∧
        s.net.events ev.time = some e ∧ ev.active i = true ∧ ev.values[i]? = some b ∧
        s.net.input[i]? = some b ∧ ev.time = BitVec.ofNat 64 (s.changedAt i) + s.edgeDelay i ∧
        (s.due i, e) ∈ s.net.scheduled ∧ s.net.now ≤ s.due i) ∧
      (∀ l s' i, s.step l = some s' → s'.net.output[i]? ≠ s.net.output[i]? →
        ∃ e, l = .runEvent e ∧ s.net.pending i = some e ∧ s.net.now = s.due i ∧
          s'.net.output[i]? = s.net.input[i]?) ∧
      (∀ e, (s.net.now, e) ∈ s.net.scheduled → (s.step (.runEvent e)).isSome) ∧
      ((∀ i, s.net.pending i = none) → s.net.output = s.net.input) := by
  have h := run_kept width srcList ifnoneList now hrun
  refine ⟨fun i => ?_, fun l s' i hstep hne => output_changes h hstep hne, fun e hsched => ?_,
    fun hnone => ?_⟩
  · have hbit := h.bits i
    rw [Modpath.BitOk] at hbit
    cases hp : s.net.pending i with
    | none =>
      rw [hp] at hbit
      exact .inl ⟨rfl, hbit⟩
    | some e =>
      rw [hp] at hbit
      obtain ⟨ev, b, hev, hactive, hvalue, hinput, hsched⟩ := hbit
      obtain ⟨ev', hev', htime, -, hmap, hle, -⟩ := h.booked.event _ e hsched
      obtain rfl : ev' = ev := Option.some.inj (hev'.symm.trans hev)
      refine .inr ⟨e, ev', b, rfl, hev, hmap, hactive, hvalue, hinput, ?_, hsched, hle⟩
      rw [htime, due, BitVec.ofNat_add, BitVec.ofNat_toNat, BitVec.setWidth_eq]
  · obtain ⟨net, hrun', -⟩ := Modpath.runEvent_spec h hsched
    rw [step, if_pos hsched, hrun']
    rfl
  · apply List.ext_getElem?
    intro i
    have hbit := h.bits i
    rw [Modpath.BitOk, hnone i] at hbit
    exact hbit

/-- One path of delay 4 on all edges; two bits change together, one of them back. -/
theorem modpath_bits_example : ∃ s, Runs.run step (init 2 [⟨fun _ => 4, 0, true⟩] [] 0)
    [.recvVec4 [.one, .zero], .advance 1, .recvVec4 [.x, .zero], .advance 4, .runEvent 0] =
      some s ∧ ((∀ i, s.net.pending i = none) → s.net.output = s.net.input) :=
  ⟨_, rfl, (modpath_bits_on_time 2 [⟨fun _ => 4, 0, true⟩] [] 0
    [.recvVec4 [.one, .zero], .advance 1, .recvVec4 [.x, .zero], .advance 4, .runEvent 0] _
    rfl).2.2.2⟩

end ModpathRun

end Icarus.Vvp
