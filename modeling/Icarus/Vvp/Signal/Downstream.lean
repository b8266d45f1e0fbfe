import Icarus.Vvp.Signal.Variable

/-!
# What a variable sends downstream

Every change of the visible value of a variable is sent on, except one: a
release of a forced bit that is continuously assigned makes the assigned value
visible again without storing anything, so the functor sees no change.
-/

namespace Icarus.Vvp

open Core

namespace Variable

/-! ## The visible value -/

theorem vec4Value_eq (s : Variable) :
    s.vec4Value = (List.range s.bits4.length).map s.filteredValue := by
  rw [vec4Value]
  split_ifs with hforced
  · rfl
  · have htest : ∀ idx, s.testForceMask idx = false := by
      intro idx
      rw [testForceMask, List.getD_eq_getElem?_getD]
      cases hidx : s.forceMask[idx]? with
      | none => rfl
      | some m =>
        have hm := List.mem_of_getElem? hidx
        simp only [List.any_eq_true, id_eq, exists_eq_right] at hforced
        cases m with
        | false => rfl
        | true => exact absurd hm hforced
    apply List.ext_getElem
    · simp
    · intro idx hidx _
      simp [filteredValue, htest, List.getD_eq_getElem?_getD, hidx]

@[simp] theorem length_vec4Value (s : Variable) : s.vec4Value.length = s.bits4.length := by
  rw [vec4Value_eq, List.length_map, List.length_range]

theorem getElem?_vec4Value (s : Variable) {idx : Nat} (hidx : idx < s.bits4.length) :
    s.vec4Value[idx]? = some (s.filteredValue idx) := by
  rw [vec4Value_eq, List.getElem?_map, List.getElem?_range hidx, Option.map_some]

/-- Two variables with the same visible bits. -/
theorem vec4Value_congr {s s' : Variable} (hlen : s'.bits4.length = s.bits4.length)
    (h : ∀ idx < s.bits4.length, s'.filteredValue idx = s.filteredValue idx) :
    s'.vec4Value = s.vec4Value := by
  rw [vec4Value_eq, vec4Value_eq, hlen]
  apply List.map_congr_left
  intro idx hidx
  exact h idx (List.mem_range.mp hidx)

/-- All bits are forced. -/
def AllForced (s : Variable) : Prop := ∀ idx < s.bits4.length, s.testForceMask idx = true

private theorem filteredValue_of_forced {s s' : Variable} (hmask : s'.forceMask = s.forceMask)
    (hforce : s'.force4 = s.force4) {idx : Nat} (h : s.testForceMask idx = true) :
    s'.filteredValue idx = s.filteredValue idx := by
  have h' : s'.testForceMask idx = true := by rw [testForceMask, hmask, ← testForceMask, h]
  rw [filteredValue, filteredValue, if_pos h, if_pos h', hforce]

/-! ## Sending -/

/-- Sending passes the visible value on, unless nothing has changed or every bit is forced. -/
private theorem sendFromSignal_spec (s : Variable) (knownChanged : Bool) :
    (s.sendFromSignal knownChanged).bits4 = s.bits4 ∧
      (s.sendFromSignal knownChanged).assignMask = s.assignMask ∧
      (s.sendFromSignal knownChanged).forceMask = s.forceMask ∧
      (s.sendFromSignal knownChanged).force4 = s.force4 ∧
      ((s.sendFromSignal knownChanged).downstream = some s.vec4Value ∨
        ((s.sendFromSignal knownChanged).downstream = s.downstream ∧
          (knownChanged = false ∨ AllForced s))) := by
  rw [sendFromSignal]
  split_ifs with hstop
  · refine ⟨rfl, rfl, rfl, rfl, .inr ⟨rfl, .inl ?_⟩⟩
    simp only [Bool.and_eq_true, Bool.not_eq_true'] at hstop
    exact hstop.1
  · rw [filterMask, vec4Value]
    dsimp only
    split_ifs with hforced hsend
    · exact ⟨rfl, rfl, rfl, rfl, .inl rfl⟩
    · refine ⟨rfl, rfl, rfl, rfl, .inr ⟨rfl, .inr fun idx hidx => ?_⟩⟩
      simp only [Bool.or_eq_true, List.any_eq_true, List.mem_range, Bool.not_eq_true', not_or,
        not_exists, not_and, Bool.not_eq_false] at hsend
      exact hsend.2 idx hidx
    · exact ⟨rfl, rfl, rfl, rfl, .inl rfl⟩

/-- What the functor leaves after a store: the filter's force unchanged, and the visible value
sent unless it is the same as before. -/
structure Relays (s s' : Variable) : Prop where
  /-- The width is kept. -/
  length_eq : s'.bits4.length = s.bits4.length
  /-- The force mask is kept. -/
  forceMask_eq : s'.forceMask = s.forceMask
  /-- The forced value is kept. -/
  force4_eq : s'.force4 = s.force4
  /-- A new visible value is sent. -/
  sent : s'.downstream = some s'.vec4Value ∨
    s'.downstream = s.downstream ∧ s'.vec4Value = s.vec4Value

/-- New bits stored and sent with a flag that is set if they differ. -/
private theorem relays_send {s t : Variable} {changed : Bool}
    (hlen : t.bits4.length = s.bits4.length) (hmask : t.forceMask = s.forceMask)
    (hforce : t.force4 = s.force4) (hdown : t.downstream = s.downstream)
    (hsame : changed = false → t.bits4 = s.bits4) : Relays s (t.sendFromSignal changed) := by
  obtain ⟨hbits, -, hmask', hforce', hsent⟩ := sendFromSignal_spec t changed
  have hvalue : (t.sendFromSignal changed).vec4Value = t.vec4Value := by
    rw [vec4Value, vec4Value, hbits, hmask']
    congr 2
    funext idx
    rw [filteredValue, filteredValue, testForceMask, testForceMask, hbits, hmask', hforce']
  refine ⟨(congrArg List.length hbits).trans hlen, hmask'.trans hmask, hforce'.trans hforce, ?_⟩
  rcases hsent with hsent | ⟨hsent, hstop⟩
  · exact .inl (hsent.trans (congrArg some hvalue.symm))
  · refine .inr ⟨hsent.trans hdown, hvalue.trans (vec4Value_congr hlen fun idx hidx => ?_)⟩
    rcases hstop with hstop | hstop
    · rw [filteredValue, filteredValue, testForceMask, testForceMask, hmask, hforce, hsame hstop]
    · have hforced := hstop idx (hlen.symm ▸ hidx)
      rw [testForceMask, hmask, ← testForceMask] at hforced
      exact filteredValue_of_forced hmask hforce hforced

/-! ## Stores -/

/-- What the loop of a part store does to the bits and to its two flags. -/
private structure Stored (mask : List Bool) (idx : Nat) (bit bits : Vector4)
    (changed touched : Bool) (r : Vector4 × Bool × Bool) : Prop where
  /-- The width is kept. -/
  length_eq : r.1.length = bits.length
  /-- The bits of the part that are not masked are overwritten. -/
  getElem? : ∀ i, r.1[i]? = bits[i]?.map fun b =>
    if idx ≤ i ∧ mask.getD i false = false then bit[i - idx]?.getD b else b
  /-- A bit that changes is noticed. -/
  unchanged : r.2.1 = false → r.1 = bits ∧ changed = false
  /-- A bit that changes is touched. -/
  touched_of_changed : r.2.1 = true → changed = true ∨ r.2.2 = true
  /-- A touched bit stays touched. -/
  touched_of_touched : touched = true → r.2.2 = true

private theorem storeBits_spec (mask : List Bool) (bit : Vector4) (idx : Nat) (bits : Vector4)
    (changed touched : Bool) :
    Stored mask idx bit bits changed touched (storeBits mask idx bit (bits, changed, touched)) := by
  induction bit generalizing idx bits changed touched with
  | nil =>
    refine ⟨rfl, fun i => ?_, fun h => ⟨rfl, h⟩, .inl, id⟩
    simp [storeBits]
  | cons newBit bit ih =>
    -- past the first bit the part of the rest is the part of the whole
    have hrest : ∀ i, i ≠ idx → ∀ b : Bit4,
        (if idx + 1 ≤ i ∧ mask.getD i false = false then bit[i - (idx + 1)]?.getD b else b) =
          if idx ≤ i ∧ mask.getD i false = false then (newBit :: bit)[i - idx]?.getD b else b := by
      intro i hi b
      by_cases hle : idx ≤ i
      · have hsucc : i - idx = i - (idx + 1) + 1 := by omega
        rw [hsucc, List.getElem?_cons_succ]
        have hiff : idx + 1 ≤ i ↔ idx ≤ i := by omega
        simp only [hiff]
      · rw [if_neg (by omega), if_neg (by omega)]
    rw [storeBits]
    split_ifs with hend hmask hne
    · refine ⟨rfl, fun i => ?_, fun h => ⟨rfl, h⟩, .inl, id⟩
      change bits[i]? = _
      by_cases hi : i < bits.length
      · rw [List.getElem?_eq_getElem hi, Option.map_some, if_neg (by omega)]
      · rw [List.getElem?_eq_none (by omega), Option.map_none]
    · obtain ⟨hlen, hget, hun, hch, hto⟩ := ih (idx + 1) bits changed touched
      refine ⟨hlen, fun i => ?_, hun, hch, hto⟩
      rw [hget]
      congr 1
      funext b
      rcases eq_or_ne i idx with rfl | hi
      · rw [if_neg (by omega), if_neg (by rw [hmask]; simp)]
      · exact hrest i hi b
    · obtain ⟨hlen, hget, hun, hch, hto⟩ := ih (idx + 1) (bits.set idx newBit) true true
      refine ⟨hlen.trans List.length_set, fun i => ?_, fun h => ?_, fun _ => .inr (hto rfl),
        fun _ => hto rfl⟩
      · rw [hget]
        rcases eq_or_ne i idx with rfl | hi
        · rw [List.getElem?_set_self (by omega),
            List.getElem?_eq_getElem (l := bits) (Nat.lt_of_not_le hend), Option.map_some,
            Option.map_some, if_neg (by omega), if_pos ⟨le_refl i, by simpa using hmask⟩,
            Nat.sub_self, List.getElem?_cons_zero, Option.getD_some]
        · rw [List.getElem?_set_ne (Ne.symm hi)]
          congr 1
          funext b
          exact hrest i hi b
      · cases (hun h).2
    · obtain ⟨hlen, hget, hun, hch, hto⟩ := ih (idx + 1) bits changed true
      refine ⟨hlen, fun i => ?_, hun, fun h => .inr (hto rfl), fun _ => hto rfl⟩
      rw [hget]
      rcases eq_or_ne i idx with rfl | hi
      · rw [not_not, List.getD_eq_getElem?_getD, List.getElem?_eq_getElem (by omega),
          Option.getD_some] at hne
        rw [List.getElem?_eq_getElem (l := bits) (Nat.lt_of_not_le hend), Option.map_some,
          Option.map_some, if_neg (by omega), if_pos ⟨le_refl i, by simpa using hmask⟩, Nat.sub_self,
          List.getElem?_cons_zero, Option.getD_some, hne]
      · congr 1
        funext b
        exact hrest i hi b

private theorem storeMasked_relays (s : Variable) (base : Nat) (bit : Vector4) :
    Relays s (s.storeMasked base bit) := by
  have hstored := storeBits_spec s.assignMask bit base s.bits4 false false
  rw [storeMasked]
  generalize storeBits s.assignMask base bit (s.bits4, false, false) = r at hstored
  obtain ⟨bits, changed, touched⟩ := r
  dsimp only at hstored ⊢
  split_ifs with hsend
  · exact relays_send hstored.length_eq rfl rfl rfl fun h => (hstored.unchanged h).1
  · -- not sent: no bit was touched, or none has changed
    have hchanged : changed = false := by
      rcases Bool.eq_false_or_eq_true changed with h | h
      · rcases hstored.touched_of_changed h with htouched | htouched
        · cases htouched
        · change touched = true at htouched
          rw [h, htouched] at hsend
          simp at hsend
      · exact h
    have hbits : bits = s.bits4 := (hstored.unchanged hchanged).1
    subst hbits
    exact ⟨rfl, rfl, rfl, .inr ⟨rfl, rfl⟩⟩

private theorem recvVec4_relays {s s' : Variable} {bit : Vector4}
    (h : s.recvVec4 bit = some s') : Relays s s' := by
  rw [recvVec4] at h
  dsimp only at h
  split_ifs at h with hmask hsend hlen hwid
  · cases h
    refine relays_send (not_not.mp hlen) rfl rfl rfl fun hsame => ?_
    exact (not_not.mp (of_decide_eq_false hsame)).symm
  · cases h
    exact ⟨rfl, rfl, rfl, .inr ⟨rfl, rfl⟩⟩
  · cases h
    exact storeMasked_relays s 0 bit

private theorem recvVec4Pv_relays {s s' : Variable} {bit : Vector4} {base vwid : Nat}
    (h : s.recvVec4Pv bit base vwid = some s') : Relays s s' := by
  have hstored := storeBits_spec [] bit base s.bits4 false false
  rw [recvVec4Pv] at h
  generalize storeBits [] base bit (s.bits4, false, false) = r at h hstored
  obtain ⟨bits, changed, touched⟩ := r
  dsimp only at h hstored
  split_ifs at h with hvwid hmask hin hsend hsend' hwid
  · cases h
    refine relays_send (Vector4.length_setVec _ _ _) rfl rfl rfl fun hsame => ?_
    simpa using hsame
  · cases h
    have hbits : s.bits4.setVec base bit = s.bits4 := by
      by_contra hne
      simp [hne] at hsend
    rw [hbits]
    exact ⟨rfl, rfl, rfl, .inr ⟨rfl, rfl⟩⟩
  · cases h
    exact relays_send hstored.length_eq rfl rfl rfl fun hsame => (hstored.unchanged hsame).1
  · cases h
    have hchanged : changed = false := by
      rcases Bool.eq_false_or_eq_true changed with h | h
      · rw [h] at hsend'
        simp at hsend'
      · exact h
    have hbits : bits = s.bits4 := (hstored.unchanged hchanged).1
    rw [hbits]
    exact ⟨rfl, rfl, rfl, .inr ⟨rfl, rfl⟩⟩
  · cases h
    exact storeMasked_relays s base bit

private theorem length_coerceToWidth {v next : Vector4} {width : Nat}
    (h : coerceToWidth v width = some next) : next.length = width := by
  rw [coerceToWidth] at h
  split_ifs at h with heq hlt
  · cases h
    exact heq
  · cases h
    rw [List.length_take]
    omega

private theorem cassign_relays {s s' : Variable} {bit : Vector4}
    (h : s.cassign bit = some s') : Relays s s' := by
  obtain ⟨next, hnext, rfl⟩ := Option.map_eq_some_iff.mp h
  refine relays_send (length_coerceToWidth hnext) rfl rfl rfl fun hsame => ?_
  exact (not_not.mp (of_decide_eq_false hsame)).symm

private theorem cassignPv_relays {s s' : Variable} {bit : Vector4} {base vwid : Nat}
    (h : s.cassignPv bit base vwid = some s') : Relays s s' := by
  have hstored := storeBits_spec [] bit base s.bits4 false false
  rw [cassignPv] at h
  generalize storeBits [] base bit (s.bits4, false, false) = r at h hstored
  obtain ⟨bits, changed, touched⟩ := r
  dsimp only at h hstored
  split_ifs at h with hvwid
  all_goals
    cases h
    exact relays_send hstored.length_eq rfl rfl rfl fun hsame => (hstored.unchanged hsame).1

/-! ## Stores that are sent for certain -/

private theorem vec4Value_send (t : Variable) (changed : Bool) :
    (t.sendFromSignal changed).vec4Value = t.vec4Value := by
  obtain ⟨hbits, -, hmask, hforce, -⟩ := sendFromSignal_spec t changed
  apply vec4Value_congr (congrArg List.length hbits)
  intro idx _
  rw [filteredValue, filteredValue, testForceMask, testForceMask, hbits, hmask, hforce]

private theorem send_changed {t : Variable} {i : Nat} (hi : i < t.bits4.length)
    (hfree : t.testForceMask i = false) :
    (t.sendFromSignal true).downstream = some (t.sendFromSignal true).vec4Value := by
  obtain ⟨-, -, -, -, hsent⟩ := sendFromSignal_spec t true
  rw [vec4Value_send]
  rcases hsent with hsent | ⟨-, hstop | hall⟩
  · exact hsent
  · cases hstop
  · rw [hall i hi] at hfree
    cases hfree

/-- A masked store that differs in an unforced bit is sent. -/
private theorem storeMasked_sends {s : Variable} {base : Nat} {bit : Vector4} {i : Nat}
    (hi : i < s.bits4.length) (hfree : s.testForceMask i = false)
    (hassign : s.assignMask.getD i false = false) (hbase : base ≤ i) {b : Bit4}
    (hbit : bit[i - base]? = some b) (hne : s.bits4[i]? ≠ some b) :
    (s.storeMasked base bit).downstream = some (s.storeMasked base bit).vec4Value := by
  have hstored := storeBits_spec s.assignMask bit base s.bits4 false false
  rw [storeMasked]
  generalize storeBits s.assignMask base bit (s.bits4, false, false) = r at hstored
  obtain ⟨bits, changed, touched⟩ := r
  have hget := hstored.getElem? i
  have hlen := hstored.length_eq
  rw [List.getElem?_eq_getElem hi, Option.map_some, if_pos ⟨hbase, hassign⟩, hbit,
    Option.getD_some] at hget
  dsimp only at hget hlen
  have hchanged : changed = true := by
    by_contra hfalse
    have hsame := (hstored.unchanged (Bool.eq_false_of_not_eq_true hfalse)).1
    dsimp only at hsame
    rw [← hget, hsame] at hne
    exact hne rfl
  have htouched : touched = true := by
    rcases hstored.touched_of_changed hchanged with h | h
    · cases h
    · exact h
  subst hchanged htouched
  simp only [Bool.or_true, Bool.and_true, if_true]
  exact send_changed (i := i) (by rw [hlen]; exact hi) hfree

private theorem recvVec4_sends {s s' : Variable} {bit : Vector4} (h : s.recvVec4 bit = some s')
    {i : Nat} (hi : i < s.bits4.length) (hfree : s.testForceMask i = false)
    (hassign : s.assignMask.getD i false = false) {b : Bit4} (hbit : bit[i]? = some b)
    (hne : s.bits4[i]? ≠ some b) : s'.downstream = some s'.vec4Value := by
  have hchanged : decide (s.bits4 ≠ bit) = true := by
    rw [decide_eq_true_eq]
    rintro rfl
    exact hne hbit
  rw [recvVec4] at h
  dsimp only at h
  simp only [hchanged, Bool.or_true, if_true] at h
  split_ifs at h with hmask hlen hwid
  · cases h
    exact send_changed (i := i) (by rw [not_not.mp hlen]; exact hi) hfree
  · cases h
    exact storeMasked_sends hi hfree hassign (Nat.zero_le i) hbit hne

private theorem recvVec4Pv_sends {s s' : Variable} {bit : Vector4} {base vwid : Nat}
    (h : s.recvVec4Pv bit base vwid = some s') (hin : base + bit.length ≤ s.bits4.length)
    {i : Nat} (hi : i < s.bits4.length) (hfree : s.testForceMask i = false)
    (hassign : s.assignMask.getD i false = false) (hbase : base ≤ i) {b : Bit4}
    (hbit : bit[i - base]? = some b) (hne : s.bits4[i]? ≠ some b) :
    s'.downstream = some s'.vec4Value := by
  have hchanged : decide (s.bits4.setVec base bit ≠ s.bits4) = true := by
    rw [decide_eq_true_eq]
    intro hsame
    have hget := Vector4.getElem?_setVec s.bits4 base bit i
    rw [hsame, List.getElem?_eq_getElem hi, Option.map_some, if_pos hbase, hbit,
      Option.getD_some, ← List.getElem?_eq_getElem hi] at hget
    exact hne hget
  rw [recvVec4Pv, if_pos hin] at h
  dsimp only at h
  simp only [hchanged, Bool.or_true, if_true] at h
  split_ifs at h with hvwid hmask hwid
  · cases h
    exact send_changed (i := i) (by rw [Vector4.length_setVec]; exact hi) hfree
  · cases h
    exact storeMasked_sends hi hfree hassign hbase hbit hne

/-! ## Forces and releases -/

theorem getD_setRange (mask : List Bool) (base wid : Nat) (bit : Bool) {i : Nat}
    (hi : i < mask.length) :
    (setRange mask base wid bit).getD i false =
      if base ≤ i ∧ i < base + wid then bit else mask.getD i false := by
  rw [setRange, List.getD_eq_getElem?_getD, List.getElem?_mapIdx, List.getElem?_eq_getElem hi,
    Option.map_some, Option.getD_some, List.getD_eq_getElem?_getD, List.getElem?_eq_getElem hi,
    Option.getD_some]

/-- What holds of a variable in every state: the masks have its width, and a value held
downstream is the visible one. -/
structure Agrees (s : Variable) : Prop where
  /-- The force mask is empty or has the width. -/
  forceMask_length : s.forceMask = [] ∨ s.forceMask.length = s.bits4.length
  /-- The forced value is empty or has the width. -/
  force4_length : s.force4 = [] ∨ s.force4.length = s.bits4.length
  /-- What is held downstream is the visible value. -/
  downstream_eq : ∀ d, s.downstream = some d → d = s.vec4Value

theorem init_agrees (width : Nat) (bit : Bit4) : Agrees (init width bit) :=
  ⟨.inl rfl, .inl rfl, fun _ h => nomatch h⟩

/-- The filter fits the variable: what is kept of a force has its width. -/
structure Fits (s : Variable) : Prop where
  /-- The force mask is empty or has the width. -/
  forceMask_length : s.forceMask = [] ∨ s.forceMask.length = s.bits4.length
  /-- The forced value is empty or has the width. -/
  force4_length : s.force4 = [] ∨ s.force4.length = s.bits4.length

theorem Agrees.fits {s : Variable} (hs : Agrees s) : Fits s :=
  ⟨hs.forceMask_length, hs.force4_length⟩

theorem init_fits (width : Nat) (bit : Bit4) : Fits (init width bit) :=
  (init_agrees width bit).fits

private theorem Relays.fits {s s' : Variable} (h : Relays s s') (hs : Fits s) : Fits s' where
  forceMask_length := by
    rw [h.forceMask_eq, h.length_eq]
    exact hs.forceMask_length
  force4_length := by
    rw [h.force4_eq, h.length_eq]
    exact hs.force4_length

private theorem Relays.agrees {s s' : Variable} (h : Relays s s') (hs : Agrees s) : Agrees s' where
  forceMask_length := (h.fits hs.fits).forceMask_length
  force4_length := (h.fits hs.fits).force4_length
  downstream_eq := by
    intro d hd
    rcases h.sent with hsent | ⟨hdown, hvalue⟩
    · rw [hsent, Option.some.injEq] at hd
      exact hd.symm
    · rw [hvalue]
      exact hs.downstream_eq d (hdown ▸ hd)

section Force

variable {s : Variable} (hs : Fits s) {val : Vector4} {mask : List Bool}
  (hval : val.length = s.bits4.length) (hmask : mask.length = s.bits4.length)
include hs

include hmask in
/-- A force adds its mask to the bits that are forced. -/
theorem testForceMask_forceVec4 {i : Nat} (hi : i < s.bits4.length) :
    (s.forceVec4 val mask).testForceMask i = (s.testForceMask i || mask.getD i false) := by
  have hold : (if s.forceMask = [] then List.replicate mask.length false else s.forceMask)[i]? =
      some (s.testForceMask i) := by
    rw [testForceMask, List.getD_eq_getElem?_getD]
    split_ifs with hnil
    · rw [hnil, List.getElem?_replicate_of_lt (by omega)]
      rfl
    · have hlen := hs.forceMask_length.resolve_left hnil
      rw [List.getElem?_eq_getElem (by omega), Option.getD_some]
  have hm : mask[i]? = some (mask.getD i false) := by
    rw [List.getD_eq_getElem?_getD, List.getElem?_eq_getElem (by omega), Option.getD_some]
  rw [testForceMask, List.getD_eq_getElem?_getD]
  change (List.zipWith (· || ·) (if s.forceMask = [] then _ else s.forceMask) mask)[i]?.getD
    false = _
  rw [List.getElem?_zipWith, hold, hm]
  rfl

private theorem getD_force4_forceVec4 {i : Nat} (hi : i < s.bits4.length) :
    (s.forceVec4 val mask).force4.getD i .x =
      if s.force4 = [] ∨ mask.getD i false = true then val.getD i .x else s.force4.getD i .x := by
  change (if s.force4 = [] then val else s.force4.mapIdx fun i b =>
    if mask.getD i false then val.getD i .x else b : Vector4).getD i .x = _
  by_cases hnil : s.force4 = []
  · rw [if_pos hnil, if_pos (.inl hnil)]
  · have hlen := hs.force4_length.resolve_left hnil
    have hi4 : i < s.force4.length := hlen.symm ▸ hi
    rw [if_neg hnil, List.getD_eq_getElem?_getD, List.getElem?_mapIdx,
      List.getElem?_eq_getElem hi4, Option.map_some, Option.getD_some,
      List.getD_eq_getElem s.force4 .x hi4]
    simp only [hnil, false_or]

include hval hmask

/-- A force makes its value visible, if that keeps the value of the other bits. -/
theorem vec4Value_forceVec4 (hkeep : ∀ i < s.bits4.length, mask.getD i false = false →
    val.getD i .x = s.filteredValue i) : (s.forceVec4 val mask).vec4Value = val := by
  apply List.ext_getElem?
  intro i
  by_cases hi : i < s.bits4.length
  · have hv : val[i]? = some (val.getD i .x) := by
      rw [List.getD_eq_getElem?_getD, List.getElem?_eq_getElem (by omega), Option.getD_some]
    rw [getElem?_vec4Value (s.forceVec4 val mask) hi, filteredValue,
      testForceMask_forceVec4 hs hmask hi, getD_force4_forceVec4 hs hi, hv, Option.some.injEq]
    cases hm : mask.getD i false with
    | true => simp
    | false =>
      have hk := hkeep i hi hm
      rw [filteredValue] at hk
      cases ht : s.testForceMask i with
      | true =>
        rw [ht] at hk
        by_cases hnil : s.force4 = []
        · simp [hnil]
        · simpa [hnil] using hk.symm
      | false =>
        rw [ht] at hk
        exact hk.symm
  · have hlen : (s.forceVec4 val mask).vec4Value.length = s.bits4.length := length_vec4Value _
    rw [List.getElem?_eq_none (by omega), List.getElem?_eq_none (by omega)]

theorem forceVec4_fits : Fits (s.forceVec4 val mask) := by
  refine ⟨.inr ?_, .inr ?_⟩
  · change (List.zipWith (· || ·) (if s.forceMask = [] then _ else s.forceMask) mask).length = _
    rw [List.length_zipWith]
    change _ = s.bits4.length
    split_ifs with hnil
    · rw [List.length_replicate]
      omega
    · have hlen := hs.forceMask_length.resolve_left hnil
      omega
  · change (if s.force4 = [] then val else _ : Vector4).length = s.bits4.length
    split_ifs with hnil
    · exact hval
    · rw [List.length_mapIdx]
      exact hs.force4_length.resolve_left hnil

end Force

/-- A force sends the visible value, if what it sends for the other bits is their value. -/
private theorem forceVec4_agrees {s : Variable} (hs : Agrees s) {val : Vector4} {mask : List Bool}
    (hval : val.length = s.bits4.length) (hmask : mask.length = s.bits4.length)
    (hkeep : ∀ i < s.bits4.length, mask.getD i false = false →
      val.getD i .x = s.filteredValue i) : Agrees (s.forceVec4 val mask) := by
  have hfits := forceVec4_fits hs.fits hval hmask
  refine ⟨hfits.forceMask_length, hfits.force4_length, fun d hd => ?_⟩
  obtain rfl : val = d := Option.some.inj hd
  exact (vec4Value_forceVec4 hs.fits hval hmask hkeep).symm

theorem filteredValue_eq (s : Variable) (idx : Nat) :
    s.filteredValue idx =
      if s.testForceMask idx then s.force4.getD idx .x else s.bits4.getD idx .x := rfl

private theorem getD_releaseMask {s : Variable} {mask : List Bool}
    (hmask : s.forceMask = [] ∨ s.forceMask.length = mask.length) {i : Nat}
    (hi : i < mask.length) :
    (s.releaseMask mask).testForceMask i = (s.testForceMask i && !mask.getD i false) := by
  rw [testForceMask, testForceMask, releaseMask]
  by_cases hnil : s.forceMask = []
  · rw [if_pos hnil, hnil]
    rfl
  · have hlen := hmask.resolve_left hnil
    have hleft : (List.zipWith (fun f m => f && !m) s.forceMask mask).getD i false =
        (s.forceMask.getD i false && !mask.getD i false) := by
      simp only [List.getD_eq_getElem?_getD]
      rw [List.getElem?_zipWith, List.getElem?_eq_getElem (l := s.forceMask) (by omega),
        List.getElem?_eq_getElem hi]
      rfl
    rw [if_neg hnil, ← hleft]
    dsimp only
    split_ifs with hany
    · rfl
    · cases hget : (List.zipWith (fun f m => f && !m) s.forceMask mask).getD i false with
      | false => rfl
      | true =>
        -- a bit still forced would have kept the mask
        refine absurd (List.any_eq_true.mpr ⟨true, ?_, rfl⟩) hany
        rw [List.getD_eq_getElem?_getD] at hget
        cases hsome : (List.zipWith (fun f m => f && !m) s.forceMask mask)[i]? with
        | none =>
          rw [hsome] at hget
          cases hget
        | some m =>
          rw [hsome] at hget
          obtain rfl : m = true := hget
          exact List.mem_of_getElem? hsome

/-- A bit of a part whose forced value hides another one. -/
def Shadows (s : Variable) (base wid i : Nat) : Prop :=
  base ≤ i ∧ i < base + wid ∧ s.testForceMask i = true ∧
    s.force4.getD i .x ≠ s.bits4.getD i .x

instance (s : Variable) (base wid i : Nat) : Decidable (s.Shadows base wid i) :=
  inferInstanceAs (Decidable (_ ∧ _ ∧ _ ∧ _))

/-- The release of a part uncovers a continuously assigned bit, and no other. -/
def Hides (s : Variable) (base wid : Nat) : Prop :=
  (∃ i ∈ List.range s.bits4.length, s.Shadows base wid i) ∧
    ∀ i ∈ List.range s.bits4.length, s.Shadows base wid i → s.assignMask.getD i false = true

instance (s : Variable) (base wid : Nat) : Decidable (s.Hides base wid) :=
  inferInstanceAs (Decidable (_ ∧ _))

/-- A release that does not hide leaves the visible value as it was, or uncovers a bit that is
not assigned. -/
private theorem not_hides {s t : Variable} {base wid : Nat} (h : ¬ s.Hides base wid)
    (hbits : t.bits4 = s.bits4) (hforce : t.force4 = s.force4)
    (htest : ∀ i < s.bits4.length, t.testForceMask i =
      (s.testForceMask i && !decide (base ≤ i ∧ i < base + wid))) :
    t.vec4Value = s.vec4Value ∨ ∃ i < s.bits4.length, s.Shadows base wid i ∧
      s.assignMask.getD i false = false := by
  by_cases hnone : ∃ i ∈ List.range s.bits4.length, s.Shadows base wid i
  · right
    have hsome : ¬ ∀ i ∈ List.range s.bits4.length,
        s.Shadows base wid i → s.assignMask.getD i false = true :=
      fun hall => h ⟨hnone, hall⟩
    push Not at hsome
    obtain ⟨i, hi, hshadow, hassign⟩ := hsome
    exact ⟨i, List.mem_range.mp hi, hshadow, Bool.eq_false_of_not_eq_true hassign⟩
  · left
    apply vec4Value_congr (congrArg List.length hbits)
    intro i hi
    rw [filteredValue_eq, filteredValue_eq, hbits, hforce, htest i hi]
    by_cases hin : base ≤ i ∧ i < base + wid
    · cases hforced : s.testForceMask i with
      | false => rfl
      | true =>
        rw [decide_eq_true hin]
        by_contra hne
        refine hnone ⟨i, List.mem_range.mpr hi, hin.1, hin.2, hforced, fun heq => hne ?_⟩
        rw [heq, ite_self, ite_self]
    · rw [decide_eq_false hin, Bool.not_false, Bool.and_true]

/-- What the store after a release leaves. -/
private theorem relays_of_release {s t s' : Variable} (hs : Agrees s) (ht : Relays t s')
    (hbits : t.bits4 = s.bits4) (hforce : t.force4 = s.force4) (hdown : t.downstream = s.downstream)
    (hmask : t.forceMask = [] ∨ t.forceMask.length = t.bits4.length)
    (hsent : t.vec4Value = s.vec4Value ∨ s'.downstream = some s'.vec4Value) : Agrees s' := by
  refine ⟨?_, ?_, fun d hd => ?_⟩
  · rw [ht.forceMask_eq, ht.length_eq]
    exact hmask
  · rw [ht.force4_eq, ht.length_eq, hforce, hbits]
    exact hs.force4_length
  · rcases hsent with hvalue | hsent
    · rcases ht.sent with hsent | ⟨hd', hv⟩
      · rw [hsent, Option.some.injEq] at hd
        exact hd.symm
      · rw [hv, hvalue]
        apply hs.downstream_eq
        rw [← hd, hd', hdown]
    · rw [hsent, Option.some.injEq] at hd
      exact hd.symm

private theorem length_releaseMask {s : Variable} {mask : List Bool}
    (hs : s.forceMask = [] ∨ s.forceMask.length = s.bits4.length)
    (hmask : mask.length = s.bits4.length) :
    (s.releaseMask mask).forceMask = [] ∨
      (s.releaseMask mask).forceMask.length = s.bits4.length := by
  rw [releaseMask]
  by_cases hnil : s.forceMask = []
  · rw [if_pos hnil]
    exact .inl hnil
  · rw [if_neg hnil]
    dsimp only
    split_ifs with hany
    · right
      rw [List.length_zipWith, hs.resolve_left hnil, hmask, min_self]
    · exact .inl rfl

@[simp] private theorem releaseMask_bits4 (s : Variable) (mask : List Bool) :
    (s.releaseMask mask).bits4 = s.bits4 := by
  rw [releaseMask]
  split_ifs <;> rfl

@[simp] private theorem releaseMask_force4 (s : Variable) (mask : List Bool) :
    (s.releaseMask mask).force4 = s.force4 := by
  rw [releaseMask]
  split_ifs <;> rfl

@[simp] private theorem releaseMask_assignMask (s : Variable) (mask : List Bool) :
    (s.releaseMask mask).assignMask = s.assignMask := by
  rw [releaseMask]
  split_ifs <;> rfl

@[simp] private theorem releaseMask_downstream (s : Variable) (mask : List Bool) :
    (s.releaseMask mask).downstream = s.downstream := by
  rw [releaseMask]
  split_ifs <;> rfl

private theorem agrees_of_release {s s' : Variable} {mask : List Bool} {base wid : Nat}
    (hs : Agrees s) (hhides : ¬ s.Hides base wid) (hmask : mask.length = s.bits4.length)
    (ht : Relays (s.releaseMask mask) s')
    (htest : ∀ i < s.bits4.length, (s.releaseMask mask).testForceMask i =
      (s.testForceMask i && !decide (base ≤ i ∧ i < base + wid)))
    (hsends : ∀ i < s.bits4.length, base ≤ i → i < base + wid →
      (s.releaseMask mask).testForceMask i = false → s.assignMask.getD i false = false →
      s.bits4[i]? ≠ some (s.filteredValue i) → s'.downstream = some s'.vec4Value) :
    Agrees s' := by
  refine relays_of_release hs ht (releaseMask_bits4 s _) (releaseMask_force4 s _)
    (releaseMask_downstream s _) ?_ ?_
  · rw [releaseMask_bits4]
    exact length_releaseMask hs.forceMask_length hmask
  · rcases not_hides hhides (releaseMask_bits4 s _) (releaseMask_force4 s _) htest with hsame | hne
    · exact .inl hsame
    · obtain ⟨i, hi, ⟨hlo, hhi, hforced, hdiff⟩, hassign⟩ := hne
      refine .inr (hsends i hi hlo hhi ?_ hassign ?_)
      · rw [htest i hi, decide_eq_true ⟨hlo, hhi⟩, Bool.not_true, Bool.and_false]
      · rw [List.getD_eq_getElem s.bits4 .x hi] at hdiff
        rw [List.getElem?_eq_getElem hi, filteredValue_eq, if_pos hforced, ne_eq, Option.some.injEq]
        exact Ne.symm hdiff

private theorem release_agrees {s s' : Variable} (hs : Agrees s)
    (hhides : ¬ s.Hides 0 s.bits4.length) (h : s.release = some s') : Agrees s' := by
  rw [release] at h
  have htest : ∀ i < s.bits4.length,
      (s.releaseMask (List.replicate s.bits4.length true)).testForceMask i =
        (s.testForceMask i && !decide (0 ≤ i ∧ i < 0 + s.bits4.length)) := by
    intro i hi
    rw [getD_releaseMask (by simpa using hs.forceMask_length) (by simpa using hi),
      List.getD_eq_getElem?_getD, List.getElem?_replicate_of_lt hi, Option.getD_some,
      decide_eq_true ⟨Nat.zero_le i, by omega⟩]
  refine agrees_of_release hs hhides List.length_replicate (recvVec4_relays h) htest ?_
  intro i hi hlo hhi hfree hassign hne
  refine recvVec4_sends (b := s.filteredValue i) h (i := i) (by simpa using hi) hfree
    (by simpa using hassign) ?_ (by simpa using hne)
  rw [List.getElem?_map, List.getElem?_range hi, Option.map_some]

private theorem releasePv_agrees {s s' : Variable} {base wid : Nat} (hs : Agrees s)
    (hhides : ¬ s.Hides base wid) (h : s.releasePv base wid = some s') : Agrees s' := by
  rw [releasePv] at h
  split_ifs at h with hin
  have hlen : (setRange (List.replicate s.bits4.length false) base wid true).length =
      s.bits4.length := by
    rw [setRange, List.length_mapIdx, List.length_replicate]
  have htest : ∀ i < s.bits4.length,
      (s.releaseMask (setRange (List.replicate s.bits4.length false) base wid true)).testForceMask
        i = (s.testForceMask i && !decide (base ≤ i ∧ i < base + wid)) := by
    intro i hi
    rw [getD_releaseMask (by rw [hlen]; exact hs.forceMask_length) (by omega),
      getD_setRange _ _ _ _ (by simpa using hi), List.getD_eq_getElem?_getD,
      List.getElem?_replicate_of_lt hi, Option.getD_some]
    congr 2
  refine agrees_of_release hs hhides hlen (recvVec4Pv_relays h) htest ?_
  intro i hi hlo hhi hfree hassign hne
  have hidx : i - base < wid := by omega
  refine recvVec4Pv_sends (b := s.filteredValue i) h ?_ (i := i) (by simpa using hi) hfree
    (by simpa using hassign) hlo ?_ (by simpa using hne)
  · rw [List.length_map, List.length_range, releaseMask_bits4]
    omega
  · rw [List.getElem?_map, List.getElem?_range hidx, Option.map_some, Nat.add_sub_cancel' hlo]

private theorem ofForceVec4_agrees {s s' : Variable} {value : Vector4} (hs : Agrees s)
    (h : s.ofForceVec4 value = some s') : Agrees s' := by
  obtain ⟨next, hnext, rfl⟩ := Option.map_eq_some_iff.mp h
  refine forceVec4_agrees hs (length_coerceToWidth hnext) List.length_replicate ?_
  intro i hi hfree
  rw [List.getD_eq_getElem?_getD, List.getElem?_replicate_of_lt hi] at hfree
  cases hfree

private theorem ofForceVec4Off_agrees {s s' : Variable} {value : Vector4} {base : Nat}
    (hs : Agrees s) (h : s.ofForceVec4Off value base = some s') : Agrees s' := by
  rw [ofForceVec4Off] at h
  split_ifs at h with hin
  cases h
  refine forceVec4_agrees hs ?_ ?_ fun i hi hfree => ?_
  · rw [Vector4.length_setVec, length_vec4Value]
  · rw [setRange, List.length_mapIdx, List.length_replicate]
  · rw [getD_setRange _ _ _ _ (by simpa using hi)] at hfree
    split_ifs at hfree with hrange
    rw [List.getD_eq_getElem?_getD, Vector4.getElem?_setVec, getElem?_vec4Value s hi,
      Option.map_some, Option.getD_some]
    split_ifs with hle
    · rw [List.getElem?_eq_none (by omega), Option.getD_none]
    · rfl

/-! ## Runs -/

/-- A release does not only uncover continuously assigned bits. -/
def Uncovers (s : Variable) : VariableStep → Prop
  | .release => ¬ s.Hides 0 s.bits4.length
  | .releasePv base wid => ¬ s.Hides base wid
  | _ => True

instance (s : Variable) : ∀ l, Decidable (s.Uncovers l)
  | .release => inferInstanceAs (Decidable (¬ _))
  | .releasePv _ _ => inferInstanceAs (Decidable (¬ _))
  | .recvVec4 _ | .recvVec4Pv _ _ _ | .cassign _ | .cassignPv _ _ _ | .deassign
  | .deassignPv _ _ | .forceVec4 _ | .forceVec4Off _ _ => inferInstanceAs (Decidable True)

private theorem releaseMask_fits {s : Variable} (hs : Fits s) {mask : List Bool}
    (hmask : mask.length = s.bits4.length) : Fits (s.releaseMask mask) where
  forceMask_length := by
    rw [releaseMask_bits4]
    exact length_releaseMask hs.forceMask_length hmask
  force4_length := by
    rw [releaseMask_bits4, releaseMask_force4]
    exact hs.force4_length

/-- Every step leaves a filter that fits. -/
theorem step_fits {s s' : Variable} {l : VariableStep} (hs : Fits s)
    (h : s.step l = some s') : Fits s' := by
  cases l with
  | recvVec4 bit => exact (recvVec4_relays h).fits hs
  | recvVec4Pv bit base vwid => exact (recvVec4Pv_relays h).fits hs
  | cassign bit => exact (cassign_relays h).fits hs
  | cassignPv bit base vwid => exact (cassignPv_relays h).fits hs
  | deassign =>
    cases h
    exact ⟨hs.forceMask_length, hs.force4_length⟩
  | deassignPv base wid =>
    rw [step, deassignPv] at h
    dsimp only at h
    split_ifs at h
    all_goals
      cases h
      exact ⟨hs.forceMask_length, hs.force4_length⟩
  | forceVec4 value =>
    obtain ⟨next, hnext, rfl⟩ := Option.map_eq_some_iff.mp h
    exact forceVec4_fits hs (length_coerceToWidth hnext) List.length_replicate
  | forceVec4Off value base =>
    rw [step, ofForceVec4Off] at h
    split_ifs at h with hin
    cases h
    apply forceVec4_fits hs
    · rw [Vector4.length_setVec, length_vec4Value]
    · rw [setRange, List.length_mapIdx, List.length_replicate]
  | release => exact (recvVec4_relays h).fits (releaseMask_fits hs List.length_replicate)
  | releasePv base wid =>
    rw [step, releasePv] at h
    split_ifs at h with hin
    refine (recvVec4Pv_relays h).fits (releaseMask_fits hs ?_)
    rw [setRange, List.length_mapIdx, List.length_replicate]

/-- Every step keeps the readers up to date, a release if it does not hide. -/
theorem step_agrees {s s' : Variable} {l : VariableStep} (hs : Agrees s) (hl : s.Uncovers l)
    (h : s.step l = some s') : Agrees s' := by
  cases l with
  | recvVec4 bit => exact (recvVec4_relays h).agrees hs
  | recvVec4Pv bit base vwid => exact (recvVec4Pv_relays h).agrees hs
  | cassign bit => exact (cassign_relays h).agrees hs
  | cassignPv bit base vwid => exact (cassignPv_relays h).agrees hs
  | deassign =>
    cases h
    exact ⟨hs.forceMask_length, hs.force4_length, hs.downstream_eq⟩
  | deassignPv base wid =>
    rw [step, deassignPv] at h
    dsimp only at h
    split_ifs at h
    all_goals
      cases h
      exact ⟨hs.forceMask_length, hs.force4_length, hs.downstream_eq⟩
  | forceVec4 value => exact ofForceVec4_agrees hs h
  | forceVec4Off value base => exact ofForceVec4Off_agrees hs h
  | release => exact release_agrees hs hl h
  | releasePv base wid => exact releasePv_agrees hs hl h

/-- In a run without a release that only uncovers assigned bits, what a node downstream holds
is always the visible value. -/
theorem downstream_visible (width : Nat) (bit : Bit4) (steps : List VariableStep) (s : Variable)
    (hmeets : Runs.Meets step Uncovers (init width bit) steps)
    (hrun : Runs.run step (init width bit) steps = some s) :
    ∀ d, s.downstream = some d → d = s.vec4Value :=
  (Runs.invariant_of_meets (fun _ _ _ hs hl hstep => step_agrees hs hl hstep)
    (init_agrees width bit) hmeets hrun).downstream_eq

/-- One bit assigned and one not, both forced and released together. -/
theorem downstream_visible_example : ∃ s, Runs.run step (init 2 .x)
    [.recvVec4 [.zero, .zero], .cassignPv [.one] 0 2, .forceVec4 [.zero, .one], .release] =
      some s ∧ ∀ d, s.downstream = some d → d = s.vec4Value :=
  ⟨_, rfl, downstream_visible 2 .x [.recvVec4 [.zero, .zero], .cassignPv [.one] 0 2,
    .forceVec4 [.zero, .one], .release] _ (by decide) rfl⟩

/-- An assigned bit that was forced to another value is released. Nothing is stored, so
nothing is sent. -/
theorem downstream_stale : ¬ ∀ (width : Nat) (bit : Bit4) (steps : List VariableStep)
    (s : Variable), Runs.run step (init width bit) steps = some s →
    ∀ d, s.downstream = some d → d = s.vec4Value := by
  intro h
  have hstale := h 1 .x [.recvVec4 [.zero], .cassign [.zero], .forceVec4 [.one], .release] _ rfl
    [.one] rfl
  exact absurd hstale (by decide)

end Variable

end Icarus.Vvp
