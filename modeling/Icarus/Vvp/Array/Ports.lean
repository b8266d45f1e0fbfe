import Icarus.Core.Runs
import Icarus.Vvp.Bits

/-!
# Array ports

The read ports of an array of variables. A port keeps the address that it received last and sends
the word again when that word is written through the array of the port. An alias of an array has
its words, but a list of ports of its own.
-/

namespace Icarus.Vvp.ArrayPorts

open Icarus.Vvp.Vector4 (hasXz toNat setVec)

/-- The words that an array and its aliases share. -/
structure Memory where
  /-- `vals_width`. -/
  valsWidth : Nat
  /-- The words are in `vals`, which has no X and Z, and not in `vals4`. -/
  twoState : Bool
  words : List Vector4
  /-- `array_count` is an `unsigned`. -/
  size_lt : words.length < 2 ^ 32

/-- A port, with what it sent last. -/
structure Port where
  /-- The array that has the port in its list: 0, or the number of an alias. -/
  array : Nat
  addr : Nat
  sent : Vector4

/-- An array, its aliases and their ports. -/
structure Ported where
  mem : Memory
  ports : List Port

/-! ## Addresses and words -/

/-- The loop of `vector4_to_value` for an `unsigned long`, over the words of the vector. -/
def valueLoop (base res : Nat) (vec : Vector4) : Option Nat :=
  if _hempty : vec = [] then some res
  else if hasXz (vec.take 64) then none
  else valueLoop (base + 64) (if 64 ≤ base then res else res ||| toNat (vec.take 64) <<< base)
    (vec.drop 64)
termination_by vec.length
decreasing_by
  have hpos := List.length_pos_iff.mpr _hempty
  rw [List.length_drop]
  omega

/-- `vector4_to_value`. -/
def vector4ToValue (vec : Vector4) : Option Nat := valueLoop 0 0 vec

/-- A word that is all X. -/
def Memory.allX (mem : Memory) : Vector4 := List.replicate mem.valsWidth .x

/-- `get_word`: the address becomes an `unsigned`. -/
def Memory.getWord (mem : Memory) (address : Nat) : Vector4 :=
  (mem.words[address % 2 ^ 32]?).getD mem.allX

/-- What is stored of a value. -/
def Memory.stored (mem : Memory) (val : Vector4) : Vector4 :=
  if mem.twoState then val.map fun b => if b = .one then .one else .zero else val

/-- The value of a word when a part of it is written. A part must not leave the word. -/
def Memory.newWord (mem : Memory) (tmp : Vector4) (partOff : Nat) (val : Vector4) :
    Option Vector4 :=
  if partOff ≠ 0 ∨ val.length ≠ mem.valsWidth then
    if tmp.length < partOff + val.length then none else some (mem.stored (setVec tmp partOff val))
  else some (mem.stored val)

/-- A word gets another value. -/
def Memory.store (mem : Memory) (address : Nat) (word : Vector4) : Memory where
  valsWidth := mem.valsWidth
  twoState := mem.twoState
  words := mem.words.set address word
  size_lt := by
    rw [List.length_set]
    exact mem.size_lt

/-! ## Ports -/

/-- `recv_vec4` of a port. -/
def Port.recvVec4 (mem : Memory) (bit : Vector4) (p : Port) : Port :=
  let addr := (vector4ToValue bit).getD mem.words.length
  { p with addr := addr, sent := mem.getWord addr }

/-- `check_word_change` of a port. -/
def Port.checkWordChange (mem : Memory) (addr : Nat) (p : Port) : Port :=
  if addr ≠ p.addr then p else { p with sent := mem.getWord p.addr }

/-- `word_change`: all ports in the list of an array. -/
def wordChange (mem : Memory) (array addr : Nat) (ports : List Port) : List Port :=
  ports.map fun p => if p.array = array then p.checkWordChange mem addr else p

/-- `array_attach_port`, with the fixed address of the port if it has one. -/
def attachPort (mem : Memory) (array : Nat) (addr : Option Int) : Port where
  array := array
  addr := ((addr.getD 0) % 2 ^ 64).toNat
  sent := List.replicate mem.valsWidth (if mem.twoState then .zero else .x)

/-- The words before the first write. -/
def freshMemory (valsWidth : Nat) (twoState : Bool) (size : Nat) (hsize : size < 2 ^ 32) :
    Memory where
  valsWidth := valsWidth
  twoState := twoState
  words := List.replicate size (List.replicate valsWidth (if twoState then .zero else .x))
  size_lt := by
    rw [List.length_replicate]
    exact hsize

/-- What happens to an array. -/
inductive Call
  /-- An address comes to a port. -/
  | deliver (port : Nat) (bit : Vector4)
  /-- `set_word` through the array or an alias. -/
  | setWord (array address partOff : Nat) (val : Vector4)

/-- A call. A failed assertion gives no state. -/
def Ported.call (s : Ported) : Call → Option Ported
  | .deliver port bit => some { s with ports := s.ports.modify port (Port.recvVec4 s.mem bit) }
  | .setWord array address partOff val =>
    match s.mem.words[address]? with
    | none => some s
    | some tmp =>
      (s.mem.newWord tmp partOff val).map fun word =>
        ⟨s.mem.store address word, wordChange (s.mem.store address word) array address s.ports⟩

/-! ## What a port should send -/

/-- The address of a port, as it was given. -/
inductive Address
  | fixed (addr : Int)
  | vector (bit : Vector4)

/-- The integer that an address stands for, if it has no X or Z. -/
def Address.target : Address → Option Int
  | .fixed addr => some addr
  | .vector bit => if hasXz bit then none else some (toNat bit)

/-- The word at an integer address: all X outside the array. -/
def Memory.wordAt (mem : Memory) (i : Int) : Vector4 :=
  if 0 ≤ i then (mem.words[i.toNat]?).getD mem.allX else mem.allX

/-- The word that an address selects. -/
def Address.word (mem : Memory) (adr : Address) : Vector4 :=
  match adr.target with
  | none => mem.allX
  | some i => mem.wordAt i

/-- The addresses that the ports have after a call. -/
def Call.record (known : List (Option Address)) : Call → List (Option Address)
  | .deliver port bit => known.modify port fun _ => some (.vector bit)
  | .setWord _ _ _ _ => known

/-- An array with the addresses that its ports have. -/
abbrev Watched := Ported × List (Option Address)

/-- A call, recorded. -/
def watch (s : Watched) (c : Call) : Option Watched :=
  (s.1.call c).map fun s' => (s', c.record s.2)

/-- An array with its ports, each with the array that it is attached to and its fixed address. -/
def attachAll (mem : Memory) (ports : List (Nat × Option Int)) : Watched :=
  (⟨mem, ports.map fun p => attachPort mem p.1 p.2⟩, ports.map fun p => p.2.map .fixed)

/-- All ports with an address have sent the word that it selects. -/
def Current (s : Watched) : Prop :=
  ∀ (i : Nat) (p : Port) (adr : Address), s.1.ports[i]? = some p → s.2[i]? = some (some adr) →
    p.sent = adr.word s.1.mem

/-- The integer has no word, or no word that it gets from its low 32 bits alone. -/
def Plain (size : Nat) (i : Int) : Prop := (i % 2 ^ 32).toNat < size → 0 ≤ i ∧ i < 2 ^ 32

/-- The call gives no port an address whose low bits alone select a word, and does not write a
word that a port of another list has sent. -/
def Call.Keeps (s : Watched) : Call → Prop
  | .deliver _ bit => ∀ i, (Address.vector bit).target = some i → Plain s.1.mem.words.length i
  | .setWord array address _ _ => ∀ (i : Nat) (p : Port) (adr : Address),
      s.1.ports[i]? = some p → s.2[i]? = some (some adr) → p.array ≠ array →
        adr.target ≠ some (address : Int)

/-- The fixed addresses are plain, and those of an array without X are in its range. -/
def Attachable (mem : Memory) (ports : List (Nat × Option Int)) : Prop :=
  ∀ p ∈ ports, ∀ i, p.2 = some i → Plain mem.words.length i ∧
    (mem.twoState = true → 0 ≤ i ∧ i < mem.words.length)

/-! ## Current ports

After each call of a run every port with an address has sent the word that it selects, as long as
no word is written that a port of another list has sent. -/

open Icarus.Core

open Icarus.Vvp.Vector4 (hasXz toNat testBit_toNat toNat_take)

variable {mem : Memory} {s s' : Watched} {c : Call} {adr : Address}

/-! ## The value of an address vector -/

theorem hasXz_append (v w : Vector4) : hasXz (v ++ w) = (hasXz v || hasXz w) := List.any_append

/-- The words from the second on do not change the value. -/
theorem valueLoop_high {base res : Nat} (hbase : 64 ≤ base) (vec : Vector4) :
    valueLoop base res vec = if hasXz vec then none else some res := by
  induction hlen : vec.length using Nat.strongRecOn generalizing base vec with
  | ind n ih =>
    rw [valueLoop]
    by_cases hnil : vec = []
    · rw [dif_pos hnil, hnil]
      rfl
    · have hpos := List.length_pos_iff.mpr hnil
      have hlt : (vec.drop 64).length < n := by
        rw [List.length_drop]
        omega
      rw [dif_neg hnil, if_pos hbase, ih _ hlt (by omega) _ rfl]
      have hsplit : hasXz vec = (hasXz (vec.take 64) || hasXz (vec.drop 64)) := by
        rw [← hasXz_append, List.take_append_drop]
      rw [hsplit]
      cases hasXz (vec.take 64) <;> rfl

/-- The value of a vector without X and Z, to 64 bits. -/
theorem vector4ToValue_eq (vec : Vector4) :
    vector4ToValue vec = if hasXz vec then none else some (toNat vec % 2 ^ 64) := by
  rw [vector4ToValue, valueLoop]
  by_cases hnil : vec = []
  · rw [dif_pos hnil, hnil]
    rfl
  · have hsplit : hasXz vec = (hasXz (vec.take 64) || hasXz (vec.drop 64)) := by
      rw [← hasXz_append, List.take_append_drop]
    have hlow : ¬ 64 ≤ 0 := Nat.not_succ_le_zero 63
    have hfirst : 0 ||| toNat (vec.take 64) <<< 0 = toNat vec % 2 ^ 64 := by
      rw [Nat.shiftLeft_zero, Nat.zero_or, toNat_take]
    rw [dif_neg hnil, if_neg hlow, hfirst, valueLoop_high (Nat.le_refl _), hsplit]
    cases hasXz (vec.take 64) <;> rfl

/-! ## What a port reads -/

/-- The address that a port keeps. -/
def Address.cached (size : Nat) (adr : Address) : Nat :=
  match adr.target with
  | none => size
  | some i => (i % 2 ^ 64).toNat

theorem recvVec4_addr (bit : Vector4) (p : Port) :
    (p.recvVec4 mem bit).addr = (Address.vector bit).cached mem.words.length := by
  rw [Port.recvVec4, Address.cached, Address.target, vector4ToValue_eq]
  cases hasXz bit
  · have hcast : ((toNat bit % 2 ^ 64 : Nat) : Int) = (toNat bit : Int) % 2 ^ 64 := by
      rw [Int.natCast_mod]
      rfl
    simp only [Bool.false_eq_true, if_false, Option.getD_some, ← hcast, Int.toNat_natCast]
  · rfl

/-- The integer addresses of an array that are plain. -/
def Address.Plain (size : Nat) (adr : Address) : Prop :=
  ∀ i, adr.target = some i → ArrayPorts.Plain size i

/-- A port reads the word that its address selects. -/
theorem getWord_cached (hplain : adr.Plain mem.words.length) :
    mem.getWord (adr.cached mem.words.length) = adr.word mem := by
  rw [Address.cached, Address.word, Memory.getWord]
  cases htarget : adr.target with
  | none =>
    simp only
    rw [Nat.mod_eq_of_lt mem.size_lt, List.getElem?_eq_none (Nat.le_refl _)]
    rfl
  | some i =>
    simp only
    have hmod : (i % 2 ^ 64).toNat % 2 ^ 32 = (i % 2 ^ 32).toNat := by omega
    rw [hmod, Memory.wordAt]
    by_cases hlow : (i % 2 ^ 32).toNat < mem.words.length
    · obtain ⟨hnonneg, hlt⟩ := hplain i htarget hlow
      rw [if_pos hnonneg, Int.emod_eq_of_lt hnonneg hlt]
    · rw [List.getElem?_eq_none (not_lt.mp hlow)]
      by_cases hnonneg : 0 ≤ i
      · have hout : mem.words.length ≤ i.toNat := by omega
        rw [if_pos hnonneg, List.getElem?_eq_none hout]
      · rw [if_neg hnonneg]
        rfl

/-- A write changes the words at its address only. -/
theorem word_store {address : Nat} (word : Vector4) (hne : adr.target ≠ some (address : Int)) :
    adr.word (mem.store address word) = adr.word mem := by
  rw [Address.word, Address.word]
  cases htarget : adr.target with
  | none => rfl
  | some i =>
    simp only [Memory.wordAt]
    by_cases hnonneg : 0 ≤ i
    · have hother : address ≠ i.toNat := by
        intro he
        refine hne ?_
        rw [htarget, he, Int.toNat_of_nonneg hnonneg]
      have hget : (mem.store address word).words[i.toNat]? = mem.words[i.toNat]? :=
        List.getElem?_set_ne hother
      rw [if_pos hnonneg, if_pos hnonneg, hget]
      rfl
    · rw [if_neg hnonneg, if_neg hnonneg]
      rfl

/-- The integer of a word in the array is kept as it is. -/
theorem cached_of_target {address size : Nat} (htarget : adr.target = some (address : Int))
    (haddress : address < 2 ^ 32) : adr.cached size = address := by
  rw [Address.cached, htarget]
  show ((address : Int) % 2 ^ 64).toNat = address
  omega

/-! ## Steps and runs -/

/-- A port has the address that was recorded for it and has sent the word there. -/
structure PortCurrent (mem : Memory) (p : Port) (adr : Address) : Prop where
  addr : p.addr = adr.cached mem.words.length
  sent : p.sent = adr.word mem
  plain : adr.Plain mem.words.length

/-- All ports with an address are current. -/
def Watching (s : Watched) : Prop :=
  ∀ (i : Nat) (p : Port) (adr : Address), s.1.ports[i]? = some p → s.2[i]? = some (some adr) →
    PortCurrent s.1.mem p adr

theorem portCurrent_recvVec4 {bit : Vector4} (p : Port)
    (hplain : (Address.vector bit).Plain mem.words.length) :
    PortCurrent mem (p.recvVec4 mem bit) (.vector bit) where
  addr := recvVec4_addr bit p
  sent := by
    have hsent : (p.recvVec4 mem bit).sent = mem.getWord (p.recvVec4 mem bit).addr := rfl
    rw [hsent, recvVec4_addr, getWord_cached hplain]
  plain := hplain

/-- A port stays current when a word is written, unless it has another list and has sent the
word. -/
theorem PortCurrent.wordChange {p : Port} (h : PortCurrent mem p adr) {array address : Nat}
    {word : Vector4} (haddress : address < mem.words.length)
    (hother : p.array ≠ array → adr.target ≠ some (address : Int)) :
    PortCurrent (mem.store address word)
      (if p.array = array then p.checkWordChange (mem.store address word) address else p) adr := by
  have hlen : (mem.store address word).words.length = mem.words.length := List.length_set
  have hplain : adr.Plain (mem.store address word).words.length := hlen.symm ▸ h.plain
  have haddr : p.addr = adr.cached (mem.store address word).words.length := hlen.symm ▸ h.addr
  by_cases hlist : p.array = array
  · rw [if_pos hlist, Port.checkWordChange]
    by_cases hsame : address = p.addr
    · rw [if_neg (not_not.mpr hsame)]
      exact ⟨haddr, by rw [haddr, getWord_cached hplain], hplain⟩
    · rw [if_pos hsame]
      refine ⟨haddr, ?_, hplain⟩
      rw [h.sent, word_store]
      intro htarget
      refine hsame ?_
      rw [haddr, cached_of_target htarget (haddress.trans mem.size_lt)]
  · rw [if_neg hlist]
    exact ⟨haddr, by rw [h.sent, word_store word (hother hlist)], hplain⟩

/-- A call keeps the ports current. -/
theorem Watching.call (h : Watching s) (hkeeps : c.Keeps s) (hcall : watch s c = some s') :
    Watching s' := by
  obtain ⟨s₁, known⟩ := s
  obtain ⟨t, ht, rfl⟩ := Option.map_eq_some_iff.mp hcall
  cases c with
  | deliver port bit =>
    obtain rfl := Option.some.inj ht
    intro i p adr hp hadr
    have hp : (s₁.ports.modify port (Port.recvVec4 s₁.mem bit))[i]? = some p := hp
    have hadr : (known.modify port fun _ => some (.vector bit))[i]? = some (some adr) := hadr
    by_cases hi : port = i
    · subst hi
      rw [List.getElem?_modify_eq] at hp
      obtain ⟨p₀, hp₀, rfl⟩ := Option.map_eq_some_iff.mp hp
      rw [List.getElem?_modify_eq] at hadr
      obtain ⟨-, -, hvector⟩ := Option.map_eq_some_iff.mp hadr
      obtain rfl := Option.some.inj hvector
      exact portCurrent_recvVec4 p₀ hkeeps
    · rw [List.getElem?_modify_ne _ _ hi] at hp hadr
      exact h i p adr hp hadr
  | setWord array address partOff val =>
    rw [Ported.call] at ht
    cases htmp : s₁.mem.words[address]? with
    | none =>
      rw [htmp] at ht
      exact Option.some.inj ht ▸ h
    | some tmp =>
      rw [htmp] at ht
      obtain ⟨word, -, rfl⟩ := Option.map_eq_some_iff.mp ht
      obtain ⟨haddress, -⟩ := List.getElem?_eq_some_iff.mp htmp
      intro i p adr hp hadr
      have hp : (wordChange (s₁.mem.store address word) array address s₁.ports)[i]? = some p := hp
      rw [wordChange, List.getElem?_map] at hp
      obtain ⟨p₀, hp₀, rfl⟩ := Option.map_eq_some_iff.mp hp
      exact (h i p₀ adr hp₀ hadr).wordChange haddress (hkeeps i p₀ adr hp₀ hadr)

variable {valsWidth size : Nat} {twoState : Bool} {ports : List (Nat × Option Int)}

theorem wordAt_fresh {hsize : size < 2 ^ 32} {i : Int}
    (hrange : twoState = true → 0 ≤ i ∧ i < size) :
    (freshMemory valsWidth twoState size hsize).wordAt i =
      List.replicate valsWidth (if twoState then .zero else .x) := by
  have hallX : twoState = false → (freshMemory valsWidth twoState size hsize).allX =
      List.replicate valsWidth (if twoState then .zero else .x) := by
    rintro rfl
    rfl
  rw [Memory.wordAt]
  by_cases hnonneg : 0 ≤ i
  · rw [if_pos hnonneg]
    by_cases hi : i.toNat < size
    · have hget : (freshMemory valsWidth twoState size hsize).words[i.toNat]? =
          some (List.replicate valsWidth (if twoState then .zero else .x)) :=
        List.getElem?_replicate_of_lt hi
      rw [hget]
      rfl
    · have hget : (freshMemory valsWidth twoState size hsize).words[i.toNat]? = none := by
        refine List.getElem?_eq_none ?_
        rw [freshMemory, List.length_replicate]
        exact not_lt.mp hi
      rw [hget]
      refine hallX (Bool.eq_false_iff.mpr fun htwo => hi ?_)
      have := hrange htwo
      omega
  · rw [if_neg hnonneg]
    exact hallX (Bool.eq_false_iff.mpr fun htwo => hnonneg (hrange htwo).1)

/-- The ports of a fresh array are current. -/
theorem watching_attachAll {hsize : size < 2 ^ 32}
    (hattach : Attachable (freshMemory valsWidth twoState size hsize) ports) :
    Watching (attachAll (freshMemory valsWidth twoState size hsize) ports) := by
  intro i p adr hp hadr
  have hp : (ports.map fun p => attachPort (freshMemory valsWidth twoState size hsize)
    p.1 p.2)[i]? = some p := hp
  have hadr : (ports.map fun p => p.2.map Address.fixed)[i]? = some (some adr) := hadr
  rw [List.getElem?_map] at hp hadr
  obtain ⟨⟨array, addr⟩, hi, rfl⟩ := Option.map_eq_some_iff.mp hp
  rw [hi] at hadr
  obtain ⟨a, rfl, rfl⟩ := Option.map_eq_some_iff.mp (Option.some.inj hadr)
  obtain ⟨hplain, hrange⟩ := hattach _ (List.mem_of_getElem? hi) a rfl
  have hlen : (freshMemory valsWidth twoState size hsize).words.length = size :=
    List.length_replicate
  have hword : (freshMemory valsWidth twoState size hsize).wordAt a =
      List.replicate valsWidth (if twoState then .zero else .x) :=
    wordAt_fresh fun htwo => hlen ▸ hrange htwo
  exact ⟨rfl, hword.symm, fun i hi => Option.some.inj hi ▸ hplain⟩

/-- In a run whose calls give no port an address beyond 32 bits that wraps into the array, and
write no word that a port of another list has sent, every port with an address has sent the word
that it selects. -/
theorem current_of_keeps (valsWidth : Nat) (twoState : Bool) (hsize : size < 2 ^ 32)
    (ports : List (Nat × Option Int)) (calls : List Call)
    (hattach : Attachable (freshMemory valsWidth twoState size hsize) ports)
    (hkeeps : Runs.Meets watch (fun s c => Call.Keeps s c)
      (attachAll (freshMemory valsWidth twoState size hsize) ports) calls)
    (hrun : Runs.run watch (attachAll (freshMemory valsWidth twoState size hsize) ports) calls =
      some s) : Current s := by
  have hwatching : Watching s := Runs.invariant_of_meets
    (fun _ _ _ h hc hcall => h.call hc hcall) (watching_attachAll hattach) hkeeps hrun
  exact fun i p adr hp hadr => (hwatching i p adr hp hadr).sent

/-- An array of two words with a port, and an alias with a port. -/
def onePortEach : List (Nat × Option Int) := [(0, none), (1, none)]

/-- Two words of one bit. -/
def twoWords : Memory := freshMemory 1 false 2 (by decide)

theorem vector4ToValue_zero : vector4ToValue [.zero] = some 0 := by
  rw [vector4ToValue_eq]
  rfl

/-- The ports when the one of the alias has the address 0. -/
theorem run_deliver : watch (attachAll twoWords onePortEach) (.deliver 1 [.zero]) =
    some (⟨twoWords, [⟨0, 0, [.x]⟩, ⟨1, 0, [.x]⟩]⟩, [none, some (.vector [.zero])]) := by
  have hrecv : Port.recvVec4 twoWords [.zero] ⟨1, 0, [.x]⟩ = ⟨1, 0, [.x]⟩ := by
    rw [Port.recvVec4, vector4ToValue_zero]
    rfl
  have hports : (attachAll twoWords onePortEach).1.ports.modify 1
      (Port.recvVec4 twoWords [.zero]) = [⟨0, 0, [.x]⟩, Port.recvVec4 twoWords [.zero]
        ⟨1, 0, [.x]⟩] := rfl
  rw [hrecv] at hports
  exact congrArg (fun ps => some ((⟨twoWords, ps⟩ : Ported), _)) hports

theorem current_of_keeps_some : ∃ s,
    Runs.run watch (attachAll twoWords onePortEach)
      [.deliver 1 [.zero], .setWord 1 0 0 [.one]] = some s ∧ Current s := by
  have hrun : Runs.run watch (attachAll twoWords onePortEach)
      [.deliver 1 [.zero], .setWord 1 0 0 [.one]] = some (⟨twoWords.store 0 [.one],
        [⟨0, 0, [.x]⟩, ⟨1, 0, [.one]⟩]⟩, [none, some (.vector [.zero])]) := by
    rw [Runs.run_cons, run_deliver]
    rfl
  have hkeeps : Runs.Meets watch (fun s c => Call.Keeps s c) (attachAll twoWords onePortEach)
      [.deliver 1 [.zero], .setWord 1 0 0 [.one]] := by
    refine ⟨fun i hi _ => ?_, fun s hs => ⟨fun i p adr hp hadr hlist => ?_, fun _ _ => trivial⟩⟩
    · obtain rfl : (0 : Int) = i := Option.some.inj hi
      exact ⟨le_refl 0, by decide⟩
    · obtain rfl : _ = s := Option.some.inj (run_deliver.symm.trans hs)
      match i with
      | 0 => exact absurd hadr nofun
      | 1 =>
        obtain rfl := Option.some.inj hp
        exact absurd rfl hlist
      | i + 2 => exact absurd hp nofun
  refine ⟨_, hrun, current_of_keeps 1 false (by decide) onePortEach _ ?_ hkeeps hrun⟩
  intro p hp i hi
  obtain rfl | rfl : p = (0, none) ∨ p = (1, none) := by simpa [onePortEach] using hp
  · exact absurd hi nofun
  · exact absurd hi nofun

/-- A write through the array to the word that the port of the alias has. -/
theorem not_current_writeBelow : ∃ s, Runs.run watch (attachAll twoWords onePortEach)
    [.deliver 1 [.zero], .setWord 0 0 0 [.one]] = some s ∧ ¬ Current s := by
  refine ⟨(⟨twoWords.store 0 [.one], [⟨0, 0, [.one]⟩, ⟨1, 0, [.x]⟩]⟩,
    [none, some (.vector [.zero])]), ?_, fun h => ?_⟩
  · rw [Runs.run_cons, run_deliver]
    rfl
  · exact absurd (h 1 _ _ rfl rfl) (by decide)

end Icarus.Vvp.ArrayPorts
