import Icarus.Vvp.Thread.Index

/-!
# Elements of a property

`%queue/word/prop/v` reads an element of a queue or a dynamic array that is a property of the class
object on the stack. The array locators keep a queue on top of the object, which is popped while
the property is read.
-/

namespace Icarus.Vvp

/-- A `vvp_darray` that is no queue. -/
inductive Darray
  /-- `vvp_darray_atom`, of integers. -/
  | atom (bits : Nat) (array : List (BitVec bits))
  /-- `vvp_darray_vec4`; an element has no bits until it is written. -/
  | vec4 (wordWid : Nat) (array : List {word : Vector4 // word = [] ∨ word.length = wordWid})
  /-- `vvp_darray_vec2`; an element has no bits until it is written. -/
  | vec2 (wordWid : Nat) (array : List {word : List Bool // word = [] ∨ word.length = wordWid})
  /-- The other kinds, whose elements are no vectors. -/
  | other (size : Nat)

/-- What a property holds, as `get_queue_or_darray_vec4_from_object` tells it apart. -/
inductive PropertyArray
  /-- `vvp_queue_vec4`. -/
  | queue (queue : List Vector4)
  /-- A `vvp_darray` that is no queue. -/
  | darray (array : Darray)
  /-- Anything else. -/
  | neither

/-- An object on the stack; all but the class objects are told apart by a name only. -/
inductive StackObject (α : Type)
  /-- `vvp_cobject`, by its properties. -/
  | cobject (properties : Nat → PropertyArray)
  /-- Another object. -/
  | other (name : α)

/-- What the opcode reads and writes of a thread. -/
structure ObjectThread (α : Type) where
  /-- `words`. -/
  words : Fin 16 → BitVec 64
  /-- `flags`. -/
  flags : Fin 512 → Bit4
  /-- `stack_obj_`, the top first. -/
  stackObj : List (StackObject α)
  /-- `stack_vec4_`, the top first. -/
  stackVec4 : List Vector4

/-- The operands in `vvp_code_s`. -/
structure WordPropCode where
  /-- `number`, the property. -/
  number : Nat
  /-- `bit_idx[0]`, the width. -/
  bitIdx0 : Nat
  /-- `bit_idx[1]`, the index register. -/
  bitIdx1 : Fin 16

/-- `get_size` of a dynamic array. -/
def Darray.getSize : Darray → Nat
  | atom _ array => array.length
  | vec4 _ array => array.length
  | vec2 _ array => array.length
  | other size => size

/-- `get_word` of a dynamic array into a vector. -/
def Darray.getWord (adr : Nat) (value : Vector4) : Darray → Vector4
  | atom bits array =>
    match array[adr]? with
    | none => xVec bits
    | some word => (List.range bits).map fun idx => if word.getLsbD idx then .one else .zero
  | vec4 wordWid array =>
    match array[adr]? with
    | none => xVec wordWid
    | some word => if word.val.length = 0 then xVec wordWid else word.val
  | vec2 wordWid array =>
    match array[adr]? with
    | none => List.replicate wordWid .zero
    | some word =>
      if word.val.length = 0 then List.replicate wordWid .zero
      else word.val.map fun bit => if bit then .one else .zero
  -- The base class prints a message and leaves the vector.
  | other _ => value

/-- `get_word` of a `vvp_queue_vec4`. -/
def queueGetWord (queue : List Vector4) (adr : Nat) : Vector4 :=
  match queue[adr]? with
  | none => xVec (queue.getD 0 []).length
  | some word => word

namespace ObjectThread

variable {α : Type}

/-- `push_vec4`. -/
def pushVec4 (thr : ObjectThread α) (val : Vector4) : ObjectThread α :=
  { thr with stackVec4 := val :: thr.stackVec4 }

/-- `push_object`, if something was popped. -/
def pushObject (thr : ObjectThread α) : Option (StackObject α) → ObjectThread α
  | none => thr
  | some savedTop => { thr with stackObj := savedTop :: thr.stackObj }

/-- `of_QUEUE_WORD_PROP_V` from where the class object is found. The address is converted to an
`unsigned` for `get_word`. -/
def wordOfProperty (thr : ObjectThread α) (wid adr : Nat) (savedTop : Option (StackObject α)) :
    PropertyArray → ObjectThread α
  | .queue queue =>
    if adr ≥ queue.length then thr.pushVec4 (xVec wid)
    else (thr.pushObject savedTop).pushVec4 (queueGetWord queue (adr % 2 ^ 32))
  | .darray array =>
    if adr ≥ array.getSize then thr.pushVec4 (xVec wid)
    else (thr.pushObject savedTop).pushVec4 (array.getWord (adr % 2 ^ 32) (xVec wid))
  | .neither => (thr.pushVec4 (xVec wid)).pushObject savedTop

/-- `of_QUEUE_WORD_PROP_V`; nothing where an object is missing. -/
def ofQueueWordPropV (thr : ObjectThread α) (cp : WordPropCode) : Option (ObjectThread α) :=
  let wid := cp.bitIdx0
  let adr := (thr.words cp.bitIdx1).toInt
  if thr.flags 4 = .one then some (thr.pushVec4 (xVec wid))
  else if adr < 0 then some (thr.pushVec4 (xVec wid))
  else
    match thr.stackObj with
    | .cobject properties :: _ =>
      some (thr.wordOfProperty wid adr.toNat none (properties cp.number))
    | .other name :: .cobject properties :: rest =>
      some ({ thr with stackObj := .cobject properties :: rest }.wordOfProperty wid adr.toNat
        (some (.other name)) (properties cp.number))
    | .other _ :: .other _ :: _ => some (thr.pushVec4 (xVec wid))
    | [.other _] => none
    | [] => none

end ObjectThread

/-! ## What is meant -/

namespace PropertyArray

/-- The number of elements. -/
def size : PropertyArray → Nat
  | queue words => words.length
  | darray array => array.getSize
  | neither => 0

/-- An element. -/
def word (wid adr : Nat) : PropertyArray → Vector4
  | queue words => queueGetWord words adr
  | darray array => array.getWord adr (xVec wid)
  | neither => xVec wid

/-- The element at an address, or all X where the address is undefined, negative or past the
end. -/
def meantWord (array : PropertyArray) (wid : Nat) (flag4 : Bit4) (adr : Int) : Vector4 :=
  if flag4 = .one ∨ adr < 0 ∨ (array.size : Int) ≤ adr then xVec wid else array.word wid adr.toNat

end PropertyArray

/-- A stack of objects that the opcode admits: a class object, with a queue on top or without. -/
def admitted {α : Type} (accumulator : Option α) (properties : Nat → PropertyArray)
    (rest : List (StackObject α)) : List (StackObject α) :=
  accumulator.toList.map .other ++ .cobject properties :: rest

namespace ObjectThread

variable {α : Type}

/-- The object stack is kept, and the word that is meant is pushed. -/
def WordRight (thr : ObjectThread α) (cp : WordPropCode) (array : PropertyArray) : Prop :=
  thr.ofQueueWordPropV cp = some (thr.pushVec4
    (array.meantWord cp.bitIdx0 (thr.flags 4) (thr.words cp.bitIdx1).toInt))

/-- The word is right: the address is undefined or negative; or it is past the end, and nothing was
popped, or the property holds no array; or it is that of an element, whose low 32 bits give the
same element. -/
def WordKept (thr : ObjectThread α) (cp : WordPropCode) (accumulator : Option α)
    (array : PropertyArray) : Prop :=
  thr.flags 4 = .one ∨ (thr.words cp.bitIdx1).toInt < 0 ∨
    ((array.size : Int) ≤ (thr.words cp.bitIdx1).toInt ∧
      (accumulator = none ∨ array = .neither)) ∨
    (0 ≤ (thr.words cp.bitIdx1).toInt ∧ (thr.words cp.bitIdx1).toInt < array.size ∧
      array.word cp.bitIdx0 ((thr.words cp.bitIdx1).toInt.toNat % 2 ^ 32) =
        array.word cp.bitIdx0 (thr.words cp.bitIdx1).toInt.toNat)

variable {thr : ObjectThread α} {cp : WordPropCode} {accumulator : Option α}
  {properties : Nat → PropertyArray} {rest : List (StackObject α)}

theorem pushVec4_inj {val val' : Vector4} :
    thr.pushVec4 val = thr.pushVec4 val' ↔ val = val' := by
  simp [pushVec4]

/-- A defined address, from the class object on. -/
theorem ofQueueWordPropV_defined (hflag : thr.flags 4 ≠ .one)
    (hpos : 0 ≤ (thr.words cp.bitIdx1).toInt)
    (hobj : thr.stackObj = admitted accumulator properties rest) :
    thr.ofQueueWordPropV cp =
      some ({ thr with stackObj := .cobject properties :: rest }.wordOfProperty cp.bitIdx0
        (thr.words cp.bitIdx1).toInt.toNat (accumulator.map .other) (properties cp.number)) := by
  obtain ⟨words, flags, stackObj, stackVec4⟩ := thr
  dsimp only at hobj hflag hpos ⊢
  subst hobj
  rw [ofQueueWordPropV]
  dsimp only
  rw [if_neg hflag, if_neg (by omega)]
  cases accumulator <;> rfl

/-- What was popped is pushed again, so the thread is as before. -/
theorem pushObject_accumulator (hobj : thr.stackObj = admitted accumulator properties rest) :
    ({ thr with stackObj := .cobject properties :: rest } : ObjectThread α).pushObject
      (accumulator.map .other) = thr := by
  obtain ⟨words, flags, stackObj, stackVec4⟩ := thr
  dsimp only at hobj
  subst hobj
  cases accumulator <;> rfl

/-- What was popped is missing where it is not pushed again. -/
theorem eq_popped_iff (hobj : thr.stackObj = admitted accumulator properties rest) :
    ({ thr with stackObj := .cobject properties :: rest } : ObjectThread α) = thr ↔
      accumulator = none := by
  obtain ⟨words, flags, stackObj, stackVec4⟩ := thr
  dsimp only at hobj
  subst hobj
  cases accumulator with
  | none => exact iff_of_true rfl rfl
  | some name =>
    refine iff_of_false (fun h => ?_) (Option.some_ne_none name)
    have hlen := congrArg (fun thr : ObjectThread α => thr.stackObj.length) h
    simp [admitted] at hlen

theorem wordOfProperty_past {wid adr : Nat} {savedTop : Option (StackObject α)}
    {array : PropertyArray} (hpast : array.size ≤ adr) (harray : array ≠ .neither) :
    thr.wordOfProperty wid adr savedTop array = thr.pushVec4 (xVec wid) := by
  cases array with
  | queue words => exact if_pos hpast
  | darray array => exact if_pos hpast
  | neither => exact absurd rfl harray

theorem wordOfProperty_word {wid adr : Nat} {savedTop : Option (StackObject α)}
    {array : PropertyArray} (hlt : adr < array.size) :
    thr.wordOfProperty wid adr savedTop array =
      (thr.pushObject savedTop).pushVec4 (array.word wid (adr % 2 ^ 32)) := by
  cases array with
  | queue words => exact if_neg (Nat.not_le.mpr hlt)
  | darray array => exact if_neg (Nat.not_le.mpr hlt)
  | neither => exact absurd hlt (Nat.not_lt_zero adr)

theorem wordOfProperty_neither {wid adr : Nat} {savedTop : Option (StackObject α)} :
    thr.wordOfProperty wid adr savedTop .neither =
      (thr.pushObject savedTop).pushVec4 (xVec wid) := by
  cases savedTop <;> rfl

theorem pushVec4_eq_iff {other : ObjectThread α} (hvec : other.stackVec4 = thr.stackVec4)
    {val : Vector4} : other.pushVec4 val = thr.pushVec4 val ↔ other = thr := by
  obtain ⟨words, flags, stackObj, stackVec4⟩ := thr
  obtain ⟨words', flags', stackObj', stackVec4'⟩ := other
  dsimp only at hvec
  subst hvec
  simp [pushVec4]

theorem wordRight_iff (hobj : thr.stackObj = admitted accumulator properties rest) :
    thr.WordRight cp (properties cp.number) ↔
      thr.WordKept cp accumulator (properties cp.number) := by
  rw [WordRight, WordKept, PropertyArray.meantWord]
  by_cases hflag : thr.flags 4 = .one
  · rw [if_pos (.inl hflag), ofQueueWordPropV]
    exact iff_of_true (if_pos hflag) (.inl hflag)
  refine Iff.trans ?_ (or_iff_right hflag).symm
  by_cases hneg : (thr.words cp.bitIdx1).toInt < 0
  · rw [if_pos (.inr (.inl hneg)), ofQueueWordPropV]
    exact iff_of_true ((if_neg hflag).trans (if_pos hneg)) (.inl hneg)
  refine Iff.trans ?_ (or_iff_right hneg).symm
  rw [ofQueueWordPropV_defined hflag (by omega) hobj, Option.some_inj]
  by_cases hpast : ((properties cp.number).size : Int) ≤ (thr.words cp.bitIdx1).toInt
  · rw [if_pos (.inr (.inr hpast)), and_iff_right hpast, or_iff_left fun h => by omega]
    by_cases harray : properties cp.number = .neither
    · rw [harray, wordOfProperty_neither, pushObject_accumulator hobj]
      exact iff_of_true rfl (.inr rfl)
    · rw [wordOfProperty_past (by omega) harray, or_iff_left harray]
      exact (pushVec4_eq_iff (by rfl)).trans (eq_popped_iff hobj)
  · rw [if_neg (by simp only [hflag, hneg, hpast, or_self, not_false_iff]),
      or_iff_right fun h => hpast h.1, wordOfProperty_word (by omega),
      pushObject_accumulator hobj, pushVec4_inj]
    constructor
    · exact fun h => ⟨by omega, by omega, h⟩
    · exact fun h => h.2.2

/-- `%queue/word/prop/v` keeps the object stack and pushes the word exactly where it does not
return with the accumulator popped, and where the address fits the conversion. -/
theorem queue_word_right_iff (thr : ObjectThread α) (cp : WordPropCode) (accumulator : Option α)
    (properties : Nat → PropertyArray) (rest : List (StackObject α)) :
    { thr with stackObj := admitted accumulator properties rest }.WordRight cp
        (properties cp.number) ↔
      { thr with stackObj := admitted accumulator properties rest }.WordKept cp accumulator
        (properties cp.number) :=
  wordRight_iff rfl

/-- The first word of an empty queue, read with an accumulator on the stack: it is popped for
good. -/
theorem not_queue_word_right : ¬ @WordRight Unit
    ⟨fun _ => 0, fun _ => .zero, admitted (some ()) (fun _ => .queue []) [], []⟩ ⟨0, 1, 0⟩
      (.queue []) := by
  intro h
  have hstack := congrArg (Option.map fun thr => thr.stackObj.length) h
  exact absurd hstack (by decide)

end ObjectThread

end Icarus.Vvp
