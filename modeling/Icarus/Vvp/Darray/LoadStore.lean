import Icarus.Vvp.Thread.QueueWord
import Icarus.Vvp.Thread.Compare

/-!
# Dynamic arrays and queues

The classes behind dynamic arrays and queues hold their elements in a row. They differ in what they
store for a value, in the value they give for what is stored, and in what they give for an address
past the end. An address is an `unsigned`.
-/

namespace Icarus.Vvp

/-- A class derived from `vvp_darray`, by what it does with one element. -/
structure DarrayClass (Elem : Type) where
  /-- What the class stores for an element. -/
  Word : Type
  /-- What `get_word` gives for a stored element. -/
  read : Word → Elem
  /-- What `set_word` stores; nothing where its assertion fails. -/
  write : Elem → Option Word
  /-- What `get_word` gives past the end; nothing where an empty container is indexed. -/
  outside : List Word → Option Elem

namespace DarrayClass

variable {Elem : Type}

/-- `get_word`. -/
def getWord (c : DarrayClass Elem) (array : List c.Word) (adr : BitVec 32) : Option Elem :=
  match array[adr.toNat]? with
  | some word => some (c.read word)
  | none => c.outside array

/-- `set_word`. Past the end nothing happens, but that a queue prints a warning. -/
def setWord (c : DarrayClass Elem) (array : List c.Word) (adr : BitVec 32) (value : Elem) :
    Option (List c.Word) :=
  if adr.toNat < array.length then (c.write value).map fun word => array.set adr.toNat word
  else some array

end DarrayClass

/-- The bits of a `double`. -/
abbrev DoubleBits := BitVec 64

/-- A class that stores the values themselves, with a value for what is past the end. -/
abbrev plainClass {Elem : Type} (outside : Elem) : DarrayClass Elem :=
  ⟨Elem, fun word => word, some, fun _ => some outside⟩

/-- `vvp_darray_atom`, of integers with a number of bits. `vector4_to_value` is for signed values
and reads X and Z bits as 0. -/
abbrev vvpDarrayAtom (bits : Nat) : DarrayClass Vector4 where
  Word := BitVec bits
  read word := (List.range bits).map fun idx => if word.getLsbD idx then .one else .zero
  write value := some (BitVec.ofInt bits value.toInt)
  outside _ := some (xVec bits)

/-- `vvp_darray_vec4`; an element has no bits until it is written. -/
abbrev vvpDarrayVec4 (wordWid : Nat) : DarrayClass Vector4 where
  Word := {word : Vector4 // word = [] ∨ word.length = wordWid}
  read word := if word.val.length = 0 then xVec wordWid else word.val
  write value := if h : value.length = wordWid then some ⟨value, .inr h⟩ else none
  outside _ := some (xVec wordWid)

/-- `vvp_darray_vec2`; an element has no bits until it is written. X and Z bits are stored as 0. -/
abbrev vvpDarrayVec2 (wordWid : Nat) : DarrayClass Vector4 where
  Word := {word : List Bool // word = [] ∨ word.length = wordWid}
  read word :=
    if word.val.length = 0 then List.replicate wordWid .zero
    else word.val.map fun bit => if bit then .one else .zero
  write value :=
    if h : value.length = wordWid then
      some ⟨value.map fun bit => bit = .one, .inr (by rw [List.length_map, h])⟩
    else none
  outside _ := some (List.replicate wordWid .zero)

/-- `vvp_darray_real`. -/
abbrev vvpDarrayReal : DarrayClass DoubleBits := plainClass 0

/-- `vvp_darray_string`. -/
abbrev vvpDarrayString : DarrayClass String := plainClass ""

/-- `vvp_queue_real`. -/
abbrev vvpQueueReal : DarrayClass DoubleBits := plainClass 0

/-- `vvp_queue_string`. -/
abbrev vvpQueueString : DarrayClass String := plainClass ""

/-- `vvp_queue_vec4`. Past the end the first element tells the width. -/
abbrev vvpQueueVec4 : DarrayClass Vector4 where
  Word := Vector4
  read word := word
  write := some
  outside
    | [] => none
    | first :: _ => some (xVec first.length)

namespace DarrayClass

variable {Elem : Type} {c : DarrayClass Elem} {array : List c.Word} {adr : BitVec 32}

theorem getWord_of_lt (h : adr.toNat < array.length) :
    c.getWord array adr = some (c.read array[adr.toNat]) := by
  rw [getWord, List.getElem?_eq_getElem h]

theorem getWord_of_le (h : array.length ≤ adr.toNat) : c.getWord array adr = c.outside array := by
  rw [getWord, List.getElem?_eq_none h]

theorem setWord_of_lt (h : adr.toNat < array.length) (value : Elem) :
    c.setWord array adr value = (c.write value).map fun word => array.set adr.toNat word := if_pos h

theorem setWord_of_le (h : array.length ≤ adr.toNat) (value : Elem) :
    c.setWord array adr value = some array := if_neg (Nat.not_lt.mpr h)

end DarrayClass

/-! ## Loads and stores of elements

`%load/dar` and `%store/dar` take the index from a 64-bit register and hand it to the container as
an `unsigned`, so they reach the element at its low 32 bits. Only the store looks at the whole index
before, to tell whether the element is to change. -/

/-- The instances of the templates of the opcodes: values of one type. -/
class DarElem (Elem : Type) where
  /-- `dq_default`, for a width. -/
  dqDefault : Nat → Elem
  /-- `dar_values_equal`. -/
  darValuesEqual : Elem → Elem → Bool

export DarElem (dqDefault darValuesEqual)

/-- Vectors are the same by `eeq`. -/
instance : DarElem Vector4 := ⟨xVec, fun left right => left = right⟩

/-- A double that is no number. -/
def DoubleBits.isNaN (a : DoubleBits) : Bool := 0xffe0000000000000 < a <<< 1

/-- `==` of doubles: nothing equals a NaN, and the zeros are equal. -/
def DoubleBits.eq (a b : DoubleBits) : Bool :=
  !a.isNaN && !b.isNaN && (a = b || (a <<< 1 = 0 && b <<< 1 = 0))

/-- Doubles are the same by `==`. -/
instance : DarElem DoubleBits := ⟨fun _ => 0, DoubleBits.eq⟩

/-- Strings are the same by `==`. -/
instance : DarElem String := ⟨fun _ => "", fun left right => left = right⟩

/-- What the opcodes read and write of a thread. -/
structure DarThread (Elem : Type) where
  /-- `words`. -/
  words : Fin 16 → BitVec 64
  /-- `flags`. -/
  flags : ThreadFlags
  /-- The stack of the values, the top first. -/
  stack : List Elem

/-- What the opcodes read and write of the net of a variable. -/
structure DarNet {Elem : Type} (c : DarrayClass Elem) where
  /-- `size()` of the functor. -/
  size : Nat
  /-- The elements of the container, if the variable has one. -/
  object : Option (List c.Word)
  /-- How often `send_object` has been called. -/
  sent : Nat

variable {Elem : Type} [DarElem Elem] {c : DarrayClass Elem}

/-- The index. -/
def DarThread.adr (thr : DarThread Elem) : Int := (thr.words 3).toInt

/-- The index as `get_word` and `set_word` take it. -/
def DarThread.low (thr : DarThread Elem) : BitVec 32 := (thr.words 3).setWidth 32

/-- `load_dar`. -/
def loadDar (thr : DarThread Elem) (net : DarNet c) : Option (DarThread Elem) :=
  let word :=
    match net.object with
    | some array =>
      if thr.adr ≥ 0 ∧ thr.flags 4 = Bit4.zero then c.getWord array thr.low
      else some (dqDefault net.size)
    | none => some (dqDefault net.size)
  word.map fun word => { thr with stack := word :: thr.stack }

/-- The end of `store_dar`, where the index is defined and there is a container. -/
def storeWord (thr : DarThread Elem) (net : DarNet c) (array : List c.Word) (value : Elem) :
    Option (DarNet c) := do
  let changed ←
    if thr.adr.toNat < array.length then
      (c.getWord array thr.low).map fun oldValue => !darValuesEqual oldValue value
    else some false
  let array ← c.setWord array thr.low value
  let net := { net with object := some array }
  return if changed then { net with sent := net.sent + 1 } else net

/-- `store_dar`. -/
def storeDar (thr : DarThread Elem) (net : DarNet c) : Option (DarThread Elem × DarNet c) :=
  match thr.stack with
  | [] => none
  | value :: stack =>
    let thr := { thr with stack := stack }
    if thr.adr < 0 then some (thr, net)
    else if thr.flags 4 ≠ Bit4.zero then some (thr, net)
    else
      match net.object with
      | some array => (storeWord thr net array value).map fun net => (thr, net)
      | none => some (thr, net)

/-! ## What is meant -/

/-- The index is defined and not negative. -/
def DarThread.Defined (thr : DarThread Elem) : Prop := 0 ≤ thr.adr ∧ thr.flags 4 = Bit4.zero

instance (thr : DarThread Elem) : Decidable thr.Defined :=
  inferInstanceAs (Decidable (0 ≤ thr.adr ∧ thr.flags 4 = Bit4.zero))

/-- What is stored at the index, if there is an element. -/
def DarThread.addressed (thr : DarThread Elem) (net : DarNet c) : Option c.Word :=
  net.object.bind fun array => if thr.Defined then array[thr.adr.toNat]? else none

/-- The element at the index, or the default where there is none. -/
def meantElem (thr : DarThread Elem) (net : DarNet c) : Elem :=
  ((thr.addressed net).map c.read).getD (dqDefault net.size)

/-- The load pushes the element that is meant. -/
def LoadRight (thr : DarThread Elem) (net : DarNet c) : Prop :=
  loadDar thr net = some { thr with stack := meantElem thr net :: thr.stack }

/-- What the net is to be: the element at the index is the value, and the readers have been told if
it is another than before. Without an element the net stays. -/
def MeantNet (thr : DarThread Elem) (net : DarNet c) (value : Elem) (net' : DarNet c) : Prop :=
  match thr.addressed net with
  | some old => ∃ word, c.write value = some word ∧
      net'.object = net.object.map (fun array => array.set thr.adr.toNat word) ∧
      net'.size = net.size ∧
      (c.read old = c.read word → net'.sent = net.sent) ∧
      (c.read old ≠ c.read word → net'.sent = net.sent + 1)
  | none => net' = net

/-- The store pops the value and leaves the net that is meant. -/
def StoreRight (thr : DarThread Elem) (net : DarNet c) (value : Elem) : Prop :=
  ∃ net', storeDar { thr with stack := value :: thr.stack } net = some (thr, net') ∧
    MeantNet thr net value net'

/-- The load reads the right element: the low bits of the index tell an element that reads the
same; or they tell one that reads as the default, or none at all, where the index tells none. -/
def LoadKept (thr : DarThread Elem) (net : DarNet c) : Prop :=
  ∀ array ∈ net.object, thr.Defined →
    if thr.adr.toNat < array.length then
      array[thr.low.toNat]?.map c.read = array[thr.adr.toNat]?.map c.read
    else
      array[thr.low.toNat]?.map c.read = some (dqDefault net.size) ∨
        array.length ≤ thr.low.toNat ∧ c.outside array = some (dqDefault net.size)

/-- The store writes the right element: the class takes the value; the low bits of the index tell
the element, or else both elements are to stay as they are; and the value differs from what was
read where the element changes. Where the index tells no element, its low bits tell none either, or
one that stays as it is. -/
def StoreKept (thr : DarThread Elem) (net : DarNet c) (value : Elem) : Prop :=
  ∀ array ∈ net.object, thr.Defined →
    if h : thr.adr.toNat < array.length then
      ∃ word, c.write value = some word ∧
        array.set thr.low.toNat word = array.set thr.adr.toNat word ∧
        ∀ old, array[thr.low.toNat]? = some old →
          (darValuesEqual (c.read old) value = true ↔ c.read array[thr.adr.toNat] = c.read word)
    else
      thr.low.toNat < array.length → ∃ word, c.write value = some word ∧
        array[thr.low.toNat]? = some word

/-! ## The results -/

section

variable {thr : DarThread Elem} {net : DarNet c} {array : List c.Word} {value : Elem}

omit [DarElem Elem] in
theorem toNat_low_address (h : thr.Defined) : thr.low.toNat = thr.adr.toNat % 2 ^ 32 := by
  have hpos : 0 ≤ (thr.words 3).toInt := h.1
  have hnat : (thr.words 3).toInt.toNat = (thr.words 3).toNat := by
    have hlt := (thr.words 3).isLt
    rw [BitVec.toInt_eq_toNat_cond] at hpos ⊢
    split_ifs at hpos ⊢ <;> omega
  rw [DarThread.low, DarThread.adr, BitVec.toNat_setWidth, hnat]

omit [DarElem Elem] in
theorem low_lt (h : thr.Defined) (hlt : thr.adr.toNat < array.length) :
    thr.low.toNat < array.length := by
  rw [toNat_low_address h]
  exact Nat.lt_of_le_of_lt (Nat.mod_le ..) hlt

/-- A load pushes what is found for the index, and is right if that is the element meant. -/
theorem load_right_iff_of {found : Option Elem} {meant : Elem}
    (hload : loadDar thr net = found.map fun word => { thr with stack := word :: thr.stack })
    (hmeant : meantElem thr net = meant) : LoadRight thr net ↔ found = some meant := by
  rw [LoadRight, hload, hmeant]
  cases found with
  | none => simp
  | some word => simp

/-- Without an element at the index, and where no container is asked, it pushes the default. -/
theorem load_right_of_default
    (hload : loadDar thr net = some { thr with stack := dqDefault net.size :: thr.stack })
    (hnone : thr.addressed net = none) : LoadRight thr net := by
  have hmeant : meantElem thr net = dqDefault net.size := by
    rw [meantElem, hnone]
    rfl
  rw [LoadRight, hload, hmeant]

theorem load_right_iff : LoadRight thr net ↔ LoadKept thr net := by
  rw [LoadKept]
  cases hobj : net.object with
  | none =>
    apply iff_of_true
    · apply load_right_of_default
      · rw [loadDar, hobj]
        rfl
      · rw [DarThread.addressed, hobj, Option.bind_none]
    · simp
  | some array =>
    by_cases hdef : thr.Defined
    · have hload : loadDar thr net =
          (c.getWord array thr.low).map fun word => { thr with stack := word :: thr.stack } := by
        rw [loadDar, hobj]
        exact congrArg (Option.map _) (if_pos hdef)
      have hmeant : meantElem thr net =
          (array[thr.adr.toNat]?.map c.read).getD (dqDefault net.size) := by
        rw [meantElem, DarThread.addressed, hobj, Option.bind_some, if_pos hdef]
      rw [load_right_iff_of hload hmeant]
      by_cases hlt : thr.adr.toNat < array.length
      · have hlow := low_lt hdef hlt
        rw [DarrayClass.getWord_of_lt hlow]
        simp [hdef, hlt, hlow]
      · rcases Nat.lt_or_ge thr.low.toNat array.length with hlow | hlow
        · rw [DarrayClass.getWord_of_lt hlow]
          simp [hdef, hlt, hlow, Nat.not_le.mpr hlow]
        · rw [DarrayClass.getWord_of_le hlow]
          simp [hdef, hlt, hlow, Nat.not_lt.mpr hlow]
    · apply iff_of_true
      · apply load_right_of_default
        · rw [loadDar, hobj]
          exact congrArg (Option.map _) (if_neg hdef)
        · rw [DarThread.addressed, hobj, Option.bind_some, if_neg hdef]
      · exact fun _ _ hdef' => absurd hdef' hdef

/-- The store from where the value is popped and the index is known. -/
theorem store_right_iff_of {stored : Option (DarNet c)}
    (hstore : storeDar { thr with stack := value :: thr.stack } net =
      stored.map fun net => (thr, net)) :
    StoreRight thr net value ↔ ∃ net', stored = some net' ∧ MeantNet thr net value net' := by
  rw [StoreRight, hstore]
  simp

/-- Where the index tells an element, the low bits tell one too. -/
theorem storeWord_of_lt (hlt : thr.adr.toNat < array.length)
    (hlow : thr.low.toNat < array.length) :
    storeWord thr net array value = (c.write value).map fun word =>
      ⟨net.size, some (array.set thr.low.toNat word),
        if darValuesEqual (c.read array[thr.low.toNat]) value then net.sent else net.sent + 1⟩ := by
  rw [storeWord, if_pos hlt, DarrayClass.getWord_of_lt hlow, DarrayClass.setWord_of_lt hlow]
  cases c.write value with
  | none => rfl
  | some word =>
    cases hsame : darValuesEqual (c.read array[thr.low.toNat]) value <;> simp [hsame]

theorem storeWord_of_le (hle : array.length ≤ thr.adr.toNat) :
    storeWord thr net array value = (c.setWord array thr.low value).map fun array =>
      { net with object := some array } := by
  rw [storeWord, if_neg (Nat.not_lt.mpr hle)]
  cases c.setWord array thr.low value <;> rfl

/-- A count that goes up or stays tells a change exactly if it goes up where there is one. -/
theorem sent_iff (same : Bool) (n : Nat) (changed : Prop) :
    ((¬ changed → (if same then n else n + 1) = n) ∧
      (changed → (if same then n else n + 1) = n + 1)) ↔ (same = true ↔ ¬ changed) := by
  cases same <;> by_cases h : changed <;> simp [h]

theorem store_right_of_lt (hobj : net.object = some array) (hdef : thr.Defined)
    (hlt : thr.adr.toNat < array.length)
    (hstore : storeDar { thr with stack := value :: thr.stack } net =
      (storeWord thr net array value).map fun net => (thr, net)) :
    StoreRight thr net value ↔ ∃ word, c.write value = some word ∧
        array.set thr.low.toNat word = array.set thr.adr.toNat word ∧
        ∀ old, array[thr.low.toNat]? = some old →
          (darValuesEqual (c.read old) value = true ↔
            c.read array[thr.adr.toNat] = c.read word) := by
  have hlow := low_lt hdef hlt
  have haddressed : thr.addressed net = some array[thr.adr.toNat] := by
    rw [DarThread.addressed, hobj, Option.bind_some, if_pos hdef, List.getElem?_eq_getElem hlt]
  rw [store_right_iff_of hstore, storeWord_of_lt hlt hlow]
  cases hwrite : c.write value with
  | none => simp [MeantNet, haddressed, hwrite]
  | some word =>
    simp only [MeantNet, haddressed, hwrite, hobj, Option.map_some, Option.some.injEq,
      exists_eq_left', List.getElem?_eq_getElem hlow, true_and, forall_eq']
    refine and_congr_right fun _ => ?_
    rw [← not_ne_iff, and_comm]
    have hsent := sent_iff (darValuesEqual (c.read array[thr.low.toNat]) value) net.sent
      (c.read array[thr.adr.toNat] ≠ c.read word)
    rw [and_comm] at hsent
    exact hsent

theorem store_right_of_le (hobj : net.object = some array) (hdef : thr.Defined)
    (hle : array.length ≤ thr.adr.toNat)
    (hstore : storeDar { thr with stack := value :: thr.stack } net =
      (storeWord thr net array value).map fun net => (thr, net)) :
    StoreRight thr net value ↔ (thr.low.toNat < array.length → ∃ word, c.write value = some word ∧
      array[thr.low.toNat]? = some word) := by
  have haddressed : thr.addressed net = none := by
    rw [DarThread.addressed, hobj, Option.bind_some, if_pos hdef, List.getElem?_eq_none hle]
  rw [store_right_iff_of hstore, storeWord_of_le hle]
  rcases Nat.lt_or_ge thr.low.toNat array.length with hlow | hlow
  · rw [DarrayClass.setWord_of_lt hlow, imp_iff_right hlow]
    cases hwrite : c.write value with
    | none => simp
    | some word =>
      simp only [MeantNet, haddressed, Option.map_some, Option.some.injEq, exists_eq_left',
        List.getElem?_eq_getElem hlow]
      constructor
      · intro hnet
        have harray := congrArg DarNet.object hnet
        rw [hobj, Option.some.injEq] at harray
        rw [← List.getElem_set_self (a := word) (by rwa [List.length_set])]
        exact List.getElem_of_eq harray.symm hlow
      · rintro rfl
        rw [List.set_getElem_self, ← hobj]
  · rw [DarrayClass.setWord_of_le hlow]
    refine iff_of_true ⟨_, rfl, ?_⟩ fun h => absurd h (Nat.not_lt.mpr hlow)
    simp only [MeantNet, haddressed, ← hobj]

/-- Where nothing is stored and the index tells no element, the store is right. -/
theorem store_right_of_none (haddressed : thr.addressed net = none)
    (hstore : storeDar { thr with stack := value :: thr.stack } net = some (thr, net)) :
    StoreRight thr net value := by
  refine ⟨net, hstore, ?_⟩
  simp only [MeantNet, haddressed]

theorem store_right_iff : StoreRight thr net value ↔ StoreKept thr net value := by
  rw [StoreKept]
  by_cases hdef : thr.Defined
  · have hneg : ¬ thr.adr < 0 := not_lt.mpr hdef.1
    have hflag : ¬ thr.flags 4 ≠ Bit4.zero := not_not.mpr hdef.2
    cases hobj : net.object with
    | none =>
      refine iff_of_true (store_right_of_none ?_ ?_) (by simp)
      · rw [DarThread.addressed, hobj, Option.bind_none]
      · simp only [storeDar, hobj]
        exact (if_neg hneg).trans (if_neg hflag)
    | some array =>
      have hstore : storeDar { thr with stack := value :: thr.stack } net =
          (storeWord thr net array value).map fun net => (thr, net) := by
        simp only [storeDar, hobj]
        exact (if_neg hneg).trans (if_neg hflag)
      by_cases hlt : thr.adr.toNat < array.length
      · rw [store_right_of_lt hobj hdef hlt hstore]
        simp [hdef, hlt]
      · rw [store_right_of_le hobj hdef (Nat.not_lt.mp hlt) hstore]
        simp [hdef, hlt]
  · refine iff_of_true (store_right_of_none ?_ ?_) fun _ _ hdef' => absurd hdef' hdef
    · rw [DarThread.addressed]
      simp only [if_neg hdef, Option.bind_fun_none]
    · rw [storeDar]
      by_cases hneg : thr.adr < 0
      · exact if_pos hneg
      · exact (if_neg hneg).trans (if_pos fun hflag => hdef ⟨not_lt.mp hneg, hflag⟩)

/-- A load pushes the element meant and a store writes it exactly where the low bits of the index do
as well as the index. -/
theorem dar_right_iff (thr : DarThread Elem) (net : DarNet c) (value : Elem) :
    LoadRight thr net ∧ StoreRight thr net value ↔ LoadKept thr net ∧ StoreKept thr net value :=
  and_congr load_right_iff store_right_iff

/-- The first element of an empty queue of vectors is looked for in the queue. -/
theorem not_dar_right : ¬ (LoadRight (c := vvpQueueVec4) ⟨fun _ => 0, fun _ => .zero, []⟩
      ⟨1, some [], 0⟩ ∧
    StoreRight (c := vvpQueueVec4) ⟨fun _ => 0, fun _ => .zero, []⟩ ⟨1, some [], 0⟩ [.one]) := by
  rintro ⟨hload, -⟩
  rw [load_right_iff] at hload
  have h := hload [] rfl ⟨by decide, rfl⟩
  simp [vvpQueueVec4] at h

end

end Icarus.Vvp
