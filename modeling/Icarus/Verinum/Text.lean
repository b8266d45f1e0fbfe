import Icarus.Core.ReadBits
import Icarus.Verinum.Shift

/-!
# Numbers as texts

A number of whole bytes is written as a string with octal escapes, and a string literal is read
back as the number of its bytes. The reader has more escapes than the writer and takes as many
digits as it can, but what the writer has written it reads back byte by byte.
-/

namespace Icarus.Verinum

open Icarus.Core (readBits getLsbD_readBits)

/-- `char`, by its bits. -/
abbrev Byte := BitVec 8

/-- `std::string`. -/
abbrev Str := List Byte

/-! ## Reading -/

/-- The value of an octal digit. -/
def octalDigit (c : Byte) : Option Byte := if 48 ≤ c ∧ c ≤ 55 then some (c - 48) else none

/-- The value of a hexadecimal digit. -/
def hexDigit (c : Byte) : Option Byte :=
  if 48 ≤ c ∧ c ≤ 57 then some (c - 48)
  else if 97 ≤ c ∧ c ≤ 102 then some (c - 97 + 10)
  else if 65 ≤ c ∧ c ≤ 70 then some (c - 65 + 10)
  else none

/-- The loop over at most so many digits of an escape: the byte and the rest of the text. -/
def readDigits (base : Byte) (digit : Byte → Option Byte) : Nat → Byte → Str → Byte × Str
  | 0, byteVal, str => (byteVal, str)
  | _, byteVal, [] => (byteVal, [])
  | n + 1, byteVal, c :: str =>
    match digit c with
    | none => (byteVal, c :: str)
    | some d => readDigits base digit n (base * byteVal + d) str

/-- The escapes of one letter: `n`, `t`, `v`, `f` and `a`; any other byte stands for itself. -/
def letterEscape (c : Byte) : Byte :=
  if c = 110 then 10 else if c = 116 then 9 else if c = 118 then 11 else if c = 102 then 12
  else if c = 97 then 7 else c

theorem length_readDigits (base : Byte) (digit : Byte → Option Byte) (n : Nat) (byteVal : Byte)
    (str : Str) : (readDigits base digit n byteVal str).2.length ≤ str.length := by
  induction n generalizing byteVal str with
  | zero => exact Nat.le_refl _
  | succ n ih =>
    cases str with
    | nil => exact Nat.le_refl _
    | cons c str =>
      rw [readDigits]
      cases digit c with
      | none => exact Nat.le_refl _
      | some d => exact (ih _ str).trans (Nat.le_succ _)

/-- `process_verilog_string_quotes`; a backslash at the end fails an assertion. -/
def processQuotes : Str → Option Str
  | [] => some []
  | c :: str =>
    if c = 92 then
      match str with
      | [] => none
      | e :: rest =>
        if (octalDigit e).isSome then
          let digits := readDigits 8 octalDigit 3 0 (e :: rest)
          (processQuotes digits.2).map (digits.1 :: ·)
        else if e = 120 then
          let digits := readDigits 16 hexDigit 2 0 rest
          (processQuotes digits.2).map (digits.1 :: ·)
        else (processQuotes rest).map (letterEscape e :: ·)
    else (processQuotes str).map (c :: ·)
termination_by str => str.length
decreasing_by
  · have := length_readDigits 8 octalDigit 3 0 (e :: rest)
    simp only [List.length_cons] at this ⊢
    omega
  · have := length_readDigits 16 hexDigit 2 0 rest
    simp only [List.length_cons]
    omega
  · simp only [List.length_cons]
    omega
  · simp only [List.length_cons]
    omega

/-- The bits of a byte, the lowest first. -/
def byteBits (ch : Byte) : List V :=
  (List.range 8).map fun i => if ch.getLsbD i then V.v1 else .v0

/-- The constructor from a string. The empty string is a byte of zeros. -/
def ofString (s : Str) : Option Verinum :=
  (processQuotes s).map fun str =>
    ⟨if str.length * 8 = 0 then List.replicate 8 .v0 else (str.reverse.map byteBits).flatten,
      true, false, false, true⟩

/-! ## Writing -/

/-- The byte of the bits from a place on that are `V1`. -/
def byteAt (bits : List V) (base : Nat) : Byte :=
  readBits 8 (fun i => bits.getD (base + i) .v0 = .v1) 8

/-- A byte is written as it is, or as an escape of three octal digits; `isprint` is that of the
locale. -/
def writeByte (isprint : Byte → Bool) (charVal : Byte) : Str :=
  if charVal = 34 ∨ charVal = 92 ∨ ¬ isprint charVal then
    [92, 48 + charVal / 64, 48 + charVal / 8 % 8, 48 + charVal % 8]
  else [charVal]

/-- The loop of `as_string` over so many bytes, from the top. -/
def writeBytes (isprint : Byte → Bool) (bits : List V) : Nat → Str
  | 0 => []
  | k + 1 => writeByte isprint (byteAt bits (8 * k)) ++ writeBytes isprint bits k

/-- `as_string`; a number that is not of whole bytes fails an assertion. -/
def asString (isprint : Byte → Bool) (v : Verinum) : Option Str :=
  if v.len % 8 ≠ 0 then none else some (writeBytes isprint v.bits (v.len / 8))

/-- `concat`. -/
def concat (isprint : Byte → Bool) (left right : Verinum) : Option Verinum :=
  if left.isString ∧ right.isString then
    (asString isprint left).bind fun l => (asString isprint right).bind fun r => ofString (l ++ r)
  else some (ofBits (right.bits ++ left.bits) true)

/-! ## The round trip -/

/-- The three octal digits of a byte are read as that byte, whatever follows. -/
private theorem readDigits_octal (charVal : Byte) (rest : Str) :
    readDigits 8 octalDigit 3 0
        ((48 + charVal / 64) :: (48 + charVal / 8 % 8) :: (48 + charVal % 8) :: rest) =
      (charVal, rest) := by
  have hdigit : ∀ d : Byte, d < 8 → octalDigit (48 + d) = some d := by decide
  have hvalue : ∀ c : Byte, c / 64 < 8 ∧ c / 8 % 8 < 8 ∧ c % 8 < 8 ∧
      8 * (8 * (8 * 0 + c / 64) + c / 8 % 8) + c % 8 = c := by decide
  obtain ⟨hhigh, hmid, hlow, hsum⟩ := hvalue charVal
  simp only [readDigits, hdigit _ hhigh, hdigit _ hmid, hdigit _ hlow, hsum]

/-- What the writer makes of a byte is read back as that byte, whatever follows. -/
theorem processQuotes_writeByte (isprint : Byte → Bool) (charVal : Byte) (rest : Str) :
    processQuotes (writeByte isprint charVal ++ rest) =
      (processQuotes rest).map (charVal :: ·) := by
  rw [writeByte]
  split_ifs with hescape
  · have hfirst : ∀ c : Byte, (octalDigit (48 + c / 64)).isSome = true := by decide
    rw [List.cons_append, List.cons_append, List.cons_append, List.singleton_append,
      processQuotes, if_pos rfl]
    dsimp only
    rw [if_pos (hfirst charVal), readDigits_octal]
  · have hplain : charVal ≠ 92 := fun h => hescape (Or.inr (Or.inl h))
    rw [List.singleton_append, processQuotes.eq_def]
    exact if_neg hplain

/-- The bytes that are written are read back. -/
theorem processQuotes_writeBytes (isprint : Byte → Bool) (bits : List V) (k : Nat) (rest : Str) :
    processQuotes (writeBytes isprint bits k ++ rest) =
      (processQuotes rest).map (((List.range k).reverse.map fun i => byteAt bits (8 * i)) ++ ·) := by
  induction k with
  | zero => exact Option.map_id'.symm
  | succ k ih =>
    rw [writeBytes, List.append_assoc, processQuotes_writeByte, ih, Option.map_map,
      List.range_succ, List.reverse_append]
    rfl

section Bytes

variable {bits : List V}

/-- X and Z are written as zero. -/
def twoState (b : V) : V := if b = .v1 then .v1 else .v0

theorem map_twoState (h : ∀ b ∈ bits, b.Known) : bits.map twoState = bits := by
  refine (List.map_congr_left fun b hb => ?_).trans (List.map_id' bits)
  rcases h b hb with rfl | rfl <;> rfl

/-- Eight bits are the bits of their byte, but for X and Z. -/
theorem byteBits_byteAt {base : Nat} (hle : base + 8 ≤ bits.length) :
    byteBits (byteAt bits base) = ((bits.drop base).take 8).map twoState := by
  apply List.ext_getElem?
  intro i
  rw [byteBits, List.getElem?_map, List.getElem?_map, List.getElem?_take, List.getElem?_drop]
  by_cases hi : i < 8
  · have hget : bits[base + i]? = some (bits.getD (base + i) .v0) := by
      rw [List.getD_eq_getElem?_getD, List.getElem?_eq_getElem (by omega), Option.getD_some]
    have hbit : (byteAt bits base).getLsbD i = decide (bits.getD (base + i) .v0 = .v1) := by
      rw [byteAt, getLsbD_readBits, decide_eq_true hi, Bool.true_and, Bool.true_and]
    rw [if_pos hi, List.getElem?_range hi, Option.map_some, hget, hbit, Option.map_some, twoState]
    simp only [decide_eq_true_eq]
  · rw [if_neg hi, List.getElem?_eq_none (by rw [List.length_range]; omega), Option.map_none,
      Option.map_none]

/-- The bits of the bytes, from the lowest up. -/
theorem flatten_byteBits {k : Nat} (hle : 8 * k ≤ bits.length) :
    ((List.range k).map fun i => byteBits (byteAt bits (8 * i))).flatten =
      (bits.take (8 * k)).map twoState := by
  induction k with
  | zero => rfl
  | succ k ih =>
    rw [List.range_succ, List.map_append, List.flatten_append, ih (by omega), List.map_singleton,
      List.flatten_singleton, byteBits_byteAt (by omega), Nat.mul_succ, List.take_add,
      List.map_append]

end Bytes

section Whole

variable {left right v : Verinum}

/-- The bytes of a number, from the top. -/
private def bytes (v : Verinum) : Str := (List.range (v.len / 8)).reverse.map fun i =>
  byteAt v.bits (8 * i)

/-- The bits of whole bytes are those of the number, but for X and Z. -/
private theorem bytes_bits (hwhole : v.len % 8 = 0) :
    ((bytes v).reverse.map byteBits).flatten = v.bits.map twoState := by
  have hlen : 8 * (v.len / 8) = v.len := Nat.mul_div_cancel' (Nat.dvd_of_mod_eq_zero hwhole)
  have hflat := flatten_byteBits (hlen.le : _ ≤ v.bits.length)
  have hreverse : (bytes v).reverse = (List.range (v.len / 8)).map fun i => byteAt v.bits (8 * i) := by
    rw [bytes, List.map_reverse, List.reverse_reverse]
  rw [hreverse, List.map_map]
  refine hflat.trans ?_
  rw [hlen]
  exact congrArg _ List.take_length

/-- Written out and read back, possibly with a text after it. -/
private theorem processQuotes_append (hwhole : v.len % 8 = 0) (isprint : Byte → Bool)
    (rest : Str) : ∃ s, asString isprint v = some s ∧
      processQuotes (s ++ rest) = (processQuotes rest).map (bytes v ++ ·) :=
  ⟨_, if_neg (not_not.mpr hwhole), processQuotes_writeBytes isprint v.bits _ rest⟩

/-- The number that is read from bytes. -/
private theorem ofString_eq {s str : Str} (h : processQuotes s = some str) (hne : str ≠ []) :
    ofString s = some ⟨(str.reverse.map byteBits).flatten, true, false, false, true⟩ := by
  have hpos := List.length_pos_iff.mpr hne
  rw [ofString, h, Option.map_some, if_neg (by omega)]

/-- There are bytes. -/
private theorem bytes_ne_nil (hpos : 0 < v.len) (hwhole : v.len % 8 = 0) : bytes v ≠ [] := by
  apply List.ne_nil_of_length_pos
  rw [bytes, List.length_map, List.length_reverse, List.length_range]
  omega

/-- A number of whole bytes is read back from its text, but for X and Z. -/
theorem bind_asString_ofString (isprint : Byte → Bool) (hpos : 0 < v.len)
    (hwhole : v.len % 8 = 0) :
    (asString isprint v).bind ofString =
      some ⟨v.bits.map twoState, true, false, false, true⟩ := by
  have hnil : processQuotes [] = some [] := by rw [processQuotes]
  obtain ⟨s, hs, hread⟩ := processQuotes_append hwhole isprint []
  rw [List.append_nil, hnil, Option.map_some, List.append_nil] at hread
  rw [hs, Option.bind_some, ofString_eq hread (bytes_ne_nil hpos hwhole), bytes_bits hwhole]

/-- The texts of two numbers, one after the other, are read as both. -/
private theorem concat_eq (isprint : Byte → Bool) (hpos : 0 < left.len) (hl : left.len % 8 = 0)
    (hr : right.len % 8 = 0) (hlstring : left.isString) (hrstring : right.isString) :
    concat isprint left right =
      some ⟨right.bits.map twoState ++ left.bits.map twoState, true, false, false, true⟩ := by
  have hnil : processQuotes [] = some [] := by rw [processQuotes]
  obtain ⟨r, hr', hright⟩ := processQuotes_append hr isprint []
  rw [List.append_nil, hnil, Option.map_some, List.append_nil] at hright
  obtain ⟨l, hl', hboth⟩ := processQuotes_append hl isprint r
  rw [hright, Option.map_some] at hboth
  have hne := List.append_ne_nil_of_left_ne_nil (bytes_ne_nil hpos hl) (bytes right)
  rw [concat, if_pos ⟨hlstring, hrstring⟩, hl', Option.bind_some, hr', Option.bind_some,
    ofString_eq hboth hne, List.reverse_append, List.map_append, List.flatten_append,
    bytes_bits hl, bytes_bits hr]

/-- A number of whole bytes without X and Z bits. -/
structure Textual (v : Verinum) : Prop where
  /-- There are no X and Z bits. -/
  defined : v.isDefined
  /-- There is a byte. -/
  pos : 0 < v.len
  /-- The bytes are whole. -/
  whole : v.len % 8 = 0

/-- A number of whole bytes is read back from its text, and the texts of two of them, one after
the other, are read as both numbers, whatever `isprint` says of the bytes. -/
theorem ofString_asString (isprint : Byte → Bool) (hl : Textual left) (hr : Textual right) :
    (∃ s w, asString isprint left = some s ∧ ofString s = some w ∧ w.bits = left.bits) ∧
      (left.isString → right.isString →
        ∃ w, concat isprint left right = some w ∧ w.bits = right.bits ++ left.bits) := by
  have hlbits := map_twoState (left.isDefined_iff.mp hl.defined)
  have hrbits := map_twoState (right.isDefined_iff.mp hr.defined)
  constructor
  · obtain ⟨s, hs, hread⟩ := Option.bind_eq_some_iff.mp
      (bind_asString_ofString isprint hl.pos hl.whole)
    exact ⟨s, _, hs, hread, hlbits⟩
  · intro hlstring hrstring
    refine ⟨_, concat_eq isprint hl.pos hl.whole hr.whole hlstring hrstring, ?_⟩
    dsimp only
    rw [hlbits, hrbits]

/-- Of a quote and the digit 1, with the `isprint` of ASCII. -/
theorem ofString_asString_quote : ∃ s w,
    asString (fun c => 32 ≤ c ∧ c ≤ 126) ⟨byteBits 34 ++ byteBits 49, true, false, false, true⟩ =
      some s ∧ ofString s = some w ∧ w.bits = byteBits 34 ++ byteBits 49 :=
  (@ofString_asString ⟨byteBits 34 ++ byteBits 49, true, false, false, true⟩
    ⟨byteBits 34, true, false, false, true⟩ (fun c => 32 ≤ c ∧ c ≤ 126)
    ⟨by decide, by decide, by decide⟩ ⟨by decide, by decide, by decide⟩).1

end Whole

end Icarus.Verinum
