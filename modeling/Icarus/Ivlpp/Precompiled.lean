import Icarus.Core.Numeral
import Icarus.Ivlpp.MacroTree
import Mathlib.Tactic.IntervalCases

/-!
# Precompiled defines

The macros are written to a file, a record each, and read back by `define_macro`. A record is the
name, the number of arguments, the length of the text and the text.
-/

namespace Icarus.Ivlpp

open Icarus.Core.SearchTree

/-- A character of the file. -/
abbrev Ch := { c : Fin 256 // c ≠ 0 }

def colon : Ch := ⟨58, by decide⟩

def newline : Ch := ⟨10, by decide⟩

/-! ## Writing -/

/-- The record of a macro. -/
def record (name : CString) (m : Macro) : CString :=
  name ++ colon :: (ofString m.argc.repr ++ colon ::
    (ofString m.value.length.repr ++ colon :: (m.value ++ [newline])))

/-- The dump of a child, if there is one. -/
def dumpChild (dump : Nat → Option CString) : Option Nat → Option CString
  | none => some []
  | some child => dump child

/-- `do_dump_precompiled_defines`. -/
def doDump (heap : Nat → Define) : Nat → Nat → Option CString
  | 0, _ => none
  | fuel + 1, table => do
    let text := if (heap table).val.keyword then [] else record (heap table).key (heap table).val
    let left ← dumpChild (doDump heap fuel) (heap table).left
    let right ← dumpChild (doDump heap fuel) (heap table).right
    return text ++ (left ++ right)

/-- `dump_precompiled_defines`. -/
def dumpPrecompiledDefines (t : MacroTable) : Option CString :=
  match t.root with
  | none => some []
  | some table => doDump t.heap (t.size + 1) table

/-! ## Reading -/

/-- The size of the buffer for the names. -/
def bufLen : Nat := 4096

/-- The loop that reads a name up to the colon, with the number of characters in the buffer. There
may be no colon, and a failed assertion gives no result. -/
def readName (cp : Nat) : CString → Option (Option (CString × CString))
  | [] => some none
  | ch :: src =>
    if ch = colon then
      if cp + 1 < bufLen then some (some ([], src)) else none
    else if cp + 1 < bufLen then
      (readName (cp + 1) src).map fun r => r.map fun (name, rest) => (ch :: name, rest)
    else none

/-- `isdigit`. -/
def isDigit (ch : Ch) : Bool := 48 ≤ ch.1.1 && ch.1.1 ≤ 57

/-- The loops that read a number. -/
def readNumber (n : Nat) : CString → Nat × CString
  | [] => (n, [])
  | ch :: src => if isDigit ch then readNumber (10 * n + (ch.1.1 - 48)) src else (n, ch :: src)

/-- What a turn of the loop over the records has read. -/
inductive Turn
  | stop
  | record (name : CString) (argc : Nat) (value : CString) (src : CString)

/-- The length and the text, after the colon before them. -/
def readValue (name : CString) (argc : Nat) (src : CString) : Turn :=
  match readNumber 0 src with
  | (len, ch :: src) =>
    if ch = colon then
      if src.length < len then .stop
      else match src.drop len with
        | [] => .stop
        | ch :: rest => if ch = newline then .record name argc (src.take len) rest else .stop
    else .stop
  | (_, []) => .stop

/-- The number of arguments, after the name. -/
def readCounts (name src : CString) : Turn :=
  match readNumber 0 src with
  | (argc, ch :: src) => if ch = colon then readValue name argc src else .stop
  | (_, []) => .stop

/-- A turn of the loop. The first character of the name may be any. -/
def readRecord : CString → Option Turn
  | [] => some .stop
  | ch :: src =>
    (readName 1 src).map fun
      | none => .stop
      | some (name, src) => readCounts (ch :: name) src

/-- What `define_macro` makes of a record: the default texts are those that `def_argd` has. -/
def loaded (argd : Nat → Option CString) (argc : Nat) (value : CString) : Macro :=
  ⟨value, false, argc, (List.range argc).map argd⟩

/-- The loop of `load_precompiled_defines`. -/
def loadLoop (argd : Nat → Option CString) : Nat → CString → MacroTable → Option MacroTable
  | 0, _, _ => none
  | fuel + 1, src, t => do
    match ← readRecord src with
    | .stop => return t
    | .record name argc value src =>
      loadLoop argd fuel src (← defineMacro name (loaded argd argc value) t)

/-- `load_precompiled_defines`. -/
def loadPrecompiledDefines (argd : Nat → Option CString) (src : CString) (t : MacroTable) :
    Option MacroTable :=
  loadLoop argd (src.length + 1) src t

/-! ## Numbers -/

variable {name value src : CString} {argc : Nat}

/-- The character of a digit. -/
def digit (d : Nat) : Ch := ⟨⟨48 + d % 10, by omega⟩, fun h => absurd (congrArg Fin.val h) (by
  show 48 + d % 10 ≠ 0
  omega)⟩

theorem isDigit_digit (d : Nat) : isDigit (digit d) = true := by
  rw [isDigit, digit, Bool.and_eq_true, decide_eq_true_iff, decide_eq_true_iff]
  constructor
  · exact Nat.le_add_right _ _
  · show 48 + d % 10 ≤ 57
    omega

/-- The numeral of a number has its digits. -/
theorem exists_numeral (n : Nat) : ∃ ds : List Nat, (∀ d ∈ ds, d < 10) ∧ Nat.ofDigits 10 ds = n ∧
    ofString n.repr = (ds.map digit).reverse := by
  obtain ⟨ds, hlt, hval, hds⟩ := Core.Numeral.exists_digits n
  refine ⟨ds, hlt, hval, ?_⟩
  rw [ofString, Nat.repr, String.toList_ofList, hds, List.filterMap_reverse, List.filterMap_map,
    ← List.filterMap_eq_map]
  congr 1
  refine List.filterMap_congr fun d hd => ?_
  have hd := hlt d hd
  interval_cases d <;> rfl

/-- The number after some digits. -/
theorem readNumber_digits {ds : List Nat} (hds : ∀ d ∈ ds, d < 10) (n : Nat) {ch : Ch}
    (hch : isDigit ch = false) (src : CString) :
    readNumber n ((ds.map digit).reverse ++ ch :: src) =
      (n * 10 ^ ds.length + Nat.ofDigits 10 ds, ch :: src) := by
  induction ds using List.reverseRecOn generalizing n with
  | nil =>
    have hnot : ¬ isDigit ch = true := by rw [hch]; exact Bool.false_ne_true
    rw [List.map_nil, List.reverse_nil, List.nil_append, readNumber, if_neg hnot, List.length_nil,
      pow_zero, Nat.mul_one]
    rfl
  | append_singleton ds d ih =>
    have hd : d < 10 := hds d (by simp)
    have hval : (digit d).1.1 - 48 = d := by
      show 48 + d % 10 - 48 = d
      omega
    rw [List.map_append, List.reverse_append, List.map_singleton, List.reverse_singleton,
      List.singleton_append, List.cons_append, readNumber, if_pos (isDigit_digit d), hval,
      ih fun d hd => hds d (List.mem_append_left _ hd), Nat.ofDigits_append,
      Nat.ofDigits_singleton, List.length_append, List.length_singleton]
    congr 1
    ring

/-- A numeral is read back. -/
theorem readNumber_numeral (n : Nat) (src : CString) :
    readNumber 0 (ofString n.repr ++ colon :: src) = (n, colon :: src) := by
  obtain ⟨ds, hlt, hval, hds⟩ := exists_numeral n
  rw [hds, readNumber_digits hlt 0 (by decide) src, hval, Nat.zero_mul, Nat.zero_add]

/-! ## Records -/

/-- The names whose records can be read back. -/
def Readable : CString → Prop
  | [] => False
  | _ :: rest => colon ∉ rest ∧ rest.length + 2 < bufLen

theorem readName_colon {cp : Nat} (hname : colon ∉ name) (hlen : cp + name.length + 1 < bufLen)
    (src : CString) : readName cp (name ++ colon :: src) = some (some (name, src)) := by
  induction name generalizing cp with
  | nil => rw [List.nil_append, readName, if_pos rfl, if_pos (by simpa using hlen)]
  | cons ch name ih =>
    rw [List.mem_cons, not_or] at hname
    rw [List.length_cons] at hlen
    rw [List.cons_append, readName, if_neg (Ne.symm hname.1), if_pos (by omega),
      ih hname.2 (by omega)]
    rfl

/-- The names that are read have no colon and fit the buffer. -/
theorem readName_some {cp : Nat} {rest : CString}
    (hread : readName cp src = some (some (name, rest))) :
    colon ∉ name ∧ cp + name.length + 1 < bufLen := by
  induction src generalizing cp name with
  | nil => exact absurd (Option.some.inj hread) nofun
  | cons ch src ih =>
    rw [readName] at hread
    split_ifs at hread with hch hlen hlen
    · obtain ⟨rfl, rfl⟩ := Prod.mk.inj (Option.some.inj (Option.some.inj hread))
      exact ⟨List.not_mem_nil, by simpa using hlen⟩
    · obtain ⟨r, hr, hmap⟩ := Option.map_eq_some_iff.mp hread
      obtain ⟨⟨name', rest'⟩, rfl, he⟩ := Option.map_eq_some_iff.mp hmap
      obtain ⟨rfl, rfl⟩ := Prod.mk.inj he
      obtain ⟨hnot, hlt⟩ := ih hr
      refine ⟨?_, ?_⟩
      · rw [List.mem_cons, not_or]
        exact ⟨Ne.symm hch, hnot⟩
      · rw [List.length_cons]
        omega

theorem readValue_name {name' rest : CString} {argc' : Nat}
    (hread : readValue name' argc' src = .record name argc value rest) : name = name' := by
  rw [readValue] at hread
  split at hread
  · split_ifs at hread
    split at hread
    · cases hread
    · split_ifs at hread
      exact (Turn.record.inj hread).1.symm
  · cases hread

theorem readCounts_name {name' rest : CString}
    (hread : readCounts name' src = .record name argc value rest) : name = name' := by
  rw [readCounts] at hread
  split at hread
  · split_ifs at hread
    exact readValue_name hread
  · cases hread

theorem readRecord_readable {rest : CString}
    (hread : readRecord src = some (.record name argc value rest)) : Readable name := by
  cases src with
  | nil => exact absurd (Option.some.inj hread) nofun
  | cons ch src =>
    obtain ⟨r, hr, hcounts⟩ := Option.map_eq_some_iff.mp hread
    obtain - | ⟨name', src'⟩ := r
    · exact absurd hcounts nofun
    · obtain rfl := readCounts_name hcounts
      obtain ⟨hnot, hlt⟩ := readName_some hr
      exact ⟨hnot, by omega⟩

/-- A record is read back. -/
theorem readRecord_record {m : Macro} (hname : Readable name) (rest : CString) :
    readRecord (record name m ++ rest) = some (.record name m.argc m.value rest) := by
  cases name with
  | nil => exact absurd hname id
  | cons ch name =>
    obtain ⟨hcolon, hlen⟩ := hname
    have hvalue : readValue (ch :: name) m.argc (ofString m.value.length.repr ++
        colon :: (m.value ++ newline :: rest)) = .record (ch :: name) m.argc m.value rest := by
      have hlong : ¬ (m.value ++ newline :: rest).length < m.value.length := by
        rw [List.length_append]
        omega
      simp only [readValue, readNumber_numeral, if_pos, hlong, if_neg, not_false_eq_true,
        List.drop_left, List.take_left]
    have hcounts : readCounts (ch :: name) (ofString m.argc.repr ++ colon ::
        (ofString m.value.length.repr ++ colon :: (m.value ++ newline :: rest))) =
          .record (ch :: name) m.argc m.value rest := by
      simp only [readCounts, readNumber_numeral, if_pos, hvalue]
    have hsplit : record (ch :: name) m ++ rest = ch :: (name ++ colon ::
        (ofString m.argc.repr ++ colon ::
          (ofString m.value.length.repr ++ colon :: (m.value ++ newline :: rest)))) := by
      simp [record]
    rw [hsplit, readRecord, readName_colon hcolon (by omega), Option.map_some]
    exact congrArg some hcounts

end Icarus.Ivlpp
