import Icarus.Core.SearchTree
import Icarus.Vvp.Symbols.Entries

/-!
# The macro table

The preprocessor keeps its macros in a search tree by name, with links to the parent. A cell is
allocated for each definition; a failed assertion gives no table.
-/

namespace Icarus.Ivlpp

open Icarus.Core.SearchTree
open Icarus.Vvp.Symbols (Key strcmp)

/-- A null terminated string. -/
abbrev CString := Key

/-- The fields of `struct define_t` beside the name and the links. The arguments count the name
of the macro as the first, so `argc` is 0 for a macro of the command line. -/
structure Macro where
  value : CString
  keyword : Bool
  argc : Nat
  /-- The default texts, one for each argument. -/
  defaults : List (Option CString)
  deriving DecidableEq

/-- A cell of the macro table. -/
abbrev Define := Cell CString Macro

/-- The macro table. -/
structure MacroTable where
  heap : Nat → Define
  /-- The number of cells that were allocated. -/
  size : Nat
  /-- `def_table`. -/
  root : Option Nat

/-- A cell that was not allocated. -/
def noDefine : Define := ⟨[], ⟨[], false, 0, []⟩, none, none, none⟩

/-- The table before the first definition. -/
def emptyTable : MacroTable := ⟨fun _ => noDefine, 0, none⟩

/-! ## Lookup -/

/-- The loop of `def_lookup_internal`. -/
def lookupLoop (heap : Nat → Define) (name : CString) : Nat → Option Nat → Option (Option Nat)
  | 0, _ => none
  | _ + 1, none => some none
  | fuel + 1, some cur =>
    let cmp := strcmp name (heap cur).key
    if cmp = 0 then some (some cur)
    else if cmp < 0 then lookupLoop heap name fuel (heap cur).left
    else lookupLoop heap name fuel (heap cur).right

/-- `def_lookup_internal`. -/
def defLookupInternal (name : CString) (t : MacroTable) : Option (Option Nat) :=
  match t.root with
  | none => some none
  | some cur =>
    if (t.heap cur).up = none then lookupLoop t.heap name (t.size + 1) (some cur) else none

/-- A string of printable characters. -/
def ofString (s : String) : CString :=
  s.toList.filterMap fun c =>
    if h : 0 < c.toNat ∧ c.toNat < 256 then
      some ⟨⟨c.toNat, h.2⟩, fun he => absurd (congrArg Fin.val he) (Nat.ne_of_gt h.1)⟩
    else none

/-- `__LINE__`. -/
def lineName : CString := ofString "__LINE__"

/-- `__FILE__`. -/
def fileName : CString := ofString "__FILE__"

/-- `magic_table`: the macros that cannot be defined or undefined. -/
def magicTable : MacroTable :=
  ⟨fun a => if a = 0 then ⟨lineName, ⟨lineName, false, 1, []⟩, some 1, none, none⟩
    else ⟨fileName, ⟨fileName, false, 1, []⟩, none, none, some 0⟩, 2, some 0⟩

/-- What `def_lookup` finds. -/
inductive Found
  | magic (cell : Nat)
  | plain (cell : Option Nat)

/-- The name begins with two underlines and has more characters. -/
def mayBeMagic (name : CString) : Bool :=
  match name with
  | a :: b :: _ :: _ => a.1.1 = 95 && b.1.1 = 95
  | _ => false

/-- `def_lookup`. -/
def defLookup (name : CString) (t : MacroTable) : Option Found :=
  if mayBeMagic name then do
    match ← defLookupInternal name magicTable with
    | some cell => return .magic cell
    | none => return .plain (← defLookupInternal name t)
  else do
    return .plain (← defLookupInternal name t)

/-! ## Definitions -/

/-- The loop of `define_macro`: the new cell is hung into the tree, or the cell of the name that
is there gets its value. -/
def insertLoop (heap : Nat → Define) (new : Nat) : Nat → Nat → Option (Nat → Define)
  | 0, _ => none
  | fuel + 1, cur =>
    let cmp := strcmp (heap new).key (heap cur).key
    if cmp = 0 then
      some (Function.update heap cur { heap cur with
        val := { (heap cur).val with value := (heap new).val.value } })
    else if cmp < 0 then
      match (heap cur).left with
      | some next => insertLoop heap new fuel next
      | none => some (setUp (setLeft heap cur (some new)) new (some cur))
    else
      match (heap cur).right with
      | some next => insertLoop heap new fuel next
      | none => some (setUp (setRight heap cur (some new)) new (some cur))

/-- `define_macro`. -/
def defineMacro (name : CString) (m : Macro) (t : MacroTable) : Option MacroTable :=
  let new := t.size
  let heap := Function.update t.heap new ⟨name, m, none, none, none⟩
  match t.root with
  | none => some ⟨heap, t.size + 1, some new⟩
  | some cur => (insertLoop heap new (t.size + 1) cur).map fun heap => ⟨heap, t.size + 1, t.root⟩

/-- The child of a cell that is to be replaced. -/
def replaceChild (heap : Nat → Define) (parent cur : Nat) (sub : Option Nat) :
    Option (Nat → Define) :=
  if (heap parent).left = some cur then some (setLeft heap parent sub)
  else if (heap parent).right = some cur then some (setRight heap parent sub)
  else none

/-- A cell is taken out of the tree: the seven cases of `def_undefine`. -/
def unlink (t : MacroTable) (cur : Nat) : Option MacroTable :=
  match (t.heap cur).up, (t.heap cur).left, (t.heap cur).right with
  | none, none, none => some { t with root := none }
  | none, none, some right => some { t with root := some right, heap := setUp t.heap right none }
  | none, some left, none => some { t with root := some left, heap := setUp t.heap left none }
  | none, some left, some right => do
    let tail ← rightmost t.heap (t.size + 1) left
    let heap := setUp (setRight t.heap tail (some right)) right (some tail)
    return { t with root := some left, heap := setUp heap left none }
  | some parent, none, right => do
    let heap ← replaceChild t.heap parent cur right
    return { t with heap := setRootUp heap right (some parent) }
  | some parent, some left, none => do
    let heap ← replaceChild t.heap parent cur (some left)
    return { t with heap := setUp heap left (some parent) }
  | some parent, some left, some right => do
    let tail ← rightmost t.heap (t.size + 1) left
    let heap := setUp (setRight t.heap tail (some right)) right (some tail)
    let heap ← replaceChild heap parent cur (some left)
    return { t with heap := setUp heap left (some parent) }

/-- `def_undefine`. -/
def defUndefine (name : CString) (t : MacroTable) : Option MacroTable := do
  match ← defLookup name t with
  | .magic _ => return t
  | .plain none => return t
  | .plain (some cur) => unlink t cur

/-- A directive. -/
inductive Directive
  /-- `define` with the text, the formal arguments and their default texts. -/
  | define (name : CString) (m : Macro)
  /-- `undef`. -/
  | undef (name : CString)

/-- The table after a directive. -/
def Directive.apply (t : MacroTable) : Directive → Option MacroTable
  | .define name m => defineMacro name m t
  | .undef name => defUndefine name t

/-- The table after some directives. -/
def applyAll (t : MacroTable) (ds : List Directive) : Option MacroTable :=
  ds.foldlM Directive.apply t

end Icarus.Ivlpp
