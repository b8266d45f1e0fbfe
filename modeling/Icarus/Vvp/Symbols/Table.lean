import Icarus.Core.LinkedTree
import Mathlib.Data.List.Lex
import Mathlib.Order.Fin.Basic
import Mathlib.Algebra.GroupWithZero.Nat

/-!
# The symbol table

A B-tree from keys to values. The cells are never freed, so a table has its cells in the
order of their allocation; the root is the first one. An access outside of the arrays of
a cell, and an assertion that fails, give no table.
-/

namespace Icarus.Vvp.Symbols

open Icarus.Core.LinkedTree

instance keyCharNeZero : NeZero 256 := ⟨by decide⟩

/-- A character of a key: any byte but the null at the end. -/
abbrev KeyChar := {c : Fin 256 // c ≠ 0}

/-- A key, less the null at its end. -/
abbrev Key := List KeyChar

/-- The sign of the comparison of two null terminated strings. -/
def strcmp : Key → Key → Int
  | [], [] => 0
  | [], _ :: _ => -1
  | _ :: _, [] => 1
  | a :: as, b :: bs => if a < b then -1 else if b < a then 1 else strcmp as bs

/-- The entries of a leaf. -/
def leafWidth : Nat := 254

/-- The children of an inner node. -/
def nodeWidth : Nat := 508

/-- The characters of a string chunk, beside the pointer to the next one. -/
def chunkSize : Nat := 64 * 1024 - 8

variable {V : Type}

/-- A node of the tree: a leaf with keys and values, or children. -/
abbrev TreeNode (V : Type) := Cell (Key × V)

/-- A symbol table. -/
structure SymbolTable (V : Type) where
  /-- The nodes. -/
  heap : Nat → TreeNode V
  /-- The number of nodes that are allocated. -/
  size : Nat
  /-- The number of string chunks behind the current one. -/
  fullChunks : Nat
  /-- The characters in use in the current string chunk. -/
  strUsed : Nat

/-- The address of the root. -/
def root : Nat := 0

/-- A new table: the root has no children. -/
def newSymbolTable : SymbolTable V := ⟨fun _ => ⟨none, .node []⟩, 1, 0, 0⟩

/-- Room for a key in the string chunks. -/
def keyStrdup (t : SymbolTable V) (str : Key) : Option (SymbolTable V) :=
  let len := str.length
  if len + 1 ≤ chunkSize then
    if len + 1 > chunkSize - t.strUsed then
      some { t with fullChunks := t.fullChunks + 1, strUsed := len + 1 }
    else some { t with strUsed := t.strUsed + (len + 1) }
  else none

/-- The largest key under a node. -/
def nodeLastKey (heap : Nat → TreeNode V) : Nat → Nat → Option Key
  | 0, _ => none
  | fuel + 1, node =>
    match (heap node).body with
    | .leaf items => items.getLast?.map Prod.fst
    | .node children => children.getLast?.bind (nodeLastKey heap fuel)

/-- A node gets other contents. -/
def setNode (heap : Nat → TreeNode V) (node : Nat) (cell : TreeNode V) : Nat → TreeNode V :=
  Function.update heap node cell

/-- Nodes get another parent. -/
def setParents (heap : Nat → TreeNode V) (children : List Nat) (parent : Nat) :
    Nat → TreeNode V := fun node =>
  if node ∈ children then ⟨some parent, (heap node).body⟩ else heap node

/-- The children with a new one behind a given one. -/
def insertAfter (cur new : Nat) : List Nat → Option (List Nat)
  | [] => none
  | child :: children =>
    if child = cur then some (child :: new :: children)
    else (insertAfter cur new children).map (child :: ·)

/-- The new node becomes the sibling behind the current one. -/
def hookSibling (t : SymbolTable V) (parent cur new : Nat) : Option (SymbolTable V) :=
  match (t.heap parent).body with
  | .leaf _ => none
  | .node children =>
    if children.length < nodeWidth then
      (insertAfter cur new children).map fun children' =>
        { t with heap := setNode t.heap parent ⟨(t.heap parent).parent, .node children'⟩ }
    else none

/-- Whether a node can be the parent of another. -/
def parentOk (t : SymbolTable V) : Option Nat → Bool
  | none => true
  | some parent => match (t.heap parent).body with
    | .leaf _ => false
    | .node _ => true

/-- The loop that splits full inner nodes, from a node on up to the root. -/
def splitNodeLoop : Nat → SymbolTable V → Nat → Option (SymbolTable V)
  | 0, _, _ => none
  | fuel + 1, t, cur =>
    match (t.heap cur).body with
    | .leaf _ => none
    | .node children =>
      if children.length ≠ nodeWidth then some t
      else
        let left := children.take (children.length - children.length / 2)
        let right := children.drop (children.length - children.length / 2)
        let newNode := t.size
        if right = [] ∨ left = [] then none
        else match (t.heap cur).parent with
          | none =>
            -- The root is split into two new nodes, and stays the root.
            let new2Node := t.size + 1
            let heap := setParents (setParents t.heap right newNode) left new2Node
            let heap := setNode heap newNode ⟨some cur, .node right⟩
            let heap := setNode heap new2Node ⟨some cur, .node left⟩
            let heap := setNode heap cur ⟨none, .node [new2Node, newNode]⟩
            some { t with heap := heap, size := t.size + 2 }
          | some parent =>
            let heap := setParents t.heap right newNode
            let heap := setNode heap newNode ⟨some parent, .node right⟩
            let heap := setNode heap cur ⟨some parent, .node left⟩
            (hookSibling { t with heap := heap, size := t.size + 1 } parent cur newNode).bind
              fun t' => splitNodeLoop fuel t' parent

/-- Split an inner node when it is full. -/
def splitNode (t : SymbolTable V) (cur : Nat) : Option (SymbolTable V) :=
  if parentOk t (t.heap cur).parent then splitNodeLoop (t.size + 1) t cur else none

/-- Whether an inner node is full. -/
def nodeFull (t : SymbolTable V) (node : Nat) : Bool :=
  match (t.heap node).body with
  | .leaf _ => false
  | .node children => children.length = nodeWidth

/-- Split a leaf into two: half of the entries move to a new leaf behind it. -/
def splitLeaf (t : SymbolTable V) (cur : Nat) : Option (SymbolTable V) :=
  match (t.heap cur).body, (t.heap cur).parent with
  | .leaf items, some parent =>
    let left := items.take (items.length - items.length / 2)
    let right := items.drop (items.length - items.length / 2)
    let newLeaf := t.size
    if right = [] ∨ left = [] then none
    else
      let heap := setNode t.heap newLeaf ⟨some parent, .leaf right⟩
      let heap := setNode heap cur ⟨some parent, .leaf left⟩
      (hookSibling { t with heap := heap, size := t.size + 1 } parent cur newLeaf).bind fun t' =>
        if nodeFull t' parent then splitNode t' parent else some t'
  | _, _ => none

/-- The loop over the entries of a leaf: whether the key is new, the entries, the value. -/
def leafEntries (key : Key) (val : V) (forceFlag : Bool) :
    List (Key × V) → Bool × List (Key × V) × V
  | [] => (true, [(key, val)], val)
  | (k, v) :: items =>
    let rc := strcmp key k
    if rc = 0 then
      let v' := if forceFlag then val else v
      (false, (k, v') :: items, v')
    else if rc < 0 then (true, (key, val) :: (k, v) :: items, val)
    else
      let (isNew, items', res) := leafEntries key val forceFlag items
      (isNew, (k, v) :: items', res)

/-- Find or set a key in a leaf. -/
def findInLeaf (t : SymbolTable V) (cur : Nat) (items : List (Key × V)) (key : Key) (val : V)
    (forceFlag : Bool) : Option (V × SymbolTable V) :=
  let (isNew, items', res) := leafEntries key val forceFlag items
  let parent := (t.heap cur).parent
  if isNew then
    if items.length < leafWidth then
      (keyStrdup t key).bind fun t =>
        let t := { t with heap := setNode t.heap cur ⟨parent, .leaf items'⟩ }
        if items'.length = leafWidth then (splitLeaf t cur).map fun t => (res, t)
        else some (res, t)
    else none
  else some (res, { t with heap := setNode t.heap cur ⟨parent, .leaf items'⟩ })

/-- The binary search within an inner node, for the index of the child to go on with. -/
def childIndex (lastKey : Nat → Option Key) (count : Nat) (key : Key) :
    Nat → Nat → Nat → Nat → Option Nat
  | 0, _, _, _ => none
  | fuel + 1, min, max, idx =>
    (lastKey idx).bind fun last =>
      let rc := strcmp key last
      if rc = 0 then some idx
      else if rc > 0 then
        let min := idx + 1
        if min = count then some idx
        else if min = max then some max
        else childIndex lastKey count key fuel min max (min + (max - min) / 2)
      else
        let max := idx
        if idx = min then some idx
        else childIndex lastKey count key fuel min max (min + (max - min) / 2)

/-- Search the tree for a key; a key that is not there is added. -/
def findValue : Nat → SymbolTable V → Nat → Key → V → Bool → Option (V × SymbolTable V)
  | 0, _, _, _, _, _ => none
  | fuel + 1, t, cur, key, val, forceFlag =>
    match (t.heap cur).body with
    | .leaf items => findInLeaf t cur items key val forceFlag
    | .node children =>
      let count := children.length
      let lastKey := fun idx => children[idx]?.bind (nodeLastKey t.heap t.size)
      (childIndex lastKey count key (count + 1) 0 count (count / 2)).bind fun idx =>
        children[idx]?.bind fun child => findValue fuel t child key val forceFlag

/-- The first value of a table makes the first leaf. -/
def firstLeaf (t : SymbolTable V) (key : Key) (val : V) : Option (SymbolTable V) :=
  (keyStrdup t key).map fun t =>
    let cur := t.size
    let heap := setNode t.heap cur ⟨some root, .leaf [(key, val)]⟩
    let heap := setNode heap root ⟨(t.heap root).parent, .node [cur]⟩
    { t with heap := heap, size := t.size + 1 }

/-- Whether the root has no children yet. -/
def rootEmpty (t : SymbolTable V) : Bool :=
  match (t.heap root).body with
  | .leaf items => items.isEmpty
  | .node children => children.isEmpty

/-- Set the value of a key. -/
def symSetValue (t : SymbolTable V) (key : Key) (val : V) : Option (SymbolTable V) :=
  if rootEmpty t then firstLeaf t key val
  else (findValue (t.size + 1) t root key val true).map Prod.snd

/-- The value of a key; one that is not there yet gets the null value. -/
def symGetValue (null : V) (t : SymbolTable V) (key : Key) : Option (V × SymbolTable V) :=
  if rootEmpty t then (firstLeaf t key null).map fun t => (null, t)
  else findValue (t.size + 1) t root key null false

/-! ## Runs -/

/-- A call of the table. -/
inductive Call (V : Type)
  | set (key : Key) (val : V)
  | get (key : Key)

/-- The key of a call. -/
def Call.key : Call V → Key
  | .set key _ => key
  | .get key => key

/-- One call. -/
def Call.exec (null : V) (t : SymbolTable V) : Call V → Option (SymbolTable V)
  | .set key val => symSetValue t key val
  | .get key => (symGetValue null t key).map Prod.snd

/-- A sequence of calls. -/
def runCalls (null : V) : SymbolTable V → List (Call V) → Option (SymbolTable V)
  | t, [] => some t
  | t, c :: cs => (c.exec null t).bind fun t' => runCalls null t' cs

end Icarus.Vvp.Symbols
