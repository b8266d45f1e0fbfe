import Icarus.Core.Loop
import Icarus.Vvp.Strength

/-!
# User defined primitives

The rows of a primitive are compiled into tables of masks: one mask for each
value, one bit for each input, and one more for the current output where the
primitive is sequential. An assertion that fails and a shift of an `int` by its
width are `none`.
-/

namespace Icarus.Vvp.Udp

open Icarus.Core

/-- The values that rows tell apart: X and Z are one. -/
inductive Value
  | zero | one | x
  deriving DecidableEq, Repr

/-- The value of a bit. -/
def Value.ofBit4 : Bit4 → Value
  | .zero => .zero
  | .one => .one
  | _ => .x

/-- The bit of a value. -/
def Value.toBit4 : Value → Bit4
  | .zero => .zero
  | .one => .one
  | .x => .x

/-- The letters of a row. -/
inductive Letter
  /-- `0`. -/
  | zero
  /-- `1`. -/
  | one
  /-- `x`. -/
  | x
  /-- `b`: 0 or 1. -/
  | b
  /-- `l`: 0 or x. -/
  | l
  /-- `h`: x or 1. -/
  | h
  /-- `?`: 0, x or 1. -/
  | any
  /-- `B`: (x?) edge. -/
  | B
  /-- `f`: (10) edge. -/
  | f
  /-- `F`: (x0) edge. -/
  | F
  /-- `M`: (1x) edge. -/
  | M
  /-- `N`: (1x) and (10) edge. -/
  | N
  /-- `P`: (0x) and (01) edge. -/
  | P
  /-- `q`: (bx) edge. -/
  | q
  /-- `Q`: (0x) edge. -/
  | Q
  /-- `r`: (01) edge. -/
  | r
  /-- `R`: (x1) edge. -/
  | R
  /-- `%`: (?x) edge. -/
  | toX
  /-- `+`: (?1) edge. -/
  | toOne
  /-- `_`: (?0) edge. -/
  | toZero
  /-- `n`: any edge down. -/
  | n
  /-- `p`: any edge up. -/
  | p
  /-- `*`: any edge. -/
  | star
  deriving DecidableEq, Repr

/-- The letter is in `01xblh?`. -/
def Letter.isLevel : Letter → Bool
  | .zero | .one | .x | .b | .l | .h | .any => true
  | _ => false

/-- A row of a combinational primitive: the inputs and the output. -/
structure CombRow where
  /-- The letters of the inputs. -/
  inputs : List Letter
  /-- The output. -/
  out : Value

/-- A row of a sequential primitive: current output, inputs and next output. -/
structure SeqRow where
  /-- The letter of the current output. -/
  cur : Letter
  /-- The letters of the inputs. -/
  inputs : List Letter
  /-- The next output; `-`, no change, is none. -/
  out : Option Value

/-! ## Masks -/

/-- `udp_levels_table`. -/
structure LevelsTable where
  /-- `mask0`. -/
  mask0 : BitVec 64
  /-- `mask1`. -/
  mask1 : BitVec 64
  /-- `maskx`. -/
  maskx : BitVec 64
  deriving DecidableEq

/-- `udp_edges_table`. -/
structure EdgesTable where
  /-- `mask0`, `mask1` and `maskx`. -/
  levels : LevelsTable
  /-- `edge_position`. -/
  edgePosition : Nat
  /-- `edge_mask0`. -/
  edgeMask0 : Bool
  /-- `edge_mask1`. -/
  edgeMask1 : Bool
  /-- `edge_maskx`. -/
  edgeMaskx : Bool

/-- No bits. -/
def LevelsTable.clear : LevelsTable := ⟨0, 0, 0⟩

/-- No bits and no edge. -/
def EdgesTable.clear : EdgesTable := ⟨.clear, 0, false, false, false⟩

/-- `mask0 |= mask_bit`. -/
def LevelsTable.or0 (t : LevelsTable) (maskBit : BitVec 64) : LevelsTable :=
  { t with mask0 := t.mask0 ||| maskBit }

/-- `mask1 |= mask_bit`. -/
def LevelsTable.or1 (t : LevelsTable) (maskBit : BitVec 64) : LevelsTable :=
  { t with mask1 := t.mask1 ||| maskBit }

/-- `maskx |= mask_bit`. -/
def LevelsTable.orx (t : LevelsTable) (maskBit : BitVec 64) : LevelsTable :=
  { t with maskx := t.maskx ||| maskBit }

/-- `or_based_on_char`. -/
def orBasedOnChar (cur : LevelsTable) (flag : Letter) (maskBit : BitVec 64) : Option LevelsTable :=
  match flag with
  | .zero => some (cur.or0 maskBit)
  | .one => some (cur.or1 maskBit)
  | .x => some (cur.orx maskBit)
  | .b => some ((cur.or0 maskBit).or1 maskBit)
  | .l => some ((cur.or0 maskBit).orx maskBit)
  | .h => some ((cur.orx maskBit).or1 maskBit)
  | .any => some (((cur.or0 maskBit).orx maskBit).or1 maskBit)
  | _ => none

/-- `edge_based_on_char`. -/
def edgeBasedOnChar (cur : EdgesTable) (chr : Letter) (pos : Nat) : Option EdgesTable :=
  let maskBit := (1 : BitVec 64) <<< pos
  match chr with
  | .zero => some { cur with levels := cur.levels.or0 maskBit }
  | .one => some { cur with levels := cur.levels.or1 maskBit }
  | .x => some { cur with levels := cur.levels.orx maskBit }
  | .b => some { cur with levels := (cur.levels.or0 maskBit).or1 maskBit }
  | .l => some { cur with levels := (cur.levels.or0 maskBit).orx maskBit }
  | .h => some { cur with levels := (cur.levels.orx maskBit).or1 maskBit }
  | .any => some { cur with levels := ((cur.levels.or0 maskBit).orx maskBit).or1 maskBit }
  | .B => some ⟨(cur.levels.or0 maskBit).or1 maskBit, pos, false, false, true⟩
  | .f => some ⟨cur.levels.or0 maskBit, pos, false, true, false⟩
  | .F => some ⟨cur.levels.or0 maskBit, pos, false, false, true⟩
  | .M => some ⟨cur.levels.orx maskBit, pos, false, true, false⟩
  | .N => some ⟨(cur.levels.or0 maskBit).orx maskBit, pos, false, true, false⟩
  | .P => some ⟨(cur.levels.orx maskBit).or1 maskBit, pos, true, false, false⟩
  | .q => some ⟨cur.levels.orx maskBit, pos, true, true, false⟩
  | .Q => some ⟨cur.levels.orx maskBit, pos, true, false, false⟩
  | .r => some ⟨cur.levels.or1 maskBit, pos, true, false, false⟩
  | .R => some ⟨cur.levels.or1 maskBit, pos, false, false, true⟩
  | .toX => some ⟨cur.levels.orx maskBit, pos, true, true, false⟩
  | .toOne => some ⟨cur.levels.or1 maskBit, pos, true, false, true⟩
  | .toZero => some ⟨cur.levels.or0 maskBit, pos, false, true, true⟩
  | _ => none

/-- The loop over the inputs of a row of levels, from input `pp`. -/
def levelLoop (cur : LevelsTable) : List Letter → Nat → Option LevelsTable
  | [], _ => some cur
  | flag :: inputs, pp => do
    let cur ← orBasedOnChar cur flag ((1 : BitVec 64) <<< pp)
    levelLoop cur inputs (pp + 1)

/-! ## Compiling -/

/-- The tables of `vvp_udp_comb_s`. -/
structure CombTables where
  /-- `levels0_`. -/
  levels0 : List LevelsTable
  /-- `levels1_`. -/
  levels1 : List LevelsTable

/-- The tables of `vvp_udp_seq_s`. -/
structure SeqTables where
  /-- `levels0_`. -/
  levels0 : List LevelsTable
  /-- `levels1_`. -/
  levels1 : List LevelsTable
  /-- `levelsx_`. -/
  levelsx : List LevelsTable
  /-- `levelsL_`. -/
  levelsL : List LevelsTable
  /-- `edges0_`. -/
  edges0 : List EdgesTable
  /-- `edges1_`. -/
  edges1 : List EdgesTable
  /-- `edgesL_`. -/
  edgesL : List EdgesTable

/-- A row of `vvp_udp_comb_s::compile_table`. -/
def compileCombRow (ports : Nat) (t : CombTables) (row : CombRow) : Option CombTables := do
  guard (row.inputs.length = ports)
  guard (ports ≤ 64)
  let cur ← levelLoop .clear row.inputs 0
  match row.out with
  | .zero => return { t with levels0 := t.levels0 ++ [cur] }
  | .one => return { t with levels1 := t.levels1 ++ [cur] }
  | .x => return t

/-- `vvp_udp_comb_s::compile_table`. -/
def compileComb (ports : Nat) (rows : List CombRow) : Option CombTables :=
  rows.foldlM (compileCombRow ports) ⟨[], []⟩

/-- A row of levels: `strspn(row, "01xblh?")` reaches its end. -/
def SeqRow.isLevel (row : SeqRow) : Bool := row.cur.isLevel && row.inputs.all Letter.isLevel

/-- The tables that a row of edges is compiled into, and which of them are needed. -/
structure Expansion where
  /-- `cur`. -/
  cur : EdgesTable
  /-- `ext0`. -/
  ext0 : EdgesTable
  /-- `need_ext0_table`. -/
  needExt0 : Bool
  /-- `ext1`. -/
  ext1 : EdgesTable
  /-- `need_ext1_table`. -/
  needExt1 : Bool

/-- The tables that are needed. -/
def Expansion.tables (e : Expansion) : List EdgesTable :=
  [e.cur] ++ (if e.needExt0 then [e.ext0] else []) ++ if e.needExt1 then [e.ext1] else []

/-- The body of the loop over the inputs of a row of edges. -/
def edgeBody (e : Expansion) (letter : Letter) (pp : Nat) : Option Expansion :=
  match letter with
  | .n => do
    let cur ← edgeBasedOnChar e.cur .N pp
    let ext0 ← edgeBasedOnChar e.ext0 .toZero pp
    return { e with cur := cur, ext0 := ext0, needExt0 := true }
  | .p => do
    let cur ← edgeBasedOnChar e.cur .P pp
    let ext0 ← edgeBasedOnChar e.ext0 .toOne pp
    return { e with cur := cur, ext0 := ext0, needExt0 := true }
  | .star => do
    let cur ← edgeBasedOnChar e.cur .P pp
    let ext0 ← edgeBasedOnChar e.ext0 .N pp
    let ext1 ← edgeBasedOnChar e.ext1 .B pp
    return ⟨cur, ext0, true, ext1, true⟩
  | letter => do
    let cur ← edgeBasedOnChar e.cur letter pp
    let ext0 ← edgeBasedOnChar e.ext0 letter pp
    let ext1 ← edgeBasedOnChar e.ext1 letter pp
    return { e with cur := cur, ext0 := ext0, ext1 := ext1 }

/-- The loop over the inputs of a row of edges, from input `pp`. -/
def edgeLoop (e : Expansion) : List Letter → Nat → Option Expansion
  | [], _ => some e
  | letter :: inputs, pp => do
    let e ← edgeBody e letter pp
    edgeLoop e inputs (pp + 1)

/-- The tables of a row of edges. -/
def edgeTables (ports : Nat) (row : SeqRow) : Option (List EdgesTable) := do
  let e ← edgeLoop ⟨.clear, .clear, false, .clear, false⟩ row.inputs 0
  let cur ← edgeBasedOnChar e.cur row.cur ports
  let ext0 ← edgeBasedOnChar e.ext0 row.cur ports
  let ext1 ← edgeBasedOnChar e.ext1 row.cur ports
  return Expansion.tables { e with cur := cur, ext0 := ext0, ext1 := ext1 }

/-- How many tables are allocated for a row of edges. -/
def edgeCount (row : SeqRow) : Nat :=
  1 + if .star ∈ row.inputs then 2 else if .n ∈ row.inputs ∨ .p ∈ row.inputs then 1 else 0

/-- A row of `vvp_udp_seq_s::compile_table`; the tables of a row fill what was allocated for it. -/
def compileSeqRow (ports : Nat) (t : SeqTables) (row : SeqRow) : Option SeqTables := do
  guard (row.inputs.length = ports)
  if row.isLevel then
    let cur ← levelLoop .clear row.inputs 0
    let cur ← orBasedOnChar cur row.cur ((1 : BitVec 64) <<< ports)
    match row.out with
    | some .zero => return { t with levels0 := t.levels0 ++ [cur] }
    | some .one => return { t with levels1 := t.levels1 ++ [cur] }
    | some .x => return { t with levelsx := t.levelsx ++ [cur] }
    | none => return { t with levelsL := t.levelsL ++ [cur] }
  else
    let edges ← edgeTables ports row
    guard (row.out = some .x ∨ edges.length = edgeCount row)
    match row.out with
    | some .zero => return { t with edges0 := t.edges0 ++ edges }
    | some .one => return { t with edges1 := t.edges1 ++ edges }
    | some .x => return t
    | none => return { t with edgesL := t.edgesL ++ edges }

/-- `vvp_udp_seq_s::compile_table`. -/
def compileSeq (ports : Nat) (rows : List SeqRow) : Option SeqTables :=
  rows.foldlM (compileSeqRow ports) ⟨[], [], [], [], [], [], []⟩

/-! ## The output -/

/-- The bits of the current table are all in the row. -/
def covers (cur row : LevelsTable) : Bool :=
  cur.mask0 = cur.mask0 &&& row.mask0 ∧ cur.mask1 = cur.mask1 &&& row.mask1 ∧
    cur.maskx = cur.maskx &&& row.maskx

/-- `vvp_udp_comb_s::test_levels`. -/
def CombTables.testLevels (t : CombTables) (cur : LevelsTable) : Bit4 :=
  if t.levels0.any (covers cur) then .zero
  else if t.levels1.any (covers cur) then .one
  else .x

/-- `1 << port_count()`, which is of type `int`. -/
def intBit (ports : Nat) : Option (BitVec 64) :=
  if ports < 32 then some (((1 : BitVec 32) <<< ports).signExtend 64) else none

/-- The current output, from the bit of the table behind the inputs. -/
def currentOutput (ports : Nat) (cur : LevelsTable) : Option Bit4 := do
  let bit ← intBit ports
  if cur.mask0 &&& bit ≠ 0 then return .zero
  if cur.mask1 &&& bit ≠ 0 then return .one
  guard (cur.maskx &&& bit ≠ 0)
  return .x

/-- `vvp_udp_seq_s::test_levels_`. -/
def SeqTables.testLevels (t : SeqTables) (ports : Nat) (cur : LevelsTable) : Option Bit4 :=
  if t.levels0.any (covers cur) then some .zero
  else if t.levels1.any (covers cur) then some .one
  else if t.levelsx.any (covers cur) then some .x
  else if t.levelsL.any (covers cur) then currentOutput ports cur
  else some .z

/-- The loop that looks for the position of the edge. -/
def edgePositionLoop : Nat → BitVec 64 → Nat → Option (BitVec 64 × Nat)
  | 0, _, _ => none
  | fuel + 1, edgeMask, edgePosition =>
    if edgeMask &&& 1 = 0 then edgePositionLoop fuel (edgeMask >>> 1) (edgePosition + 1)
    else some (edgeMask, edgePosition)

/-- A row of edges matches. -/
def EdgesTable.test (row : EdgesTable) (edgePosition : Nat) (edge0 edgex edge1 : Bool)
    (cur : LevelsTable) : Bool :=
  row.edgePosition = edgePosition && !(edge0 && !row.edgeMask0) && !(edgex && !row.edgeMaskx) &&
    !(edge1 && !row.edgeMask1) && covers cur row.levels

/-- `vvp_udp_seq_s::test_edges_`. -/
def SeqTables.testEdges (t : SeqTables) (ports : Nat) (cur prev : LevelsTable) : Option Bit4 :=
  let edgeMask := (cur.mask0 ^^^ prev.mask0) ||| (cur.maskx ^^^ prev.maskx) |||
    (cur.mask1 ^^^ prev.mask1)
  let edgeMask := edgeMask &&& ~~~((-1 : BitVec 64) <<< ports)
  if edgeMask = 0 then some .x
  else do
    let (edgeMask, edgePosition) ← edgePositionLoop 64 edgeMask 0
    guard (edgeMask = 1)
    let edgeMask := (1 : BitVec 64) <<< edgePosition
    let edge0 : Bool := prev.mask0 &&& edgeMask ≠ 0
    let edgex : Bool := prev.maskx &&& edgeMask ≠ 0
    let edge1 : Bool := prev.mask1 &&& edgeMask ≠ 0
    if t.edges0.any (·.test edgePosition edge0 edgex edge1 cur) then return .zero
    if t.edges1.any (·.test edgePosition edge0 edgex edge1 cur) then return .one
    if t.edgesL.any (·.test edgePosition edge0 edgex edge1 cur) then currentOutput ports cur
    else return .x

/-- `cur_tmp` of `vvp_udp_seq_s::calculate_output`. -/
def LevelsTable.withOutput (cur : LevelsTable) (ports : Nat) : Bit4 → LevelsTable
  | .zero => cur.or0 ((1 : BitVec 64) <<< ports)
  | .one => cur.or1 ((1 : BitVec 64) <<< ports)
  | _ => cur.orx ((1 : BitVec 64) <<< ports)

/-- `vvp_udp_seq_s::calculate_output`. -/
def SeqTables.calculateOutput (t : SeqTables) (ports : Nat) (cur prev : LevelsTable)
    (curOut : Bit4) : Option Bit4 :=
  if cur = prev then some curOut
  else do
    let curTmp := cur.withOutput ports curOut
    let lev ← t.testLevels ports curTmp
    if lev = .z then t.testEdges ports curTmp prev else return lev

/-- The definition of a primitive, with its rows. -/
inductive Definition
  /-- A combinational primitive. -/
  | comb (rows : List CombRow)
  /-- A sequential primitive, with its initial output. -/
  | seq (init : Value) (rows : List SeqRow)

/-- `vvp_udp_s`, compiled. -/
inductive Compiled
  /-- `vvp_udp_comb_s`. -/
  | comb (tables : CombTables)
  /-- `vvp_udp_seq_s`. -/
  | seq (init : Value) (tables : SeqTables)

/-- `compile_table`. -/
def compileTable (ports : Nat) : Definition → Option Compiled
  | .comb rows => (compileComb ports rows).map .comb
  | .seq init rows => (compileSeq ports rows).map (.seq init)

/-- `get_init`. -/
def Compiled.getInit : Compiled → Bit4
  | .comb _ => .x
  | .seq init _ => init.toBit4

/-- `calculate_output`. -/
def Compiled.calculateOutput (u : Compiled) (ports : Nat) (cur prev : LevelsTable) (curOut : Bit4) :
    Option Bit4 :=
  match u with
  | .comb tables => some (tables.testLevels cur)
  | .seq _ tables => tables.calculateOutput ports cur prev curOut

/-- The state of `vvp_udp_fun_core`. -/
structure Core where
  /-- `current_`. -/
  current : LevelsTable
  /-- `cur_out_`. -/
  curOut : Bit4

/-- `vvp_udp_fun_core::vvp_udp_fun_core`. -/
def Compiled.start (u : Compiled) (ports : Nat) : Core where
  current := ⟨0, 0, ~~~((-1 : BitVec 64) <<< ports)⟩
  curOut := u.getInit

/-- The bits of a port, set by `recv_vec4_from_inputs`. -/
def LevelsTable.receive (t : LevelsTable) (port : Nat) (value : Bit4) : LevelsTable :=
  let mask := (1 : BitVec 64) <<< port
  match value with
  | .zero => ⟨t.mask0 ||| mask, t.mask1 &&& ~~~mask, t.maskx &&& ~~~mask⟩
  | .one => ⟨t.mask0 &&& ~~~mask, t.mask1 ||| mask, t.maskx &&& ~~~mask⟩
  | _ => ⟨t.mask0 &&& ~~~mask, t.mask1 &&& ~~~mask, t.maskx ||| mask⟩

/-- `vvp_udp_fun_core::recv_vec4_from_inputs`: a port gets a value. -/
def Compiled.recv (u : Compiled) (ports : Nat) (core : Core) (event : Nat × Bit4) : Option Core := do
  let prev := core.current
  let current := prev.receive event.1 event.2
  let outBit ← u.calculateOutput ports current prev core.curOut
  return ⟨current, outBit⟩

end Icarus.Vvp.Udp
