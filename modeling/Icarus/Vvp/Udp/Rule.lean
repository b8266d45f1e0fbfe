import Icarus.Vvp.Udp.Table

/-!
# What the rows of a primitive say

Each letter names the levels or the edges it stands for. A row of levels applies
to the new inputs and the current output, a row of edges to the change of one
input; rows of levels come first, and where no row applies the output is X.
-/

namespace Icarus.Vvp.Udp

/-- The levels of a letter. -/
def Letter.level : Letter → Value → Bool
  | .zero, v => v = .zero
  | .one, v => v = .one
  | .x, v => v = .x
  | .b, v => v ≠ .x
  | .l, v => v ≠ .one
  | .h, v => v ≠ .zero
  | .any, _ => true
  | _, _ => false

/-- The edges of a letter, from a value to another one. -/
def Letter.edge : Letter → Value → Value → Bool
  | .B, u, v => u = .x ∧ v ≠ .x
  | .f, u, v => u = .one ∧ v = .zero
  | .F, u, v => u = .x ∧ v = .zero
  | .M, u, v => u = .one ∧ v = .x
  | .N, u, v => u = .one ∧ v ≠ .one
  | .P, u, v => u = .zero ∧ v ≠ .zero
  | .q, u, v => u ≠ .x ∧ v = .x
  | .Q, u, v => u = .zero ∧ v = .x
  | .r, u, v => u = .zero ∧ v = .one
  | .R, u, v => u = .x ∧ v = .one
  | .toX, u, v => u ≠ .x ∧ v = .x
  | .toOne, u, v => u ≠ .one ∧ v = .one
  | .toZero, u, v => u ≠ .zero ∧ v = .zero
  | .n, u, v => (u = .one ∧ v ≠ .one) ∨ (u = .x ∧ v = .zero)
  | .p, u, v => (u = .zero ∧ v ≠ .zero) ∨ (u = .x ∧ v = .one)
  | .star, u, v => u ≠ v
  | _, _, _ => false

/-- Inputs and output of a primitive. -/
structure State where
  /-- The inputs. -/
  ins : Nat → Value
  /-- The output. -/
  out : Value

/-- A row of levels applies to the inputs. -/
def CombRow.applies (row : CombRow) (ins : Nat → Value) : Bool :=
  row.inputs.zipIdx.all fun a => a.1.level (ins a.2)

/-- A row of levels applies to the inputs and the current output. -/
def SeqRow.levelApplies (row : SeqRow) (ins : Nat → Value) (out : Value) : Bool :=
  row.cur.level out && row.inputs.zipIdx.all fun a => a.1.level (ins a.2)

/-- A row of edges applies to the change of input `p` from `u`, to the other inputs and the current
output. -/
def SeqRow.edgeApplies (row : SeqRow) (p : Nat) (u : Value) (ins : Nat → Value) (out : Value) :
    Bool :=
  row.cur.level out && row.inputs.zipIdx.all fun a =>
    if a.2 = p then a.1.edge u (ins p) else a.1.level (ins a.2)

/-- The output after a row: `-` keeps it. -/
def SeqRow.next (row : SeqRow) (out : Value) : Value := row.out.getD out

/-- The output of a table after input `p` has changed from `u`. -/
def nextOutput (rows : List SeqRow) (p : Nat) (u : Value) (ins : Nat → Value) (out : Value) :
    Value :=
  match rows.find? (·.levelApplies ins out) with
  | some row => row.next out
  | none =>
    match rows.find? (·.edgeApplies p u ins out) with
    | some row => row.next out
    | none => .x

/-- A row has the inputs of the primitive and no edges. -/
def CombRow.Valid (ports : Nat) (row : CombRow) : Prop :=
  row.inputs.length = ports ∧ row.inputs.all Letter.isLevel

/-- A row has the inputs of the primitive and no more than one edge. -/
def SeqRow.Valid (ports : Nat) (row : SeqRow) : Prop :=
  row.inputs.length = ports ∧ row.cur.isLevel ∧
    (row.inputs.filter fun letter => !letter.isLevel).length ≤ 1

/-- Only a row with `-` decides the output: a row of levels and none that has an output, or a row of
edges and none that has output 0 or 1. -/
def Keeps (rows : List SeqRow) (p : Nat) (u : Value) (ins : Nat → Value) (out : Value) : Prop :=
  ((∃ row ∈ rows, row.levelApplies ins out) ∧
      ∀ row ∈ rows, row.levelApplies ins out → row.out = none) ∨
    ((∀ row ∈ rows, ¬ row.levelApplies ins out) ∧
      (∃ row ∈ rows, row.edgeApplies p u ins out ∧ row.out = none) ∧
      ∀ row ∈ rows, row.edgeApplies p u ins out → row.out = none ∨ row.out = some .x)

namespace Definition

/-- At first all inputs are X. -/
def start : Definition → State
  | comb _ => ⟨fun _ => .x, .x⟩
  | seq init _ => ⟨fun _ => .x, init⟩

/-- An input gets a value. -/
def step (d : Definition) (s : State) (event : Nat × Bit4) : State :=
  let ins := Function.update s.ins event.1 (Value.ofBit4 event.2)
  match d with
  | comb rows =>
    match rows.find? (·.applies ins) with
    | some row => ⟨ins, row.out⟩
    | none => ⟨ins, .x⟩
  | seq _ rows =>
    if ins event.1 = s.ins event.1 then ⟨ins, s.out⟩
    else ⟨ins, nextOutput rows event.1 (s.ins event.1) ins s.out⟩

/-- All rows are valid. -/
def Valid (ports : Nat) : Definition → Prop
  | comb rows => ∀ row ∈ rows, row.Valid ports
  | seq _ rows => ∀ row ∈ rows, row.Valid ports

/-- Rows that apply together agree: rows of levels, and where none applies rows of edges. -/
def Consistent : Definition → Prop
  | comb rows => ∀ ins, ∀ r ∈ rows, ∀ r' ∈ rows, r.applies ins → r'.applies ins → r.out = r'.out
  | seq _ rows => ∀ ins out,
      (∀ r ∈ rows, ∀ r' ∈ rows, r.levelApplies ins out → r'.levelApplies ins out →
        r.next out = r'.next out) ∧
      ((∀ r ∈ rows, ¬ r.levelApplies ins out) → ∀ p u, ∀ r ∈ rows, ∀ r' ∈ rows,
        r.edgeApplies p u ins out → r'.edgeApplies p u ins out → r.next out = r'.next out)

/-- An input gets another value and only a row with `-` decides the output. -/
def KeepsByRow : Definition → State → Nat × Bit4 → Prop
  | comb _, _, _ => False
  | seq _ rows, s, event =>
    let ins := Function.update s.ins event.1 (Value.ofBit4 event.2)
    ins event.1 ≠ s.ins event.1 ∧ Keeps rows event.1 (s.ins event.1) ins s.out

end Definition

/-! ## Masks and letters

A table has a value at a position if the bit is set. A row that is compiled has
the values of its letters, and a row of edges also the values that the edge
starts from; a letter for several edges makes several tables. -/

/-- The table has a value at a position. -/
def LevelsTable.has (t : LevelsTable) (i : Nat) : Value → Bool
  | .zero => t.mask0.getLsbD i
  | .one => t.mask1.getLsbD i
  | .x => t.maskx.getLsbD i

theorem getLsbD_bit {pos : Nat} (hpos : pos < 64) (i : Nat) :
    ((1 : BitVec 64) <<< pos).getLsbD i = decide (i = pos) := by
  rw [Bool.eq_iff_iff, BitVec.getLsbD_shiftLeft, show (1 : BitVec 64) = 1#64 from rfl]
  simp only [BitVec.getLsbD_one, Bool.and_eq_true, Bool.not_eq_true', decide_eq_true_eq,
    decide_eq_false_iff_not]
  omega

section Bits

variable {pos : Nat} (hpos : pos < 64) (t : LevelsTable) (i : Nat) (v : Value)
include hpos

theorem has_or0 : (t.or0 ((1 : BitVec 64) <<< pos)).has i v =
    (t.has i v || decide (i = pos) && decide (v = .zero)) := by
  cases v <;> simp only [LevelsTable.has, LevelsTable.or0, BitVec.getLsbD_or, getLsbD_bit hpos] <;>
    simp

theorem has_or1 : (t.or1 ((1 : BitVec 64) <<< pos)).has i v =
    (t.has i v || decide (i = pos) && decide (v = .one)) := by
  cases v <;> simp only [LevelsTable.has, LevelsTable.or1, BitVec.getLsbD_or, getLsbD_bit hpos] <;>
    simp

theorem has_orx : (t.orx ((1 : BitVec 64) <<< pos)).has i v =
    (t.has i v || decide (i = pos) && decide (v = .x)) := by
  cases v <;> simp only [LevelsTable.has, LevelsTable.orx, BitVec.getLsbD_or, getLsbD_bit hpos] <;>
    simp

end Bits

theorem has_clear (i : Nat) (v : Value) : LevelsTable.clear.has i v = false := by
  cases v <;> simp [LevelsTable.has, LevelsTable.clear]

/-- Tables with the same values are equal. -/
theorem eq_of_has {s t : LevelsTable} (h : ∀ i < 64, ∀ v, s.has i v = t.has i v) : s = t := by
  have hmask : ∀ v, ∀ i < 64, s.has i v = t.has i v := fun v i hi => h i hi v
  obtain ⟨s0, s1, sx⟩ := s
  obtain ⟨t0, t1, tx⟩ := t
  rw [LevelsTable.mk.injEq]
  exact ⟨BitVec.eq_of_getLsbD_eq (hmask .zero), BitVec.eq_of_getLsbD_eq (hmask .one),
    BitVec.eq_of_getLsbD_eq (hmask .x)⟩

private theorem eq_and_iff (a b : BitVec 64) :
    a = a &&& b ↔ ∀ i, a.getLsbD i = true → b.getLsbD i = true := by
  constructor
  · intro h i ha
    rw [h, BitVec.getLsbD_and, Bool.and_eq_true] at ha
    exact ha.2
  · intro h
    apply BitVec.eq_of_getLsbD_eq
    intro i _
    rw [BitVec.getLsbD_and]
    cases ha : a.getLsbD i with
    | false => rfl
    | true => rw [h i ha]; rfl

/-- A row covers a table if it has all values that the table has. -/
theorem covers_iff (cur row : LevelsTable) :
    covers cur row = true ↔ ∀ i v, cur.has i v = true → row.has i v = true := by
  rw [covers, decide_eq_true_eq, eq_and_iff, eq_and_iff, eq_and_iff]
  constructor
  · rintro ⟨h0, h1, hx⟩ i (_ | _ | _)
    exacts [h0 i, h1 i, hx i]
  · intro h
    exact ⟨fun i => h i .zero, fun i => h i .one, fun i => h i .x⟩

/-! ## Letters -/

/-- The values that an edge ends with; for a letter of levels, the levels. -/
def Letter.news : Letter → Value → Bool
  | .B, v => v ≠ .x
  | .f, v | .F, v | .toZero, v => v = .zero
  | .M, v | .q, v | .Q, v | .toX, v => v = .x
  | .N, v => v ≠ .one
  | .P, v => v ≠ .zero
  | .r, v | .R, v | .toOne, v => v = .one
  | letter, v => letter.level v

/-- The values that an edge starts from. -/
def Letter.olds : Letter → Value → Bool
  | .B, u | .F, u | .R, u => u = .x
  | .f, u | .M, u | .N, u => u = .one
  | .P, u | .Q, u | .r, u => u = .zero
  | .q, u | .toX, u => u ≠ .x
  | .toOne, u => u ≠ .one
  | .toZero, u => u ≠ .zero
  | _, _ => false

/-- The letters of the tables that a letter makes. -/
def Letter.parts : Letter → List Letter
  | .n => [.N, .toZero]
  | .p => [.P, .toOne]
  | .star => [.P, .N, .B]
  | letter => [letter]

/-- An edge is one of the edges of the parts. -/
theorem edge_eq_parts (letter : Letter) (u v : Value) :
    letter.edge u v = letter.parts.any fun part => part.olds u && part.news v := by
  cases letter <;> cases u <;> cases v <;> rfl

/-- The edges that a table asks for. -/
def EdgesTable.old (t : EdgesTable) : Value → Bool
  | .zero => t.edgeMask0
  | .one => t.edgeMask1
  | .x => t.edgeMaskx

/-- A letter adds its levels. -/
theorem orBasedOnChar_spec {letter : Letter} (hl : letter.isLevel = true) {pos : Nat}
    (hpos : pos < 64) (t : LevelsTable) :
    ∃ t', orBasedOnChar t letter ((1 : BitVec 64) <<< pos) = some t' ∧
      ∀ i v, t'.has i v = (t.has i v || decide (i = pos) && letter.level v) := by
  cases letter <;> first
    | exact absurd hl Bool.false_ne_true
    | (refine ⟨_, rfl, fun i v => ?_⟩
       simp only [has_or0 hpos, has_or1 hpos, has_orx hpos, Letter.level] <;> cases v <;> simp)

/-- A letter of levels adds its levels, and a letter of edges sets the edge too. -/
theorem edgeBasedOnChar_spec {letter : Letter} (hl : letter.parts = [letter]) {pos : Nat}
    (hpos : pos < 64) (t : EdgesTable) : ∃ t', edgeBasedOnChar t letter pos = some t' ∧
      (∀ i v, t'.levels.has i v = (t.levels.has i v || decide (i = pos) && letter.news v)) ∧
      (letter.isLevel = true → t'.edgePosition = t.edgePosition ∧ t'.old = t.old) ∧
      (letter.isLevel = false → t'.edgePosition = pos ∧ t'.old = letter.olds) := by
  cases letter <;> first
    | exact absurd hl (by decide)
    | (refine ⟨_, rfl, fun i v => ?_, ?_, ?_⟩
       · simp only [has_or0 hpos, has_or1 hpos, has_orx hpos, Letter.news, Letter.level] <;>
           cases v <;> simp
       · intro h
         first
           | exact absurd h Bool.false_ne_true
           | exact ⟨rfl, rfl⟩
       · intro h
         first
           | exact absurd h Bool.false_ne_true.symm
           | (refine ⟨rfl, ?_⟩
              ext u
              cases u <;> rfl))

end Icarus.Vvp.Udp
