import Icarus.Vvp.Udp.Rule
import Mathlib.Data.List.Forall2

/-!
# Compiled rows

A compiled row of levels has at each position the levels of the letter there. A
row of edges makes a table for each part of its one edge; together they have the
edges of the letter.
-/

namespace Icarus.Vvp.Udp

/-- The levels of a list of letters, the first of them at position `pp`. -/
def cell (letters : List Letter) (pp i : Nat) (v : Value) : Bool :=
  decide (pp ≤ i) && (letters[i - pp]?).any (·.level v)

theorem cell_nil (pp i : Nat) (v : Value) : cell [] pp i v = false := by simp [cell]

theorem cell_cons (letter : Letter) (letters : List Letter) (pp i : Nat) (v : Value) :
    cell (letter :: letters) pp i v =
      (decide (i = pp) && letter.level v || cell letters (pp + 1) i v) := by
  unfold cell
  rcases Nat.lt_trichotomy i pp with h | rfl | h
  · simp [Nat.not_le.mpr h, h.ne, show ¬ pp + 1 ≤ i by omega]
  · simp
  · obtain ⟨k, rfl⟩ : ∃ k, i = pp + 1 + k := ⟨i - (pp + 1), by omega⟩
    simp [show pp + 1 + k - pp = k + 1 by omega, show ¬ pp + 1 + k = pp by omega]
    omega

theorem cell_append (xs ys : List Letter) (pp i : Nat) (v : Value) :
    cell (xs ++ ys) pp i v = (cell xs pp i v || cell ys (pp + xs.length) i v) := by
  induction xs generalizing pp with
  | nil => simp [cell_nil]
  | cons letter xs ih =>
    rw [List.cons_append, cell_cons, ih, cell_cons, List.length_cons, Bool.or_assoc,
      Nat.add_assoc, Nat.add_comm 1]

theorem cell_zero (letters : List Letter) {i : Nat} (hi : i < letters.length) (v : Value) :
    cell letters 0 i v = letters[i].level v := by
  simp [cell, hi]

/-- All letters of a row pass a test, by position. -/
theorem all_zipIdx_iff (letters : List Letter) (f : Letter × Nat → Bool) :
    letters.zipIdx.all f = true ↔ ∀ i, (hi : i < letters.length) → f (letters[i], i) = true := by
  rw [List.all_eq_true]
  constructor
  · intro h i hi
    exact h _ (List.mem_zipIdx_iff_getElem?.mpr (List.getElem?_eq_getElem hi))
  · rintro h ⟨letter, i⟩ hmem
    obtain ⟨hi, hletter⟩ := List.mem_zipIdx' hmem
    rw [hletter]
    exact h i hi

/-! ## Rows of levels -/

/-- The loop over the inputs adds the levels of the letters. -/
theorem levelLoop_spec {letters : List Letter} (hlevel : ∀ a ∈ letters, a.isLevel = true) (pp : Nat)
    (hpp : pp + letters.length ≤ 64) (t : LevelsTable) :
    ∃ t', levelLoop t letters pp = some t' ∧
      ∀ i v, t'.has i v = (t.has i v || cell letters pp i v) := by
  induction letters generalizing pp t with
  | nil => exact ⟨t, rfl, fun i v => by rw [cell_nil, Bool.or_false]⟩
  | cons letter letters ih =>
    rw [List.length_cons] at hpp
    obtain ⟨t₁, h₁, hhas₁⟩ := orBasedOnChar_spec (hlevel letter List.mem_cons_self)
      (show pp < 64 by omega) t
    obtain ⟨t', h', hhas'⟩ := ih (fun a ha => hlevel a (List.mem_cons_of_mem _ ha))
      (pp + 1) (by omega) t₁
    refine ⟨t', ?_, fun i v => ?_⟩
    · rw [levelLoop, h₁]
      exact h'
    · rw [hhas', hhas₁, cell_cons, Bool.or_assoc]

/-! ## Rows of edges -/

/-- A table gets more values and no other edge. -/
structure EdgesTable.Adds (f : Nat → Value → Bool) (t t' : EdgesTable) : Prop where
  /-- The values. -/
  has : ∀ i v, t'.levels.has i v = (t.levels.has i v || f i v)
  /-- The position of the edge. -/
  edgePosition : t'.edgePosition = t.edgePosition
  /-- The start of the edge. -/
  old : t'.old = t.old

/-- The tables of a row get more values. -/
structure Expansion.Adds (f : Nat → Value → Bool) (e e' : Expansion) : Prop where
  /-- The first table. -/
  cur : e.cur.Adds f e'.cur
  /-- The second table. -/
  ext0 : e.ext0.Adds f e'.ext0
  /-- The third table. -/
  ext1 : e.ext1.Adds f e'.ext1
  /-- The second table is needed as before. -/
  needExt0 : e'.needExt0 = e.needExt0
  /-- The third table is needed as before. -/
  needExt1 : e'.needExt1 = e.needExt1

theorem parts_of_isLevel {letter : Letter} (h : letter.isLevel = true) :
    letter.parts = [letter] ∧ letter.news = letter.level ∧ letter.edge = fun _ _ => false := by
  cases letter <;> first
    | exact absurd h Bool.false_ne_true
    | exact ⟨rfl, rfl, rfl⟩

/-- A letter of levels adds its levels. -/
theorem edgeBasedOnChar_level {letter : Letter} (hl : letter.isLevel = true) {pos : Nat}
    (hpos : pos < 64) (t : EdgesTable) : ∃ t', edgeBasedOnChar t letter pos = some t' ∧
      t.Adds (fun i v => decide (i = pos) && letter.level v) t' := by
  obtain ⟨hparts, hnews, -⟩ := parts_of_isLevel hl
  obtain ⟨t', h, hhas, hsame, -⟩ := edgeBasedOnChar_spec hparts hpos t
  rw [hnews] at hhas
  exact ⟨t', h, hhas, (hsame hl).1, (hsame hl).2⟩

theorem edgeBody_level {letter : Letter} (hl : letter.isLevel = true) {pp : Nat} (hpp : pp < 64)
    (e : Expansion) : ∃ e', edgeBody e letter pp = some e' ∧
      e.Adds (fun i v => decide (i = pp) && letter.level v) e' := by
  obtain ⟨cur, hcur, hacur⟩ := edgeBasedOnChar_level hl hpp e.cur
  obtain ⟨ext0, hext0, haext0⟩ := edgeBasedOnChar_level hl hpp e.ext0
  obtain ⟨ext1, hext1, haext1⟩ := edgeBasedOnChar_level hl hpp e.ext1
  refine ⟨{ e with cur := cur, ext0 := ext0, ext1 := ext1 }, ?_, hacur, haext0, haext1, rfl, rfl⟩
  cases letter <;> first
    | exact absurd hl Bool.false_ne_true
    | simp only [edgeBody, hcur, hext0, hext1, Option.bind_eq_bind, Option.bind_some,
        Option.pure_def]

theorem EdgesTable.Adds.trans {f g : Nat → Value → Bool} {t t' t'' : EdgesTable}
    (h : t.Adds f t') (h' : t'.Adds g t'') : t.Adds (fun i v => f i v || g i v) t'' :=
  ⟨fun i v => by rw [h'.has, h.has, Bool.or_assoc], h'.edgePosition.trans h.edgePosition,
    h'.old.trans h.old⟩

/-- The loop over letters of levels adds their levels. -/
theorem edgeLoop_levels {letters : List Letter} (hlevel : ∀ a ∈ letters, a.isLevel = true)
    (pp : Nat) (hpp : pp + letters.length ≤ 64) (e : Expansion) :
    ∃ e', edgeLoop e letters pp = some e' ∧ e.Adds (cell letters pp) e' := by
  induction letters generalizing pp e with
  | nil =>
    have hsame : ∀ t : EdgesTable, t.Adds (cell [] pp) t :=
      fun t => ⟨fun i v => by rw [cell_nil, Bool.or_false], rfl, rfl⟩
    exact ⟨e, rfl, hsame _, hsame _, hsame _, rfl, rfl⟩
  | cons letter letters ih =>
    rw [List.length_cons] at hpp
    obtain ⟨e₁, h₁, ha₁⟩ := edgeBody_level (hlevel letter List.mem_cons_self)
      (show pp < 64 by omega) e
    obtain ⟨e', h', ha'⟩ := ih (fun a ha => hlevel a (List.mem_cons_of_mem _ ha))
      (pp + 1) (by omega) e₁
    have hcell : cell (letter :: letters) pp = fun i v =>
        (decide (i = pp) && letter.level v || cell letters (pp + 1) i v) := by
      ext i v
      rw [cell_cons]
    refine ⟨e', ?_, ?_⟩
    · rw [edgeLoop, h₁]
      exact h'
    · rw [hcell]
      exact ⟨ha₁.cur.trans ha'.cur, ha₁.ext0.trans ha'.ext0, ha₁.ext1.trans ha'.ext1,
        ha'.needExt0.trans ha₁.needExt0, ha'.needExt1.trans ha₁.needExt1⟩

theorem edgeLoop_append (e : Expansion) (xs ys : List Letter) (pp : Nat) :
    edgeLoop e (xs ++ ys) pp = (edgeLoop e xs pp).bind fun e => edgeLoop e ys (pp + xs.length) := by
  induction xs generalizing e pp with
  | nil => simp [edgeLoop]
  | cons letter xs ih =>
    simp only [List.cons_append, edgeLoop, Option.bind_eq_bind, ih, List.length_cons,
      Option.bind_assoc, Nat.add_assoc, Nat.add_comm 1]

/-- The table of a part of a letter for edges, at a position. -/
structure EdgesTable.Makes (f : Nat → Value → Bool) (pos : Nat) (part : Letter) (t : EdgesTable) :
    Prop where
  /-- The values: those of the other positions, and those that the edge ends with. -/
  has : ∀ i v, t.levels.has i v = (f i v || decide (i = pos) && part.news v)
  /-- The position of the edge. -/
  edgePosition : t.edgePosition = pos
  /-- The start of the edge. -/
  old : t.old = part.olds

theorem EdgesTable.Makes.adds {f g : Nat → Value → Bool} {pos : Nat} {part : Letter}
    {t t' : EdgesTable} (h : t.Makes f pos part) (h' : t.Adds g t') :
    t'.Makes (fun i v => f i v || g i v) pos part :=
  ⟨fun i v => by rw [h'.has, h.has, Bool.or_right_comm], h'.edgePosition.trans h.edgePosition,
    h'.old.trans h.old⟩

/-- A part of a letter for edges makes its table. -/
theorem edgeBasedOnChar_makes {f : Nat → Value → Bool} {t : EdgesTable}
    (ht : ∀ i v, t.levels.has i v = f i v) {pos : Nat} (hpos : pos < 64) {part : Letter}
    (hpart : part.parts = [part]) (hedge : part.isLevel = false) :
    ∃ t', edgeBasedOnChar t part pos = some t' ∧ t'.Makes f pos part := by
  obtain ⟨t', h, hhas, -, hset⟩ := edgeBasedOnChar_spec hpart hpos t
  exact ⟨t', h, fun i v => by rw [hhas, ht], (hset hedge).1, (hset hedge).2⟩

/-- A letter for edges makes the tables of its parts. -/
theorem edgeBody_edge {f : Nat → Value → Bool} {e : Expansion}
    (hcur : ∀ i v, e.cur.levels.has i v = f i v) (hext0 : ∀ i v, e.ext0.levels.has i v = f i v)
    (hext1 : ∀ i v, e.ext1.levels.has i v = f i v) (h0 : e.needExt0 = false)
    (h1 : e.needExt1 = false) {letter : Letter} (hedge : letter.isLevel = false) (pos : Nat)
    (hpos : pos < 64) : ∃ e', edgeBody e letter pos = some e' ∧
      List.Forall₂ (fun part t => EdgesTable.Makes f pos part t) letter.parts e'.tables := by
  have hmake : ∀ {t : EdgesTable} (part : Letter), (∀ i v, t.levels.has i v = f i v) →
      part.parts = [part] → part.isLevel = false →
      ∃ t', edgeBasedOnChar t part pos = some t' ∧ t'.Makes f pos part :=
    fun _ ht hpart hpedge => edgeBasedOnChar_makes ht hpos hpart hpedge
  by_cases hparts : letter.parts = [letter]
  · obtain ⟨cur, hc, hmc⟩ := hmake letter hcur hparts hedge
    obtain ⟨ext0, hc0, -⟩ := hmake letter hext0 hparts hedge
    obtain ⟨ext1, hc1, -⟩ := hmake letter hext1 hparts hedge
    refine ⟨{ e with cur := cur, ext0 := ext0, ext1 := ext1 }, ?_, ?_⟩
    · cases letter <;> first
        | exact absurd hparts (by decide)
        | simp only [edgeBody, hc, hc0, hc1, Option.bind_eq_bind, Option.bind_some, Option.pure_def]
    · rw [hparts, Expansion.tables, h0, h1]
      exact .cons hmc .nil
  · obtain rfl | rfl | rfl : letter = .n ∨ letter = .p ∨ letter = .star := by
      cases letter <;> first
        | exact absurd rfl hparts
        | decide
    · obtain ⟨cur, hc, hmc⟩ := hmake .N hcur rfl rfl
      obtain ⟨ext0, hc0, hm0⟩ := hmake .toZero hext0 rfl rfl
      refine ⟨{ e with cur := cur, ext0 := ext0, needExt0 := true }, ?_, ?_⟩
      · simp only [edgeBody, hc, hc0, Option.bind_eq_bind, Option.bind_some, Option.pure_def]
      · rw [Expansion.tables, h1]
        exact .cons hmc (.cons hm0 .nil)
    · obtain ⟨cur, hc, hmc⟩ := hmake .P hcur rfl rfl
      obtain ⟨ext0, hc0, hm0⟩ := hmake .toOne hext0 rfl rfl
      refine ⟨{ e with cur := cur, ext0 := ext0, needExt0 := true }, ?_, ?_⟩
      · simp only [edgeBody, hc, hc0, Option.bind_eq_bind, Option.bind_some, Option.pure_def]
      · rw [Expansion.tables, h1]
        exact .cons hmc (.cons hm0 .nil)
    · obtain ⟨cur, hc, hmc⟩ := hmake .P hcur rfl rfl
      obtain ⟨ext0, hc0, hm0⟩ := hmake .N hext0 rfl rfl
      obtain ⟨ext1, hc1, hm1⟩ := hmake .B hext1 rfl rfl
      refine ⟨⟨cur, ext0, true, ext1, true⟩, ?_, .cons hmc (.cons hm0 (.cons hm1 .nil))⟩
      simp only [edgeBody, hc, hc0, hc1, Option.bind_eq_bind, Option.bind_some, Option.pure_def]

/-- The tables that are needed get more values. -/
theorem Expansion.Adds.tables {f : Nat → Value → Bool} {e e' : Expansion} (h : e.Adds f e') :
    List.Forall₂ (EdgesTable.Adds f) e.tables e'.tables := by
  rw [Expansion.tables, Expansion.tables, h.needExt0, h.needExt1]
  cases e.needExt0 <;> cases e.needExt1
  · exact .cons h.cur .nil
  · exact .cons h.cur (.cons h.ext1 .nil)
  · exact .cons h.cur (.cons h.ext0 .nil)
  · exact .cons h.cur (.cons h.ext0 (.cons h.ext1 .nil))

private theorem makes_adds {f g : Nat → Value → Bool} {pos : Nat} {parts : List Letter}
    {ts ts' : List EdgesTable}
    (h : List.Forall₂ (fun part t => EdgesTable.Makes f pos part t) parts ts)
    (h' : List.Forall₂ (EdgesTable.Adds g) ts ts') :
    List.Forall₂ (fun part t => EdgesTable.Makes (fun i v => f i v || g i v) pos part t) parts
      ts' := by
  induction h generalizing ts' with
  | nil =>
    cases h'
    exact .nil
  | cons hmake _ ih =>
    cases h' with
    | cons hadd hrest => exact .cons (hmake.adds hadd) (ih hrest)

/-- The tables of a row with one edge are those of the parts of its letter. -/
theorem edgeTables_spec {row : SeqRow} {ports : Nat} {xs ys : List Letter} {letter : Letter}
    (hsplit : row.inputs = xs ++ letter :: ys) (hxs : ∀ a ∈ xs, a.isLevel = true)
    (hys : ∀ a ∈ ys, a.isLevel = true) (hedge : letter.isLevel = false)
    (hcur : row.cur.isLevel = true) (hlen : row.inputs.length = ports) (hports : ports < 64) :
    ∃ ts, edgeTables ports row = some ts ∧
      List.Forall₂ (fun part t => EdgesTable.Makes (fun i v => cell row.inputs 0 i v ||
        decide (i = ports) && row.cur.level v) xs.length part t) letter.parts ts := by
  have hcount : xs.length + (ys.length + 1) = ports := by
    rw [← hlen, hsplit, List.length_append, List.length_cons]
  obtain ⟨e₁, h₁, ha₁⟩ := edgeLoop_levels hxs 0 (by omega)
    ⟨.clear, .clear, false, .clear, false⟩
  have hclear : ∀ {t : EdgesTable}, EdgesTable.clear.Adds (cell xs 0) t →
      ∀ i v, t.levels.has i v = cell xs 0 i v := fun h i v => by
    rw [h.has, show EdgesTable.clear.levels = LevelsTable.clear from rfl, has_clear, Bool.false_or]
  obtain ⟨e₂, h₂, hmakes⟩ := edgeBody_edge (hclear ha₁.cur) (hclear ha₁.ext0) (hclear ha₁.ext1)
    ha₁.needExt0 ha₁.needExt1 hedge xs.length (by omega)
  obtain ⟨e₃, h₃, ha₃⟩ := edgeLoop_levels hys (xs.length + 1) (by omega) e₂
  obtain ⟨cur, hc, hac⟩ := edgeBasedOnChar_level hcur hports e₃.cur
  obtain ⟨ext0, hc0, hac0⟩ := edgeBasedOnChar_level hcur hports e₃.ext0
  obtain ⟨ext1, hc1, hac1⟩ := edgeBasedOnChar_level hcur hports e₃.ext1
  have ha₄ : e₃.Adds (fun i v => decide (i = ports) && row.cur.level v)
      { e₃ with cur := cur, ext0 := ext0, ext1 := ext1 } := ⟨hac, hac0, hac1, rfl, rfl⟩
  refine ⟨Expansion.tables { e₃ with cur := cur, ext0 := ext0, ext1 := ext1 }, ?_, ?_⟩
  · have hloop : edgeLoop ⟨.clear, .clear, false, .clear, false⟩ row.inputs 0 = some e₃ := by
      rw [hsplit, edgeLoop_append, h₁, Option.bind_some, edgeLoop, Nat.zero_add, h₂]
      exact h₃
    rw [edgeTables, hloop]
    simp only [Option.bind_eq_bind, Option.bind_some, hc, hc0, hc1, Option.pure_def]
  · have hall := makes_adds (makes_adds hmakes ha₃.tables) ha₄.tables
    have hcell : cell row.inputs 0 = fun i v =>
        (cell xs 0 i v || cell ys (xs.length + 1) i v) := by
      ext i v
      have hnone : letter.level v = false := by
        cases letter <;> first
          | rfl
          | exact absurd hedge (by decide)
      rw [hsplit, cell_append, cell_cons, hnone, Bool.and_false, Bool.false_or, Nat.zero_add]
    rw [hcell]
    exact hall

end Icarus.Vvp.Udp
