import Icarus.Vvp.Udp.Rows
import Mathlib.Data.Option.Basic

/-!
# Compiled tables

The tables are found to match just where a row applies whose output they are for.
-/

namespace Icarus.Vvp.Udp

/-- A table of current values shows the inputs. -/
def Shows (cur : LevelsTable) (ports : Nat) (ins : Nat → Value) : Prop :=
  ∀ i v, cur.has i v = (decide (i < ports) && decide (ins i = v))

/-- A table of current values shows the inputs and the output behind them. -/
def ShowsOutput (cur : LevelsTable) (ports : Nat) (ins : Nat → Value) (out : Value) : Prop :=
  ∀ i v, cur.has i v =
    (decide (i < ports) && decide (ins i = v) || decide (i = ports) && decide (out = v))

/-! ## Rows of levels -/

theorem covers_of_cell {cur t : LevelsTable} {letters : List Letter} {ins : Nat → Value}
    (hcur : Shows cur letters.length ins) (ht : ∀ i v, t.has i v = cell letters 0 i v) :
    covers cur t = letters.zipIdx.all fun a => a.1.level (ins a.2) := by
  rw [Bool.eq_iff_iff, covers_iff, all_zipIdx_iff]
  constructor
  · intro h i hi
    have hhas := h i (ins i) (by simp [hcur i, hi])
    rwa [ht, cell_zero letters hi] at hhas
  · intro h i v hv
    rw [hcur i v, Bool.and_eq_true, decide_eq_true_eq, decide_eq_true_eq] at hv
    obtain ⟨hi, rfl⟩ := hv
    rw [ht, cell_zero letters hi]
    exact h i hi

theorem covers_of_cell_output {cur t : LevelsTable} {letters : List Letter} {ins : Nat → Value}
    {out : Value} {f : Value → Bool} (hcur : ShowsOutput cur letters.length ins out)
    (ht : ∀ i v, t.has i v = (cell letters 0 i v || decide (i = letters.length) && f v)) :
    covers cur t = (f out && letters.zipIdx.all fun a => a.1.level (ins a.2)) := by
  rw [Bool.eq_iff_iff, covers_iff, Bool.and_eq_true, all_zipIdx_iff]
  constructor
  · intro h
    constructor
    · have hhas := h letters.length out (by simp [hcur letters.length])
      simpa [ht, cell] using hhas
    · intro i hi
      have hhas := h i (ins i) (by simp [hcur i, hi])
      simpa [ht, cell_zero letters hi, hi.ne] using hhas
  · rintro ⟨hout, h⟩ i v hv
    rw [hcur i v, Bool.or_eq_true, Bool.and_eq_true, Bool.and_eq_true] at hv
    simp only [decide_eq_true_eq] at hv
    rw [ht, Bool.or_eq_true, Bool.and_eq_true, decide_eq_true_eq]
    rcases hv with ⟨hi, rfl⟩ | ⟨rfl, rfl⟩
    · exact Or.inl (by rw [cell_zero letters hi]; exact h i hi)
    · exact Or.inr ⟨rfl, hout⟩

/-! ## Rows of edges -/

/-- A letter of edges has no levels. -/
theorem level_of_edge {letter : Letter} (hedge : letter.isLevel = false) (v : Value) :
    letter.level v = false := by
  cases letter <;> first
    | rfl
    | exact absurd hedge (by decide)

/-- The test of a row of edges, where the input that has changed had one value. -/
theorem test_eq (t : EdgesTable) (p : Nat) (u : Value) (cur : LevelsTable) :
    t.test p (decide (u = .zero)) (decide (u = .x)) (decide (u = .one)) cur =
      (decide (t.edgePosition = p) && t.old u && covers cur t.levels) := by
  cases u <;> simp [EdgesTable.test, EdgesTable.old]

theorem covers_of_makes {cur : LevelsTable} {t : EdgesTable} {letters : List Letter} {pos : Nat}
    {ins : Nat → Value} {out : Value} {f : Value → Bool} {part : Letter}
    (hcur : ShowsOutput cur letters.length ins out) (hpos : pos < letters.length)
    (hedge : letters[pos].isLevel = false)
    (ht : t.Makes (fun i v => cell letters 0 i v || decide (i = letters.length) && f v) pos part) :
    covers cur t.levels = true ↔ f out = true ∧ part.news (ins pos) = true ∧
      ∀ i, (hi : i < letters.length) → i ≠ pos → letters[i].level (ins i) = true := by
  have hnone := level_of_edge hedge
  rw [covers_iff]
  constructor
  · intro h
    refine ⟨?_, ?_, fun i hi hne => ?_⟩
    · have hhas := h letters.length out (by simp [hcur letters.length])
      simpa [ht.has, cell, hpos.ne'] using hhas
    · have hhas := h pos (ins pos) (by simp [hcur pos, hpos])
      simpa [ht.has, cell_zero letters hpos, hnone, hpos.ne] using hhas
    · have hhas := h i (ins i) (by simp [hcur i, hi])
      simpa [ht.has, cell_zero letters hi, hi.ne, hne] using hhas
  · rintro ⟨hout, hnew, h⟩ i v hv
    rw [hcur i v, Bool.or_eq_true, Bool.and_eq_true, Bool.and_eq_true] at hv
    simp only [decide_eq_true_eq] at hv
    rw [ht.has]
    rcases hv with ⟨hi, rfl⟩ | ⟨rfl, rfl⟩
    · by_cases hne : i = pos
      · subst hne
        simp [hnew]
      · simp [cell_zero letters hi, h i hi hne]
    · simp [hout]

/-- A row of levels applies to no change. -/
theorem edgeApplies_of_level {row : SeqRow} {p : Nat} {u : Value} {ins : Nat → Value} {out : Value}
    (hp : p < row.inputs.length) (hlevel : ∀ a ∈ row.inputs, a.isLevel = true) :
    row.edgeApplies p u ins out = false := by
  rw [SeqRow.edgeApplies, Bool.and_eq_false_iff]
  refine Or.inr ?_
  rw [← Bool.not_eq_true, all_zipIdx_iff]
  intro h
  have hedge := h p hp
  rw [if_pos rfl, (parts_of_isLevel (hlevel _ (List.getElem_mem hp))).2.2] at hedge
  cases hedge

/-- A row of edges applies where its one edge is the change. -/
theorem edgeApplies_iff {row : SeqRow} {pos p : Nat} {u : Value} {ins : Nat → Value} {out : Value}
    (hpos : pos < row.inputs.length) (hp : p < row.inputs.length)
    (hlevel : ∀ i, (hi : i < row.inputs.length) → i ≠ pos → row.inputs[i].isLevel = true)
    (hedge : row.inputs[pos].isLevel = false) :
    row.edgeApplies p u ins out = true ↔ row.cur.level out = true ∧ pos = p ∧
      row.inputs[pos].edge u (ins pos) = true ∧
      ∀ i, (hi : i < row.inputs.length) → i ≠ pos → row.inputs[i].level (ins i) = true := by
  rw [SeqRow.edgeApplies, Bool.and_eq_true, all_zipIdx_iff]
  constructor
  · rintro ⟨hcur, h⟩
    have hsame : pos = p := by
      by_contra hne
      have hedgep := h p hp
      have hnone := (parts_of_isLevel (hlevel p hp (Ne.symm hne))).2.2
      simp [hnone] at hedgep
    subst hsame
    refine ⟨hcur, rfl, by simpa using h pos hpos, fun i hi hne => ?_⟩
    simpa [hne] using h i hi
  · rintro ⟨hcur, rfl, hedge, h⟩
    refine ⟨hcur, fun i hi => ?_⟩
    by_cases hne : i = pos
    · subst hne
      simpa using hedge
    · simpa [hne] using h i hi hne

private theorem any_forall₂ {α β : Type} {R : α → β → Prop} {f : α → Bool} {g : β → Bool}
    (hfg : ∀ a b, R a b → f a = g b) {as : List α} {bs : List β} (h : List.Forall₂ R as bs) :
    as.any f = bs.any g := by
  induction h with
  | nil => rfl
  | cons hab _ ih => rw [List.any_cons, List.any_cons, hfg _ _ hab, ih]

/-- The tables of a row of edges match just where the row applies. -/
theorem any_test_eq {row : SeqRow} {pos p : Nat} {u : Value} {ins : Nat → Value} {out : Value}
    {cur : LevelsTable} {ts : List EdgesTable}
    (hcur : ShowsOutput cur row.inputs.length ins out) (hpos : pos < row.inputs.length)
    (hp : p < row.inputs.length)
    (hlevel : ∀ i, (hi : i < row.inputs.length) → i ≠ pos → row.inputs[i].isLevel = true)
    (hedge : row.inputs[pos].isLevel = false)
    (hts : List.Forall₂ (fun part t => EdgesTable.Makes (fun i v => cell row.inputs 0 i v ||
      decide (i = row.inputs.length) && row.cur.level v) pos part t) row.inputs[pos].parts ts) :
    ts.any (fun t => t.test p (decide (u = .zero)) (decide (u = .x)) (decide (u = .one)) cur) =
      row.edgeApplies p u ins out := by
  have hany := any_forall₂ (f := fun part => decide (pos = p) && part.olds u &&
      (row.cur.level out && (part.news (ins pos) && decide (∀ i, (hi : i < row.inputs.length) →
        i ≠ pos → row.inputs[i].level (ins i) = true))))
    (g := fun t => t.test p (decide (u = .zero)) (decide (u = .x)) (decide (u = .one)) cur)
    (fun part t ht => by
      have hcovers : covers cur t.levels = (row.cur.level out && (part.news (ins pos) &&
          decide (∀ i, (hi : i < row.inputs.length) → i ≠ pos →
            row.inputs[i].level (ins i) = true))) := by
        rw [Bool.eq_iff_iff, covers_of_makes hcur hpos hedge ht]
        simp
      rw [test_eq, ht.edgePosition, ht.old, hcovers]) hts
  rw [← hany, Bool.eq_iff_iff, edgeApplies_iff hpos hp hlevel hedge, edge_eq_parts,
    List.any_eq_true, List.any_eq_true]
  simp only [Bool.and_eq_true, decide_eq_true_eq]
  constructor
  · rintro ⟨part, hpart, ⟨hsame, hold⟩, hcurout, hnew, h⟩
    exact ⟨hcurout, hsame, ⟨part, hpart, hold, hnew⟩, h⟩
  · rintro ⟨hcurout, hsame, ⟨part, hpart, hold, hnew⟩, h⟩
    exact ⟨part, hpart, ⟨hsame, hold⟩, hcurout, hnew, h⟩

/-! ## Compiling -/

/-- The tables of levels for an output. -/
def SeqTables.levels (t : SeqTables) : Option Value → List LevelsTable
  | some .zero => t.levels0
  | some .one => t.levels1
  | some .x => t.levelsx
  | none => t.levelsL

/-- The tables of edges for an output; for X there are none. -/
def SeqTables.edges (t : SeqTables) : Option Value → List EdgesTable
  | some .zero => t.edges0
  | some .one => t.edges1
  | some .x => []
  | none => t.edgesL

/-- A table of levels for an output matches. -/
def SeqTables.levelHit (t : SeqTables) (cur : LevelsTable) (o : Option Value) : Bool :=
  (t.levels o).any (covers cur)

/-- A table of edges for an output matches. -/
def SeqTables.edgeHit (t : SeqTables) (p : Nat) (u : Value) (cur : LevelsTable)
    (o : Option Value) : Bool :=
  (t.edges o).any fun r =>
    r.test p (decide (u = .zero)) (decide (u = .x)) (decide (u = .one)) cur

/-- Tables get the matches of the rows that are compiled. -/
def SeqTables.Compiles (ports : Nat) (rows : List SeqRow) (t t' : SeqTables) : Prop :=
  ∀ cur ins out, ShowsOutput cur ports ins out →
    (∀ o, t'.levelHit cur o =
      (t.levelHit cur o || rows.any fun row => decide (row.out = o) && row.levelApplies ins out)) ∧
    ∀ p < ports, ∀ u, ∀ o ≠ some .x, t'.edgeHit p u cur o =
      (t.edgeHit p u cur o || rows.any fun row => decide (row.out = o) && row.edgeApplies p u ins out)

/-- A row that is valid and not of levels has one edge. -/
theorem SeqRow.Valid.split {ports : Nat} {row : SeqRow} (h : row.Valid ports)
    (hlevel : row.isLevel = false) : ∃ xs letter ys, row.inputs = xs ++ letter :: ys ∧
      (∀ a ∈ xs, a.isLevel = true) ∧ (∀ a ∈ ys, a.isLevel = true) ∧ letter.isLevel = false := by
  obtain ⟨-, hcur, hone⟩ := h
  have hsome : ∃ letter ∈ row.inputs, letter.isLevel = false := by
    by_contra hnone
    rw [SeqRow.isLevel, hcur, Bool.true_and, List.all_eq_false] at hlevel
    obtain ⟨a, ha, hal⟩ := hlevel
    exact hnone ⟨a, ha, by simpa using hal⟩
  obtain ⟨letter, hmem, hedge⟩ := hsome
  obtain ⟨xs, ys, hsplit⟩ := List.append_of_mem hmem
  rw [hsplit, List.filter_append, List.filter_cons, hedge] at hone
  simp only [Bool.not_false, if_true, List.length_append, List.length_cons] at hone
  have hnil : ∀ {zs : List Letter}, (zs.filter fun letter => !letter.isLevel).length = 0 →
      ∀ a ∈ zs, a.isLevel = true := by
    intro zs hz a ha
    have hempty := List.eq_nil_of_length_eq_zero hz
    rw [List.filter_eq_nil_iff] at hempty
    simpa using hempty a ha
  exact ⟨xs, letter, ys, hsplit, hnil (by omega), hnil (by omega), hedge⟩

/-- The tables of a row fill what is allocated for it. -/
theorem edgeCount_eq {row : SeqRow} {xs ys : List Letter} {letter : Letter}
    (hsplit : row.inputs = xs ++ letter :: ys) (hxs : ∀ a ∈ xs, a.isLevel = true)
    (hys : ∀ a ∈ ys, a.isLevel = true) (hedge : letter.isLevel = false) :
    letter.parts.length = edgeCount row := by
  have hmem : ∀ a : Letter, a.isLevel = false → (a ∈ row.inputs ↔ a = letter) := by
    intro a ha
    rw [hsplit, List.mem_append, List.mem_cons]
    constructor
    · rintro (hx | rfl | hy)
      · rw [hxs a hx] at ha
        cases ha
      · rfl
      · rw [hys a hy] at ha
        cases ha
    · rintro rfl
      exact Or.inr (Or.inl rfl)
  rw [edgeCount]
  simp only [hmem .star rfl, hmem .n rfl, hmem .p rfl]
  cases letter <;> rfl

/-- A row of levels makes its table. -/
theorem compileSeqRow_level {ports : Nat} {row : SeqRow} (hports : ports < 64)
    (hlen : row.inputs.length = ports) (hlevel : row.isLevel = true) (t : SeqTables) :
    ∃ t', compileSeqRow ports t row = some t' ∧ SeqTables.Compiles ports [row] t t' := by
  obtain ⟨hcur, hall⟩ := Bool.and_eq_true_iff.mp hlevel
  have hletters : ∀ a ∈ row.inputs, a.isLevel = true := List.all_eq_true.mp hall
  obtain ⟨c, hc, hhas⟩ := levelLoop_spec hletters 0 (by omega) .clear
  obtain ⟨c', hc', hhas'⟩ := orBasedOnChar_spec hcur hports c
  have hcell : ∀ i v, c'.has i v =
      (cell row.inputs 0 i v || decide (i = row.inputs.length) && row.cur.level v) := by
    intro i v
    rw [hhas', hhas, has_clear, Bool.false_or, hlen]
  obtain ⟨t', ht', hlevels, hedges⟩ : ∃ t', compileSeqRow ports t row = some t' ∧
      (∀ o, t'.levels o = if row.out = o then t.levels o ++ [c'] else t.levels o) ∧
      t'.edges = t.edges := by
    have hguard : (guard (row.inputs.length = ports) : Option Unit) = some () := if_pos hlen
    simp only [compileSeqRow, hguard, hlevel, if_true, Option.bind_eq_bind, Option.bind_some, hc,
      hc']
    cases hout : row.out with
    | none =>
      refine ⟨_, rfl, fun o => ?_, rfl⟩
      rcases o with _ | _ | _ | _ <;> rfl
    | some v =>
      cases v
      all_goals
        refine ⟨_, rfl, fun o => ?_, rfl⟩
        rcases o with _ | _ | _ | _ <;> rfl
  refine ⟨t', ht', fun cur ins out hshow => ⟨fun o => ?_, fun p hp u o ho => ?_⟩⟩
  · subst hlen
    have hcovers := covers_of_cell_output hshow hcell
    rw [SeqTables.levelHit, SeqTables.levelHit, hlevels]
    by_cases ho : row.out = o <;> simp [ho, hcovers, SeqRow.levelApplies]
  · have hnone : row.edgeApplies p u ins out = false :=
      edgeApplies_of_level (hlen.symm ▸ hp) hletters
    rw [SeqTables.edgeHit, SeqTables.edgeHit, hedges, List.any_cons, hnone]
    simp

/-- A row of edges makes its tables. -/
theorem compileSeqRow_edge {ports : Nat} {row : SeqRow} (hports : ports < 64)
    (hvalid : row.Valid ports) (hlevel : row.isLevel = false) (t : SeqTables) :
    ∃ t', compileSeqRow ports t row = some t' ∧ SeqTables.Compiles ports [row] t t' := by
  obtain ⟨xs, letter, ys, hsplit, hxs, hys, hedge⟩ := hvalid.split hlevel
  obtain ⟨hlen, hcur, -⟩ := hvalid
  obtain ⟨ts, hts, hmakes⟩ := edgeTables_spec hsplit hxs hys hedge hcur hlen hports
  have hcount : ts.length = edgeCount row := by
    rw [← hmakes.length_eq, edgeCount_eq hsplit hxs hys hedge]
  obtain ⟨t', ht', hlevels, hedges⟩ : ∃ t', compileSeqRow ports t row = some t' ∧
      t'.levels = t.levels ∧
      ∀ o ≠ some .x, t'.edges o = if row.out = o then t.edges o ++ ts else t.edges o := by
    have hguard : (guard (row.inputs.length = ports) : Option Unit) = some () := if_pos hlen
    have hguard' : (guard (row.out = some .x ∨ ts.length = edgeCount row) : Option Unit) =
        some () := if_pos (Or.inr hcount)
    simp only [compileSeqRow, hguard, hlevel, Bool.false_eq_true, if_false, Option.bind_eq_bind,
      Option.bind_some, hts, hguard']
    cases hout : row.out with
    | none =>
      refine ⟨_, rfl, ?_, fun o _ => ?_⟩
      · ext1 o
        rcases o with _ | _ | _ | _ <;> rfl
      · rcases o with _ | _ | _ | _ <;> rfl
    | some v =>
      cases v
      all_goals
        refine ⟨_, rfl, ?_, fun o ho => ?_⟩
        · ext1 o
          rcases o with _ | _ | _ | _ <;> rfl
        · rcases o with _ | _ | _ | _ <;> first
            | rfl
            | exact absurd rfl ho
  have hpos : xs.length < row.inputs.length := by
    rw [hsplit, List.length_append, List.length_cons]
    omega
  have hget : row.inputs[xs.length] = letter := by simp [hsplit]
  have hother : ∀ i, (hi : i < row.inputs.length) → i ≠ xs.length →
      row.inputs[i].isLevel = true := by
    intro i hi hne
    have hmem : row.inputs[i] ∈ xs ∨ row.inputs[i] ∈ ys := by
      simp only [hsplit]
      rcases Nat.lt_or_gt_of_ne hne with h | h
      · rw [List.getElem_append_left h]
        exact Or.inl (List.getElem_mem h)
      · rw [List.getElem_append_right (by omega)]
        obtain ⟨k, hk⟩ : ∃ k, i - xs.length = k + 1 := ⟨i - xs.length - 1, by omega⟩
        simp only [hk, List.getElem_cons_succ]
        exact Or.inr (List.getElem_mem _)
    exact hmem.elim (hxs _) (hys _)
  rw [← hget] at hmakes hedge
  subst hlen
  refine ⟨t', ht', fun cur ins out hshow => ⟨fun o => ?_, fun p hp u o ho => ?_⟩⟩
  · have hnone : row.levelApplies ins out = false := by
      rw [SeqRow.levelApplies, Bool.and_eq_false_iff]
      refine Or.inr ?_
      rw [← Bool.not_eq_true, all_zipIdx_iff]
      intro hall
      have := hall xs.length hpos
      rw [level_of_edge hedge] at this
      cases this
    rw [SeqTables.levelHit, SeqTables.levelHit, hlevels, List.any_cons, hnone]
    simp
  · have hany := any_test_eq (u := u) hshow hpos hp hother hedge hmakes
    rw [SeqTables.edgeHit, SeqTables.edgeHit, hedges o ho]
    by_cases hout : row.out = o <;> simp [hout, hany]

/-- A valid row makes its tables. -/
theorem compileSeqRow_spec {ports : Nat} {row : SeqRow} (hports : ports < 64)
    (hvalid : row.Valid ports) (t : SeqTables) :
    ∃ t', compileSeqRow ports t row = some t' ∧ SeqTables.Compiles ports [row] t t' := by
  cases hlevel : row.isLevel with
  | true => exact compileSeqRow_level hports hvalid.1 hlevel t
  | false => exact compileSeqRow_edge hports hvalid hlevel t

/-- All valid rows make their tables. -/
theorem compileSeq_rows {ports : Nat} (hports : ports < 64) {rows : List SeqRow}
    (hvalid : ∀ row ∈ rows, row.Valid ports) (t : SeqTables) :
    ∃ t', rows.foldlM (compileSeqRow ports) t = some t' ∧ SeqTables.Compiles ports rows t t' := by
  induction rows generalizing t with
  | nil =>
    exact ⟨t, rfl, fun _ _ _ _ => ⟨fun _ => by simp, fun _ _ _ _ _ => by simp⟩⟩
  | cons row rows ih =>
    obtain ⟨t₁, h₁, hc₁⟩ := compileSeqRow_spec hports (hvalid row List.mem_cons_self) t
    obtain ⟨t', h', hc'⟩ := ih (fun r hr => hvalid r (List.mem_cons_of_mem _ hr)) t₁
    refine ⟨t', by rw [List.foldlM_cons, h₁]; exact h', fun cur ins out hshow => ?_⟩
    obtain ⟨hl₁, he₁⟩ := hc₁ cur ins out hshow
    obtain ⟨hl', he'⟩ := hc' cur ins out hshow
    refine ⟨fun o => ?_, fun p hp u o ho => ?_⟩
    · rw [hl', hl₁, List.any_cons, List.any_cons, List.any_nil, Bool.or_false, Bool.or_assoc]
    · rw [he' p hp u o ho, he₁ p hp u o ho, List.any_cons, List.any_cons, List.any_nil,
        Bool.or_false, Bool.or_assoc]

/-- A compiled table matches where a row applies whose output it is for. -/
theorem compileSeq_spec {ports : Nat} (hports : ports < 64) {rows : List SeqRow}
    (hvalid : ∀ row ∈ rows, row.Valid ports) : ∃ t, compileSeq ports rows = some t ∧
      ∀ cur ins out, ShowsOutput cur ports ins out →
        (∀ o, t.levelHit cur o =
          rows.any fun row => decide (row.out = o) && row.levelApplies ins out) ∧
        ∀ p < ports, ∀ u, ∀ o ≠ some .x, t.edgeHit p u cur o =
          rows.any fun row => decide (row.out = o) && row.edgeApplies p u ins out := by
  obtain ⟨t, ht, hc⟩ := compileSeq_rows hports hvalid ⟨[], [], [], [], [], [], []⟩
  refine ⟨t, ht, fun cur ins out hshow => ?_⟩
  obtain ⟨hl, he⟩ := hc cur ins out hshow
  refine ⟨fun o => ?_, fun p hp u o ho => ?_⟩
  · rw [hl]
    rcases o with _ | _ | _ | _ <;> rfl
  · rw [he p hp u o ho]
    rcases o with _ | _ | _ | _ <;> rfl

/-- A combinational table matches where a row applies whose output it is for. -/
theorem compileComb_spec {ports : Nat} (hports : ports < 64) {rows : List CombRow}
    (hvalid : ∀ row ∈ rows, row.Valid ports) : ∃ t, compileComb ports rows = some t ∧
      ∀ cur ins, Shows cur ports ins →
        (t.levels0.any (covers cur) =
          rows.any fun row => decide (row.out = .zero) && row.applies ins) ∧
        t.levels1.any (covers cur) =
          rows.any fun row => decide (row.out = .one) && row.applies ins := by
  suffices hall : ∀ t₀ : CombTables, ∃ t, rows.foldlM (compileCombRow ports) t₀ = some t ∧
      ∀ cur ins, Shows cur ports ins →
        (t.levels0.any (covers cur) = (t₀.levels0.any (covers cur) ||
          rows.any fun row => decide (row.out = .zero) && row.applies ins)) ∧
        t.levels1.any (covers cur) = (t₀.levels1.any (covers cur) ||
          rows.any fun row => decide (row.out = .one) && row.applies ins) by
    obtain ⟨t, ht, hspec⟩ := hall ⟨[], []⟩
    exact ⟨t, ht, fun cur ins hshow => by simpa using hspec cur ins hshow⟩
  induction rows with
  | nil => exact fun t₀ => ⟨t₀, rfl, fun _ _ _ => by simp⟩
  | cons row rows ih =>
    intro t₀
    obtain ⟨hlen, hall⟩ := hvalid row List.mem_cons_self
    have hletters : ∀ a ∈ row.inputs, a.isLevel = true := List.all_eq_true.mp hall
    obtain ⟨c, hc, hhas⟩ := levelLoop_spec hletters 0 (by omega) .clear
    have hcell : ∀ i v, c.has i v = cell row.inputs 0 i v := by
      intro i v
      rw [hhas, has_clear, Bool.false_or]
    have hguard : (guard (row.inputs.length = ports) : Option Unit) = some () := if_pos hlen
    have hguard' : (guard (ports ≤ 64) : Option Unit) = some () := if_pos hports.le
    obtain ⟨t₁, h₁, h0, h1⟩ : ∃ t₁, compileCombRow ports t₀ row = some t₁ ∧
        t₁.levels0 = (if row.out = .zero then t₀.levels0 ++ [c] else t₀.levels0) ∧
        t₁.levels1 = if row.out = .one then t₀.levels1 ++ [c] else t₀.levels1 := by
      simp only [compileCombRow, hguard, hguard', Option.bind_eq_bind, Option.bind_some, hc]
      cases row.out <;> exact ⟨_, rfl, rfl, rfl⟩
    obtain ⟨t, ht, hspec⟩ := ih (fun r hr => hvalid r (List.mem_cons_of_mem _ hr)) t₁
    refine ⟨t, by rw [List.foldlM_cons, h₁]; exact ht, fun cur ins hshow => ?_⟩
    obtain ⟨hs0, hs1⟩ := hspec cur ins hshow
    have hcovers : covers cur c = row.applies ins := covers_of_cell (hlen.symm ▸ hshow) hcell
    rw [hs0, hs1, h0, h1, List.any_cons, List.any_cons]
    cases row.out <;> simp [hcovers, Bool.or_assoc]

end Icarus.Vvp.Udp
