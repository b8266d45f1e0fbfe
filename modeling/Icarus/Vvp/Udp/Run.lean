import Icarus.Vvp.Udp.Follow

/-!
# Runs of a primitive

A primitive is compiled and gets its inputs one change after the other. The output
that it tracks is that of its rows as long as no row with `-` has to decide for a
primitive with more than 31 inputs.
-/

namespace Icarus.Vvp.Udp

open Icarus.Core

/-- The core shows inputs and output. -/
structure Tracks (ports : Nat) (core : Core) (s : State) : Prop where
  /-- The inputs. -/
  shows : Shows core.current ports s.ins
  /-- The output. -/
  out : core.curOut = s.out.toBit4

/-- A step of the core is one that the code can take. -/
def Definition.Defined (d : Definition) (ports : Nat) (s : State) (event : Nat × Bit4) : Prop :=
  ports < 32 ∨ ¬ d.KeepsByRow s event

/-- A change that the code can take makes the output that the rows give; on another there is no
result. -/
def Compiled.Follows (u : Compiled) (ports : Nat) (d : Definition) : Prop :=
  ∀ core s event, Tracks ports core s → event.1 < ports →
    (d.Defined ports s event →
      ∃ core', u.recv ports core event = some core' ∧ Tracks ports core' (d.step s event)) ∧
    (¬ d.Defined ports s event → u.recv ports core event = none)

section Seq

variable {ports : Nat} {rows : List SeqRow} {t : SeqTables} {init : Value}

/-- The output of a sequential primitive after the change of an input. -/
theorem calculateOutput_change (hports : ports < 64)
    (hcons : (Definition.seq init rows).Consistent) (h : t.Agrees ports rows) {cur prev : LevelsTable}
    {ins ins' : Nat → Value} (out : Value) {p : Nat} (hp : p < ports) (hprev : Shows prev ports ins)
    (hcur : Shows cur ports ins') (hsame : ∀ i, i ≠ p → ins' i = ins i) (hne : ins' p ≠ ins p) :
    (ports < 32 ∨ ¬ Keeps rows p (ins p) ins' out →
      t.calculateOutput ports cur prev out.toBit4 =
        some (nextOutput rows p (ins p) ins' out).toBit4) ∧
      (¬ (ports < 32 ∨ ¬ Keeps rows p (ins p) ins' out) →
        t.calculateOutput ports cur prev out.toBit4 = none) := by
  have hchange : cur ≠ prev := by
    rintro rfl
    have hhas := hcur p (ins' p)
    rw [hprev p (ins' p)] at hhas
    simp [hp, hne.symm] at hhas
  have hshow := hcur.withOutput hports out
  obtain ⟨c, hc⟩ : ∃ c, c = cur.withOutput ports out.toBit4 := ⟨_, rfl⟩
  rw [← hc] at hshow
  have hcalc : t.calculateOutput ports cur prev out.toBit4 =
      (t.testLevels ports c).bind fun lev =>
        if lev = .z then t.testEdges ports c prev else some lev := by
    rw [SeqTables.calculateOutput, if_neg hchange, hc]
    rfl
  have hkept := currentOutput_eq hports hshow
  have hvalue : ∀ v : Value, ((some v.toBit4).bind fun lev =>
      if lev = .z then t.testEdges ports c prev else some lev) = some v.toBit4 := by
    intro v
    cases v <;> rfl
  -- Levels decide if a row of levels applies, and edges do otherwise.
  obtain ⟨hkeeps, hdecides⟩ :
      (Keeps rows p (ins p) ins' out →
        t.calculateOutput ports cur prev out.toBit4 = currentOutput ports c) ∧
      (¬ Keeps rows p (ins p) ins' out → t.calculateOutput ports cur prev out.toBit4 =
        some (nextOutput rows p (ins p) ins' out).toBit4) := by
    rw [hcalc]
    by_cases hlevel : ∃ row ∈ rows, row.levelApplies ins' out = true
    · obtain ⟨hk, hd⟩ := testLevels_of_applies (p := p) (u := ins p) hcons h hshow hlevel
      refine ⟨fun hkeeps => ?_, fun hkeeps => by rw [hd hkeeps, hvalue]⟩
      rw [hk hkeeps, hkept]
      split_ifs
      · exact hvalue out
      · rfl
    · have hnone : ∀ row ∈ rows, ¬ row.levelApplies ins' out = true :=
        fun row hrow happlies => hlevel ⟨row, hrow, happlies⟩
      have hz : t.testLevels ports c = some .z := by
        have hmiss : ∀ o, ¬ t.levelHit c o = true := by
          intro o ho
          obtain ⟨row, hrow, happlies, -⟩ := (h.levelHit_iff hshow o).mp ho
          exact hnone row hrow happlies
        exact (if_neg (hmiss (some .zero))).trans ((if_neg (hmiss (some .one))).trans
          ((if_neg (hmiss (some .x))).trans (if_neg (hmiss none))))
      obtain ⟨hk, hd⟩ := testEdges_of_none hcons h hshow hports hp hprev hsame hne hnone
      rw [hz, Option.bind_some, if_pos rfl]
      exact ⟨hk, hd⟩
  by_cases hk : Keeps rows p (ins p) ins' out
  · rw [hkeeps hk, hkept, nextOutput_keeps hcons hk]
    constructor
    · rintro (hint | hnot)
      · rw [if_pos hint]
      · exact absurd hk hnot
    · intro hnot
      rw [if_neg fun hint => hnot (Or.inl hint)]
  · exact ⟨fun _ => hdecides hk, fun hnot => absurd (Or.inr hk) hnot⟩

/-- A compiled sequential primitive follows its rows. -/
theorem follows_seq (hports : ports < 64) (hcons : (Definition.seq init rows).Consistent)
    (h : t.Agrees ports rows) : (Compiled.seq init t).Follows ports (.seq init rows) := by
  intro core s event htracks hp
  obtain ⟨ins', hins⟩ : ∃ ins', ins' = Function.update s.ins event.1 (Value.ofBit4 event.2) :=
    ⟨_, rfl⟩
  have hshows := htracks.shows.receive hports hp event.2
  rw [← hins] at hshows
  have hsame : ∀ i, i ≠ event.1 → ins' i = s.ins i := by
    intro i hi
    rw [hins, Function.update_of_ne hi]
  by_cases hne : ins' event.1 = s.ins event.1
  · have hunchanged : ins' = s.ins := by
      ext1 i
      by_cases hi : i = event.1
      · rw [hi, hne]
      · exact hsame i hi
    have hkeeps : ¬ (Definition.seq init rows).KeepsByRow s event := by
      rintro ⟨hchange, -⟩
      rw [← hins] at hchange
      exact hchange hne
    have heq := hshows.unique (hunchanged ▸ htracks.shows)
    refine ⟨fun _ => ⟨⟨core.current.receive event.1 event.2, core.curOut⟩, ?_, ?_⟩,
      fun hnot => absurd (Or.inr hkeeps) hnot⟩
    · rw [Compiled.recv, Compiled.calculateOutput, SeqTables.calculateOutput, if_pos heq]
      rfl
    · rw [Definition.step, ← hins, if_pos hne]
      exact ⟨hshows, htracks.out⟩
  · obtain ⟨hdefined, hundefined⟩ := calculateOutput_change hports hcons h s.out hp
      htracks.shows hshows hsame hne
    rw [← htracks.out] at hdefined hundefined
    have hiff : (Definition.seq init rows).Defined ports s event ↔
        ports < 32 ∨ ¬ Keeps rows event.1 (s.ins event.1) ins' s.out := by
      rw [Definition.Defined, Definition.KeepsByRow, ← hins]
      simp only [ne_eq, hne, not_false_eq_true, true_and]
    rw [hiff]
    constructor
    · intro hd
      refine ⟨_, by rw [Compiled.recv, Compiled.calculateOutput, hdefined hd]; rfl, ?_⟩
      rw [Definition.step, ← hins, if_neg hne]
      exact ⟨hshows, rfl⟩
    · intro hd
      rw [Compiled.recv, Compiled.calculateOutput, hundefined hd]
      rfl

end Seq

/-- A compiled combinational primitive follows its rows. -/
theorem follows_comb {ports : Nat} {rows : List CombRow} {t : CombTables} (hports : ports < 64)
    (hcons : (Definition.comb rows).Consistent)
    (h : ∀ cur ins, Shows cur ports ins →
      (t.levels0.any (covers cur) = rows.any fun row => decide (row.out = .zero) && row.applies ins) ∧
      t.levels1.any (covers cur) = rows.any fun row => decide (row.out = .one) && row.applies ins) :
    (Compiled.comb t).Follows ports (.comb rows) := by
  intro core s event htracks hp
  refine ⟨fun _ => ⟨_, rfl, ?_⟩, fun hnot => absurd (Or.inr fun hk => hk.elim) hnot⟩
  obtain ⟨ins', hins⟩ : ∃ ins', ins' = Function.update s.ins event.1 (Value.ofBit4 event.2) :=
    ⟨_, rfl⟩
  have hshows := htracks.shows.receive hports hp event.2
  obtain ⟨h0, h1⟩ := h _ _ hshows
  rw [← hins] at h0 h1 hshows
  have hhit : ∀ v, (rows.any fun row => decide (row.out = v) && row.applies ins') = true ↔
      ∃ row ∈ rows, row.applies ins' = true ∧ row.out = v := by
    intro v
    rw [List.any_eq_true]
    simp only [Bool.and_eq_true, decide_eq_true_eq, and_comm]
  have hstep : (Definition.comb rows).step s event =
      ⟨ins', ((rows.find? (·.applies ins')).map (·.out)).getD .x⟩ := by
    rw [Definition.step, ← hins]
    cases rows.find? (·.applies ins') <;> rfl
  rw [hstep]
  refine ⟨hshows, ?_⟩
  dsimp only
  rw [CombTables.testLevels, h0, h1]
  cases hfind : rows.find? (·.applies ins') with
  | none =>
    have hnone : ∀ v, ¬ (rows.any fun row => decide (row.out = v) && row.applies ins') = true := by
      intro v hv
      obtain ⟨row, hrow, happlies, -⟩ := (hhit v).mp hv
      exact List.find?_eq_none.mp hfind row hrow happlies
    rw [if_neg (hnone .zero), if_neg (hnone .one)]
    rfl
  | some first =>
    have hmem := List.mem_of_find?_eq_some hfind
    have happlies : first.applies ins' = true := by simpa using List.find?_some hfind
    have hout : ∀ v, (rows.any fun row => decide (row.out = v) && row.applies ins') = true ↔
        first.out = v := by
      intro v
      rw [hhit]
      constructor
      · rintro ⟨row, hrow, hrow', rfl⟩
        exact hcons ins' first hmem row hrow happlies hrow'
      · rintro rfl
        exact ⟨first, hmem, happlies, rfl⟩
    simp only [hout, Option.map_some, Option.getD_some]
    cases first.out <;> rfl

/-- Valid and consistent rows are compiled, and the result follows them. -/
theorem compileTable_spec {ports : Nat} (hports : ports < 64) {d : Definition}
    (hvalid : d.Valid ports) (hcons : d.Consistent) : ∃ u, compileTable ports d = some u ∧
      u.Follows ports d ∧ Tracks ports (u.start ports) d.start := by
  cases d with
  | comb rows =>
    obtain ⟨t, ht, hspec⟩ := compileComb_spec hports hvalid
    exact ⟨.comb t, by rw [compileTable, ht]; rfl, follows_comb hports hcons hspec,
      shows_start hports, rfl⟩
  | seq init rows =>
    obtain ⟨t, ht, hspec⟩ := compileSeq_spec hports hvalid
    exact ⟨.seq init t, by rw [compileTable, ht]; rfl, follows_seq hports hcons hspec,
      shows_start hports, rfl⟩

/-- A run is one of the code if all its steps are, and then the output is that of the rows. -/
theorem run_iff {ports : Nat} {u : Compiled} {d : Definition} (h : u.Follows ports d)
    {events : List (Nat × Bit4)} (hevents : ∀ event ∈ events, event.1 < ports) {core : Core}
    {s : State} (htracks : Tracks ports core s) :
    (∃ core', Runs.run (u.recv ports) core events = some core' ∧
      core'.curOut = (events.foldl d.step s).out.toBit4) ↔
    Runs.Meets (fun s event => some (d.step s event)) (d.Defined ports) s events := by
  induction events generalizing core s with
  | nil => exact iff_of_true ⟨core, rfl, htracks.out⟩ trivial
  | cons event events ih =>
    obtain ⟨hdefined, hundefined⟩ := h core s event htracks (hevents event List.mem_cons_self)
    rw [Runs.run_cons, Runs.Meets, List.foldl_cons]
    by_cases hd : d.Defined ports s event
    · obtain ⟨core', hcore, htracks'⟩ := hdefined hd
      rw [hcore, Option.bind_some,
        ih (fun e he => hevents e (List.mem_cons_of_mem _ he)) htracks']
      constructor
      · exact fun hmeets => ⟨hd, fun s' hs' => Option.some_inj.mp hs' ▸ hmeets⟩
      · exact fun hmeets => hmeets.2 _ rfl
    · rw [hundefined hd]
      exact iff_of_false (fun ⟨_, hrun, _⟩ => by cases hrun) (fun hmeets => hd hmeets.1)

/-- The output that is tracked is that of the rows, after every sequence of changes of inputs, just
if there are less than 32 inputs or no row with `-` has to decide. -/
theorem output_follows_iff {ports : Nat} (hports : ports < 64) {d : Definition}
    (hvalid : d.Valid ports) (hcons : d.Consistent) {events : List (Nat × Bit4)}
    (hevents : ∀ event ∈ events, event.1 < ports) :
    (∃ u core, compileTable ports d = some u ∧
      Runs.run (u.recv ports) (u.start ports) events = some core ∧
      core.curOut = (events.foldl d.step d.start).out.toBit4) ↔
    Runs.Meets (fun s event => some (d.step s event))
      (fun s event => ports < 32 ∨ ¬ d.KeepsByRow s event) d.start events := by
  obtain ⟨u, hu, hfollows, hstart⟩ := compileTable_spec hports hvalid hcons
  refine Iff.trans ?_ (run_iff hfollows hevents hstart)
  constructor
  · rintro ⟨u', core, hu', hrun, hout⟩
    obtain rfl : u' = u := Option.some_inj.mp (hu'.symm.trans hu)
    exact ⟨core, hrun, hout⟩
  · rintro ⟨core, hrun, hout⟩
    exact ⟨u, core, hu, hrun, hout⟩

/-- A primitive with one row. -/
private theorem consistent_one (init : Value) (row : SeqRow) :
    (Definition.seq init [row]).Consistent := by
  intro ins out
  simp

/-- A flip-flop takes its data input at the edge of its clock. -/
theorem output_follows_flipflop : ∃ u core,
    compileTable 2 (.seq .zero [⟨.any, [.one, .r], some .one⟩]) = some u ∧
      Runs.run (u.recv 2) (u.start 2) [(0, .one), (1, .zero), (1, .one)] = some core ∧
      core.curOut = .one := by
  have hmeets := (@output_follows_iff 2 (by decide) (.seq .zero [⟨.any, [.one, .r], some .one⟩]) (by
      simp only [Definition.Valid, List.mem_singleton, forall_eq, SeqRow.Valid]
      decide)
    (consistent_one .zero _) [(0, .one), (1, .zero), (1, .one)] (by decide)).mpr
    ⟨Or.inl (by decide), fun _ _ => ⟨Or.inl (by decide), fun _ _ => ⟨Or.inl (by decide),
      fun _ _ => trivial⟩⟩⟩
  exact hmeets

/-- A primitive with 32 inputs that keeps its output has none. -/
theorem output_not_followed : ¬ ∀ (ports : Nat) (d : Definition) (events : List (Nat × Bit4)),
    1 ≤ ports → ports ≤ 63 → d.Valid ports → d.Consistent → (∀ event ∈ events, event.1 < ports) →
      ∃ u core, compileTable ports d = some u ∧
        Runs.run (u.recv ports) (u.start ports) events = some core ∧
        core.curOut = (events.foldl d.step d.start).out.toBit4 := by
  intro h
  obtain ⟨row, hrow⟩ : ∃ row : SeqRow, row = ⟨.any, List.replicate 32 .any, none⟩ := ⟨_, rfl⟩
  have hvalid : (Definition.seq .one [row]).Valid 32 := by
    subst hrow
    simp only [Definition.Valid, List.mem_singleton, forall_eq, SeqRow.Valid]
    decide
  obtain ⟨u, hu, hfollows, hstart⟩ := compileTable_spec (by decide) hvalid
    (consistent_one .one row)
  obtain ⟨u', core, hu', hrun, -⟩ := h 32 (.seq .one [row]) [(0, .zero)] (by decide) (by decide)
    hvalid (consistent_one .one row) (by decide)
  obtain rfl : u' = u := Option.some_inj.mp (hu'.symm.trans hu)
  have hkeeps : (Definition.seq .one [row]).KeepsByRow (Definition.seq .one [row]).start
      (0, .zero) := by
    refine ⟨by rw [Function.update_self]; exact fun hsame => Value.noConfusion hsame,
      Or.inl ⟨⟨row, List.mem_singleton_self row, ?_⟩, ?_⟩⟩
    · rw [SeqRow.levelApplies, hrow, Bool.and_eq_true, all_zipIdx_iff]
      refine ⟨rfl, fun i hi => ?_⟩
      rw [List.getElem_replicate]
      rfl
    · intro r hr _
      rw [List.mem_singleton.mp hr, hrow]
  have hnone := (hfollows _ _ (0, .zero) hstart (by decide)).2
    (by rintro (hlt | hnot)
        · exact absurd hlt (by decide)
        · exact hnot hkeeps)
  rw [Runs.run_cons, hnone] at hrun
  cases hrun

end Icarus.Vvp.Udp
