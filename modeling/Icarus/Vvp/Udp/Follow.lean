import Icarus.Core.Runs
import Icarus.Vvp.Udp.Compile

/-!
# The output follows the rows

After every change of an input the output that is tracked is the one that the rows
give. The exception are primitives with more than 31 inputs where a row with `-`
decides: the current output is then looked up by a shift that an `int` does not
have.
-/

namespace Icarus.Vvp.Udp

open Icarus.Core

/-! ## The tables of current values -/

section Shown

variable {ports : Nat} {ins : Nat → Value} {cur prev : LevelsTable}

/-- Tables that show the same inputs are equal. -/
theorem Shows.unique (h : Shows cur ports ins) (h' : Shows prev ports ins) : cur = prev :=
  eq_of_has fun i _ v => by rw [h i v, h' i v]

theorem shows_start (hports : ports < 64) :
    Shows ⟨0, 0, ~~~((-1 : BitVec 64) <<< ports)⟩ ports fun _ => .x := by
  intro i v
  cases v with
  | zero => simp [LevelsTable.has]
  | one => simp [LevelsTable.has]
  | x =>
    have hones : (-1 : BitVec 64) = BitVec.allOnes 64 := by decide
    rw [LevelsTable.has, BitVec.getLsbD_not, BitVec.getLsbD_shiftLeft, hones,
      BitVec.getLsbD_allOnes]
    by_cases hi : i < ports
    · simp [hi, show i < 64 by omega]
    · by_cases hi64 : i < 64
      · simp [hi, hi64, show i - ports < 64 by omega]
      · simp [hi, hi64]

/-- The output is shown behind the inputs. -/
theorem Shows.withOutput (hports : ports < 64) (hcur : Shows cur ports ins) (out : Value) :
    ShowsOutput (cur.withOutput ports out.toBit4) ports ins out := by
  intro i v
  cases out <;>
    simp only [LevelsTable.withOutput, Value.toBit4, has_or0 hports, has_or1 hports,
      has_orx hports, hcur i v] <;>
    cases v <;> simp

/-- An input gets a value. -/
theorem Shows.receive {p : Nat} (hports : ports < 64) (hp : p < ports)
    (hprev : Shows prev ports ins) (b : Bit4) :
    Shows (prev.receive p b) ports (Function.update ins p (Value.ofBit4 b)) := by
  intro i v
  have hbit := getLsbD_bit (show p < 64 by omega) i
  have h0 := hprev i .zero
  have h1 := hprev i .one
  have hx := hprev i .x
  simp only [LevelsTable.has] at h0 h1 hx
  by_cases hi : i = p
  · subst hi
    have hi64 : i < 64 := by omega
    rw [Function.update_self]
    cases b <;> cases v <;>
      simp only [LevelsTable.receive, LevelsTable.has, BitVec.getLsbD_or, BitVec.getLsbD_and,
        BitVec.getLsbD_not, hbit, Value.ofBit4, hp, hi64] <;>
      simp
  · rw [Function.update_of_ne hi]
    by_cases hi64 : i < 64
    · cases b <;> cases v <;>
        simp only [LevelsTable.receive, LevelsTable.has, BitVec.getLsbD_or, BitVec.getLsbD_and,
          BitVec.getLsbD_not, hbit, h0, h1, hx, hi, hi64, decide_false, decide_true,
          Bool.not_false, Bool.and_true, Bool.or_false]
    · have hout : ¬ i < ports := by omega
      cases b <;> cases v <;>
        simp only [LevelsTable.receive, LevelsTable.has, BitVec.getLsbD_or, BitVec.getLsbD_and,
          BitVec.getLsbD_not, hbit, h0, h1, hx, hi, hout, decide_false, Bool.false_and,
          Bool.or_false]

/-- The bit of an `int` is there and not below. -/
private theorem getLsbD_intBit {bit : BitVec 64} (hbit : intBit ports = some bit) {i : Nat}
    (hi : i ≤ ports) : bit.getLsbD i = decide (i = ports) := by
  obtain ⟨hports, hbit⟩ := Option.ite_none_right_eq_some.mp hbit
  obtain rfl := Option.some_inj.mp hbit
  rw [BitVec.getLsbD_signExtend, if_pos (by omega), BitVec.getLsbD_shiftLeft,
    show (1 : BitVec 32) = 1#32 from rfl, BitVec.getLsbD_one, Bool.eq_iff_iff]
  simp only [Bool.and_eq_true, Bool.not_eq_true', decide_eq_true_eq, decide_eq_false_iff_not]
  omega

private theorem and_intBit_ne_zero {bit mask : BitVec 64} (hports : ports < 64)
    (hbit : intBit ports = some bit) (hmask : ∀ i, ports < i → mask.getLsbD i = false) :
    mask &&& bit ≠ 0 ↔ mask.getLsbD ports = true := by
  constructor
  · intro hne
    by_contra hports'
    apply hne
    apply BitVec.eq_of_getLsbD_eq
    intro i _
    rw [BitVec.getLsbD_and]
    rcases Nat.lt_trichotomy i ports with h | rfl | h
    · simp [getLsbD_intBit hbit h.le, h.ne]
    · simp [Bool.not_eq_true _ ▸ hports']
    · simp [hmask i h]
  · intro hset hzero
    have hget := congrArg (fun b : BitVec 64 => b.getLsbD ports) hzero
    simp [hset, getLsbD_intBit hbit (Nat.le_refl ports)] at hget

/-- The current output is looked up where an `int` has the bit. -/
theorem currentOutput_eq (hports : ports < 64) {out : Value} (hcur : ShowsOutput cur ports ins out) :
    currentOutput ports cur = if ports < 32 then some out.toBit4 else none := by
  by_cases hint : ports < 32
  · obtain ⟨bit, hbit⟩ : ∃ bit, intBit ports = some bit := ⟨_, if_pos hint⟩
    have hmask : ∀ v i, ports < i → cur.has i v = false := by
      intro v i hi
      simp [hcur i v, show ¬ i < ports by omega, show ¬ i = ports by omega]
    have hat : ∀ v, cur.has ports v = decide (out = v) := by
      intro v
      simp [hcur ports v]
    have h0 := and_intBit_ne_zero hports hbit (hmask .zero)
    have h1 := and_intBit_ne_zero hports hbit (hmask .one)
    have hx := and_intBit_ne_zero hports hbit (hmask .x)
    have hat0 : cur.mask0.getLsbD ports = decide (out = .zero) := hat .zero
    have hat1 : cur.mask1.getLsbD ports = decide (out = .one) := hat .one
    have hatx : cur.maskx.getLsbD ports = decide (out = .x) := hat .x
    rw [hat0] at h0
    rw [hat1] at h1
    rw [hatx] at hx
    rw [if_pos hint]
    simp only [currentOutput, hbit, Option.bind_eq_bind, Option.bind_some, h0, h1, hx]
    cases out <;> rfl
  · have hbit : intBit ports = none := if_neg hint
    rw [currentOutput, hbit, if_neg hint]
    rfl

end Shown

/-! ## The edge -/

/-- A single bit is found at its position. -/
theorem edgePositionLoop_bit {p fuel q : Nat} (hp : p < 64) (hfuel : p < fuel) :
    edgePositionLoop fuel ((1 : BitVec 64) <<< p) q = some (1, q + p) := by
  induction p generalizing fuel q with
  | zero =>
    obtain ⟨fuel, rfl⟩ : ∃ k, fuel = k + 1 := ⟨fuel - 1, by omega⟩
    rfl
  | succ p ih =>
    obtain ⟨fuel, rfl⟩ : ∃ k, fuel = k + 1 := ⟨fuel - 1, by omega⟩
    have hlow : (1 : BitVec 64) <<< (p + 1) &&& 1 = 0 := by
      apply BitVec.eq_of_getLsbD_eq
      intro i hi
      have hone := getLsbD_bit (show 0 < 64 by omega) i
      rw [show (1 : BitVec 64) <<< 0 = 1 from rfl] at hone
      rw [BitVec.getLsbD_and, getLsbD_bit hp, hone]
      by_cases h0 : i = 0 <;> simp [h0]
    have hshift : (1 : BitVec 64) <<< (p + 1) >>> 1 = (1 : BitVec 64) <<< p := by
      apply BitVec.eq_of_getLsbD_eq
      intro i hi
      rw [BitVec.getLsbD_ushiftRight, getLsbD_bit hp, getLsbD_bit (show p < 64 by omega),
        Bool.eq_iff_iff]
      simp only [decide_eq_true_eq]
      omega
    rw [edgePositionLoop, if_pos hlow, hshift, ih (by omega) (by omega), Nat.add_assoc,
      Nat.add_comm 1]

private theorem and_bit_ne_zero {p : Nat} (hp : p < 64) (mask : BitVec 64) :
    mask &&& (1 : BitVec 64) <<< p ≠ 0 ↔ mask.getLsbD p = true := by
  constructor
  · intro hne
    by_contra hclear
    apply hne
    apply BitVec.eq_of_getLsbD_eq
    intro i _
    rw [BitVec.getLsbD_and, getLsbD_bit hp]
    by_cases hi : i = p
    · simp [hi, Bool.not_eq_true _ ▸ hclear]
    · simp [hi]
  · intro hset hzero
    have hget := congrArg (fun b : BitVec 64 => b.getLsbD p) hzero
    simp only [BitVec.getLsbD_and, getLsbD_bit hp, hset, decide_true] at hget
    exact absurd hget (by simp)

/-- The change of one input is the one edge. -/
theorem edgeMask_eq {ports p : Nat} (hports : ports < 64) (hp : p < ports)
    {ins ins' : Nat → Value} {out : Value} {cur prev : LevelsTable}
    (hcur : ShowsOutput cur ports ins' out) (hprev : Shows prev ports ins)
    (hsame : ∀ i, i ≠ p → ins' i = ins i) (hne : ins' p ≠ ins p) :
    ((cur.mask0 ^^^ prev.mask0) ||| (cur.maskx ^^^ prev.maskx) ||| (cur.mask1 ^^^ prev.mask1)) &&&
      ~~~((-1 : BitVec 64) <<< ports) = (1 : BitVec 64) <<< p := by
  apply BitVec.eq_of_getLsbD_eq
  intro i hi
  have hstart : (~~~((-1 : BitVec 64) <<< ports)).getLsbD i = decide (i < ports) := by
    have hx := shows_start hports i .x
    rw [decide_eq_true rfl, Bool.and_true] at hx
    exact hx
  have h0 : cur.mask0.getLsbD i = _ := hcur i .zero
  have h1 : cur.mask1.getLsbD i = _ := hcur i .one
  have hx : cur.maskx.getLsbD i = _ := hcur i .x
  have h0' : prev.mask0.getLsbD i = _ := hprev i .zero
  have h1' : prev.mask1.getLsbD i = _ := hprev i .one
  have hx' : prev.maskx.getLsbD i = _ := hprev i .x
  rw [BitVec.getLsbD_and, BitVec.getLsbD_or, BitVec.getLsbD_or, BitVec.getLsbD_xor,
    BitVec.getLsbD_xor, BitVec.getLsbD_xor, hstart, h0, h1, hx, h0', h1', hx',
    getLsbD_bit (show p < 64 by omega)]
  by_cases hports' : i < ports
  · by_cases hip : i = p
    · subst hip
      rcases hu : ins i with _ | _ | _ <;> rcases hv : ins' i with _ | _ | _ <;>
        first
          | (rw [hu, hv] at hne
             exact absurd rfl hne)
          | simp [hports', hports'.ne]
    · rw [hsame i hip]
      simp [hports', hports'.ne, hip]
  · simp [hports', show ¬ i = p by omega]

/-- The tables of edges are tested with the one change. -/
theorem testEdges_eq (t : SeqTables) {ports p : Nat} (hports : ports < 64) (hp : p < ports)
    {ins ins' : Nat → Value} {out : Value} {cur prev : LevelsTable}
    (hcur : ShowsOutput cur ports ins' out) (hprev : Shows prev ports ins)
    (hsame : ∀ i, i ≠ p → ins' i = ins i) (hne : ins' p ≠ ins p) :
    t.testEdges ports cur prev =
      if t.edgeHit p (ins p) cur (some .zero) then some .zero
      else if t.edgeHit p (ins p) cur (some .one) then some .one
      else if t.edgeHit p (ins p) cur none then currentOutput ports cur
      else some .x := by
  have hbit : (1 : BitVec 64) <<< p ≠ 0 := by
    have h := (and_bit_ne_zero (show p < 64 by omega) ((1 : BitVec 64) <<< p)).mpr (by
      rw [getLsbD_bit (by omega), decide_eq_true rfl])
    rwa [BitVec.and_self] at h
  have hat : ∀ v, prev.has p v = decide (ins p = v) := by
    intro v
    simp [hprev p v, hp]
  have h0 : prev.mask0.getLsbD p = decide (ins p = .zero) := hat .zero
  have h1 : prev.mask1.getLsbD p = decide (ins p = .one) := hat .one
  have hx : prev.maskx.getLsbD p = decide (ins p = .x) := hat .x
  have hguard : (guard True : Option Unit) = some () := if_pos trivial
  have hloop := @edgePositionLoop_bit p 64 0 (by omega) (by omega)
  rw [Nat.zero_add] at hloop
  simp only [SeqTables.testEdges, edgeMask_eq hports hp hcur hprev hsame hne, if_neg hbit, hloop,
    Option.bind_eq_bind, Option.bind_some, hguard, and_bit_ne_zero (show p < 64 by omega), h0, h1,
    hx, decide_eq_true_eq, SeqTables.edgeHit, SeqTables.edges, Option.pure_def]
  rfl

/-! ## One change -/

/-- Rows with an output decide if they match. -/
private theorem levels_some {H : Option Value → Bool} {w v out : Value} (hv : H (some v) = true)
    (hagree : ∀ o, H o = true → o.getD out = w) (k : Option Bit4) :
    (if H (some .zero) then some Bit4.zero
      else if H (some .one) then some .one
      else if H (some .x) then some .x
      else if H none then k
      else some .z) = some w.toBit4 := by
  split_ifs with h0 h1 hx
  · rw [← hagree _ h0]
    rfl
  · rw [← hagree _ h1]
    rfl
  · rw [← hagree _ hx]
    rfl
  all_goals cases v <;> contradiction

/-- A row with `-` decides if no other row matches. -/
private theorem levels_none {H : Option Value → Bool} (hnone : ∀ v, H (some v) = false)
    (k : Option Bit4) :
    (if H (some .zero) then some Bit4.zero
      else if H (some .one) then some .one
      else if H (some .x) then some .x
      else if H none then k
      else some .z) = if H none then k else some .z := by
  simp [hnone]

section Change

variable {ports p : Nat} {rows : List SeqRow} {t : SeqTables} {ins ins' : Nat → Value}
  {u out : Value} {cur prev : LevelsTable}

/-- The compiled tables match where a row applies whose output they are for. -/
def SeqTables.Agrees (t : SeqTables) (ports : Nat) (rows : List SeqRow) : Prop :=
  ∀ cur ins out, ShowsOutput cur ports ins out →
    (∀ o, t.levelHit cur o = rows.any fun row => decide (row.out = o) && row.levelApplies ins out) ∧
    ∀ p < ports, ∀ u, ∀ o ≠ some .x, t.edgeHit p u cur o =
      rows.any fun row => decide (row.out = o) && row.edgeApplies p u ins out

theorem SeqTables.Agrees.levelHit_iff (h : t.Agrees ports rows) (hcur : ShowsOutput cur ports ins out)
    (o : Option Value) :
    t.levelHit cur o = true ↔ ∃ row ∈ rows, row.levelApplies ins out = true ∧ row.out = o := by
  rw [(h cur ins out hcur).1, List.any_eq_true]
  simp only [Bool.and_eq_true, decide_eq_true_eq, and_comm]

theorem SeqTables.Agrees.edgeHit_iff (h : t.Agrees ports rows) (hcur : ShowsOutput cur ports ins out)
    (hp : p < ports) (u : Value) {o : Option Value} (ho : o ≠ some .x) :
    t.edgeHit p u cur o = true ↔ ∃ row ∈ rows, row.edgeApplies p u ins out = true ∧ row.out = o := by
  rw [(h cur ins out hcur).2 p hp u o ho, List.any_eq_true]
  simp only [Bool.and_eq_true, decide_eq_true_eq, and_comm]

/-- Any row of levels that applies gives the output. -/
theorem nextOutput_level {init : Value} (hcons : (Definition.seq init rows).Consistent)
    {row : SeqRow} (hrow : row ∈ rows) (happlies : row.levelApplies ins out = true) :
    nextOutput rows p u ins out = row.next out := by
  rw [nextOutput]
  cases hfind : rows.find? (·.levelApplies ins out) with
  | none => exact absurd happlies (List.find?_eq_none.mp hfind row hrow)
  | some first =>
    exact (hcons ins out).1 first (List.mem_of_find?_eq_some hfind) row hrow
      (by simpa using List.find?_some hfind) happlies

/-- Where no row of levels applies, any row of edges that does gives the output. -/
theorem nextOutput_edge {init : Value} (hcons : (Definition.seq init rows).Consistent)
    (hnone : ∀ row ∈ rows, ¬ row.levelApplies ins out = true) {row : SeqRow} (hrow : row ∈ rows)
    (happlies : row.edgeApplies p u ins out = true) :
    nextOutput rows p u ins out = row.next out := by
  rw [nextOutput, List.find?_eq_none.mpr hnone]
  cases hfind : rows.find? (·.edgeApplies p u ins out) with
  | none => exact absurd happlies (List.find?_eq_none.mp hfind row hrow)
  | some first =>
    exact (hcons ins out).2 hnone p u first (List.mem_of_find?_eq_some hfind) row hrow
      (by simpa using List.find?_some hfind) happlies

/-- Where no row applies the output is X. -/
theorem nextOutput_none (hlevel : ∀ row ∈ rows, ¬ row.levelApplies ins out = true)
    (hedge : ∀ row ∈ rows, ¬ row.edgeApplies p u ins out = true) :
    nextOutput rows p u ins out = .x := by
  rw [nextOutput, List.find?_eq_none.mpr hlevel, List.find?_eq_none.mpr hedge]

/-- Where a row with `-` decides the output is kept. -/
theorem nextOutput_keeps {init : Value} (hcons : (Definition.seq init rows).Consistent)
    (hkeeps : Keeps rows p u ins out) : nextOutput rows p u ins out = out := by
  rcases hkeeps with ⟨⟨row, hrow, happlies⟩, hall⟩ | ⟨hnone, ⟨row, hrow, happlies, hout⟩, -⟩
  · rw [nextOutput_level hcons hrow happlies, SeqRow.next, hall row hrow happlies]
    rfl
  · rw [nextOutput_edge hcons hnone hrow happlies, SeqRow.next, hout]
    rfl

/-- The tables of levels give the output of a row of levels. -/
theorem testLevels_of_applies {init : Value} (hcons : (Definition.seq init rows).Consistent)
    (h : t.Agrees ports rows) (hcur : ShowsOutput cur ports ins out)
    (hlevel : ∃ row ∈ rows, row.levelApplies ins out = true) :
    (Keeps rows p u ins out → t.testLevels ports cur = currentOutput ports cur) ∧
      (¬ Keeps rows p u ins out →
        t.testLevels ports cur = some (nextOutput rows p u ins out).toBit4) := by
  have hhits : t.testLevels ports cur =
      if t.levelHit cur (some .zero) then some Bit4.zero
      else if t.levelHit cur (some .one) then some .one
      else if t.levelHit cur (some .x) then some .x
      else if t.levelHit cur none then currentOutput ports cur
      else some .z := rfl
  have hagree : ∀ o, t.levelHit cur o = true → o.getD out = nextOutput rows p u ins out := by
    intro o ho
    obtain ⟨row, hrow, happlies, rfl⟩ := (h.levelHit_iff hcur o).mp ho
    exact (nextOutput_level hcons hrow happlies).symm
  rw [hhits]
  constructor
  · rintro (⟨-, hall⟩ | ⟨hnone, -⟩)
    · have hnone : ∀ v, t.levelHit cur (some v) = false := by
        intro v
        rw [← Bool.not_eq_true, h.levelHit_iff hcur]
        rintro ⟨row, hrow, happlies, hout⟩
        rw [hall row hrow happlies] at hout
        cases hout
      obtain ⟨row, hrow, happlies⟩ := hlevel
      rw [levels_none hnone, if_pos ((h.levelHit_iff hcur none).mpr
        ⟨row, hrow, happlies, hall row hrow happlies⟩)]
    · obtain ⟨row, hrow, happlies⟩ := hlevel
      exact absurd happlies (hnone row hrow)
  · intro hkeeps
    obtain ⟨v, hv⟩ : ∃ v, t.levelHit cur (some v) = true := by
      by_contra hnone
      refine hkeeps (Or.inl ⟨hlevel, fun row hrow happlies => ?_⟩)
      rcases hout : row.out with _ | v
      · rfl
      · exact absurd ⟨v, (h.levelHit_iff hcur _).mpr ⟨row, hrow, happlies, hout⟩⟩ hnone
    exact levels_some hv hagree _

/-- The tables of edges give the output of a row of edges, or X. -/
theorem testEdges_of_none {init : Value} (hcons : (Definition.seq init rows).Consistent)
    (h : t.Agrees ports rows) (hcur : ShowsOutput cur ports ins' out) (hports : ports < 64)
    (hp : p < ports) (hprev : Shows prev ports ins) (hsame : ∀ i, i ≠ p → ins' i = ins i)
    (hne : ins' p ≠ ins p) (hnone : ∀ row ∈ rows, ¬ row.levelApplies ins' out = true) :
    (Keeps rows p (ins p) ins' out → t.testEdges ports cur prev = currentOutput ports cur) ∧
      (¬ Keeps rows p (ins p) ins' out →
        t.testEdges ports cur prev = some (nextOutput rows p (ins p) ins' out).toBit4) := by
  have hhit : ∀ {o}, o ≠ some .x → (t.edgeHit p (ins p) cur o = true ↔
      ∃ row ∈ rows, row.edgeApplies p (ins p) ins' out = true ∧ row.out = o) :=
    fun ho => h.edgeHit_iff hcur hp (ins p) ho
  have hvalue : ∀ v, v ≠ Value.x → t.edgeHit p (ins p) cur (some v) = true →
      some v.toBit4 = some (nextOutput rows p (ins p) ins' out).toBit4 ∧
        ¬ Keeps rows p (ins p) ins' out := by
    intro v hv hedge
    obtain ⟨row, hrow, happlies, hout⟩ := (hhit (by simpa using hv)).mp hedge
    refine ⟨by rw [nextOutput_edge hcons hnone hrow happlies, SeqRow.next, hout]; rfl, ?_⟩
    rintro (⟨⟨row, hrow, hlevel⟩, -⟩ | ⟨-, -, hall⟩)
    · exact hnone row hrow hlevel
    · rcases hall row hrow happlies with hout' | hout' <;> rw [hout] at hout'
      · cases hout'
      · exact hv (Option.some_inj.mp hout')
  rw [testEdges_eq t hports hp hcur hprev hsame hne]
  split_ifs with h0 h1 hL
  · obtain ⟨hout, hkeeps⟩ := hvalue .zero (by decide) h0
    exact ⟨fun hk => absurd hk hkeeps, fun _ => hout⟩
  · obtain ⟨hout, hkeeps⟩ := hvalue .one (by decide) h1
    exact ⟨fun hk => absurd hk hkeeps, fun _ => hout⟩
  · refine ⟨fun _ => rfl, fun hkeeps => absurd (Or.inr ⟨hnone, ?_, ?_⟩) hkeeps⟩
    · obtain ⟨row, hrow, happlies, hout⟩ := (hhit (by decide)).mp hL
      exact ⟨row, hrow, happlies, hout⟩
    · intro row hrow happlies
      rcases hout : row.out with _ | (_ | _ | _)
      · exact Or.inl rfl
      · exact absurd ((hhit (by decide)).mpr ⟨row, hrow, happlies, hout⟩) h0
      · exact absurd ((hhit (by decide)).mpr ⟨row, hrow, happlies, hout⟩) h1
      · exact Or.inr rfl
  · constructor
    · rintro (⟨⟨row, hrow, hlevel⟩, -⟩ | ⟨-, ⟨row, hrow, happlies, hout⟩, -⟩)
      · exact absurd hlevel (hnone row hrow)
      · exact absurd ((hhit (by decide)).mpr ⟨row, hrow, happlies, hout⟩) hL
    · intro _
      by_cases hedge : ∃ row ∈ rows, row.edgeApplies p (ins p) ins' out = true
      · obtain ⟨row, hrow, happlies⟩ := hedge
        have hout : row.out = some .x := by
          rcases hout : row.out with _ | (_ | _ | _)
          · exact absurd ((hhit (by decide)).mpr ⟨row, hrow, happlies, hout⟩) hL
          · exact absurd ((hhit (by decide)).mpr ⟨row, hrow, happlies, hout⟩) h0
          · exact absurd ((hhit (by decide)).mpr ⟨row, hrow, happlies, hout⟩) h1
          · rfl
        rw [nextOutput_edge hcons hnone hrow happlies, SeqRow.next, hout]
        rfl
      · rw [nextOutput_none hnone fun row hrow happlies => hedge ⟨row, hrow, happlies⟩]
        rfl

end Change

end Icarus.Vvp.Udp
