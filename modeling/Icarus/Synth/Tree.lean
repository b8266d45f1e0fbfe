import Icarus.Synth.CaseMux
import Mathlib.Data.Fin.VecNotation

/-!
# Enables of a statement tree

`synth_async` of assignments, sequential blocks, conditions and plain case statements, as far as
it builds the enables and the bitmasks of the output nexuses. A statement is synthesised under
the values of the signals that it reads.
-/

namespace Icarus.Synth

open Icarus.Verinum

/-! ## Statements -/

/-- A statement; a missing one is a null pointer. -/
inductive Stmt (σ : Type)
  | null
  | assign (nexus base width : Nat)
  | block (n : Nat) (stmts : Fin n → Stmt σ)
  | condit (cond : σ → Bool) (if_ else_ : Stmt σ)
  | caseStmt (selWidth : Nat) (expr : σ → Nat) (n : Nat) (guards : Fin n → Option Verinum)
      (stmts : Fin n → Stmt σ)

variable {σ : Type}

namespace Stmt

/-- The pointer is null. -/
def isNull : Stmt σ → Bool
  | null => true
  | _ => false

/-- The items of a case statement; their statements are numbered. -/
def items {n : Nat} (guards : Fin n → Option Verinum) (empty : Fin n → Bool) :
    List (CaseItem (Fin n)) :=
  List.ofFn fun i => ⟨guards i, if empty i then none else some i⟩

/-- `nex_output`: the nexus is an output of the statement. -/
def nexOutput : Stmt σ → Nat → Bool
  | null, _ => false
  | assign nexus _ _, k => nexus == k
  | block n stmts, k => (List.finRange n).any fun i => (stmts i).nexOutput k
  | condit _ if_ else_, k => if_.nexOutput k || else_.nexOutput k
  | caseStmt _ _ n _ stmts, k => (List.finRange n).any fun i => (stmts i).nexOutput k

/-- Execution assigns the bit of the nexus. -/
def assigned (env : σ) : Stmt σ → Nat → Nat → Bool
  | null, _, _ => false
  | assign nexus base width, k, b => nexus == k && decide (base ≤ b) && decide (b < base + width)
  | block n stmts, k, b => (List.finRange n).any fun i => (stmts i).assigned env k b
  | condit cond if_ else_, k, b =>
    if cond env then if_.assigned env k b else else_.assigned env k b
  | caseStmt _ expr _ guards stmts, k, b =>
    match choice (items guards fun i => (stmts i).isNull) (expr env) with
    | none => false
    | some i => (stmts i).assigned env k b

/-- Execution assigns some bit of the nexus. -/
def Assigns (stmt : Stmt σ) (env : σ) (k : Nat) : Prop := ∃ b, stmt.assigned env k b = true

/-- The bit is assigned whenever some bit of the nexus is. -/
def Unconditional (stmt : Stmt σ) (k b : Nat) : Prop :=
  ∀ env, stmt.Assigns env k → stmt.assigned env k b = true

end Stmt

/-! ## Synthesis -/

/-- The enable and the bitmask of a nexus. -/
structure Pin (σ : Type) where
  enable : Link σ
  mask : List Bool

/-- The bitmask of an assignment to the whole signal or to a part of it. -/
def assignMask (lsigWidth base width : Nat) (mask : List Bool) : List Bool :=
  if width ≠ lsigWidth then
    let mask := if mask.length = 0 then List.replicate lsigWidth false else mask
    mask.mapIdx fun idx bit => if base ≤ idx ∧ idx < base + width then true else bit
  else if mask.length > 0 then mask.map fun _ => true
  else List.replicate lsigWidth true

/-- The statement is synthesised. -/
def CaseMux.reached {n : Nat} (mux : CaseMux (Fin n)) (i : Fin n) : Bool :=
  mux.defaultStatement == some i ||
    (List.range mux.muxSize).any fun idx =>
      mux.statementMap (BitVec.ofNat 64 idx) == some (some i)

namespace Stmt

/-- When a block assigns a bit of a nexus, each of its statements that drives the nexus does,
or what that statement would assign in all its runs is assigned by the others. The case statements
select what is executed. -/
def Consistent (wid : Nat → Nat) : Stmt σ → Prop
  | null => True
  | assign _ _ _ => True
  | block n stmts =>
    (∀ i, (stmts i).Consistent wid) ∧
      ∀ k env, (block n stmts).Assigns env k → ∀ i, (stmts i).nexOutput k = true →
        (stmts i).Assigns env k ∨
          ∀ b < wid k, (stmts i).Unconditional k b → (block n stmts).assigned env k b = true
  | condit _ if_ else_ => if_.Consistent wid ∧ else_.Consistent wid
  | caseStmt selWidth _ _ guards stmts =>
    CaseCondition selWidth (items guards fun i => (stmts i).isNull) ∧
      ∀ i, (∃ s < 2 ^ selWidth, choice (items guards fun i => (stmts i).isNull) s = some i) →
        (stmts i).Consistent wid

theorem isNull_iff {stmt : Stmt σ} : stmt.isNull = true ↔ stmt = null := by
  cases stmt <;> simp [isNull]

/-- What is assigned is an output. -/
theorem nexOutput_of_assigned {env : σ} {k b : Nat} {stmt : Stmt σ}
    (h : stmt.assigned env k b = true) : stmt.nexOutput k = true := by
  induction stmt with
  | null => exact absurd h Bool.false_ne_true
  | assign nexus base width =>
    simp only [assigned, Bool.and_eq_true] at h
    exact h.1.1
  | block n stmts ih =>
    rw [assigned, List.any_eq_true] at h
    obtain ⟨i, hi, hassigned⟩ := h
    exact List.any_eq_true.mpr ⟨i, hi, ih i hassigned⟩
  | condit cond if_ else_ ihIf ihElse =>
    rw [assigned] at h
    rw [nexOutput, Bool.or_eq_true]
    split_ifs at h with hcond
    · exact Or.inl (ihIf h)
    · exact Or.inr (ihElse h)
  | caseStmt selWidth expr n guards stmts ih =>
    rw [assigned] at h
    cases hchoice : choice (items guards fun i => (stmts i).isNull) (expr env) with
    | none =>
      rw [hchoice] at h
      exact absurd h Bool.false_ne_true
    | some i =>
      rw [hchoice] at h
      exact List.any_eq_true.mpr ⟨i, List.mem_finRange i, ih i h⟩

theorem Assigns.nexOutput {env : σ} {k : Nat} {stmt : Stmt σ} (h : stmt.Assigns env k) :
    stmt.nexOutput k = true :=
  nexOutput_of_assigned h.choose_spec

end Stmt

/-! ## Shape of the enables and bitmasks -/

/-- The gates of an enable are driven, and the bitmask has the width of the nexus. -/
structure Pin.Shaped (wid : Nat) (drives low : Prop) (pin : Pin σ) : Prop where
  driven : pin.enable.Driven
  maskOf : MaskOf wid pin.mask
  linked : drives → pin.enable.isLinked = true
  low : pin.enable.isTieLo = true → low

/-- The clauses of a condition. -/
theorem Pin.Shaped.condit {wid : Nat} {if_ else_ : Stmt σ} {k : Nat} {a b : Pin σ}
    (ha : a.Shaped wid (if_.nexOutput k = true) (if_.isNull = true))
    (hb : b.Shaped wid (else_.nexOutput k = true) (else_.isNull = true))
    (hout : if_.nexOutput k = true ∨ else_.nexOutput k = true) (cond : σ → Bool) :
    Pin.Shaped wid True False
      ⟨multiplexEnables cond a.enable b.enable,
        mergeParallelMasks (mergeParallelMasks [] a.mask) b.mask⟩ := by
  have hnull : ∀ {stmt : Stmt σ}, stmt.isNull = true → ¬stmt.nexOutput k = true := by
    intro stmt h
    rw [Stmt.isNull_iff.mp h]
    exact Bool.false_ne_true
  have hlow : a.enable = .tieLo → b.enable.isLinked = true := fun h =>
    hb.linked (hout.resolve_left (hnull (ha.low (Link.isTieLo_iff.mpr h))))
  obtain ⟨hlinked, hdriven⟩ := driven_multiplexEnables cond ha.driven hb.driven
    (hout.imp ha.linked hb.linked) hlow
  refine ⟨hdriven, ?_, fun _ => hlinked, fun h => ?_⟩
  · exact maskOf_mergeParallelMasks (maskOf_mergeParallelMasks (Or.inl rfl) ha.maskOf) hb.maskOf
  · obtain ⟨h1, h0⟩ := isTieLo_multiplexEnables h
    have hif := hout.resolve_right (hnull (hb.low h0))
    rcases (Bool.or_eq_true _ _).mp h1 with h1 | h1
    · exact hnull (ha.low h1) hif
    · rw [ha.linked hif] at h1
      exact Bool.false_ne_true h1

section CasePin

variable {n wid : Nat} {mask : List Bool} {clauses : List (Option (List Bool))}

end CasePin

/-- The enable and the bitmask say what runs assign. -/
structure Pin.Means (pin : Pin σ) (assigns : σ → Prop) (unconditional : Nat → Prop) : Prop where
  enable : ∀ env, pin.enable.eval env = true ↔ assigns env
  nonempty : ∀ env, assigns env → pin.mask.length ≠ 0
  mask : ∀ b, pin.mask[b]? = some true → unconditional b

theorem mergeParallelMasks_nil (mask : List Bool) : mergeParallelMasks [] mask = mask := by
  unfold mergeParallelMasks
  split_ifs with h1 h2
  · exact (List.length_eq_zero_iff.mp h1).symm
  · rfl
  · exact absurd rfl h2

section Means

variable {wid : Nat → Nat} {stmt : Stmt σ}

/-- The clauses of a condition. -/
theorem Pin.Means.condit {k w : Nat} {cond : σ → Bool} {if_ else_ : Stmt σ} {a b : Pin σ}
    (ha : a.Means (fun env => if_.Assigns env k) (if_.Unconditional k))
    (hb : b.Means (fun env => else_.Assigns env k) (else_.Unconditional k))
    (hwa : MaskOf w a.mask) (hwb : MaskOf w b.mask) :
    Pin.Means
      ⟨multiplexEnables cond a.enable b.enable,
        mergeParallelMasks (mergeParallelMasks [] a.mask) b.mask⟩
      (fun env => (Stmt.condit cond if_ else_).Assigns env k)
      ((Stmt.condit cond if_ else_).Unconditional k) := by
  have hassigns : ∀ env, (Stmt.condit cond if_ else_).Assigns env k ↔
      if cond env then if_.Assigns env k else else_.Assigns env k := by
    intro env
    unfold Stmt.Assigns
    simp only [Stmt.assigned]
    split_ifs <;> rfl
  rw [mergeParallelMasks_nil]
  refine ⟨fun env => ?_, fun env h => ?_, fun bit hbit env h => ?_⟩
  · rw [eval_multiplexEnables, hassigns]
    cases cond env
    · exact hb.enable env
    · exact ha.enable env
  · rw [hassigns] at h
    refine length_mergeParallelMasks_ne_zero hwa hwb ?_
    split_ifs at h
    · exact Or.inl (ha.nonempty env h)
    · exact Or.inr (hb.nonempty env h)
  · obtain ⟨hbitA, hbitB⟩ := of_mem_mergeParallelMasks hbit
    rw [hassigns] at h
    rw [Stmt.assigned]
    split_ifs at h ⊢
    · exact ha.mask bit (hbitA (ha.nonempty env h)) env h
    · exact hb.mask bit (hbitB (hb.nonempty env h)) env h

theorem Pin.Means.congr {pin : Pin σ} {assigns assigns' : σ → Prop} {bits bits' : Nat → Prop}
    (h : pin.Means assigns bits) (hassigns : ∀ env, assigns env ↔ assigns' env)
    (hbits : ∀ b, bits b → bits' b) : pin.Means assigns' bits' where
  enable := fun env => (h.enable env).trans (hassigns env)
  nonempty := fun env henv => h.nonempty env ((hassigns env).mpr henv)
  mask := fun b hb => hbits b (h.mask b hb)

/-- A block. -/
theorem Pin.Means.block {n k : Nat} {stmts : Fin n → Stmt σ} {pin : Pin σ}
    (h : pin.Means (fun env => ∃ j ∈ List.finRange n, (stmts j).Assigns env k)
      fun b => ∃ j ∈ List.finRange n, (stmts j).nexOutput k = true ∧ (stmts j).Unconditional k b)
    (hmask : MaskOf (wid k) pin.mask)
    (hconsistent : ∀ env, (Stmt.block n stmts).Assigns env k → ∀ i, (stmts i).nexOutput k = true →
      (stmts i).Assigns env k ∨
        ∀ b < wid k, (stmts i).Unconditional k b →
          (Stmt.block n stmts).assigned env k b = true) :
    pin.Means (fun env => (Stmt.block n stmts).Assigns env k)
      ((Stmt.block n stmts).Unconditional k) := by
  have hassigns : ∀ env, (∃ j ∈ List.finRange n, (stmts j).Assigns env k) ↔
      (Stmt.block n stmts).Assigns env k := by
    intro env
    unfold Stmt.Assigns
    simp only [Stmt.assigned, List.any_eq_true]
    exact ⟨fun ⟨j, hj, b, hb⟩ => ⟨b, j, hj, hb⟩, fun ⟨b, j, hj, hb⟩ => ⟨j, hj, b, hb⟩⟩
  refine ⟨fun env => (h.enable env).trans (hassigns env),
    fun env henv => h.nonempty env ((hassigns env).mpr henv), fun b hb env henv => ?_⟩
  obtain ⟨j, hj, hout, huncond⟩ := h.mask b hb
  have hlt : b < wid k := by
    obtain ⟨hlen, -⟩ := List.getElem?_eq_some_iff.mp hb
    exact hlen.trans_le (hmask.elim (fun h0 => by omega) fun hw => Nat.le_of_eq hw)
  rcases hconsistent env henv j hout with hj' | hall
  · rw [Stmt.assigned, List.any_eq_true]
    exact ⟨j, hj, huncond env hj'⟩
  · exact hall b hlt huncond

end Means

end Icarus.Synth
