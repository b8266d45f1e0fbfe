import Icarus.FuncEval.Loops

/-!
# Constant functions with jumps

The evaluation of a function, with its flags, does what the function with structured jumps
does, in every run that keeps the conditions.
-/

namespace Icarus.FuncEval

open Icarus.Core.Effects

variable {V : Type} {ops : Values V}

/-! ## Statements and functions -/

/-- A statement is followed by its evaluation, if the calls are. -/
theorem run_simulates {call : Nat → List (Option V) → Eval Unit V (Option V)}
    {call' : Nat → List (Option V) → Eval Flags V (Option V)}
    (hcall : ∀ func args, Mirrors (withFlags .clear) (call func args) (call' func args))
    (fuel : Nat) (stmt : Stmt V) :
    Simulates (run ops true call fuel stmt) (evaluate ops call' fuel stmt) := by
  induction fuel generalizing stmt with
  | zero => exact Follows.throw
  | succ fuel ih =>
    have heval : ∀ e, Mirrors (withFlags .clear) (evalExpr ops call fuel e)
        (evalExpr ops call' fuel e) := evalExpr_mirrors hcall fuel
    cases stmt with
    | block subscope locals varInit body => exact runBlock_simulates ih subscope locals varInit body
    | assign rval compound lvals =>
      intro s r t hends
      obtain ⟨flag, u, hassign, hpure⟩ := ends_bind.mp hends
      obtain ⟨rfl, rfl⟩ := ends_pure.mp hpure
      exact evalAssign_mirrors heval rval compound lvals s flag t hassign
    | condit cond thenClause elseClause =>
      exact runCondit_simulates heval ih cond thenClause elseClause
    | case expr isMatch items => exact runCase_simulates heval ih expr isMatch items
    | repeatLoop count body =>
      refine Mirrors.bind (evalLong_mirrors heval count) fun val => ?_
      cases val with
      | none => exact Simulates.failed
      | some val =>
        intro s r t hends
        obtain ⟨z, hz, hloop⟩ := iterate_ends
          (fun x s r t h => runRepeat_endsTurn ih body x r h) hends
        exact hloop.bind (ends_pure.mpr ⟨hz.symm, rfl⟩)
    | forLoop init cond step body =>
      refine Mirrors.bind (runPlain_mirrors ih init) fun flag => ?_
      cases flag with
      | false =>
        intro s r t hends
        obtain ⟨rfl, rfl⟩ := ends_pure.mp hends
        exact ends_whileLoop_of_not rfl
      | true =>
        exact iterate_follows (fun x s r t h => runFor_endsTurn ih heval cond step body x r h) fuel ()
    | whileLoop cond body =>
      exact iterate_follows (fun x s r t h => runWhile_endsTurn ih heval cond body x r h) fuel ()
    | doWhile cond body =>
      exact iterate_follows (fun x s r t h => runDoWhile_endsTurn heval ih cond body x r h) fuel ()
    | forever body =>
      exact iterate_follows (fun x s r t h => runForever_endsTurn ih body x r h) fuel ()
    | breakLoop => exact follows_setFlags (Follows.pure rfl fun _ => rfl)
    | continueLoop => exact follows_setFlags (Follows.pure rfl fun _ => rfl)
    | disable target => exact follows_setFlags (Follows.pure rfl fun _ => rfl)
    | sysTask => exact Simulates.pure _ _ rfl

/-- The flags that a body leaves are those of an end that the function accepts. -/
theorem runProc_ends {run : Stmt V → Eval Unit V Outcome} {exec : Stmt V → Eval Flags V Bool}
    (hexec : ∀ stmt, Simulates (run stmt) (exec stmt)) {scope : Scope} {proc : Option (Stmt V)}
    {s t : Machine Unit V} {flag : Bool} (h : Ends (runProc run scope proc) s flag t) :
    ∃ c : Completion, (c = .normal ∨ c = .disabled scope) ∧
      Ends (evaluateProc exec proc) (withFlags .clear s) flag (withFlags c.flags t) := by
  cases proc with
  | none =>
    obtain ⟨rfl, rfl⟩ := ends_pure.mp h
    exact ⟨.normal, Or.inl rfl, ends_pure.mpr ⟨rfl, rfl⟩⟩
  | some stmt =>
    obtain ⟨⟨c, flag'⟩, u, hrun, hrest⟩ := ends_bind.mp h
    have hends := hexec stmt s _ u hrun
    cases c with
    | normal =>
      obtain ⟨rfl, rfl⟩ := ends_pure.mp hrest
      exact ⟨.normal, Or.inl rfl, hends⟩
    | broke => exact absurd hrest ends_throw
    | continued => exact absurd hrest ends_throw
    | disabled target =>
      by_cases htarget : some scope = some target
      · simp only [caught, if_pos htarget] at hrest
        obtain ⟨rfl, rfl⟩ := ends_pure.mp hrest
        obtain rfl := Option.some.inj htarget
        exact ⟨.disabled scope, Or.inr rfl, hends⟩
      · simp only [caught, if_neg htarget] at hrest
        exact absurd hrest ends_throw

theorem trapDisable_ends {scope : Scope} {c : Completion}
    (hc : c = .normal ∨ c = .disabled scope) (t : Machine Unit V) :
    Ends (trapDisable scope) (withFlags c.flags t) () (withFlags .clear t) := by
  obtain rfl | rfl := hc
  · rfl
  · have hread : Ends (readFlags fun g => g.disable == some scope)
        (withFlags (Completion.disabled scope).flags t) true
        (withFlags (Completion.disabled scope).flags t) := by
      have hself : (some scope == some scope) = true := beq_self_eq_true _
      exact ends_get.mpr ⟨rfl, rfl⟩ |>.bind (ends_pure.mpr ⟨hself.symm, rfl⟩)
    have hsome : Ends (readFlags fun g => g.disable.isSome)
        (withFlags (Completion.disabled scope).flags t) true
        (withFlags (Completion.disabled scope).flags t) := rfl
    exact hsome.bind (hread.bind (ends_modify.mpr rfl))

/-- A function called with clear flags. -/
theorem runFunction_mirrors (funcs : List (FuncDef V)) (fuel func : Nat)
    (args : List (Option V)) :
    Mirrors (withFlags .clear) (runFunction ops true funcs fuel func args)
      (evaluateFunction ops funcs fuel func args) := by
  induction fuel generalizing func args with
  | zero => exact Mirrors.throw
  | succ fuel ih =>
    unfold runFunction evaluateFunction
    cases funcs[func]? with
    | none => exact Mirrors.throw
    | some defn =>
      simp only
      split
      · exact Mirrors.throw
      · refine Mirrors.bind getVars_mirrors fun caller => ?_
        refine Mirrors.bind (setVars_mirrors _) fun _ => ?_
        refine Mirrors.bind (runPlain_mirrors (run_simulates ih fuel) defn.varInit) fun _ => ?_
        intro s r t hends
        obtain ⟨flag, u, hproc, hrest⟩ := ends_bind.mp hends
        obtain ⟨c, hc, hproc'⟩ := runProc_ends (run_simulates ih fuel) hproc
        obtain ⟨res, v, hres, hrest⟩ := ends_bind.mp hrest
        obtain ⟨_, w, hset, hpure⟩ := ends_bind.mp hrest
        obtain ⟨rfl, rfl⟩ := ends_pure.mp hpure
        have hres' := returnValue_mirrors (f := fun _ => c.flags) defn.basename u res v hres
        have hset' := setVars_mirrors (f := fun _ => c.flags) caller v () t hset
        exact hproc'.bind (hres'.bind (hset'.bind
          ((trapDisable_ends hc t).bind (ends_pure.mpr ⟨rfl, rfl⟩))))

/-! ## A run that keeps the conditions is a run -/

section Guarded

variable {G : Type}

theorem mirrors_refl {α : Type} {m : Eval G V α} : Mirrors (mapGlobals id) m m :=
  fun _ _ _ h => h

/-- Where the conditions are not asked for, nothing is expected. -/
theorem expect_mirrors (condition : Bool) :
    Mirrors (mapGlobals id) (expect (V := V) true condition) (expect false condition) := by
  cases condition with
  | false => exact Mirrors.throw
  | true => exact Mirrors.pure

variable {run run' : Stmt V → Eval Unit V Outcome} {eval eval' : Expr V → Eval Unit V (Option V)}
  (heval : ∀ e, Mirrors (mapGlobals id) (eval e) (eval' e))
  (hrun : ∀ stmt, Mirrors (mapGlobals id) (run stmt) (run' stmt))

include hrun

theorem runOpt_mirrors (stmt : Option (Stmt V)) :
    Mirrors (mapGlobals id) (runOpt run stmt) (runOpt run' stmt) := by
  cases stmt with
  | none => exact Mirrors.pure
  | some stmt => exact hrun stmt

theorem runPlain_mono (stmt : Option (Stmt V)) :
    Mirrors (mapGlobals id) (runPlain run stmt) (runPlain run' stmt) := by
  cases stmt with
  | none => exact Mirrors.pure
  | some stmt =>
    refine Mirrors.bind (hrun stmt) fun outcome => ?_
    obtain ⟨- | - | - | target, flag⟩ := outcome
    · exact Mirrors.pure
    · exact Mirrors.throw
    · exact Mirrors.throw
    · exact Mirrors.throw

theorem runSeq_mirrors (flag : Bool) (body : List (Stmt V)) :
    Mirrors (mapGlobals id) (runSeq run flag body) (runSeq run' flag body) := by
  induction body generalizing flag with
  | nil => exact Mirrors.pure
  | cons cur rest ih =>
    refine Mirrors.bind (hrun cur) fun outcome => ?_
    obtain ⟨- | - | - | target, curFlag⟩ := outcome
    · exact ih (flag && curFlag)
    · exact Mirrors.pure
    · exact Mirrors.pure
    · exact Mirrors.pure

theorem runBlock_mirrors (subscope : Option Scope) (locals : List (Name × Nat))
    (varInit : Option (Stmt V)) (body : List (Stmt V)) :
    Mirrors (mapGlobals id) (runBlock run subscope locals varInit body)
      (runBlock run' subscope locals varInit body) := by
  unfold runBlock
  cases body.isEmpty with
  | true => exact Mirrors.pure
  | false =>
    cases subscope with
    | none => exact runSeq_mirrors hrun true body
    | some scope =>
      refine Mirrors.bind mirrors_refl fun _ => ?_
      refine Mirrors.bind (runPlain_mono hrun varInit) fun _ => ?_
      refine Mirrors.bind (runSeq_mirrors hrun true body) fun outcome => ?_
      exact Mirrors.bind mirrors_refl fun _ => Mirrors.pure

theorem runProc_mirrors (scope : Scope) (proc : Option (Stmt V)) :
    Mirrors (mapGlobals id) (runProc run scope proc) (runProc run' scope proc) := by
  cases proc with
  | none => exact Mirrors.pure
  | some stmt => exact Mirrors.bind (hrun stmt) fun outcome => mirrors_refl

theorem runForBody_mirrors (step : Option (Stmt V)) (body : Stmt V) :
    Mirrors (mapGlobals id) (runForBody run step body) (runForBody run' step body) := by
  have hstep : ∀ flag : Bool, Mirrors (mapGlobals id)
      (do
        let stepFlag ← runPlain run step
        return if flag && stepFlag then (Sum.inl () : Unit ⊕ Outcome) else .inr (.normal, false))
      (do
        let stepFlag ← runPlain run' step
        return if flag && stepFlag then .inl () else .inr (.normal, false)) :=
    fun flag => Mirrors.bind (runPlain_mono hrun step) fun stepFlag => Mirrors.pure
  refine Mirrors.bind (hrun body) fun outcome => ?_
  obtain ⟨- | - | - | target, flag⟩ := outcome
  · exact hstep flag
  · exact Mirrors.pure
  · exact hstep flag
  · exact Mirrors.pure

include heval

theorem runCondit_mirrors (cond : Expr V) (thenClause elseClause : Option (Stmt V)) :
    Mirrors (mapGlobals id) (runCondit ops eval run cond thenClause elseClause)
      (runCondit ops eval' run' cond thenClause elseClause) := by
  refine Mirrors.bind (evalLong_mirrors heval cond) fun val => ?_
  cases val with
  | none => exact Mirrors.pure
  | some val =>
    simp only
    split
    · exact runOpt_mirrors hrun thenClause
    · exact runOpt_mirrors hrun elseClause

theorem runCase_mirrors (expr : Expr V) (isMatch : V → V → Option Bool)
    (items : List (Option (Expr V) × Option (Stmt V))) :
    Mirrors (mapGlobals id) (runCase true eval run expr isMatch items)
      (runCase false eval' run' expr isMatch items) := by
  refine Mirrors.bind (heval expr) fun value => ?_
  cases value with
  | none => exact Mirrors.pure
  | some value =>
    refine Mirrors.bind (chooseItem_mirrors heval isMatch value none items) fun item => ?_
    cases item with
    | none => exact Mirrors.pure
    | some item => exact Mirrors.bind (expect_mirrors _) fun _ => runOpt_mirrors hrun item.2

theorem runWhileTurn_mirrors (cond : Expr V) (body : Stmt V) (x : Unit) :
    Mirrors (mapGlobals id) (runWhileTurn ops eval run cond body x)
      (runWhileTurn ops eval' run' cond body x) := by
  refine Mirrors.bind (evalLong_mirrors heval cond) fun val => ?_
  cases val with
  | none => exact Mirrors.pure
  | some val =>
    simp only
    split
    · exact Mirrors.pure
    · exact Mirrors.bind (hrun body) fun _ => Mirrors.pure

theorem runForTurn_mirrors (cond : Option (Expr V)) (step : Option (Stmt V)) (body : Stmt V)
    (x : Unit) : Mirrors (mapGlobals id) (runForTurn ops eval run cond step body x)
      (runForTurn ops eval' run' cond step body x) := by
  cases cond with
  | none => exact runForBody_mirrors hrun step body
  | some condExpr =>
    refine Mirrors.bind (evalLong_mirrors heval condExpr) fun val => ?_
    cases val with
    | none => exact Mirrors.pure
    | some val =>
      simp only
      split
      · exact Mirrors.pure
      · exact runForBody_mirrors hrun step body

theorem runDoWhileTurn_mirrors (fuel : Nat) (cond : Expr V) (body : Stmt V) (x : Unit) :
    Mirrors (mapGlobals id) (runDoWhileTurn ops true eval run fuel cond body x)
      (runDoWhileTurn ops false eval' run' fuel cond body x) := by
  refine Mirrors.bind (hrun body) fun outcome => ?_
  obtain ⟨- | - | - | target, flag⟩ := outcome
  · cases flag with
    | false => exact Mirrors.bind (expect_mirrors _) fun _ => Mirrors.pure
    | true => exact Mirrors.bind (evalLong_mirrors heval cond) fun val => mirrors_refl
  · exact Mirrors.bind (expect_mirrors _) fun _ => Mirrors.pure
  · cases flag with
    | false => exact Mirrors.bind (expect_mirrors _) fun _ => Mirrors.pure
    | true => exact Mirrors.bind (evalLong_mirrors heval cond) fun val => mirrors_refl
  · refine Mirrors.bind mirrors_refl fun m => ?_
    exact Mirrors.bind (expect_mirrors _) fun _ => Mirrors.pure

end Guarded

/-- A run of a statement that keeps the conditions is a run. -/
theorem run_mirrors {call call' : Nat → List (Option V) → Eval Unit V (Option V)}
    (hcall : ∀ func args, Mirrors (mapGlobals id) (call func args) (call' func args))
    (fuel : Nat) (stmt : Stmt V) :
    Mirrors (mapGlobals id) (run ops true call fuel stmt) (run ops false call' fuel stmt) := by
  induction fuel generalizing stmt with
  | zero => exact Mirrors.throw
  | succ fuel ih =>
    have heval : ∀ e, Mirrors (mapGlobals id) (evalExpr ops call fuel e)
        (evalExpr ops call' fuel e) := evalExpr_mirrors hcall fuel
    cases stmt with
    | block subscope locals varInit body => exact runBlock_mirrors ih subscope locals varInit body
    | assign rval compound lvals =>
      exact Mirrors.bind (evalAssign_mirrors heval rval compound lvals) fun flag => Mirrors.pure
    | condit cond thenClause elseClause =>
      exact runCondit_mirrors heval ih cond thenClause elseClause
    | case expr isMatch items => exact runCase_mirrors heval ih expr isMatch items
    | repeatLoop count body =>
      refine Mirrors.bind (evalLong_mirrors heval count) fun val => ?_
      cases val with
      | none => exact Mirrors.pure
      | some val =>
        refine Mirrors.iterate (fun n => ?_) fuel val
        rw [runRepeatTurn, runRepeatTurn]
        split
        · exact Mirrors.bind (ih body) fun _ => Mirrors.pure
        · exact Mirrors.pure
    | forLoop init cond step body =>
      refine Mirrors.bind (runPlain_mono ih init) fun flag => ?_
      cases flag with
      | false => exact Mirrors.pure
      | true => exact Mirrors.iterate (runForTurn_mirrors heval ih cond step body) fuel ()
    | whileLoop cond body => exact Mirrors.iterate (runWhileTurn_mirrors heval ih cond body) fuel ()
    | doWhile cond body =>
      exact Mirrors.iterate (runDoWhileTurn_mirrors heval ih fuel cond body) fuel ()
    | forever body =>
      exact Mirrors.iterate (fun _ => Mirrors.bind (ih body) fun _ => Mirrors.pure) fuel ()
    | breakLoop => exact Mirrors.pure
    | continueLoop => exact Mirrors.pure
    | disable target => exact Mirrors.pure
    | sysTask => exact Mirrors.pure

/-- A run of a function that keeps the conditions is a run. -/
theorem runFunction_mono (funcs : List (FuncDef V)) (fuel func : Nat) (args : List (Option V)) :
    Mirrors (mapGlobals id) (runFunction ops true funcs fuel func args)
      (runFunction ops false funcs fuel func args) := by
  induction fuel generalizing func args with
  | zero => exact Mirrors.throw
  | succ fuel ih =>
    unfold runFunction
    cases funcs[func]? with
    | none => exact Mirrors.throw
    | some defn =>
      simp only
      split
      · exact Mirrors.throw
      · refine Mirrors.bind mirrors_refl fun caller => ?_
        refine Mirrors.bind mirrors_refl fun _ => ?_
        refine Mirrors.bind (runPlain_mono (run_mirrors ih fuel) defn.varInit) fun _ => ?_
        exact Mirrors.bind (runProc_mirrors (run_mirrors ih fuel) _ _) fun flag => mirrors_refl

/-! ## The flags of a function -/

/-- In every run of a constant function with structured jumps that keeps the conditions, the
evaluation with flags ends too, with the same assignments and result and with the flags clear. -/
theorem evaluateFunction_follows (ops : Values V) (funcs : List (FuncDef V))
    (fuel func : Nat) (args : List (Option V)) (m m' : Machine Unit V) (res : Option V)
    (h : Ends (runFunction ops true funcs fuel func args) m res m') :
    Ends (runFunction ops false funcs fuel func args) m res m' ∧
      Ends (evaluateFunction ops funcs fuel func args) (withFlags .clear m) res
        (withFlags .clear m') :=
  ⟨runFunction_mono funcs fuel func args m res m' h,
    runFunction_mirrors funcs fuel func args m res m' h⟩

/-- Integers as values. -/
def intValues : Values Int where
  asLong := some
  isDefined := fun _ => true
  constLogical := fun v => some (decide (v ≠ 0))

/-- A whole variable as an l-value. -/
def wholeVar (name : Name) : LVal Int := ⟨name, none, none, id, fun _ _ rval => some rval⟩

/-- `return value` in the function with that scope and name. -/
def returnStmt (scope : Scope) (name : Name) (value : Expr Int) : Stmt Int :=
  .block none [] none [.assign (some value) false [wholeVar name], .disable scope]

/-- A function without arguments and variables. -/
def plainFunc (scope : Scope) (body : Stmt Int) : FuncDef Int :=
  ⟨scope, scope, [], [], none, some body⟩

theorem evaluateFunction_follows_return :
    Ends (runFunction intValues false [plainFunc 0 (.doWhile (.const 1) (returnStmt 0 0
        (.call 1 []))), plainFunc 1 (.whileLoop (.const 1) (returnStmt 1 1 (.const 7)))] 9 0 [])
      ⟨(), [], []⟩ (some 7) ⟨(), [⟨1, none, 7⟩, ⟨0, none, 7⟩], []⟩ ∧
    Ends (evaluateFunction intValues [plainFunc 0 (.doWhile (.const 1) (returnStmt 0 0
        (.call 1 []))), plainFunc 1 (.whileLoop (.const 1) (returnStmt 1 1 (.const 7)))] 9 0 [])
      (withFlags .clear ⟨(), [], []⟩) (some 7)
      (withFlags .clear ⟨(), [⟨1, none, 7⟩, ⟨0, none, 7⟩], []⟩) :=
  evaluateFunction_follows intValues _ 9 0 [] _ _ _ rfl

/-- A `return` in the body of a loop whose condition calls a function: the structured function
returns, and its evaluation calls the other function with `disable` set. -/
theorem return_in_do_while :
    Ends (runFunction intValues false [plainFunc 0 (.doWhile (.call 1 []) (returnStmt 0 0
        (.const 7))), plainFunc 1 (.assign (some (.const 0)) false [wholeVar 1])] 9 0 [])
      ⟨(), [], []⟩ (some 7) ⟨(), [⟨0, none, 7⟩], []⟩ ∧
    ∀ fuel res m', ¬ Ends (evaluateFunction intValues [plainFunc 0 (.doWhile (.call 1 [])
        (returnStmt 0 0 (.const 7))), plainFunc 1 (.assign (some (.const 0)) false [wholeVar 1])]
        fuel 0 []) (withFlags .clear ⟨(), [], []⟩) res m' := by
  refine ⟨rfl, fun fuel res m' h => ?_⟩
  match fuel with
  | 0 => exact absurd h nofun
  | 1 => exact absurd h nofun
  | 2 => exact absurd h nofun
  | 3 => exact absurd h nofun
  | 4 => exact absurd h nofun
  | n + 5 => exact absurd h nofun

end Icarus.FuncEval
