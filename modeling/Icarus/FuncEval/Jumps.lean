import Icarus.FuncEval.Evaluate

/-!
# Structured jumps

The meaning of the statements without flags: a statement ends normally or by a jump that is on
its way to its target, and whether everything in it had a value. A run may be asked to keep
the conditions under which the flags follow it.
-/

namespace Icarus.FuncEval

variable {V : Type}

/-- How a statement ends. -/
inductive Completion where
  | normal
  | broke
  | continued
  | disabled (target : Scope)
  deriving DecidableEq

/-- How a statement ended, and whether it could be evaluated. -/
abbrev Outcome := Completion × Bool

section

variable (ops : Values V) (guarded : Bool) (eval : Expr V → Eval Unit V (Option V))
  (run : Stmt V → Eval Unit V Outcome)

/-- A condition on the run, where it is asked for. -/
def expect (guarded : Bool) (condition : Bool) : Eval Unit V Unit :=
  if guarded && !condition then throw .unmet else return ()

/-- A statement that must not jump out. -/
def runPlain (stmt : Option (Stmt V)) : Eval Unit V Bool := do
  match stmt with
  | none => return true
  | some stmt =>
    match ← run stmt with
    | (.normal, flag) => return flag
    | _ => throw .stray

/-- A statement that may be missing. -/
def runOpt : Option (Stmt V) → Eval Unit V Outcome
  | none => return (.normal, true)
  | some stmt => run stmt

/-- A jump leaves the statements that follow out. -/
def runSeq : Bool → List (Stmt V) → Eval Unit V Outcome
  | flag, [] => return (.normal, flag)
  | flag, cur :: rest => do
    match ← run cur with
    | (.normal, curFlag) => runSeq (flag && curFlag) rest
    | (jump, curFlag) => return (jump, flag && curFlag)

/-- The block that a jump was meant for ends normally. -/
def caught (subscope : Option Scope) : Completion → Completion
  | .disabled target => if subscope = some target then .normal else .disabled target
  | c => c

/-- A block with the variables of its scope. -/
def runBlock (subscope : Option Scope) (locals : List (Name × Nat)) (varInit : Option (Stmt V))
    (body : List (Stmt V)) : Eval Unit V Outcome := do
  if body.isEmpty then
    return (.normal, true)
  else
    match subscope with
    | none => runSeq run true body
    | some scope =>
      enterScope locals
      let _ ← runPlain run varInit
      let (c, flag) ← runSeq run true body
      leaveScope locals
      return (caught (some scope) c, flag)

/-- The statement of the first item whose guard matches, else that of the default. -/
def runCase (expr : Expr V) (isMatch : V → V → Option Bool)
    (items : List (Option (Expr V) × Option (Stmt V))) : Eval Unit V Outcome := do
  match ← eval expr with
  | none => return (.normal, false)
  | some value =>
    match ← chooseItem eval isMatch value none items with
    | none => return (.normal, false)
    | some (isItem, stmt) =>
      expect guarded (!isItem || stmt.isSome)
      runOpt run stmt

/-- The clause that the condition selects. -/
def runCondit (cond : Expr V) (thenClause elseClause : Option (Stmt V)) :
    Eval Unit V Outcome := do
  match ← evalLong ops eval cond with
  | none => return (.normal, false)
  | some val => if val ≠ 0 then runOpt run thenClause else runOpt run elseClause

/-- What a loop makes of the end of its body: it is done, or goes on if the body could be
evaluated. -/
def afterBody {σ : Type} (next : σ) : Outcome → σ ⊕ Outcome
  | (.broke, flag) => .inr (.normal, flag)
  | (.disabled target, flag) => .inr (.disabled target, flag)
  | (_, true) => .inl next
  | (_, false) => .inr (.normal, false)

/-- A turn of a loop without a condition. -/
def runForeverTurn (body : Stmt V) (_ : Unit) : Eval Unit V (Unit ⊕ Outcome) := do
  return afterBody () (← run body)

/-- A turn of a loop with a count. -/
def runRepeatTurn (body : Stmt V) (count : Int) : Eval Unit V (Int ⊕ Outcome) := do
  if 0 < count then return afterBody (count - 1) (← run body) else return .inr (.normal, true)

/-- A turn of a loop that tests its condition first. -/
def runWhileTurn (cond : Expr V) (body : Stmt V) (_ : Unit) : Eval Unit V (Unit ⊕ Outcome) := do
  match ← evalLong ops eval cond with
  | none => return .inr (.normal, false)
  | some val => if val = 0 then return .inr (.normal, true) else return afterBody () (← run body)

/-- The body and the step of a loop. A body that could not be evaluated has its step executed,
and is the last. -/
def runForBody (step : Option (Stmt V)) (body : Stmt V) : Eval Unit V (Unit ⊕ Outcome) := do
  match ← run body with
  | (.broke, flag) => return .inr (.normal, flag)
  | (.disabled target, flag) => return .inr (.disabled target, flag)
  | (_, flag) =>
    let stepFlag ← runPlain run step
    return if flag && stepFlag then .inl () else .inr (.normal, false)

/-- A turn of a loop with a step. -/
def runForTurn (cond : Option (Expr V)) (step : Option (Stmt V)) (body : Stmt V) (_ : Unit) :
    Eval Unit V (Unit ⊕ Outcome) := do
  match cond with
  | none => runForBody run step body
  | some condExpr =>
    match ← evalLong ops eval condExpr with
    | none => return .inr (.normal, false)
    | some val => if val = 0 then return .inr (.normal, true) else runForBody run step body

/-- No function is called. -/
def noCall (_ : Nat) (_ : List (Option V)) : Eval Unit V (Option V) := throw .unmet

/-- The expression has a value, and no function is called for it. -/
def isCalm (fuel : Nat) (cond : Expr V) (m : Machine Unit V) : Bool :=
  match evalLong ops (evalExpr ops noCall fuel) cond m with
  | .ok (some _, _) => true
  | _ => false

/-- A turn of a loop that tests its condition last. -/
def runDoWhileTurn (fuel : Nat) (cond : Expr V) (body : Stmt V) (_ : Unit) :
    Eval Unit V (Unit ⊕ Outcome) := do
  match ← run body with
  | (.broke, flag) =>
    expect guarded flag
    return .inr (.normal, flag)
  | (.disabled target, flag) =>
    let m ← get
    expect guarded (!flag || isCalm ops fuel cond m)
    return .inr (.disabled target, flag)
  | (c, false) =>
    expect guarded (c = .normal)
    return .inr (.normal, false)
  | (_, true) =>
    match ← evalLong ops eval cond with
    | none => return .inr (.normal, false)
    | some val => if val = 0 then return .inr (.normal, true) else return .inl ()

end

/-- A statement. -/
def run (ops : Values V) (guarded : Bool)
    (call : Nat → List (Option V) → Eval Unit V (Option V)) :
    Nat → Stmt V → Eval Unit V Outcome
  | 0, _ => throw .fuel
  | fuel + 1, stmt =>
    let eval := evalExpr ops call fuel
    let exec := run ops guarded call fuel
    let loop {σ : Type} (turn : σ → Eval Unit V (σ ⊕ Outcome)) (start : σ) :=
      Core.Effects.iterate Stop.fuel turn fuel start
    match stmt with
    | .block subscope locals varInit body => runBlock exec subscope locals varInit body
    | .assign rval compound lvals => do
      return (.normal, ← evalAssign ops eval rval compound lvals)
    | .condit cond thenClause elseClause => runCondit ops eval exec cond thenClause elseClause
    | .case expr isMatch items => runCase guarded eval exec expr isMatch items
    | .repeatLoop count body => do
      match ← evalLong ops eval count with
      | none => return (.normal, false)
      | some count => loop (runRepeatTurn exec body) count
    | .forLoop init cond step body => do
      if ← runPlain exec init then
        loop (runForTurn ops eval exec cond step body) ()
      else
        return (.normal, false)
    | .whileLoop cond body => loop (runWhileTurn ops eval exec cond body) ()
    | .doWhile cond body => loop (runDoWhileTurn ops guarded eval exec fuel cond body) ()
    | .forever body => loop (runForeverTurn exec body) ()
    | .breakLoop => return (.broke, true)
    | .continueLoop => return (.continued, true)
    | .disable target => return (.disabled target, true)
    | .sysTask => return (.normal, true)

/-- The body of a function; a jump to the function itself ends it. -/
def runProc (run : Stmt V → Eval Unit V Outcome) (scope : Scope) (proc : Option (Stmt V)) :
    Eval Unit V Bool := do
  match proc with
  | none => return false
  | some stmt =>
    let (c, flag) ← run stmt
    match caught (some scope) c with
    | .normal => return flag
    | _ => throw .stray

/-- A call of a function. -/
def runFunction (ops : Values V) (guarded : Bool) (funcs : List (FuncDef V)) :
    Nat → Nat → List (Option V) → Eval Unit V (Option V)
  | 0, _, _ => throw .fuel
  | fuel + 1, func, args => do
    match funcs[func]? with
    | none => assertionFails
    | some defn =>
      if defn.ports.length ≠ args.length then
        assertionFails
      else
        let caller ← getVars
        setVars (defn.contextMap args)
        let exec := run ops guarded (runFunction ops guarded funcs fuel) fuel
        let _ ← runPlain exec defn.varInit
        let flag ← runProc exec defn.scope defn.proc
        let res ← returnValue defn.basename
        setVars caller
        return if flag then res else none

end Icarus.FuncEval
