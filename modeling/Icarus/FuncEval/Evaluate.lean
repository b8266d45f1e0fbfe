import Icarus.Core.Effects
import Mathlib.Algebra.Order.Ring.Nat

/-!
# Constant functions

The netlist of a constant function: expressions, assignments, statements, function
definitions. What the nodes compute on values is a parameter of each node.
-/

namespace Icarus.FuncEval

/-- `perm_string`. -/
abbrev Name := Nat

/-- `NetScope*`. -/
abbrev Scope := Nat

/-- What the evaluation of statements reads of a constant value. The long is missing where the
value is no `NetEConst`. -/
structure Values (V : Type) where
  asLong : V → Option Int
  isDefined : V → Bool
  /-- `const_logical`: `none` is `C_X`. -/
  constLogical : V → Option Bool

/-- `NetExpr`: what it computes from its operands is given with the node. A missing value is
the null pointer, a missing result an `ivl_assert` that fails. -/
inductive Expr (V : Type) where
  /-- `NetEConst` and `NetECReal`. -/
  | const (value : V)
  /-- `NetESignal`, with the value of a variable that was never assigned. -/
  | signal (name : Name) (word : Option (Expr V)) (unassigned : Option V)
  /-- `NetEBinary`, `NetEUnary`, `NetEConcat` and `NetESFunc`, which need all operands. -/
  | op (evalArguments : List V → Option V) (args : List (Expr V))
  /-- `NetESelect`. -/
  | select (bits : V → Option V → Option V) (sub : Expr V) (base : Option (Expr V))
  /-- `NetETernary`. -/
  | ternary (cond trueVal falseVal : Expr V)
      (blendedArguments : Option V → Option V → Option (Option V))
  /-- `NetEUFunc`. -/
  | call (func : Nat) (args : List (Expr V))

/-- `NetAssign_`: the variable, the index of the word, the base of the part, the slice of the
right value that is meant for it, and the new value from the base, the old value and that
slice; a missing new value is an `ivl_assert` that fails. -/
structure LVal (V : Type) where
  name : Name
  word : Option (Expr V)
  base : Option (Expr V)
  rvalPart : V → V
  newValue : Option V → Option V → V → Option V

/-- `NetProc`. -/
inductive Stmt (V : Type) where
  /-- `NetBlock`, with the variables of its scope (and their words) and their initialisation. -/
  | block (subscope : Option Scope) (locals : List (Name × Nat)) (varInit : Option (Stmt V))
      (body : List (Stmt V))
  /-- `NetAssign`, with or without an operator. -/
  | assign (rval : Option (Expr V)) (compound : Bool) (lvals : List (LVal V))
  /-- `NetCondit`. -/
  | condit (cond : Expr V) (thenClause elseClause : Option (Stmt V))
  /-- `NetCase`, with the comparison of a guard; an item without a guard is the default. -/
  | case (expr : Expr V) (isMatch : V → V → Option Bool)
      (items : List (Option (Expr V) × Option (Stmt V)))
  /-- `NetRepeat`. -/
  | repeatLoop (count : Expr V) (body : Stmt V)
  /-- `NetForLoop`. -/
  | forLoop (init : Option (Stmt V)) (cond : Option (Expr V)) (step : Option (Stmt V))
      (body : Stmt V)
  /-- `NetWhile`. -/
  | whileLoop (cond : Expr V) (body : Stmt V)
  /-- `NetDoWhile`. -/
  | doWhile (cond : Expr V) (body : Stmt V)
  /-- `NetForever`. -/
  | forever (body : Stmt V)
  /-- `NetBreak`. -/
  | breakLoop
  /-- `NetContinue`. -/
  | continueLoop
  /-- `NetDisable`: of a named block, or of the function itself (`return`). -/
  | disable (target : Scope)
  /-- `NetSTask`. -/
  | sysTask

/-- `NetFuncDef`. A port is a name with the cast of the value it is given; the scope's own
variables are given with their words. -/
structure FuncDef (V : Type) where
  scope : Scope
  basename : Name
  ports : List (Name × (V → V))
  locals : List (Name × Nat)
  varInit : Option (Stmt V)
  proc : Option (Stmt V)

/-- `LocalVar`: a value or an array of values, null where none was assigned. -/
inductive LocalVar (V : Type) where
  | scalar (value : Option V)
  | array (words : List (Option V))

/-- The context map, the innermost declaration of a name first. -/
abbrev ContextMap (V : Type) := List (Name × LocalVar V)

/-- The variables of `evaluate_function_find_locals`. -/
def findLocals {V : Type} (locals : List (Name × Nat)) : ContextMap V :=
  locals.map fun l => (l.1, if l.2 = 0 then .scalar none else .array (List.replicate l.2 none))

/-- The variable under a name replaced. -/
def ContextMap.set {V : Type} (name : Name) (var : LocalVar V) : ContextMap V → ContextMap V
  | [] => []
  | entry :: rest =>
    if entry.1 = name then (name, var) :: rest else entry :: ContextMap.set name var rest

/-- The context map of a call. -/
def FuncDef.contextMap {V : Type} (func : FuncDef V) (args : List (Option V)) : ContextMap V :=
  findLocals func.locals ++
    (List.zipWith (fun port arg => (port.1, LocalVar.scalar (Option.map port.2 arg)))
      func.ports args).reverse ++ [(func.basename, .scalar none)]

/-- An assignment that was executed. -/
structure Event (V : Type) where
  name : Name
  word : Option Nat
  value : V

/-- The variables of the function that runs, the assignments so far, and global variables. -/
structure Machine (G V : Type) where
  globals : G
  trace : List (Event V)
  vars : ContextMap V

/-- Why an evaluation does not return: it goes on for longer than the fuel, an assertion fails
or a null pointer is used, a jump has no target, a condition on the run is not met. -/
inductive Stop where
  | fuel
  | assertion
  | stray
  | unmet

/-- An evaluation. -/
abbrev Eval (G V : Type) (α : Type) := Core.Effects.Run Stop (Machine G V) α

/-! ## Evaluation of a constant function

`evaluate_function` of the netlist nodes, with the flags `disable`, `loop_break` and
`loop_continue` as global variables. Expressions and l-values are evaluated in any state that
has the variables, with the calls of functions as a parameter. -/

open Icarus.Core.Effects (Turn)

variable {G V : Type}

/-- A failed `ivl_assert`, or a null pointer used. -/
def assertionFails {α : Type} : Eval G V α := throw .assertion

/-- The variable of a name. -/
def findVar (name : Name) : Eval G V (Option (LocalVar V)) :=
  do return (← get).vars.lookup name

/-- The variable of a name is assigned. -/
def setVar (name : Name) (word : Option Nat) (value : V) (var : LocalVar V) : Eval G V Unit :=
  modify fun m => { m with
    trace := m.trace ++ [⟨name, word, value⟩], vars := m.vars.set name var }

/-- The conversion of a `long` to an `int`. -/
def toInt (value : Int) : Int := value.bmod (2 ^ 32)

/-! ## Expressions -/

/-- The null pointer where no value was assigned gives the initial value of the type. -/
def orUnassigned (unassigned : Option V) (value : Option V) : Option V := value.or unassigned

/-- A word of an array in `NetESignal::evaluate_function`. -/
def wordValue (ops : Values V) (words : List (Option V)) (word : Int) (index : V) : Option V :=
  if ops.isDefined index && 0 ≤ word && word < words.length then
    (words[word.toNat]?).join
  else
    none

/-- `NetExpr::evaluate_function`. -/
def evalExpr (ops : Values V) (call : Nat → List (Option V) → Eval G V (Option V)) :
    Nat → Expr V → Eval G V (Option V)
  | 0, _ => throw .fuel
  | fuel + 1, e =>
    match e with
    | .const value => return some value
    | .signal name word unassigned => do
      match ← findVar name with
      | none => return none
      | some (.scalar value) => return orUnassigned unassigned value
      | some (.array words) =>
        match word with
        | none => assertionFails
        | some wordExpr =>
          match ← evalExpr ops call fuel wordExpr with
          | none => return none
          | some index =>
            match ops.asLong index with
            | none => assertionFails
            | some long =>
              return orUnassigned unassigned (wordValue ops words (toInt long) index)
    | .op evalArguments args => do
      let vals ← args.mapM (evalExpr ops call fuel)
      return (vals.mapM id).bind evalArguments
    | .select bits sub base => do
      match ← evalExpr ops call fuel sub with
      | none => assertionFails
      | some subVal =>
        match base with
        | none => match bits subVal none with
          | none => assertionFails
          | some res => return some res
        | some baseExpr =>
          match ← evalExpr ops call fuel baseExpr with
          | none => assertionFails
          | some baseVal => match bits subVal (some baseVal) with
            | none => assertionFails
            | some res => return some res
    | .ternary cond trueVal falseVal blendedArguments => do
      match ← evalExpr ops call fuel cond with
      | none => return none
      | some c =>
        match ops.constLogical c with
        | some false => evalExpr ops call fuel falseVal
        | some true => evalExpr ops call fuel trueVal
        | none =>
          let tval ← evalExpr ops call fuel trueVal
          let fval ← evalExpr ops call fuel falseVal
          match blendedArguments tval fval with
          | none => assertionFails
          | some res => return res
    | .call func args => do
      let vals ← args.mapM (evalExpr ops call fuel)
      call func vals

/-- An expression that has to be a `NetEConst`, as a `long`; `none` where it gives no value. -/
def evalLong (ops : Values V) (eval : Expr V → Eval G V (Option V)) (e : Expr V) :
    Eval G V (Option Int) := do
  match ← eval e with
  | none => return none
  | some value =>
    match ops.asLong value with
    | none => assertionFails
    | some long => return some long

/-! ## Assignments -/

/-- The second half of `NetAssign::eval_func_lval_`: the new value from the old one. -/
def assignValue (eval : Expr V → Eval G V (Option V)) (lval : LVal V) (word : Option Nat)
    (oldLval : Option V) (put : V → LocalVar V) (rval : V) : Eval G V Bool := do
  match lval.base with
  | none =>
    match lval.newValue none oldLval rval with
    | none => assertionFails
    | some value => setVar lval.name word value (put value); return true
  | some baseExpr =>
    match ← eval baseExpr with
    | none => return false
    | some base =>
      match lval.newValue (some base) oldLval rval with
      | none => assertionFails
      | some value => setVar lval.name word value (put value); return true

/-- `NetAssign::eval_func_lval_`. -/
def evalFuncLval (ops : Values V) (eval : Expr V → Eval G V (Option V)) (lval : LVal V)
    (rval : V) : Eval G V Bool := do
  match ← findVar lval.name with
  | none => assertionFails
  | some (.scalar value) => assignValue eval lval none value (fun v => .scalar (some v)) rval
  | some (.array words) =>
    match lval.word with
    | none => assertionFails
    | some wordExpr =>
      match ← eval wordExpr with
      | none => return false
      | some index =>
        match ops.asLong index with
        | none => assertionFails
        | some long =>
          if !ops.isDefined index then
            return true
          else if toInt long < 0 || toInt long ≥ words.length then
            return true
          else
            let word := (toInt long).toNat
            assignValue eval lval (some word) (words[word]?).join
              (fun v => .array (words.set word (some v))) rval

/-- The l-values of a concatenation, each with its slice of the right value. -/
def evalLvals (ops : Values V) (eval : Expr V → Eval G V (Option V)) (rval : V) :
    List (LVal V) → Eval G V Bool
  | [] => return true
  | lval :: rest => do
    let flag ← evalFuncLval ops eval lval (lval.rvalPart rval)
    if !flag then return false else evalLvals ops eval rval rest

/-- `NetAssign::evaluate_function`. -/
def evalAssign (ops : Values V) (eval : Expr V → Eval G V (Option V)) (rval : Option (Expr V))
    (compound : Bool) (lvals : List (LVal V)) : Eval G V Bool := do
  match rval with
  | none => return false
  | some rvalExpr =>
    match ← eval rvalExpr with
    | none => return false
    | some value =>
      match lvals with
      | [lval] => evalFuncLval ops eval lval value
      | lvals =>
        match ops.asLong value with
        | none => assertionFails
        | some _ => if compound then return false else evalLvals ops eval value lvals

/-- The items of a case statement: the statement that is chosen, if the guards have values. -/
def chooseItem (eval : Expr V → Eval G V (Option V)) (isMatch : V → V → Option Bool) (value : V) :
    Option (Option (Stmt V)) → List (Option (Expr V) × Option (Stmt V)) →
    Eval G V (Option (Bool × Option (Stmt V)))
  | dflt, [] => return some (false, dflt.join)
  | _, (none, stmt) :: rest => chooseItem eval isMatch value (some stmt) rest
  | dflt, (some guard, stmt) :: rest => do
    match ← eval guard with
    | none => return none
    | some item =>
      match isMatch value item with
      | none => assertionFails
      | some true => return some (true, stmt)
      | some false => chooseItem eval isMatch value dflt rest

/-! ## Statements -/

/-- The flags of jumps. -/
structure Flags where
  disable : Option Scope
  loopBreak : Bool
  loopContinue : Bool

/-- No jump. -/
def Flags.clear : Flags := ⟨none, false, false⟩

/-- A condition on the flags. -/
def readFlags {α : Type} (f : Flags → α) : Eval Flags V α := do return f (← get).globals

/-- The flags are changed. -/
def setFlags (f : Flags → Flags) : Eval Flags V Unit :=
  modify fun m => { m with globals := f m.globals }

/-- The variables of the function or block that runs now. -/
def getVars : Eval G V (ContextMap V) := do return (← get).vars

def setVars (vars : ContextMap V) : Eval G V Unit := modify fun m => { m with vars := vars }

/-- The declarations of a block. -/
def enterScope (locals : List (Name × Nat)) : Eval G V Unit :=
  modify fun m => { m with vars := findLocals locals ++ m.vars }

def leaveScope (locals : List (Name × Nat)) : Eval G V Unit :=
  modify fun m => { m with vars := m.vars.drop locals.length }

variable (ops : Values V) (eval : Expr V → Eval Flags V (Option V))
  (exec : Stmt V → Eval Flags V Bool)

/-- A statement that may be missing. -/
def evaluateOpt : Option (Stmt V) → Eval Flags V Bool
  | none => return true
  | some stmt => exec stmt

/-- `proc_ && proc_->evaluate_function(...)`. -/
def evaluateProc : Option (Stmt V) → Eval Flags V Bool
  | none => return false
  | some stmt => exec stmt

/-- The statements of a block, until one jumps. -/
def evaluateSeq : Bool → List (Stmt V) → Eval Flags V Bool
  | flag, [] => return flag
  | flag, cur :: rest => do
    let curFlag ← exec cur
    if ← readFlags fun g => g.disable.isNone && !g.loopBreak && !g.loopContinue then
      evaluateSeq (flag && curFlag) rest
    else
      return flag && curFlag

/-- `if (disable == subscope_) disable = 0`. -/
def catchDisable (subscope : Option Scope) : Eval Flags V Unit :=
  setFlags fun g => if g.disable = subscope then { g with disable := none } else g

/-- `NetBlock::evaluate_function`. -/
def evaluateBlock (subscope : Option Scope) (locals : List (Name × Nat))
    (varInit : Option (Stmt V)) (body : List (Stmt V)) : Eval Flags V Bool := do
  if body.isEmpty then
    return true
  else
    match subscope with
    | none =>
      let flag ← evaluateSeq exec true body
      catchDisable none
      return flag
    | some scope =>
      enterScope locals
      let _ ← evaluateOpt exec varInit
      let flag ← evaluateSeq exec true body
      catchDisable (some scope)
      leaveScope locals
      return flag

/-- `NetCase::evaluate_function`: the statement of an item is not tested for null, that of the
default is. -/
def evaluateCase (expr : Expr V) (isMatch : V → V → Option Bool)
    (items : List (Option (Expr V) × Option (Stmt V))) : Eval Flags V Bool := do
  match ← eval expr with
  | none => return false
  | some value =>
    match ← chooseItem eval isMatch value none items with
    | none => return false
    | some (true, none) => assertionFails
    | some (true, some stmt) => exec stmt
    | some (false, stmt) => evaluateOpt exec stmt

/-- `NetCondit::evaluate_function`. -/
def evaluateCondit (cond : Expr V) (thenClause elseClause : Option (Stmt V)) :
    Eval Flags V Bool := do
  match ← evalLong ops eval cond with
  | none => return false
  | some val =>
    if val ≠ 0 then evaluateOpt exec thenClause else evaluateOpt exec elseClause

/-- `if (loop_break) { loop_break = false; break; } loop_continue = false;` -/
def takeLoopBreak : Eval Flags V Bool := do
  if ← readFlags Flags.loopBreak then
    setFlags fun g => { g with loopBreak := false }
    return true
  else
    setFlags fun g => { g with loopContinue := false }
    return false

/-- `NetDoWhile::evaluate_function`: the turn of its loop. -/
def doWhileTurn (cond : Expr V) (body : Stmt V) (_flag : Bool) : Eval Flags V (Turn Bool) := do
  let flag ← exec body
  if !flag then
    return .leave flag
  else if ← takeLoopBreak then
    return .leave flag
  else
    match ← evalLong ops eval cond with
    | none => return .leave false
    | some val => if val = 0 then return .leave flag else return .again flag

/-- `NetForever::evaluate_function`: the turn of its loop. -/
def foreverTurn (body : Stmt V) (_flag : Bool) : Eval Flags V (Turn Bool) := do
  let flag ← exec body
  if ← takeLoopBreak then return .leave flag else return .again flag

/-- The statements of a turn of `NetForLoop::evaluate_function`. -/
def forLoopBody (step : Option (Stmt V)) (body : Stmt V) (flag : Bool) :
    Eval Flags V (Turn Bool) := do
  let tmpFlag ← exec body
  let flag := flag && tmpFlag
  if ← readFlags fun g => g.disable.isSome then
    return .leave flag
  else if ← takeLoopBreak then
    return .leave flag
  else
    let tmpFlag ← evaluateOpt exec step
    return .again (flag && tmpFlag)

/-- `NetForLoop::evaluate_function`: the turn of its loop. -/
def forLoopTurn (cond : Option (Expr V)) (step : Option (Stmt V)) (body : Stmt V) (flag : Bool) :
    Eval Flags V (Turn Bool) := do
  match cond with
  | none => forLoopBody exec step body flag
  | some condExpr =>
    match ← evalLong ops eval condExpr with
    | none => return .leave false
    | some val => if val = 0 then return .leave flag else forLoopBody exec step body flag

/-- `NetRepeat::evaluate_function`: the turn of its loop. -/
def repeatTurn (body : Stmt V) (state : Int × Bool) : Eval Flags V (Turn (Int × Bool)) := do
  let flag ← exec body
  if ← takeLoopBreak then return .leave (state.1 - 1, flag) else return .again (state.1 - 1, flag)

/-- `NetWhile::evaluate_function`: the turn of its loop. -/
def whileTurn (cond : Expr V) (body : Stmt V) (flag : Bool) : Eval Flags V (Turn Bool) := do
  match ← evalLong ops eval cond with
  | none => return .leave false
  | some val =>
    if val = 0 then
      return .leave flag
    else
      let tmpFlag ← exec body
      let flag := if !tmpFlag then false else flag
      if ← takeLoopBreak then return .leave flag else return .again flag

/-- `while (flag && !disable)`. -/
def goesOn (flag : Bool) (m : Machine Flags V) : Bool := flag && m.globals.disable.isNone

/-- A loop of the source. -/
def runLoop {σ : Type} (test : σ → Machine Flags V → Bool) (turn : σ → Eval Flags V (Turn σ))
    (fuel : Nat) (start : σ) : Eval Flags V σ :=
  Core.Effects.whileLoop Stop.fuel test turn fuel start

/-- `evaluate_function` of a statement. -/
def evaluate (call : Nat → List (Option V) → Eval Flags V (Option V)) :
    Nat → Stmt V → Eval Flags V Bool
  | 0, _ => throw .fuel
  | fuel + 1, stmt =>
    let eval := evalExpr ops call fuel
    let exec := evaluate call fuel
    match stmt with
    | .block subscope locals varInit body => evaluateBlock exec subscope locals varInit body
    | .assign rval compound lvals => evalAssign ops eval rval compound lvals
    | .condit cond thenClause elseClause => evaluateCondit ops eval exec cond thenClause elseClause
    | .case expr isMatch items => evaluateCase eval exec expr isMatch items
    | .repeatLoop count body => do
      match ← evalLong ops eval count with
      | none => return false
      | some count =>
        let res ← runLoop (fun s m => decide (0 < s.1) && goesOn s.2 m) (repeatTurn exec body)
          fuel (count, true)
        return res.2
    | .forLoop init cond step body => do
      let flag ← evaluateOpt exec init
      runLoop goesOn (forLoopTurn ops eval exec cond step body) fuel flag
    | .whileLoop cond body => runLoop goesOn (whileTurn ops eval exec cond body) fuel true
    | .doWhile cond body =>
      runLoop (fun _ m => m.globals.disable.isNone) (doWhileTurn ops eval exec cond body) fuel true
    | .forever body => runLoop goesOn (foreverTurn exec body) fuel true
    | .breakLoop => do
      setFlags fun g => { g with loopBreak := true }
      return true
    | .continueLoop => do
      setFlags fun g => { g with loopContinue := true }
      return true
    | .disable target => do
      setFlags fun g => { g with disable := some target }
      return true
    | .sysTask => return true

/-- The value of the return variable. -/
def returnValue (name : Name) : Eval G V (Option V) := do
  match ← findVar name with
  | some (.scalar value) => return value
  | _ => assertionFails

/-- `if (disable) { ivl_assert(loc, disable==scope()); disable = 0; }` -/
def trapDisable (scope : Scope) : Eval Flags V Unit := do
  if ← readFlags fun g => g.disable.isSome then
    if ← readFlags fun g => g.disable == some scope then
      setFlags fun g => { g with disable := none }
    else
      assertionFails

/-- `NetFuncDef::evaluate_function`. -/
def evaluateFunction (funcs : List (FuncDef V)) :
    Nat → Nat → List (Option V) → Eval Flags V (Option V)
  | 0, _, _ => throw .fuel
  | fuel + 1, func, args => do
    match funcs[func]? with
    | none => assertionFails
    | some defn =>
      if defn.ports.length ≠ args.length then
        assertionFails
      else
        let caller ← getVars
        setVars (defn.contextMap args)
        let exec := evaluate ops (evaluateFunction funcs fuel) fuel
        let _ ← evaluateOpt exec defn.varInit
        let flag ← evaluateProc exec defn.proc
        let res ← returnValue defn.basename
        setVars caller
        trapDisable defn.scope
        return if flag then res else none

end Icarus.FuncEval
