import Icarus.FuncEval.Jumps

/-!
# The flags carry the jumps

Every statement of a run that keeps the conditions is followed by its evaluation: the flags are
clear before it, and after it they say how it ended.
-/

namespace Icarus.FuncEval

open Icarus.Core.Effects

variable {V : Type}

/-- The flags that say how a statement ended. -/
def Completion.flags : Completion → Flags
  | .normal => ⟨none, false, false⟩
  | .broke => ⟨none, true, false⟩
  | .continued => ⟨none, false, true⟩
  | .disabled target => ⟨some target, false, false⟩

/-- The machine with other global variables. -/
def mapGlobals {G G' : Type} (f : G → G') (m : Machine G V) : Machine G' V :=
  ⟨f m.globals, m.trace, m.vars⟩

/-- The machine with flags. -/
abbrev withFlags (g : Flags) : Machine Unit V → Machine Flags V := mapGlobals fun _ => g

@[simp] theorem globals_withFlags (g : Flags) (m : Machine Unit V) :
    (withFlags g m).globals = g := rfl

/-! ## Expressions and assignments -/

section Expressions

variable {G G' : Type} {f : G → G'} {ops : Values V}

theorem findVar_mirrors (name : Name) :
    Mirrors (mapGlobals f) (findVar (V := V) name) (findVar name) :=
  Mirrors.gets fun _ => rfl

theorem getVars_mirrors : Mirrors (mapGlobals f) (getVars (V := V)) getVars :=
  Mirrors.gets fun _ => rfl

theorem setVars_mirrors (vars : ContextMap V) :
    Mirrors (mapGlobals f) (setVars vars) (setVars vars) :=
  Mirrors.modify fun _ => rfl

theorem setVar_mirrors (name : Name) (word : Option Nat) (value : V) (var : LocalVar V) :
    Mirrors (mapGlobals f) (setVar name word value var) (setVar name word value var) :=
  Mirrors.modify fun _ => rfl

theorem enterScope_mirrors (locals : List (Name × Nat)) :
    Mirrors (mapGlobals f) (enterScope (V := V) locals) (enterScope locals) :=
  Mirrors.modify fun _ => rfl

theorem leaveScope_mirrors (locals : List (Name × Nat)) :
    Mirrors (mapGlobals f) (leaveScope (V := V) locals) (leaveScope locals) :=
  Mirrors.modify fun _ => rfl

theorem returnValue_mirrors (name : Name) :
    Mirrors (mapGlobals f) (returnValue (V := V) name) (returnValue name) := by
  refine Mirrors.bind (findVar_mirrors name) fun var => ?_
  obtain - | value | words := var
  · exact Mirrors.throw
  · exact Mirrors.pure
  · exact Mirrors.throw

/-- An expression whose calls are mirrored is mirrored. -/
theorem evalExpr_mirrors {call : Nat → List (Option V) → Eval G V (Option V)}
    {call' : Nat → List (Option V) → Eval G' V (Option V)}
    (hcall : ∀ func args, Mirrors (mapGlobals f) (call func args) (call' func args))
    (fuel : Nat) (e : Expr V) :
    Mirrors (mapGlobals f) (evalExpr ops call fuel e) (evalExpr ops call' fuel e) := by
  induction fuel generalizing e with
  | zero => exact Mirrors.throw
  | succ fuel ih =>
    cases e with
    | const value => exact Mirrors.pure
    | signal name word unassigned =>
      refine Mirrors.bind (findVar_mirrors name) fun var => ?_
      obtain - | value | words := var
      · exact Mirrors.pure
      · exact Mirrors.pure
      · cases word with
        | none => exact Mirrors.throw
        | some wordExpr =>
          refine Mirrors.bind (ih wordExpr) fun index => ?_
          cases index with
          | none => exact Mirrors.pure
          | some index =>
            simp only
            cases ops.asLong index with
            | none => exact Mirrors.throw
            | some long => exact Mirrors.pure
    | op evalArguments args =>
      exact Mirrors.bind (Mirrors.mapM ih args) fun vals => Mirrors.pure
    | select bits sub base =>
      refine Mirrors.bind (ih sub) fun subVal => ?_
      cases subVal with
      | none => exact Mirrors.throw
      | some subVal =>
        cases base with
        | none =>
          simp only
          cases bits subVal none with
          | none => exact Mirrors.throw
          | some res => exact Mirrors.pure
        | some baseExpr =>
          refine Mirrors.bind (ih baseExpr) fun baseVal => ?_
          cases baseVal with
          | none => exact Mirrors.throw
          | some baseVal =>
            simp only
            cases bits subVal (some baseVal) with
            | none => exact Mirrors.throw
            | some res => exact Mirrors.pure
    | ternary cond trueVal falseVal blendedArguments =>
      refine Mirrors.bind (ih cond) fun c => ?_
      cases c with
      | none => exact Mirrors.pure
      | some c =>
        simp only
        obtain - | - | - := ops.constLogical c
        · refine Mirrors.bind (ih trueVal) fun tval => Mirrors.bind (ih falseVal) fun fval => ?_
          cases blendedArguments tval fval with
          | none => exact Mirrors.throw
          | some res => exact Mirrors.pure
        · exact ih falseVal
        · exact ih trueVal
    | call func args =>
      exact Mirrors.bind (Mirrors.mapM ih args) fun vals => hcall func vals

variable {eval : Expr V → Eval G V (Option V)} {eval' : Expr V → Eval G' V (Option V)}
  (heval : ∀ e, Mirrors (mapGlobals f) (eval e) (eval' e))

include heval

theorem evalLong_mirrors (e : Expr V) :
    Mirrors (mapGlobals f) (evalLong ops eval e) (evalLong ops eval' e) := by
  refine Mirrors.bind (heval e) fun value => ?_
  cases value with
  | none => exact Mirrors.pure
  | some value =>
    simp only
    cases ops.asLong value with
    | none => exact Mirrors.throw
    | some long => exact Mirrors.pure

theorem assignValue_mirrors (lval : LVal V) (word : Option Nat) (oldLval : Option V)
    (put : V → LocalVar V) (rval : V) :
    Mirrors (mapGlobals f) (assignValue eval lval word oldLval put rval)
      (assignValue eval' lval word oldLval put rval) := by
  rw [assignValue, assignValue]
  cases lval.base with
  | none =>
    simp only
    cases lval.newValue none oldLval rval with
    | none => exact Mirrors.throw
    | some value => exact Mirrors.bind (setVar_mirrors _ _ _ _) fun _ => Mirrors.pure
  | some baseExpr =>
    refine Mirrors.bind (heval baseExpr) fun base => ?_
    cases base with
    | none => exact Mirrors.pure
    | some base =>
      simp only
      cases lval.newValue (some base) oldLval rval with
      | none => exact Mirrors.throw
      | some value => exact Mirrors.bind (setVar_mirrors _ _ _ _) fun _ => Mirrors.pure

theorem evalFuncLval_mirrors (lval : LVal V) (rval : V) :
    Mirrors (mapGlobals f) (evalFuncLval ops eval lval rval)
      (evalFuncLval ops eval' lval rval) := by
  refine Mirrors.bind (findVar_mirrors _) fun var => ?_
  obtain - | value | words := var
  · exact Mirrors.throw
  · exact assignValue_mirrors heval _ _ _ _ _
  · simp only
    cases lval.word with
    | none => exact Mirrors.throw
    | some wordExpr =>
      refine Mirrors.bind (heval wordExpr) fun index => ?_
      cases index with
      | none => exact Mirrors.pure
      | some index =>
        simp only
        cases ops.asLong index with
        | none => exact Mirrors.throw
        | some long =>
          simp only
          split
          · exact Mirrors.pure
          · split
            · exact Mirrors.pure
            · exact assignValue_mirrors heval _ _ _ _ _

theorem evalLvals_mirrors (rval : V) (lvals : List (LVal V)) :
    Mirrors (mapGlobals f) (evalLvals ops eval rval lvals) (evalLvals ops eval' rval lvals) := by
  induction lvals with
  | nil => exact Mirrors.pure
  | cons lval rest ih =>
    refine Mirrors.bind (evalFuncLval_mirrors heval _ _) fun flag => ?_
    cases flag with
    | false => exact Mirrors.pure
    | true => exact ih

theorem evalMany_mirrors (value : V) (compound : Bool) (lvals : List (LVal V)) :
    Mirrors (mapGlobals f)
      (match ops.asLong value with
        | none => assertionFails
        | some _ => if compound then return false else evalLvals ops eval value lvals)
      (match ops.asLong value with
        | none => assertionFails
        | some _ => if compound then return false else evalLvals ops eval' value lvals) := by
  cases ops.asLong value with
  | none => exact Mirrors.throw
  | some _ =>
    cases compound with
    | true => exact Mirrors.pure
    | false => exact evalLvals_mirrors heval value lvals

theorem evalAssign_mirrors (rval : Option (Expr V)) (compound : Bool) (lvals : List (LVal V)) :
    Mirrors (mapGlobals f) (evalAssign ops eval rval compound lvals)
      (evalAssign ops eval' rval compound lvals) := by
  cases rval with
  | none => exact Mirrors.pure
  | some rvalExpr =>
    refine Mirrors.bind (heval rvalExpr) fun value => ?_
    cases value with
    | none => exact Mirrors.pure
    | some value =>
      obtain - | ⟨lval, - | ⟨next, rest⟩⟩ := lvals
      · exact evalMany_mirrors heval value compound []
      · exact evalFuncLval_mirrors heval lval value
      · exact evalMany_mirrors heval value compound (lval :: next :: rest)

theorem chooseItem_mirrors (isMatch : V → V → Option Bool) (value : V)
    (dflt : Option (Option (Stmt V))) (items : List (Option (Expr V) × Option (Stmt V))) :
    Mirrors (mapGlobals f) (chooseItem eval isMatch value dflt items)
      (chooseItem eval' isMatch value dflt items) := by
  induction items generalizing dflt with
  | nil => exact Mirrors.pure
  | cons item rest ih =>
    obtain ⟨- | guard, stmt⟩ := item
    · exact ih (some stmt)
    · refine Mirrors.bind (heval guard) fun item => ?_
      cases item with
      | none => exact Mirrors.pure
      | some item =>
        simp only
        obtain - | - | - := isMatch value item
        · exact Mirrors.throw
        · exact ih dflt
        · exact Mirrors.pure

end Expressions

/-! ## Flags -/

section Flags

variable {g : Flags} {α β α' : Type} {res : α → α'}
  {exit : α → Machine Unit V → Machine Flags V} {m : Eval Unit V α}

theorem follows_readFlags {f : Flags → β} {k : β → Eval Flags V α'}
    (h : Follows (withFlags g) res exit m (k (f g))) :
    Follows (withFlags g) res exit m (readFlags f >>= k) :=
  fun s a t hends => h s a t hends

theorem follows_setFlags {f : Flags → Flags} {k : Unit → Eval Flags V α'}
    (h : Follows (withFlags (f g)) res exit m (k ())) :
    Follows (withFlags g) res exit m (setFlags f >>= k) :=
  fun s a t hends => h s a t hends

/-- How a loop or the statements after it see the end of a body. -/
def Completion.leftLoop : Completion → Completion
  | .disabled target => .disabled target
  | _ => .normal

theorem takeLoopBreak_ends (c : Completion) (t : Machine Unit V) :
    Ends takeLoopBreak (withFlags c.flags t) (decide (c = .broke))
      (withFlags c.leftLoop.flags t) := by
  cases c with
  | normal => rfl
  | broke => rfl
  | continued => rfl
  | disabled target => rfl

theorem catchDisable_ends (subscope : Option Scope) (c : Completion) (t : Machine Unit V) :
    Ends (catchDisable subscope) (withFlags c.flags t) ()
      (withFlags (caught subscope c).flags t) := by
  have hends : Ends (catchDisable subscope) (withFlags c.flags t) () (withFlags
      (if c.flags.disable = subscope then { c.flags with disable := none } else c.flags) t) := rfl
  have hflags : (if c.flags.disable = subscope then { c.flags with disable := none }
      else c.flags) = (caught subscope c).flags := by
    cases c with
    | normal => exact ite_self _
    | broke => exact ite_self _
    | continued => exact ite_self _
    | disabled target =>
      rw [caught]
      by_cases h : subscope = some target
      · rw [if_pos (show (Completion.disabled target).flags.disable = subscope from h.symm),
          if_pos h]
        rfl
      · rw [if_neg (show (Completion.disabled target).flags.disable ≠ subscope from Ne.symm h),
          if_neg h]
  rwa [hflags] at hends

end Flags

/-! ## Statements -/

/-- A statement followed by its evaluation. -/
def Simulates (m : Eval Unit V Outcome) (m' : Eval Flags V Bool) : Prop :=
  Follows (withFlags .clear) Prod.snd (fun r => withFlags r.1.flags) m m'

theorem Simulates.pure (c : Completion) (flag : Bool) (hc : c = .normal) :
    Simulates (V := V) (Pure.pure (c, flag)) (Pure.pure flag) :=
  Follows.pure rfl fun _ => hc ▸ rfl

/-- A failed evaluation. -/
theorem Simulates.failed :
    Simulates (V := V) (Pure.pure (.normal, false)) (Pure.pure false) :=
  Simulates.pure _ _ rfl

section Statements

variable {ops : Values V} {guarded : Bool} {eval : Expr V → Eval Unit V (Option V)}
  {eval' : Expr V → Eval Flags V (Option V)} {run : Stmt V → Eval Unit V Outcome}
  {exec : Stmt V → Eval Flags V Bool}
  (heval : ∀ e, Mirrors (withFlags .clear) (eval e) (eval' e))
  (hexec : ∀ stmt, Simulates (run stmt) (exec stmt))

include hexec

theorem runOpt_simulates (stmt : Option (Stmt V)) :
    Simulates (runOpt run stmt) (evaluateOpt exec stmt) := by
  cases stmt with
  | none => exact Simulates.pure _ _ rfl
  | some stmt => exact hexec stmt

theorem runPlain_mirrors (stmt : Option (Stmt V)) :
    Mirrors (withFlags .clear) (runPlain run stmt) (evaluateOpt exec stmt) := by
  cases stmt with
  | none => exact Mirrors.pure
  | some stmt =>
    intro s flag t hends
    obtain ⟨⟨c, flag'⟩, u, hrun, hrest⟩ := ends_bind.mp hends
    cases c with
    | normal =>
      obtain ⟨rfl, rfl⟩ := ends_pure.mp hrest
      exact hexec stmt s _ t hrun
    | broke => exact absurd hrest ends_throw
    | continued => exact absurd hrest ends_throw
    | disabled target => exact absurd hrest ends_throw

theorem runSeq_simulates (flag : Bool) (body : List (Stmt V)) :
    Simulates (runSeq run flag body) (evaluateSeq exec flag body) := by
  induction body generalizing flag with
  | nil => exact Simulates.pure _ _ rfl
  | cons cur rest ih =>
    refine Follows.bind (hexec cur) fun outcome => ?_
    obtain ⟨c, curFlag⟩ := outcome
    refine follows_readFlags ?_
    cases c with
    | normal => exact ih (flag && curFlag)
    | broke => exact Follows.pure rfl fun _ => rfl
    | continued => exact Follows.pure rfl fun _ => rfl
    | disabled target => exact Follows.pure rfl fun _ => rfl

theorem runBlock_simulates (subscope : Option Scope) (locals : List (Name × Nat))
    (varInit : Option (Stmt V)) (body : List (Stmt V)) :
    Simulates (runBlock run subscope locals varInit body)
      (evaluateBlock exec subscope locals varInit body) := by
  have hseq := runSeq_simulates hexec true body
  unfold runBlock evaluateBlock
  cases body.isEmpty with
  | true => exact Simulates.pure _ _ rfl
  | false =>
    cases subscope with
    | none =>
      intro s outcome t hends
      have hcaught : caught none outcome.1 = outcome.1 := by
        cases outcome.1 <;> rfl
      have hcatch := catchDisable_ends none outcome.1 t
      rw [hcaught] at hcatch
      exact (hseq s outcome t hends).bind (hcatch.bind (ends_pure.mpr ⟨rfl, rfl⟩))
    | some scope =>
      refine Mirrors.bind (enterScope_mirrors locals) fun _ => ?_
      refine Mirrors.bind (runPlain_mirrors hexec varInit) fun _ => ?_
      refine Follows.bind hseq fun outcome => ?_
      intro s r t hends
      obtain ⟨_, u, hleave, hpure⟩ := ends_bind.mp hends
      obtain ⟨rfl, rfl⟩ := ends_pure.mp hpure
      have hcatch := catchDisable_ends (some scope) outcome.1 s
      have hleave' := leaveScope_mirrors (f := fun _ => (caught (some scope) outcome.1).flags)
        locals s () t hleave
      exact hcatch.bind (hleave'.bind (ends_pure.mpr ⟨rfl, rfl⟩))

include heval

theorem runCondit_simulates (cond : Expr V) (thenClause elseClause : Option (Stmt V)) :
    Simulates (runCondit ops eval run cond thenClause elseClause)
      (evaluateCondit ops eval' exec cond thenClause elseClause) := by
  refine Mirrors.bind (evalLong_mirrors heval cond) fun val => ?_
  cases val with
  | none => exact Simulates.failed
  | some val =>
    simp only
    split
    · exact runOpt_simulates hexec thenClause
    · exact runOpt_simulates hexec elseClause

theorem runCase_simulates (expr : Expr V) (isMatch : V → V → Option Bool)
    (items : List (Option (Expr V) × Option (Stmt V))) :
    Simulates (runCase true eval run expr isMatch items)
      (evaluateCase eval' exec expr isMatch items) := by
  refine Mirrors.bind (heval expr) fun value => ?_
  cases value with
  | none => exact Simulates.failed
  | some value =>
    refine Mirrors.bind (chooseItem_mirrors heval isMatch value none items) fun item => ?_
    obtain - | ⟨- | -, stmt⟩ := item
    · exact Simulates.failed
    · exact runOpt_simulates hexec stmt
    · cases stmt with
      | none => exact Follows.throw
      | some stmt => exact hexec stmt

end Statements

end Icarus.FuncEval
