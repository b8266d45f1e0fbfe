import Icarus.FuncEval.Faithful

/-!
# Loops of constant functions

A turn of a loop with flags does what the turn of the structured loop says, so the loops do.
-/

namespace Icarus.FuncEval

open Icarus.Core.Effects

variable {V : Type}

/-- The state that a loop leaves. -/
abbrev leaves (r : Outcome) : Machine Unit V → Machine Flags V := withFlags r.1.flags

section Turns

variable {σ σ' : Type} {test : σ' → Machine Flags V → Bool} {start : σ → σ'} {view : σ' → Bool}
  {turn' : σ' → Eval Flags V (Turn σ')} {x' : σ'} {s t : Machine Unit V}

/-- A loop that is left in a turn. -/
theorem endsTurn_leave (z' : σ') {r : Outcome} (hz : view z' = r.2)
    (htest : test x' (withFlags .clear s) = true)
    (h : Ends (turn' x') (withFlags .clear s) (.leave z') (leaves r t)) :
    EndsTurn test (withFlags .clear) start view Prod.snd leaves turn' x' s (.inr r) t :=
  ⟨z', hz, Or.inl ⟨htest, h⟩⟩

/-- A loop whose test fails after a turn. -/
theorem endsTurn_stop (z' : σ') {r : Outcome} (hz : view z' = r.2)
    (htest : test x' (withFlags .clear s) = true)
    (h : Ends (turn' x') (withFlags .clear s) (.again z') (leaves r t))
    (hstop : test z' (leaves r t) = false) :
    EndsTurn test (withFlags .clear) start view Prod.snd leaves turn' x' s (.inr r) t :=
  ⟨z', hz, Or.inr (Or.inl ⟨htest, h, hstop⟩)⟩

/-- The end of a body, in a loop that tests for `break` after it. -/
theorem afterBody_endsTurn {next : σ} {z : Bool → σ'} {c : Completion} {flag : Bool}
    (htest : test x' (withFlags .clear s) = true) (hview : ∀ b, view (z b) = b)
    (hnext : z true = start next)
    (hstop : ∀ b target, test (z b) (withFlags (Completion.disabled target).flags t) = false)
    (hfail : test (z false) (withFlags .clear t) = false)
    (h : Ends (turn' x') (withFlags .clear s)
      (if decide (c = .broke) = true then .leave (z flag) else .again (z flag))
      (withFlags c.leftLoop.flags t)) :
    EndsTurn test (withFlags .clear) start view Prod.snd leaves turn' x' s
      (afterBody next (c, flag)) t := by
  have hgo : ∀ flag', Ends (turn' x') (withFlags .clear s) (.again (z flag')) (withFlags .clear t) →
      EndsTurn test (withFlags .clear) start view Prod.snd leaves turn' x' s
        (if flag' then .inl next else .inr (.normal, false)) t := by
    intro flag' h
    cases flag' with
    | false => exact endsTurn_stop _ (r := (.normal, false)) (hview _) htest h hfail
    | true => exact ⟨htest, hnext ▸ h⟩
  cases c with
  | normal => cases flag <;> exact hgo _ h
  | broke => exact endsTurn_leave _ (r := (.normal, flag)) (hview _) htest h
  | continued => cases flag <;> exact hgo _ h
  | disabled target =>
    exact endsTurn_stop _ (r := (.disabled target, flag)) (hview _) htest h (hstop _ _)

end Turns

section Loops

variable {ops : Values V} {eval : Expr V → Eval Unit V (Option V)}
  {eval' : Expr V → Eval Flags V (Option V)} {run : Stmt V → Eval Unit V Outcome}
  {exec : Stmt V → Eval Flags V Bool} {s t : Machine Unit V}

@[simp] theorem goesOn_disabled (flag : Bool) (target : Scope) (m : Machine Unit V) :
    goesOn flag (withFlags (Completion.disabled target).flags m) = false :=
  Bool.and_false flag

@[simp] theorem goesOn_false (m : Machine Flags V) : goesOn false m = false := rfl

@[simp] theorem goesOn_clear (m : Machine Unit V) :
    goesOn true (withFlags .clear m) = true := rfl

section

variable (hexec : ∀ stmt, Simulates (run stmt) (exec stmt))

include hexec

theorem runForever_endsTurn (body : Stmt V) (x : Unit) (r : Unit ⊕ Outcome)
    (h : Ends (runForeverTurn run body x) s r t) :
    EndsTurn goesOn (withFlags .clear) (fun _ => true) id Prod.snd leaves
      (foreverTurn exec body) true s r t := by
  obtain ⟨⟨c, flag⟩, u, hbody, hpure⟩ := ends_bind.mp h
  obtain ⟨rfl, rfl⟩ := ends_pure.mp hpure
  refine afterBody_endsTurn (z := id) rfl (fun _ => rfl) rfl (fun _ _ => goesOn_disabled _ _ _)
    rfl ?_
  refine (hexec body s _ t hbody).bind ((takeLoopBreak_ends c t).bind ?_)
  cases decide (c = .broke) <;> exact ends_pure.mpr ⟨rfl, rfl⟩

theorem runRepeat_endsTurn (body : Stmt V) (count : Int) (r : Int ⊕ Outcome)
    (h : Ends (runRepeatTurn run body count) s r t) :
    EndsTurn (fun s m => decide (0 < s.1) && goesOn s.2 m) (withFlags .clear)
      (fun n => (n, true)) Prod.snd Prod.snd leaves (repeatTurn exec body) (count, true) s r t := by
  rw [runRepeatTurn] at h
  by_cases hcount : 0 < count
  · rw [if_pos hcount] at h
    obtain ⟨⟨c, flag⟩, u, hbody, hpure⟩ := ends_bind.mp h
    obtain ⟨rfl, rfl⟩ := ends_pure.mp hpure
    refine afterBody_endsTurn (z := fun b => (count - 1, b)) (by simp [hcount]) (fun _ => rfl)
      rfl (fun _ _ => by simp) (by simp) ?_
    refine (hexec body s _ t hbody).bind ((takeLoopBreak_ends c t).bind ?_)
    cases decide (c = .broke) <;> exact ends_pure.mpr ⟨rfl, rfl⟩
  · rw [if_neg hcount] at h
    obtain ⟨rfl, rfl⟩ := ends_pure.mp h
    exact ⟨(count, true), rfl, Or.inr (Or.inr ⟨by simp [hcount], rfl, rfl⟩)⟩

variable (heval : ∀ e, Mirrors (withFlags .clear) (eval e) (eval' e))

include heval

theorem runWhile_endsTurn (cond : Expr V) (body : Stmt V) (x : Unit) (r : Unit ⊕ Outcome)
    (h : Ends (runWhileTurn ops eval run cond body x) s r t) :
    EndsTurn goesOn (withFlags .clear) (fun _ => true) id Prod.snd leaves
      (whileTurn ops eval' exec cond body) true s r t := by
  obtain ⟨val, u, hcond, hrest⟩ := ends_bind.mp h
  have hcond' := evalLong_mirrors heval cond s val u hcond
  cases val with
  | none =>
    obtain ⟨rfl, rfl⟩ := ends_pure.mp hrest
    exact endsTurn_leave false rfl rfl (hcond'.bind (ends_pure.mpr ⟨rfl, rfl⟩))
  | some val =>
    simp only at hrest
    by_cases hval : val = 0
    · rw [if_pos hval] at hrest
      obtain ⟨rfl, rfl⟩ := ends_pure.mp hrest
      refine endsTurn_leave true rfl rfl (hcond'.bind ?_)
      simp only [id, if_pos hval]
      exact ends_pure.mpr ⟨rfl, rfl⟩
    · rw [if_neg hval] at hrest
      obtain ⟨⟨c, flag⟩, v, hbody, hpure⟩ := ends_bind.mp hrest
      obtain ⟨rfl, rfl⟩ := ends_pure.mp hpure
      refine afterBody_endsTurn (z := id) rfl (fun _ => rfl) rfl
        (fun _ _ => goesOn_disabled _ _ _) rfl (hcond'.bind ?_)
      simp only [id, if_neg hval]
      refine (hexec body u _ t hbody).bind ((takeLoopBreak_ends c t).bind ?_)
      cases flag <;> cases decide (c = .broke) <;> exact ends_pure.mpr ⟨rfl, rfl⟩

omit heval in
/-- The body and the step, after whatever came before them in the turn. -/
theorem runForBody_endsTurn {step : Option (Stmt V)} {body : Stmt V} {r : Unit ⊕ Outcome}
    {u : Machine Unit V} {turn' : Bool → Eval Flags V (Turn Bool)}
    (hturn : ∀ r' t', Ends (forLoopBody exec step body true) (withFlags .clear u) r' t' →
      Ends (turn' true) (withFlags .clear s) r' t')
    (h : Ends (runForBody run step body) u r t) :
    EndsTurn goesOn (withFlags .clear) (fun _ : Unit => true) id Prod.snd leaves turn' true s r t := by
  obtain ⟨⟨c, flag⟩, v, hbody, hrest⟩ := ends_bind.mp h
  have hbody' := hexec body u _ v hbody
  -- the body ended normally or by `continue`: the step is executed
  have hstep : c = .normal ∨ c = .continued →
      Ends (do
        let stepFlag ← runPlain run step
        return if flag && stepFlag then (Sum.inl () : Unit ⊕ Outcome) else .inr (.normal, false))
        v r t →
      EndsTurn goesOn (withFlags .clear) (fun _ : Unit => true) id Prod.snd leaves turn' true s
        r t := by
    intro hc hrest
    obtain ⟨stepFlag, w, hplain, hpure⟩ := ends_bind.mp hrest
    obtain ⟨rfl, rfl⟩ := ends_pure.mp hpure
    have hplain' := runPlain_mirrors hexec step v stepFlag t hplain
    have hends : Ends (turn' true) (withFlags .clear s) (.again (flag && stepFlag))
        (withFlags .clear t) := by
      refine hturn _ _ (hbody'.bind ?_)
      have hread : Ends (readFlags fun g => g.disable.isSome) (withFlags c.flags v) false
          (withFlags c.flags v) := by
        obtain rfl | rfl := hc <;> rfl
      have htake : Ends takeLoopBreak (withFlags c.flags v) false (withFlags .clear v) := by
        obtain rfl | rfl := hc <;> rfl
      exact hread.bind (htake.bind (hplain'.bind (ends_pure.mpr ⟨rfl, rfl⟩)))
    cases hflag : flag && stepFlag with
    | false => exact endsTurn_stop false rfl rfl (hflag ▸ hends) rfl
    | true => exact ⟨rfl, hflag ▸ hends⟩
  cases c with
  | normal => exact hstep (Or.inl rfl) hrest
  | continued => exact hstep (Or.inr rfl) hrest
  | broke =>
    obtain ⟨rfl, rfl⟩ := ends_pure.mp hrest
    exact endsTurn_leave flag rfl rfl
      (hturn _ _ (hbody'.bind (ends_pure.mpr ⟨rfl, rfl⟩)))
  | disabled target =>
    obtain ⟨rfl, rfl⟩ := ends_pure.mp hrest
    exact endsTurn_leave flag rfl rfl
      (hturn _ _ (hbody'.bind (ends_pure.mpr ⟨rfl, rfl⟩)))

theorem runFor_endsTurn (cond : Option (Expr V)) (step : Option (Stmt V)) (body : Stmt V)
    (x : Unit) (r : Unit ⊕ Outcome) (h : Ends (runForTurn ops eval run cond step body x) s r t) :
    EndsTurn goesOn (withFlags .clear) (fun _ => true) id Prod.snd leaves
      (forLoopTurn ops eval' exec cond step body) true s r t := by
  cases cond with
  | none => exact runForBody_endsTurn hexec (fun _ _ h => h) h
  | some condExpr =>
    obtain ⟨val, u, hcond, hrest⟩ := ends_bind.mp h
    have hcond' := evalLong_mirrors heval condExpr s val u hcond
    cases val with
    | none =>
      obtain ⟨rfl, rfl⟩ := ends_pure.mp hrest
      exact endsTurn_leave false rfl rfl (hcond'.bind (ends_pure.mpr ⟨rfl, rfl⟩))
    | some val =>
      simp only at hrest
      by_cases hval : val = 0
      · rw [if_pos hval] at hrest
        obtain ⟨rfl, rfl⟩ := ends_pure.mp hrest
        refine endsTurn_leave true rfl rfl (hcond'.bind ?_)
        simp only [id, if_pos hval]
        exact ends_pure.mpr ⟨rfl, rfl⟩
      · rw [if_neg hval] at hrest
        refine runForBody_endsTurn hexec (fun r' t' h' => hcond'.bind ?_) hrest
        simp only [id, if_neg hval]
        exact h'

end

end Loops

/-! ## Loops that test their condition last -/

section DoWhile

variable {ops : Values V}

/-- Without calls an expression only reads. -/
theorem evalExpr_keeps (fuel : Nat) (e : Expr V) : Keeps (evalExpr ops noCall fuel e) := by
  induction fuel generalizing e with
  | zero => exact Keeps.throw
  | succ fuel ih =>
    cases e with
    | const value => exact Keeps.pure
    | signal name word unassigned =>
      refine Keeps.bind Keeps.gets fun var => ?_
      obtain - | value | words := var
      · exact Keeps.pure
      · exact Keeps.pure
      · cases word with
        | none => exact Keeps.throw
        | some wordExpr =>
          refine Keeps.bind (ih wordExpr) fun index => ?_
          cases index with
          | none => exact Keeps.pure
          | some index =>
            simp only
            cases ops.asLong index with
            | none => exact Keeps.throw
            | some long => exact Keeps.pure
    | op evalArguments args => exact Keeps.bind (Keeps.mapM ih args) fun vals => Keeps.pure
    | select bits sub base =>
      refine Keeps.bind (ih sub) fun subVal => ?_
      cases subVal with
      | none => exact Keeps.throw
      | some subVal =>
        cases base with
        | none =>
          simp only
          cases bits subVal none with
          | none => exact Keeps.throw
          | some res => exact Keeps.pure
        | some baseExpr =>
          refine Keeps.bind (ih baseExpr) fun baseVal => ?_
          cases baseVal with
          | none => exact Keeps.throw
          | some baseVal =>
            simp only
            cases bits subVal (some baseVal) with
            | none => exact Keeps.throw
            | some res => exact Keeps.pure
    | ternary cond trueVal falseVal blendedArguments =>
      refine Keeps.bind (ih cond) fun c => ?_
      cases c with
      | none => exact Keeps.pure
      | some c =>
        simp only
        obtain - | - | - := ops.constLogical c
        · refine Keeps.bind (ih trueVal) fun tval => Keeps.bind (ih falseVal) fun fval => ?_
          cases blendedArguments tval fval with
          | none => exact Keeps.throw
          | some res => exact Keeps.pure
        · exact ih falseVal
        · exact ih trueVal
    | call func args => exact Keeps.bind (Keeps.mapM ih args) fun vals => Keeps.throw

theorem evalLong_keeps (fuel : Nat) (e : Expr V) :
    Keeps (evalLong ops (evalExpr ops noCall fuel) e) := by
  refine Keeps.bind (evalExpr_keeps fuel e) fun value => ?_
  cases value with
  | none => exact Keeps.pure
  | some value =>
    simp only
    cases ops.asLong value with
    | none => exact Keeps.throw
    | some long => exact Keeps.pure

/-- A condition that calls no function has a value whatever the flags are. -/
theorem evalLong_of_isCalm (call' : Nat → List (Option V) → Eval Flags V (Option V))
    {fuel : Nat} {cond : Expr V} {t : Machine Unit V} (h : isCalm ops fuel cond t = true)
    (g : Flags) : ∃ val, Ends (evalLong ops (evalExpr ops call' fuel) cond) (withFlags g t)
      (some val) (withFlags g t) := by
  unfold isCalm at h
  split at h
  · rename_i val t' hends
    have heval : ∀ e, Mirrors (withFlags g) (evalExpr ops noCall fuel e)
        (evalExpr ops call' fuel e) := evalExpr_mirrors (fun _ _ => Mirrors.throw) fuel
    have hmirrors : Ends (evalLong ops (evalExpr ops call' fuel) cond) (withFlags g t)
        (some val) (withFlags g t') := evalLong_mirrors heval cond t _ t' hends
    rw [evalLong_keeps fuel cond t _ t' hends] at hmirrors
    exact ⟨val, hmirrors⟩
  · exact absurd h Bool.false_ne_true

/-- What was expected holds. -/
theorem ends_expect {condition : Bool} {s t : Machine Unit V}
    (h : Ends (expect true condition) s () t) : condition = true ∧ t = s := by
  cases condition with
  | false => exact absurd h ends_throw
  | true => exact ⟨rfl, (ends_pure.mp h).2⟩

variable {eval : Expr V → Eval Unit V (Option V)} {run : Stmt V → Eval Unit V Outcome}
  {exec : Stmt V → Eval Flags V Bool} {call' : Nat → List (Option V) → Eval Flags V (Option V)}
  {fuel : Nat} {s t : Machine Unit V}

/-- The body had values and left the condition to be tested. -/
theorem runDoWhile_tested
    (heval : ∀ e, Mirrors (withFlags .clear) (eval e) (evalExpr ops call' fuel e))
    (cond : Expr V) (body : Stmt V) {c : Completion} {u : Machine Unit V} {r : Unit ⊕ Outcome}
    (hbody : Ends (exec body) (withFlags .clear s) true (withFlags c.flags u))
    (hleft : c.leftLoop = .normal) (hbroke : decide (c = .broke) = false)
    (htest : Ends (do
      match ← evalLong ops eval cond with
      | none => return .inr (.normal, false)
      | some val => if val = 0 then return .inr (.normal, true) else return .inl ()) u r t) :
    EndsTurn (fun _ m => m.globals.disable.isNone) (withFlags .clear) (fun _ => true) id Prod.snd
      leaves (doWhileTurn ops (evalExpr ops call' fuel) exec cond body) true s r t := by
  have htake := takeLoopBreak_ends c u
  rw [hleft, hbroke] at htake
  obtain ⟨val, v, hcond, hpure⟩ := ends_bind.mp htest
  have hcond' := evalLong_mirrors heval cond u val v hcond
  cases val with
  | none =>
    obtain ⟨rfl, rfl⟩ := ends_pure.mp hpure
    exact endsTurn_leave false rfl rfl
      (hbody.bind (htake.bind (hcond'.bind (ends_pure.mpr ⟨rfl, rfl⟩))))
  | some val =>
    simp only at hpure
    by_cases hval : val = 0
    · rw [if_pos hval] at hpure
      obtain ⟨rfl, rfl⟩ := ends_pure.mp hpure
      refine endsTurn_leave true rfl rfl
        (hbody.bind (htake.bind (hcond'.bind ?_)))
      simp only [id, if_pos hval]
      exact ends_pure.mpr ⟨rfl, rfl⟩
    · rw [if_neg hval] at hpure
      obtain ⟨rfl, rfl⟩ := ends_pure.mp hpure
      refine ⟨rfl, hbody.bind (htake.bind (hcond'.bind ?_))⟩
      simp only [id, if_neg hval]
      exact ends_pure.mpr ⟨rfl, rfl⟩

theorem runDoWhile_endsTurn
    (heval : ∀ e, Mirrors (withFlags .clear) (eval e) (evalExpr ops call' fuel e))
    (hexec : ∀ stmt, Simulates (run stmt) (exec stmt)) (cond : Expr V) (body : Stmt V) (x : Unit)
    (r : Unit ⊕ Outcome)
    (h : Ends (runDoWhileTurn ops true eval run fuel cond body x) s r t) :
    EndsTurn (fun _ m => m.globals.disable.isNone) (withFlags .clear) (fun _ => true) id Prod.snd
      leaves (doWhileTurn ops (evalExpr ops call' fuel) exec cond body) true s r t := by
  obtain ⟨⟨c, flag⟩, u, hbody, hrest⟩ := ends_bind.mp h
  have hbody' := hexec body s _ u hbody
  -- the body failed
  have hfailed : ∀ c' : Completion, c' = c → flag = false → r = .inr (c', false) → t = u →
      EndsTurn (fun _ m => m.globals.disable.isNone) (withFlags .clear) (fun _ => true) id Prod.snd
        leaves (doWhileTurn ops (evalExpr ops call' fuel) exec cond body) true s r t := by
    rintro c' rfl rfl rfl rfl
    exact endsTurn_leave false rfl rfl (hbody'.bind (ends_pure.mpr ⟨rfl, rfl⟩))
  cases c with
  | broke =>
    obtain ⟨_, v, hexpect, hpure⟩ := ends_bind.mp hrest
    obtain ⟨rfl, rfl⟩ := ends_expect hexpect
    obtain ⟨rfl, rfl⟩ := ends_pure.mp hpure
    exact endsTurn_leave true rfl rfl
      (hbody'.bind ((takeLoopBreak_ends .broke _).bind (ends_pure.mpr ⟨rfl, rfl⟩)))
  | disabled target =>
    obtain ⟨m, v, hget, hchecked⟩ := ends_bind.mp hrest
    obtain ⟨rfl, rfl⟩ := ends_get.mp hget
    obtain ⟨_, v', hexpect, hpure⟩ := ends_bind.mp hchecked
    obtain ⟨hcalm, rfl⟩ := ends_expect hexpect
    obtain ⟨rfl, rfl⟩ := ends_pure.mp hpure
    cases flag with
    | false => exact hfailed _ rfl rfl rfl rfl
    | true =>
      obtain ⟨val, hcond⟩ := evalLong_of_isCalm call' hcalm (Completion.disabled target).flags
      have htake := takeLoopBreak_ends (.disabled target) t
      by_cases hval : val = 0
      · refine endsTurn_leave true rfl rfl
          (hbody'.bind (htake.bind (hcond.bind ?_)))
        simp only [if_pos hval]
        exact ends_pure.mpr ⟨rfl, rfl⟩
      · refine endsTurn_stop true rfl rfl
          (hbody'.bind (htake.bind (hcond.bind ?_))) rfl
        simp only [if_neg hval]
        exact ends_pure.mpr ⟨rfl, rfl⟩
  | normal =>
    cases flag with
    | false =>
      obtain ⟨_, v, hexpect, hpure⟩ := ends_bind.mp hrest
      obtain ⟨-, rfl⟩ := ends_expect hexpect
      obtain ⟨rfl, rfl⟩ := ends_pure.mp hpure
      exact hfailed _ rfl rfl rfl rfl
    | true => exact runDoWhile_tested heval cond body hbody' rfl rfl hrest
  | continued =>
    cases flag with
    | false =>
      obtain ⟨_, v, hexpect, hpure⟩ := ends_bind.mp hrest
      exact absurd (ends_expect hexpect).1 (by decide)
    | true => exact runDoWhile_tested heval cond body hbody' rfl rfl hrest

end DoWhile

end Icarus.FuncEval
