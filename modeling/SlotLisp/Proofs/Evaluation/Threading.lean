import SlotLisp.Program

/-!
# The environment comes back

The evaluator hands on the environment that each part leaves to the part after it. This is always
the environment that it began in. So evaluation is the same as if all operands of a call, all
steps of a `begin`, both branches and all data of a program ran in that one scope.
-/

namespace SlotLisp

/-- What comes after a run may be replaced by what agrees with it on the results of the run. -/
theorem Run.bind_congr_of_ok {α β : Type} {act : Run α} {next next' : α → Run β}
    (h : ∀ a st st', act st = .ok a st' → next a = next' a) : act >>= next = act >>= next' := by
  funext st
  cases hact : act st with
  | ok a st' => rw [Machine.bind_of_ok hact, Machine.bind_of_ok hact, h a st st' hact]
  | error e st' => rw [Machine.bind_of_error hact, Machine.bind_of_error hact]

/-- Whenever the run succeeds, the environment in effect afterwards is `env`. -/
def Run.StaysIn (act : Run Context) (env : ScopeId) : Prop :=
  ∀ st context st', act st = .ok context st' → context.env = env

section

variable {env : ScopeId}

theorem Run.StaysIn.bind {α : Type} {act : Run α} {next : α → Run Context}
    (h : ∀ a st st', act st = .ok a st' → (next a).StaysIn env) : (act >>= next).StaysIn env := by
  intro st context st' hrun
  obtain ⟨a, st'', hact, hnext⟩ := Run.exists_of_bind_ok hrun
  exact h a st st'' hact st'' context st' hnext

theorem Run.StaysIn.within {act : Run Context} (h : act.StaysIn env) (form : Value) :
    (Run.within form act).StaysIn env := by
  intro st context st' hrun
  cases hact : act st with
  | ok context' st'' =>
    rw [Run.within_of_ok form hact] at hrun
    cases hrun
    exact h st context st' hact
  | error e st'' =>
    rw [Run.within_of_error form hact] at hrun
    cases hrun

theorem staysIn_pure (v : Value) : (pure ⟨v, env⟩ : Run Context).StaysIn env := by
  intro st context st' hrun
  cases hrun
  rfl

theorem staysIn_fail (p : Problem) : (Run.fail p : Run Context).StaysIn env := by
  intro st context st' hrun
  cases hrun

/-- Steps that each stay in a scope stay in it together. -/
theorem staysIn_foldlM {α : Type} {act : α → Run Context} {xs : List α}
    (hstays : ∀ x ∈ xs, (act x).StaysIn env) (v : Value) :
    (xs.foldlM (fun _ x => act x) ⟨v, env⟩ : Run Context).StaysIn env := by
  induction xs generalizing v with
  | nil => exact staysIn_pure v
  | cons x xs ih =>
    rw [List.forall_mem_cons] at hstays
    rw [List.foldlM_cons]
    refine .bind fun context st st' hrun => ?_
    obtain ⟨v', env'⟩ := context
    obtain rfl : env' = env := hstays.1 st _ st' hrun
    exact ih hstays.2 v'

end

section

variable [Host]

/-- The value of an expression in a scope. -/
def valueIn (call : Caller) (env : ScopeId) (e : Value) : Run Value :=
  return (← evalForm call e env).value

/-- Evaluation as it is when the environment is not handed on at all. -/
structure Unthreaded (call : Caller) : Prop where
  result : ∀ e env, (evalForm call e env).StaysIn env
  application : ∀ mark head operands env, head.symbol?.bind SpecialForm.named? = none →
    operands.isProper = true →
    evalForm call (.pair mark head operands) env = Run.within (.pair mark head operands) do
      let callee ← valueIn call env head
      let args ← operands.elements.mapM (valueIn call env)
      return ⟨← applyTo call args callee, env⟩
  sequence : ∀ steps v env, evalSequence call steps ⟨v, env⟩ =
    steps.elements.foldlM (fun _ e => evalForm call e env) ⟨v, env⟩
  oneBranch : ∀ mark mark' condition consequent env,
    evalBranch call (.pair mark condition (.pair mark' consequent .nil)) env = do
      if (← valueIn call env condition).isTruthy then evalForm call consequent env
      else return ⟨.nil, env⟩
  twoBranches : ∀ mark mark' mark'' condition consequent alternative env,
    evalBranch call
      (.pair mark condition (.pair mark' consequent (.pair mark'' alternative .nil))) env = do
      if (← valueIn call env condition).isTruthy then evalForm call consequent env
      else evalForm call alternative env

/-! ## Parts that are evaluated one after the other -/

section

variable {call : Caller} {env : ScopeId}

/-- Of an expression that stays in its scope, only the value is handed on. -/
theorem bind_evalForm {β : Type} {e : Value} (he : (evalForm call e env).StaysIn env)
    (next : Value → ScopeId → Run β) :
    (do let context ← evalForm call e env; next context.value context.env) =
      (do let v ← valueIn call env e; next v env) := by
  rw [valueIn, bind_assoc]
  simp only [pure_bind]
  exact Run.bind_congr_of_ok fun context st st' hrun => by rw [he st context st' hrun]

theorem evalArguments_eq_mapM {operands : Value}
    (hstays : ∀ e ∈ operands.elements, (evalForm call e env).StaysIn env) (args : List Value) :
    evalArguments call operands args env =
      (do return (args.reverse ++ (← operands.elements.mapM (valueIn call env)), env)) := by
  induction operands generalizing args with
  | pair mark e rest _ ih =>
    rw [Value.elements_pair, List.forall_mem_cons] at hstays
    rw [evalArguments,
      bind_evalForm hstays.1 fun v env => evalArguments call rest (v :: args) env]
    simp only [ih hstays.2, Value.elements_pair, List.mapM_cons, bind_assoc, pure_bind,
      List.reverse_cons, List.append_assoc, List.singleton_append]
  | _ =>
    rw [evalArguments.eq_def]
    simp [Value.elements, Value.passElements]

theorem evalSequence_eq_foldlM {steps : Value}
    (hstays : ∀ e ∈ steps.elements, (evalForm call e env).StaysIn env) (v : Value) :
    evalSequence call steps ⟨v, env⟩ =
      steps.elements.foldlM (fun _ e => evalForm call e env) ⟨v, env⟩ := by
  induction steps generalizing v with
  | pair mark e rest _ ih =>
    rw [Value.elements_pair, List.forall_mem_cons] at hstays
    rw [evalSequence, Value.elements_pair, List.foldlM_cons]
    refine Run.bind_congr_of_ok fun context st st' hrun => ?_
    obtain ⟨v', env'⟩ := context
    obtain rfl : env' = env := hstays.1 st _ st' hrun
    exact ih hstays.2 v'
  | _ => rfl

end

/-! ## The environment of a result -/

section

variable {call : Caller} {operands : Value} {env : ScopeId}

theorem evalBranch_staysIn (hstays : ∀ e ∈ operands.elements, (evalForm call e env).StaysIn env) :
    (evalBranch call operands env).StaysIn env := by
  rw [evalBranch.eq_def]
  split
  · rename_i condition _ consequent
    refine .bind fun test st st' hrun => ?_
    rw [hstays condition (by simp) st test st' hrun]
    split
    · exact hstays consequent (by simp)
    · exact staysIn_pure .nil
  · rename_i condition _ consequent _ alternative
    refine .bind fun test st st' hrun => ?_
    rw [hstays condition (by simp) st test st' hrun]
    split
    · exact hstays consequent (by simp)
    · exact hstays alternative (by simp)
  · exact staysIn_fail _

/-- What `call` does has no say in this, as a call takes nothing but the value from it. -/
theorem evalForm_staysIn (call : Caller) (e : Value) (env : ScopeId) :
    (evalForm call e env).StaysIn env := by
  induction e using Value.form_induction with
  | atom v hv =>
    cases v with
    | pair mark a d => exact absurd rfl (hv mark a d)
    | symbol name =>
      rw [evalForm]
      exact .bind fun v _ _ _ => staysIn_pure v
    | _ =>
      rw [evalForm.eq_def]
      exact staysIn_pure _
  | combination mark head operands hhead hoperands =>
    rw [evalForm]
    refine Run.StaysIn.within ?_ _
    cases head.symbol?.bind SpecialForm.named? with
    | some form =>
      refine .bind fun _ _ _ _ => ?_
      cases form with
      | begin =>
        simp only
        rw [evalSequence_eq_foldlM hoperands]
        exact staysIn_foldlM hoperands .nil
      | branch => exact evalBranch_staysIn hoperands
      | _ => exact .bind fun _ _ _ _ => staysIn_pure _
    | none =>
      simp only
      split
      · exact staysIn_fail _
      · refine .bind fun callee st st' hrun => ?_
        rw [hhead st callee st' hrun, evalArguments_eq_mapM hoperands, bind_assoc]
        refine .bind fun args _ _ _ => ?_
        rw [pure_bind]
        exact .bind fun v _ _ _ => staysIn_pure v

end

theorem evalWithin_staysIn (n : Nat) (e : Value) (env : ScopeId) :
    (evalWithin n e env).StaysIn env := by
  cases n with
  | zero => exact staysIn_fail _
  | succ n => exact evalForm_staysIn (evalWithin n) e env

theorem eval_staysIn (e : Value) (env : ScopeId) : (eval e env).StaysIn env := by
  rw [eval_eq_evalWithin]
  exact evalWithin_staysIn callLimit e env

theorem evalDatum_staysIn (datum : Value) (env : ScopeId) : (evalDatum datum env).StaysIn env :=
  Run.StaysIn.bind fun e _ _ _ => eval_staysIn e env

theorem evalProgram_eq_foldlM (program : List Value) (v : Value) (env : ScopeId) :
    evalProgram program ⟨v, env⟩ =
      program.foldlM (fun _ datum => evalDatum datum env) ⟨v, env⟩ := by
  induction program generalizing v with
  | nil => rfl
  | cons datum rest ih =>
    rw [evalProgram, List.foldlM_cons]
    refine Run.bind_congr_of_ok fun context st st' hrun => ?_
    obtain ⟨v', env'⟩ := context
    obtain rfl : env' = env := evalDatum_staysIn datum _ st _ st' hrun
    exact ih v'

theorem evalProgram_staysIn (program : List Value) (v : Value) (env : ScopeId) :
    (evalProgram program ⟨v, env⟩).StaysIn env := by
  rw [evalProgram_eq_foldlM]
  exact staysIn_foldlM (fun datum _ => evalDatum_staysIn datum env) v

/-! ## Evaluation -/

theorem unthreaded (call : Caller) : Unthreaded call where
  result := evalForm_staysIn call
  application mark head operands env hhead hproper := by
    rw [evalForm]
    simp only [hhead, hproper, Bool.not_true, Bool.false_eq_true, if_false]
    rw [valueIn, bind_assoc]
    refine congrArg (Run.within _) (Run.bind_congr_of_ok fun callee st st' hrun => ?_)
    rw [evalForm_staysIn call head env st callee st' hrun,
      evalArguments_eq_mapM fun e _ => evalForm_staysIn call e env]
    simp only [bind_assoc, pure_bind, List.reverse_nil, List.nil_append]
  sequence steps v env := evalSequence_eq_foldlM (fun e _ => evalForm_staysIn call e env) v
  oneBranch mark mark' condition consequent env := by
    rw [evalBranch]
    exact bind_evalForm (evalForm_staysIn call condition env) fun v env =>
      if v.isTruthy then evalForm call consequent env else return ⟨.nil, env⟩
  twoBranches mark mark' mark'' condition consequent alternative env := by
    rw [evalBranch]
    exact bind_evalForm (evalForm_staysIn call condition env) fun v env =>
      if v.isTruthy then evalForm call consequent env else evalForm call alternative env

end

/-- Evaluation ends in the environment that it began in, at any depth and in any store, whatever
the functions of the host do. So do programs, and nothing in an expression or in a program runs in
another scope than the whole. -/
theorem environment_comes_back [Host] :
    (∀ e env, (eval e env).StaysIn env) ∧
    (∀ n e env, (evalWithin n e env).StaysIn env) ∧
    (∀ n, Unthreaded (evalWithin n)) ∧
    (∀ program v env, (evalProgram program ⟨v, env⟩).StaysIn env ∧
      evalProgram program ⟨v, env⟩ =
        program.foldlM (fun _ datum => evalDatum datum env) ⟨v, env⟩) :=
  ⟨eval_staysIn, evalWithin_staysIn, fun n => unthreaded (evalWithin n),
    fun program v env => ⟨evalProgram_staysIn program v env, evalProgram_eq_foldlM program v env⟩⟩

end SlotLisp
