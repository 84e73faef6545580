import SlotLisp.Proofs.Builtin.Counts
import SlotLisp.Proofs.Evaluation.Malformed

/-!
# Counts are checked first

A special form takes its operands apart, and `quote`, `lambda` and `if` keep a last branch for too
few or too many of them. It is not reached: a form is taken up with a proper list of as many
operands as its arity admits, and these it can take apart (`takesApart_of_checkOperands`). So what
such a branch would report is reported in a run only if a function of the host does so
(`hostRaises_of_evalWithin`). The bodies of the operations have no such branch, but for the
difference of nothing; there it is the call that checks the number (`Builtin.checksCount_call`).
-/

namespace SlotLisp

/-! ## Operands that pass the check -/

/-- There are as many operands as the form can take apart; otherwise its last branch is left. The
forms that are not listed look at more than the number there. -/
def SpecialForm.TakesApart : SpecialForm → List Value → Prop
  | .quote, es => ∃ datum, es = [datum]
  | .lambda, es => ∃ params body, es = [params, body]
  | .branch, es => ∃ condition consequent alternatives,
      es = condition :: consequent :: alternatives ∧ alternatives.length ≤ 1
  | _, _ => True

section

variable {form : SpecialForm} {whole operands : Value} {es : List Value}

theorem accepts_of_checkOperands (h : checkOperands form whole operands = .ok ()) :
    ∃ es, operands.toList? = some es ∧ form.arity.Accepts es.length := by
  cases hlist : operands.toList? with
  | none =>
    rw [checkOperands, Value.length?_eq, hlist] at h
    cases h
  | some es =>
    by_cases haccepts : form.arity.Accepts es.length
    · exact ⟨es, rfl, haccepts⟩
    · rw [checkOperands_of_count hlist haccepts] at h
      cases h

theorem takesApart_of_accepts (h : form.arity.Accepts es.length) : form.TakesApart es := by
  cases form with
  | quote => exact List.length_eq_one_iff.1 h
  | lambda => exact List.length_eq_two.1 h
  | branch =>
    obtain ⟨hmin, hmax⟩ : 2 ≤ es.length ∧ es.length ≤ 3 := h
    match es, hmin, hmax with
    | condition :: consequent :: alternatives, _, hmax =>
      have hothers : alternatives.length + 2 ≤ 3 := hmax
      exact ⟨condition, consequent, alternatives, rfl, by omega⟩
  | _ => trivial

theorem takesApart_of_checkOperands (h : checkOperands form whole operands = .ok ()) :
    ∃ es, operands.toList? = some es ∧ form.TakesApart es := by
  obtain ⟨es, hlist, haccepts⟩ := accepts_of_checkOperands h
  exact ⟨es, hlist, takesApart_of_accepts haccepts⟩

end

/-! ## The problems of the last branches -/

theorem Problem.isShape_of_isFallback {p : Problem} (h : p.isFallback = true) :
    p.isShape = true := by
  cases p with
  | malformed => rfl
  | _ => cases h

namespace Machine

variable [Host] {e : Value} {env : ScopeId} {room : Nat} {frames : List Frame} {st st' : Store}
  {s t : State} {err : Error}

/-- Taking up an expression does not end in the last branch of a special form. -/
theorem not_isFallback_of_step_form (h : State.step ⟨.form e env, room, frames, st⟩ = .inl t)
    (hfailed : t.control = .failed err) : err.problem.isFallback = false := by
  by_cases hill : ∃ kind, IllShaped e kind
  · obtain ⟨kind, hill⟩ := hill
    obtain ⟨problem, -, hfallback, hrefuses⟩ := exists_refusal hill
    rw [hrefuses] at h
    obtain rfl := Sum.inl.inj h
    obtain rfl := Control.failed.inj hfailed
    exact hfallback
  · rw [← Bool.not_eq_true]
    intro hfallback
    exact (spared_step_form (not_exists.1 hill) h).elim hfailed
      (Problem.isShape_of_isFallback hfallback)

/-- A function of the host is called, and fails with the problem. -/
def State.HostRaises (problem : Problem) (s : State) : Prop :=
  ∃ name key args err st', s.CallsNative (.host name key) args ∧
    Host.call key args s.store = .error err st' ∧ err.problem = problem

theorem hostRaises_of_step (h : s.step = .inl t) (hfailed : t.control = .failed err)
    (hfallback : err.problem.isFallback = true) :
    (∃ err', s.control = .failed err' ∧ err'.problem = err.problem) ∨
      s.HostRaises err.problem := by
  refine (raises_of_step h hfailed (Problem.isShape_of_isFallback hfallback)).imp_right ?_
  generalize hproblem : err.problem = problem
  rintro (hill | ⟨hcalls, hfails⟩)
  · rw [not_isFallback_of_step_form h hfailed] at hfallback
    cases hfallback
  · exact ⟨_, _, _, _, _, hcalls, hfails, rfl⟩

theorem hostRaises_of_evalWithin (h : evalWithin (room + 1) e env st = .error err st')
    (hfallback : err.problem.isFallback = true) :
    ∃ s, Reaches (.initial room e env st) s ∧ s.HostRaises err.problem := by
  have hreaches := reaches_evalForm room e env [] st
  rw [evalWithin] at h
  rw [h] at hreaches
  refine (arises_of_reaches (P := fun problem => problem.isFallback = true) hostRaises_of_step
    hreaches rfl hfallback).resolve_left ?_
  rintro ⟨err', herr', -⟩
  cases herr'

end Machine

open Machine

/-- The names of a global environment lead to the operations, and every call of an operation, by the
host or in a run, first checks the number of arguments: what the body reads is there, and an error
of arity names the bound that is violated. The special forms are given operands that they can take
apart, so that no expression is refused for what their last branches say, unless a function of the
host says so. -/
theorem counts_are_checked_first [Host] :
    (∀ (st : Store) (name : String) (v : Value),
      (Run.lookup st.newGlobal.1 name).yields st.newGlobal.2 = .ok v ↔
        ∃ op : Builtin, op.name = name ∧ v = .native (.builtin op)) ∧
    (∀ (op : Builtin) (args : List Value),
      op.ChecksCount args ((Native.builtin op).call args) ∧
      ∀ s : State, s.CallsNative (.builtin op) args → ∃ env room frames,
        s.step = .inl (answer ((Native.builtin op).call args) env room frames s.store)) ∧
    (∀ form whole operands, checkOperands form whole operands = .ok () →
      ∃ es, operands.toList? = some es ∧ form.TakesApart es) ∧
    (∀ e env room frames st t err, State.step ⟨.form e env, room, frames, st⟩ = .inl t →
      t.control = .failed err → err.problem.isFallback = false) ∧
    ∀ room e env st err st', evalWithin (room + 1) e env st = .error err st' →
      err.problem.isFallback = true →
        ∃ s, Reaches (.initial room e env st) s ∧ s.HostRaises err.problem := by
  refine ⟨fun st name v => ?_, fun op args => ⟨Builtin.checksCount_call op args, ?_⟩, ?_, ?_, ?_⟩
  · rw [Store.yields_lookup_eq_ok_iff, Store.valueOf?_newGlobal_eq_some_iff]
  · exact fun s hcalls => step_of_callsNative hcalls
  · exact fun form whole operands h => takesApart_of_checkOperands h
  · exact fun e env room frames st t err h hfailed => not_isFallback_of_step_form h hfailed
  · exact fun room e env st err st' h hfallback => hostRaises_of_evalWithin h hfallback

/-- Every function says what the last branch of a `quote` says. -/
@[reducible] def Host.oneDatum : Host where
  call _ _ := Run.fail (.malformed .quote .oneDatum "")

section

attribute [local instance] Host.oneDatum

/-- A difference of nothing, in a run; a pair of two values; the operands of an `if`; a `quote`
without a datum; and a function of the host that says what the last branch of a `quote` says. -/
theorem difference_of_nothing :
    (∃ bound env room frames, Builtin.sub.arity.IsViolated 0 bound ∧
      State.step ⟨.done ⟨.native (.builtin .sub), 0⟩, 0, [.callee .nil], {}⟩ =
        .inl (answer (Run.fail (.arity bound 0)) env room frames {})) ∧
    (∃ outcome, Builtin.cons.body [.int 1, .nil] = .ok outcome ∧
      (Native.builtin .cons).call [.int 1, .nil] = (do Run.place (← Run.ofOutcome outcome))) ∧
    (∃ es, (Value.ofList [.int 1, .int 2]).toList? = some es ∧
      SpecialForm.branch.TakesApart es) ∧
    (∃ t err, State.step ⟨.form (Value.ofList [.symbol "quote"]) 0, 0, [], {}⟩ = .inl t ∧
      t.control = .failed err ∧ err.problem.isFallback = false) ∧
    ∃ s, Reaches (.initial 0 (Value.ofList
        [.native (.host "f" "f")]) 0 {}) s ∧
      s.HostRaises (.malformed .quote .oneDatum "") := by
  obtain ⟨-, hcalls, hforms, hstep, hruns⟩ := counts_are_checked_first
  obtain ⟨hsub, hrun⟩ := hcalls .sub []
  obtain ⟨bound, hbound, hcall⟩ := hsub.refuses (Nat.not_succ_le_zero 0)
  obtain ⟨env, room, frames, hanswer⟩ :=
    hrun ⟨.done ⟨.native (.builtin .sub), 0⟩, 0, [.callee .nil], {}⟩ (.bare rfl rfl)
  refine ⟨⟨bound, env, room, frames, hbound, hcall ▸ hanswer⟩, (hcalls .cons _).1.performs rfl,
    hforms .branch .nil _ rfl, ⟨_, _, rfl, rfl, ?_⟩, ?_⟩
  · exact hstep (Value.ofList [.symbol "quote"]) 0 0 [] {} _ _ rfl rfl
  · exact hruns 0 _ 0 {} ⟨.malformed .quote .oneDatum "", none⟩ {} rfl rfl

end

end SlotLisp
