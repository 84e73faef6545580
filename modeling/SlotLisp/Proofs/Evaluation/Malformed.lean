import Mathlib.Data.List.Basic
import Mathlib.Tactic.ByContra
import SlotLisp.Proofs.Builtin.Failures
import SlotLisp.Proofs.Evaluation.Shapes
import SlotLisp.Proofs.Machine.Unlimited

/-!
# Malformed forms have no effect

The run of an ill-shaped form is its refusal and nothing else. The converse goes by the transitions
of the machine: a problem of shape is there already, or it is raised by an ill-shaped form, or a
function of the host makes it up (`raises_of_step`). Everything else spares the shape, which follows
the evaluator's own runs, the builtin operations and the special forms one by one.
-/

namespace SlotLisp

/-! ## Other failures -/

/-- Whatever the run fails with, it is not a shape. -/
def Run.SparesShape {α : Type} (act : Run α) : Prop :=
  ∀ (st : Store) (e : Error) (st' : Store), act st = .error e st' → e.problem.isShape = false

namespace Run

variable {α β : Type}

theorem sparesShape_of_succeeds {act : Run α} (h : ∀ st, ∃ a st', act st = .ok a st') :
    act.SparesShape := by
  intro st e st' herror
  obtain ⟨a, st'', hok⟩ := h st
  rw [hok] at herror
  cases herror

theorem sparesShape_pure (a : α) : (pure a : Run α).SparesShape :=
  sparesShape_of_succeeds fun st => ⟨a, st, rfl⟩

theorem sparesShape_fail {p : Problem} (h : p.isShape = false) :
    (Run.fail p : Run α).SparesShape := by
  intro st e st' herror
  cases herror
  exact h

theorem SparesShape.bind {act : Run α} {next : α → Run β} (h : act.SparesShape)
    (hnext : ∀ a, (next a).SparesShape) : (act >>= next).SparesShape := by
  intro st e st' herror
  cases hact : act st with
  | ok a st'' =>
    rw [Machine.bind_of_ok hact] at herror
    exact hnext a _ _ _ herror
  | error e' st'' =>
    rw [Machine.bind_of_error hact] at herror
    cases herror
    exact h _ _ _ hact

theorem SparesShape.within {act : Run α} (h : act.SparesShape) (form : Value) :
    (Run.within form act).SparesShape := by
  intro st e st' herror
  cases hact : act st with
  | ok a st'' =>
    rw [Run.within_of_ok form hact] at herror
    cases herror
  | error e' st'' =>
    rw [Run.within_of_error form hact] at herror
    cases herror
    rw [Error.problem_within]
    exact h _ _ _ hact

theorem sparesShape_lookup (env : ScopeId) (name : String) : (Run.lookup env name).SparesShape := by
  intro st e st' herror
  unfold Run.lookup at herror
  split at herror <;> cases herror
  rfl

theorem sparesShape_lookupSlot (env : ScopeId) (name : String) :
    (Run.lookupSlot env name).SparesShape := by
  intro st e st' herror
  unfold Run.lookupSlot at herror
  split at herror <;> cases herror
  rfl

theorem sparesShape_assign (env : ScopeId) (name : String) (v : Value) :
    (Run.assign env name v).SparesShape := by
  intro st e st' herror
  unfold Run.assign at herror
  split at herror <;> cases herror
  rfl

theorem sparesShape_bind (scope : ScopeId) (name : String) (v : Value) :
    (Run.bind scope name v).SparesShape :=
  sparesShape_of_succeeds fun _ => ⟨_, _, rfl⟩

theorem sparesShape_place (v : Value) : (Run.place v).SparesShape :=
  sparesShape_of_succeeds fun _ => ⟨_, _, rfl⟩

theorem sparesShape_bindParameters (scope : ScopeId) (params : Value) (args : List Value) :
    (bindParameters scope params args).SparesShape := by
  fun_induction bindParameters scope params args with
  | case1 _ name _ v _ ih => exact (sparesShape_bind scope name v).bind fun _ => ih
  | case2 => exact sparesShape_fail rfl
  | case3 rest vs =>
    exact (sparesShape_place (Value.ofList vs)).bind fun v => sparesShape_bind scope rest v
  | case4 => exact sparesShape_pure ()

theorem sparesShape_enterClosure (params : Value) (captured : ScopeId) (args : List Value) :
    (enterClosure params captured args).SparesShape := by
  unfold enterClosure
  simp only
  split
  · exact sparesShape_fail rfl
  · have hscope : (Run.newScope (some captured)).SparesShape :=
      sparesShape_of_succeeds fun _ => ⟨_, _, rfl⟩
    exact hscope.bind fun scope => (sparesShape_bindParameters scope params args).bind fun _ =>
      sparesShape_pure scope

theorem sparesShape_lambdaForm {params : Value} (h : HasParameters params) (mark mark' : Option Nat)
    (body : Value) (env : ScopeId) :
    (lambdaForm (.pair mark params (.pair mark' body .nil)) env).SparesShape := by
  obtain ⟨names, rest?, hparams⟩ := h
  have hcheck : checkParameters (.pair mark params (.pair mark' body .nil)) [] params = .ok () :=
    checkParameters_eq_ok_iff.2 ⟨names, rest?, hparams, fun _ _ => List.not_mem_nil⟩
  rw [lambdaForm, hcheck]
  exact sparesShape_of_succeeds fun _ => ⟨_, _, rfl⟩

theorem sparesShape_defunForm {params : Value} (h : HasParameters params)
    (mark mark' mark'' : Option Nat) (name : String) (body : Value) (env : ScopeId) :
    (defunForm (.pair mark (.symbol name) (.pair mark' params (.pair mark'' body .nil)))
      env).SparesShape := by
  refine SparesShape.within ?_ _
  refine ((sparesShape_lambdaForm h none none body env).within _).bind fun v => ?_
  exact sparesShape_bind env name v

theorem sparesShape_builtin [Host] (op : Builtin) (args : List Value) :
    ((Native.builtin op).call args).SparesShape := by
  intro st e st' herror
  obtain ⟨hkind, -⟩ | ⟨hkind | hkind, -⟩ :=
      Builtin.kind_of_run_error (Builtin.run_of_call_error herror) <;>
    simp only [Problem.isShape, show e.problem.kind = _ from hkind]

end Run

namespace Machine

variable {form : SpecialForm} {operands : Value} {es : List Value} {room : Nat}
  {frames : List Frame} {st : Store} {env : ScopeId} {err : Error}

/-- The state has not failed, or not with a shape. -/
def State.Spared (s : State) : Prop := ∀ err, s.control = .failed err → err.problem.isShape = false

theorem spared_settle {act : Run Context} (h : act.SparesShape) :
    (settle room frames (act st)).Spared := by
  intro err herr
  cases hact : act st with
  | ok context st' =>
    rw [hact] at herr
    cases herr
  | error e st' =>
    rw [hact] at herr
    cases herr
    exact h _ _ _ hact

theorem spared_form (e : Value) (env : ScopeId) (room : Nat) (frames : List Frame) (st : Store) :
    State.Spared ⟨.form e env, room, frames, st⟩ := by
  intro err herr
  cases herr

theorem spared_done (context : Context) (room : Nat) (frames : List Frame) (st : Store) :
    State.Spared ⟨.done context, room, frames, st⟩ := by
  intro err herr
  cases herr

theorem spared_failed {p : Problem} (h : p.isShape = false) (context? : Option String) (room : Nat)
    (frames : List Frame) (st : Store) :
    State.Spared ⟨.failed ⟨p, context?⟩, room, frames, st⟩ := by
  intro err herr
  cases herr
  exact h

theorem State.Spared.elim {s : State} (h : s.Spared) (hfailed : s.control = .failed err)
    (hshape : err.problem.isShape = true) : False := by
  rw [h err hfailed] at hshape
  cases hshape

theorem spared_answer {act : Run Value} (h : act.SparesShape) :
    (answer act env room frames st).Spared :=
  spared_settle (h.bind fun _ => Run.sparesShape_pure _)

theorem spared_define (mark mark' : Option Nat) (name : String) (init : Value) :
    (define env room frames st (.pair mark (.symbol name) (.pair mark' init .nil))).Spared := by
  cases init with
  | symbol source =>
    refine spared_settle ((Run.sparesShape_lookupSlot env source).bind fun slot => ?_)
    exact Run.sparesShape_of_succeeds fun _ => ⟨_, _, rfl⟩
  | _ => exact spared_form _ _ _ _ _

theorem spared_sequence (context : Context) :
    (sequence context room frames st operands).Spared := by
  cases operands with
  | pair mark e rest => exact spared_form _ _ _ _ _
  | _ => exact spared_done _ _ _ _

theorem accepts_of_good (hgood : ∀ kind, ¬ BadOperands form es kind) :
    form.arity.Accepts es.length := by
  by_contra hcount
  exact hgood _ (.count hcount)

theorem exists_name_of_good (hform : form ∈ [.define, .assign, .defun]) {first : Value}
    {others : List Value} (hgood : ∀ kind, ¬ BadOperands form (first :: others) kind) :
    ∃ name, first = .symbol name := by
  by_contra hfirst
  exact hgood _ (.nameless hform (not_exists.1 hfirst) others)

variable [Host]

theorem spared_call_closure {mark : Nat} {params body : Value} {captured : ScopeId}
    {args : List Value} :
    (call args (.closure mark params body captured) env room frames st).Spared := by
  unfold call
  simp only
  cases hentered : enterClosure params captured args st with
  | ok scope st' =>
    cases room with
    | zero => exact spared_failed rfl none 0 frames st'
    | succ n => exact spared_form body scope n _ st'
  | error e st' =>
    intro err herr
    cases herr
    exact Run.sparesShape_enterClosure params captured args _ _ _ hentered

theorem spared_block (hlist : operands.toList? = some es)
    (hgood : ∀ kind, ¬ BadOperands .letIn es kind) :
    (block operands env room frames st).Spared := by
  obtain ⟨made, hmade⟩ := letBlock_of_good (Value.elements_of_toList? hlist) hgood
  rw [block, hmade]
  exact spared_call_closure

/-- A special form does not refuse what it has to take. -/
theorem spared_special (hlist : operands.toList? = some es)
    (hgood : ∀ kind, ¬ BadOperands form es kind) :
    (special form operands env room frames st).Spared := by
  have haccepts := accepts_of_good hgood
  -- The number of operands tells what they look like, and with that which clause takes them.
  cases form with
  | quote =>
    obtain ⟨datum, rfl⟩ := List.length_eq_one_iff.1 haccepts
    obtain ⟨mark, rest, rfl, hrest⟩ := Value.toList?_eq_cons_iff.1 hlist
    obtain rfl := Value.toList?_eq_nil_iff.1 hrest
    exact spared_done _ _ _ _
  | define =>
    obtain ⟨first, init, rfl⟩ := List.length_eq_two.1 haccepts
    obtain ⟨name, rfl⟩ := exists_name_of_good (by simp) hgood
    obtain ⟨mark, mark', rfl⟩ := Value.toList?_eq_two_iff.1 hlist
    exact spared_define mark mark' name init
  | assign =>
    obtain ⟨first, e, rfl⟩ := List.length_eq_two.1 haccepts
    obtain ⟨name, rfl⟩ := exists_name_of_good (by simp) hgood
    obtain ⟨mark, mark', rfl⟩ := Value.toList?_eq_two_iff.1 hlist
    exact spared_form _ _ _ _ _
  | letIn => exact spared_block hlist hgood
  | lambda =>
    obtain ⟨params, body, rfl⟩ := List.length_eq_two.1 haccepts
    obtain ⟨mark, mark', rfl⟩ := Value.toList?_eq_two_iff.1 hlist
    have hparams : HasParameters params := by
      by_contra hnot
      exact hgood _ (.lambdaParameters hnot body)
    exact spared_answer (Run.sparesShape_lambdaForm hparams mark mark' body env)
  | defun =>
    obtain ⟨first, params, body, rfl⟩ := List.length_eq_three.1 haccepts
    obtain ⟨name, rfl⟩ := exists_name_of_good (by simp) hgood
    obtain ⟨mark, rest, rfl, hrest⟩ := Value.toList?_eq_cons_iff.1 hlist
    obtain ⟨mark', mark'', rfl⟩ := Value.toList?_eq_two_iff.1 hrest
    have hparams : HasParameters params := by
      by_contra hnot
      exact hgood _ (.defunParameters hnot _ body)
    exact spared_answer ((Run.sparesShape_defunForm hparams mark mark' mark'' name body env).bind
      fun _ => Run.sparesShape_pure _)
  | begin => exact spared_sequence _
  | branch =>
    have hlength : es.length = 2 ∨ es.length = 3 := by
      obtain ⟨hmin, hmax⟩ : 2 ≤ es.length ∧ es.length ≤ 3 := haccepts
      omega
    obtain htwo | hthree := hlength
    · obtain ⟨condition, consequent, rfl⟩ := List.length_eq_two.1 htwo
      obtain ⟨mark, mark', rfl⟩ := Value.toList?_eq_two_iff.1 hlist
      exact spared_form _ _ _ _ _
    · obtain ⟨condition, consequent, alternative, rfl⟩ := List.length_eq_three.1 hthree
      obtain ⟨mark, rest, rfl, hrest⟩ := Value.toList?_eq_cons_iff.1 hlist
      obtain ⟨mark', mark'', rfl⟩ := Value.toList?_eq_two_iff.1 hrest
      exact spared_form _ _ _ _ _

/-- What is no ill-shaped form is not refused for a shape. -/
theorem spared_step_form {e : Value} (hgood : ∀ kind, ¬ IllShaped e kind) {t : State}
    (h : State.step ⟨.form e env, room, frames, st⟩ = .inl t) : t.Spared := by
  cases e with
  | symbol name =>
    obtain rfl := Sum.inl.inj h
    exact spared_answer (Run.sparesShape_lookup env name)
  | pair mark head operands =>
    obtain rfl := Sum.inl.inj h
    cases hhead : head.symbol?.bind SpecialForm.named? with
    | none =>
      cases hproper : operands.isProper with
      | false =>
        refine absurd (.argumentsNotList (fun form hform => ?_) mark hproper) (hgood _)
        rw [recognised_iff.2 hform] at hhead
        cases hhead
      | true =>
        simp only [combination, hhead, hproper]
        exact spared_form _ _ _ _ _
    | some form =>
      obtain rfl := recognised_iff.1 hhead
      cases hproper : operands.isProper with
      | false => exact absurd (.operandsNotList form mark hproper) (hgood _)
      | true =>
        have hlist : operands.toList? = some operands.elements := by
          rw [Value.toList?, if_pos hproper]
        have hgood' : ∀ kind, ¬ BadOperands form operands.elements kind :=
          fun kind hbad => hgood kind (.operands mark hlist hbad)
        rw [combination_of_ok (checkOperands_of_accepts hlist (accepts_of_good hgood'))]
        exact spared_special hlist hgood'
  | _ =>
    obtain rfl := Sum.inl.inj h
    exact spared_done _ _ _ _

/-! ## Where such an error comes from -/

/-- The states in which a native function is called next: the head of a call without operands, or
the last operand, has come to its value. -/
inductive State.CallsNative (f : Native) : List Value → State → Prop
  | bare {context : Context} {room : Nat} {operands : Value} {frames : List Frame} {st : Store}
      (hvalue : context.value = .native f) (hlast : operands.elements = []) :
      CallsNative f [] ⟨.done context, room, .callee operands :: frames, st⟩
  | last {context : Context} {room : Nat} {rest : Value} {args : List Value} {frames : List Frame}
      {st : Store} (hlast : rest.elements = []) :
      CallsNative f (context.value :: args).reverse
        ⟨.done context, room, .argument (.native f) rest args :: frames, st⟩

/-- In these states the transition is what the native function does. -/
theorem step_of_callsNative {f : Native} {args : List Value} {s : State}
    (h : s.CallsNative f args) : ∃ env room frames,
      s.step = .inl (answer (f.call args) env room frames s.store) := by
  cases h with
  | @bare context room operands frames st hvalue hlast =>
    refine ⟨context.env, room, frames, ?_⟩
    cases operands with
    | pair mark e rest => simp at hlast
    | _ =>
      rw [State.step]
      show Sum.inl (call [] context.value context.env room frames st) = _
      rw [hvalue]
      rfl
  | @last context room rest args frames st hlast =>
    refine ⟨context.env, room, frames, ?_⟩
    cases rest with
    | pair mark e rest => simp at hlast
    | _ => rfl

/-- An ill-shaped form is taken up, or a function of the host makes the problem up. -/
inductive State.Raises : Problem → State → Prop
  | form {problem : Problem} {e : Value} {env : ScopeId} {room : Nat} {frames : List Frame}
      {st : Store} (hill : IllShaped e problem.kind) :
      Raises problem ⟨.form e env, room, frames, st⟩
  | host {name key : String} {args : List Value} {s : State} {e : Error} {st' : Store}
      (hcalls : s.CallsNative (.host name key) args)
      (hfails : Host.call key args s.store = .error e st') : Raises e.problem s

theorem host_of_call {args : List Value} {callee : Value}
    (hfailed : (call args callee env room frames st).control = .failed err)
    (hshape : err.problem.isShape = true) :
    ∃ name key st', callee = .native (.host name key) ∧
      Host.call key args st = .error err st' := by
  cases callee with
  | closure mark params body captured => exact (spared_call_closure.elim hfailed hshape).elim
  | native f =>
    cases f with
    | builtin op =>
      exact ((spared_answer (Run.sparesShape_builtin op args)).elim hfailed hshape).elim
    | host name key =>
      cases hcall : Host.call key args st with
      | ok v st' =>
        have hplace : (Native.host name key).call args st = Run.place v st' := bind_of_ok hcall
        rw [call, answer, bind_of_ok (hplace.trans rfl)] at hfailed
        cases hfailed
      | error e st' =>
        have hfails : (Native.host name key).call args st = .error e st' := bind_of_error hcall
        rw [call, answer_of_error hfails] at hfailed
        obtain rfl := Control.failed.inj hfailed
        exact ⟨name, key, st', rfl, hcall⟩
  | _ => exact ((spared_failed rfl _ _ _ _).elim hfailed hshape).elim

/-- A frame makes up no problem of shape, unless it calls a function of the host that does. -/
theorem raises_of_resume {context : Context} {frame : Frame}
    (hfailed : (resume context room frames st frame).control = .failed err)
    (hshape : err.problem.isShape = true) :
    State.Raises err.problem ⟨.done context, room, frame :: frames, st⟩ := by
  cases frame with
  | assign name scope =>
    have hassign : (do Run.assign scope name context.value; return ⟨.nil, scope⟩ :
        Run Context).SparesShape :=
      (Run.sparesShape_assign scope name context.value).bind fun _ => Run.sparesShape_pure _
    exact ((spared_settle hassign).elim hfailed hshape).elim
  | sequence rest => exact ((spared_sequence context).elim hfailed hshape).elim
  | branch consequent alternative? =>
    unfold resume at hfailed
    simp only at hfailed
    split at hfailed
    · cases hfailed
    · cases alternative? <;> cases hfailed
  | callee operands =>
    cases operands with
    | pair mark e rest => cases hfailed
    | _ =>
      obtain ⟨name, key, st', hvalue, hfails⟩ := host_of_call hfailed hshape
      exact .host (.bare hvalue rfl) hfails
  | argument callee rest args =>
    cases rest with
    | pair mark e rest => cases hfailed
    | _ =>
      obtain ⟨name, key, st', rfl, hfails⟩ := host_of_call hfailed hshape
      exact .host (.last rfl) hfails
  | _ => cases hfailed

/-- A problem of shape is there already, or it is raised. -/
theorem raises_of_step {s t : State} (h : s.step = .inl t) (hfailed : t.control = .failed err)
    (hshape : err.problem.isShape = true) :
    (∃ err', s.control = .failed err' ∧ err'.problem = err.problem) ∨ s.Raises err.problem := by
  obtain ⟨control, room, frames, st⟩ := s
  cases control with
  | form e env =>
    right
    by_cases hill : ∃ kind, IllShaped e kind
    · obtain ⟨kind, hill⟩ := hill
      obtain ⟨problem, ⟨-, rfl⟩, hrefuses⟩ := refusesWith_of_illShaped hill
      rw [hrefuses] at h
      obtain rfl := Sum.inl.inj h
      obtain rfl := Control.failed.inj hfailed
      exact .form hill
    · exact ((spared_step_form (not_exists.1 hill) h).elim hfailed hshape).elim
  | done context =>
    right
    cases frames with
    | nil => cases h
    | cons frame frames =>
      obtain rfl := Sum.inl.inj h
      exact raises_of_resume hfailed hshape
  | failed e =>
    left
    cases frames with
    | nil => cases h
    | cons frame frames =>
      obtain ⟨e', room', hproblem, heq⟩ := unwind_eq e room frames st frame
      obtain rfl := Sum.inl.inj h
      rw [heq] at hfailed
      obtain rfl := Control.failed.inj hfailed
      exact ⟨e, rfl, hproblem.symm⟩

/-- A problem that a run ends with was there at its beginning or arose in one of its states, if each
transition either passes such a problem on or has it arise. -/
theorem arises_of_reaches {P : Problem → Prop} {Arises : Problem → State → Prop}
    (harises : ∀ {s t : State} {err : Error}, s.step = .inl t → t.control = .failed err →
      P err.problem →
        (∃ err', s.control = .failed err' ∧ err'.problem = err.problem) ∨ Arises err.problem s)
    {s t : State} (h : Reaches s t) (hfailed : t.control = .failed err) (hp : P err.problem) :
    (∃ err', s.control = .failed err' ∧ err'.problem = err.problem) ∨
      ∃ u, Reaches s u ∧ Arises err.problem u := by
  -- Backwards from the failure, the problem stays there up to the state that it arises in.
  induction h with
  | here s => exact .inl ⟨err, hfailed, rfl⟩
  | @step s t u hstep rest ih =>
    obtain ⟨err', herr', hproblem⟩ | ⟨u, hu, harose⟩ := ih hfailed
    · rw [← hproblem] at hp ⊢
      exact (harises hstep herr' hp).imp_right fun harose => ⟨s, .here s, harose⟩
    · exact .inr ⟨u, .step hstep hu, harose⟩

theorem raises_of_reaches {s t : State} (h : Reaches s t) (hfailed : t.control = .failed err)
    (hshape : err.problem.isShape = true) :
    (∃ err', s.control = .failed err' ∧ err'.problem = err.problem) ∨
      ∃ u, Reaches s u ∧ u.Raises err.problem :=
  arises_of_reaches (P := fun problem => problem.isShape = true) raises_of_step h hfailed hshape

/-! ## The run of an ill-shaped form -/

section Run

variable {e : Value} {kind : ErrorKind} {problem : Problem}

/-- The machine fails, names the form in vain, and is done. -/
theorem reaches_cases_of_refusesWith (hshape : problem.ShapeOf kind)
    (hrefuses : RefusesWith e problem) {s : State} (h : Reaches (.initial room e env st) s) :
    s = .initial room e env st ∨
      ∃ frames, s = ⟨.failed ⟨problem, none⟩, room, frames, st⟩ := by
  have hunwind : State.step ⟨.failed ⟨problem, none⟩, room, [.within e], st⟩ =
      .inl ⟨.failed ⟨problem, none⟩, room, [], st⟩ := by
    rw [State.step, unwind, hshape.within_eq]
  cases h with
  | here => exact .inl rfl
  | step hstep rest =>
    right
    have hfirst : State.step (.initial room e env st) = _ := hrefuses env room [] st
    rw [hfirst] at hstep
    obtain rfl := Sum.inl.inj hstep
    cases rest with
    | here => exact ⟨_, rfl⟩
    | step hstep rest =>
      rw [hunwind] at hstep
      obtain rfl := Sum.inl.inj hstep
      cases rest with
      | here => exact ⟨_, rfl⟩
      | step hstep => cases hstep

theorem evalWithin_of_refusesWith (hshape : problem.ShapeOf kind)
    (hrefuses : RefusesWith e problem) (room : Nat) (env : ScopeId) (st : Store) :
    evalWithin (room + 1) e env st = .error ⟨problem, none⟩ st := by
  have hreaches := reaches_evalForm room e env [] st
  obtain h | ⟨frames, h⟩ := reaches_cases_of_refusesWith hshape hrefuses hreaches
  · cases hr : evalForm (evalWithin room) e env st <;> rw [hr] at h <;> cases h
  · rw [evalWithin]
    cases hr : evalForm (evalWithin room) e env st with
    | ok context st' =>
      rw [hr] at h
      cases h
    | error err st' =>
      rw [hr] at h
      cases h
      rfl

end Run

end Machine

open Machine

/-- Evaluating an ill-shaped form fails with an error of its kind and leaves the store as it was,
whatever names are bound to and however many calls are in progress: the machine takes up no other
expression and calls no native function. No evaluation fails for a shape otherwise, unless a
function of the host makes the error up. -/
theorem malformed_forms_have_no_effect [Host] :
    (∀ e kind, IllShaped e kind → ∃ problem : Problem, problem.ShapeOf kind ∧ ∀ env st,
      (∀ depth < callLimit, evalWithin (callLimit - depth) e env st = .error ⟨problem, none⟩ st) ∧
      ∀ room s, Reaches (.initial room e env st) s →
        (s = .initial room e env st ∨
          ∃ frames, s = ⟨.failed ⟨problem, none⟩, room, frames, st⟩) ∧
        ∀ f args, ¬ s.CallsNative f args) ∧
    ∀ room e env st err st', evalWithin (room + 1) e env st = .error err st' →
      err.problem.isShape = true →
        ∃ s, Reaches (.initial room e env st) s ∧ s.Raises err.problem := by
  constructor
  · intro e kind h
    obtain ⟨problem, hshape, hrefuses⟩ := refusesWith_of_illShaped h
    refine ⟨problem, hshape, fun env st => ⟨fun depth hdepth => ?_, fun room s hs => ?_⟩⟩
    · obtain ⟨room, hroom⟩ := Nat.exists_eq_add_one_of_ne_zero (Nat.sub_ne_zero_of_lt hdepth)
      rw [hroom]
      exact evalWithin_of_refusesWith hshape hrefuses room env st
    · have hcases := reaches_cases_of_refusesWith hshape hrefuses hs
      refine ⟨hcases, fun f args hcalls => ?_⟩
      obtain rfl | ⟨frames, rfl⟩ := hcases <;> cases hcalls
  · intro room e env st err st' hfails hshape
    have hreaches := reaches_evalForm room e env [] st
    rw [evalWithin] at hfails
    rw [hfails] at hreaches
    refine (raises_of_reaches hreaches rfl hshape).resolve_left ?_
    rintro ⟨err', herr', -⟩
    cases herr'

section

attribute [local instance] Host.empty

/-- `(set! 1 x)` is refused before `x` is looked up, in every store and under every limit. -/
theorem assignment_to_a_number : ∃ problem : Problem, problem.kind = .specialForm ∧
    ∀ depth < callLimit, ∀ env st,
      evalWithin (callLimit - depth) (Value.ofList [.symbol "set!", .int 1, .symbol "x"]) env st =
        .error ⟨problem, none⟩ st := by
  have hbad : BadOperands .assign [.int 1, .symbol "x"] .specialForm :=
    .nameless (by simp) (by simp) [.symbol "x"]
  have hill : IllShaped (Value.ofList [.symbol "set!", .int 1, .symbol "x"]) .specialForm :=
    .operands none rfl hbad
  obtain ⟨problem, ⟨-, hkind⟩, hrefused⟩ := malformed_forms_have_no_effect.1 _ _ hill
  exact ⟨problem, hkind, fun depth hdepth env st => (hrefused env st).1 depth hdepth⟩

end

end SlotLisp
