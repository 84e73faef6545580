import SlotLisp.Machine

/-!
# The machine follows the evaluator

`reaches_evalForm`: from an expression, with any stack of frames, the machine gets to the state
that hands the evaluator's outcome to that stack. The proof is by induction on the calls that
are still allowed and, inside, on the expression.
-/

namespace SlotLisp.Machine

variable {room : Nat} {frames : List Frame} {st : Store}

theorem bind_of_ok {α β : Type} {x : Run α} {f : α → Run β} {a : α} {st' : Store}
    (h : x st = .ok a st') : (x >>= f) st = f a st' := by
  simp [bind, EStateM.bind, h]

theorem bind_of_error {α β : Type} {x : Run α} {f : α → Run β} {e : Error} {st' : Store}
    (h : x st = .error e st') : (x >>= f) st = .error e st' := by
  simp [bind, EStateM.bind, h]

variable [Host]

/-- The machine evaluates `e` as the evaluator does. -/
def Follows (room : Nat) (e : Value) : Prop :=
  ∀ (env : ScopeId) (frames : List Frame) (st : Store),
    Reaches ⟨.form e env, room, frames, st⟩
      (settle room frames (evalForm (evalWithin room) e env st))

/-- A frame that passes errors on as they are. -/
def Passive (frame : Frame) : Prop :=
  ∀ (e : Error) (room : Nat) (frames : List Frame) (st : Store),
    unwind e room frames st frame = ⟨.failed e, room, frames, st⟩

/-- Evaluating `e` under a passive frame comes to what evaluating it and then resuming the frame
comes to. -/
theorem Follows.under {e : Value} (he : Follows room e) {frame : Frame} (hf : Passive frame)
    {env : ScopeId} {next : Context → Run Context}
    (hnext : ∀ context st', Reaches (resume context room frames st' frame)
      (settle room frames (next context st'))) :
    Reaches ⟨.form e env, room, frame :: frames, st⟩
      (settle room frames ((evalForm (evalWithin room) e env >>= next) st)) := by
  refine (he env (frame :: frames) st).trans ?_
  cases h : evalForm (evalWithin room) e env st with
  | ok context st' =>
    rw [bind_of_ok h]
    exact .step rfl (hnext context st')
  | error err st' =>
    rw [bind_of_error h]
    exact .one (congrArg Sum.inl (hf err room frames st'))

theorem reaches_within {s : State} {form : Value} {act : Run Context}
    (h : Reaches s (settle room (.within form :: frames) (act st))) :
    Reaches s (settle room frames (Run.within form act st)) := by
  refine h.trans ?_
  unfold Run.within
  cases act st with
  | ok context st' => exact .one rfl
  | error e st' => exact .one rfl

/-- Going into a body comes to what the evaluator's call does. -/
theorem reaches_enter (ih : ∀ n, room = n + 1 → ∀ e, Follows n e) (body : Value)
    (scope env : ScopeId) :
    Reaches (enter body scope env room frames st)
      (settle room frames
        ((do return ⟨(← evalWithin room body scope).value, env⟩ : Run Context) st)) := by
  cases room with
  | zero => exact .here _
  | succ n =>
    refine (ih n rfl body scope (.body env :: frames) st).trans ?_
    rw [evalWithin]
    cases h : evalForm (evalWithin n) body scope st with
    | ok context st' =>
      rw [bind_of_ok h]
      exact .one rfl
    | error e st' =>
      rw [bind_of_error h]
      exact .one rfl

theorem reaches_call (ih : ∀ n, room = n + 1 → ∀ e, Follows n e) (args : List Value)
    (callee : Value) (env : ScopeId) :
    Reaches (call args callee env room frames st)
      (settle room frames
        ((do return ⟨← applyTo (evalWithin room) args callee, env⟩ : Run Context) st)) := by
  cases callee with
  | closure mark params body captured =>
    simp only [call, applyTo, bind_assoc]
    cases h : enterClosure params captured args st with
    | ok scope st' =>
      rw [bind_of_ok h]
      simp only [pure_bind]
      exact reaches_enter ih body scope env
    | error e st' =>
      rw [bind_of_error h]
      exact .here _
  | _ => exact .here _

theorem reaches_arguments (ih : ∀ n, room = n + 1 → ∀ e, Follows n e) (callee : Value)
    {operands : Value} (ho : ∀ e ∈ operands.elements, Follows room e) (args : List Value)
    (env : ScopeId) (st : Store) :
    Reaches (arguments callee args env room frames st operands)
      (settle room frames
        ((do
          let (args, env) ← evalArguments (evalWithin room) operands args env
          return ⟨← applyTo (evalWithin room) args callee, env⟩ : Run Context) st)) := by
  induction operands generalizing args env st with
  | pair mark e rest _ ihRest =>
    simp only [Value.elements_pair, List.mem_cons, forall_eq_or_imp] at ho
    rw [evalArguments, bind_assoc]
    exact ho.1.under (fun _ _ _ _ => rfl) fun context st' =>
      ihRest ho.2 (context.value :: args) context.env st'
  | _ =>
    simp only [evalArguments, pure_bind]
    exact reaches_call ih args.reverse callee env

theorem reaches_sequence {es : Value} (hes : ∀ e ∈ es.elements, Follows room e)
    (context : Context) (st : Store) :
    Reaches (sequence context room frames st es)
      (settle room frames (evalSequence (evalWithin room) es context st)) := by
  induction es generalizing context st with
  | pair mark e rest _ ihRest =>
    simp only [Value.elements_pair, List.mem_cons, forall_eq_or_imp] at hes
    rw [evalSequence]
    exact hes.1.under (fun _ _ _ _ => rfl) fun context st' => ihRest hes.2 context st'
  | _ => exact .here _

theorem reaches_define {operands : Value} (ho : ∀ e ∈ operands.elements, Follows room e)
    (env : ScopeId) :
    Reaches (define env room frames st operands)
      (settle room frames
        ((do evalDefine (evalWithin room) operands env; return ⟨.nil, env⟩ : Run Context)
          st)) := by
  unfold define
  split
  · rw [evalDefine, bind_assoc]
    exact .here _
  · rename_i name m init hns
    rw [evalDefine, bind_assoc]
    · exact (ho init (by simp)).under (fun _ _ _ _ => rfl) fun context st' => .here _
    · exact hns
  · rename_i h1 h2
    rw [evalDefine]
    · exact .here _
    · exact h1
    · exact h2

theorem reaches_assign {operands : Value} (ho : ∀ e ∈ operands.elements, Follows room e)
    (env : ScopeId) :
    Reaches (assign env room frames st operands)
      (settle room frames
        ((do evalAssign (evalWithin room) operands env; return ⟨.nil, env⟩ : Run Context)
          st)) := by
  unfold assign
  split
  · rename_i e
    rw [evalAssign, bind_assoc]
    exact (ho e (by simp)).under (fun _ _ _ _ => rfl) fun context st' => .here _
  · rename_i h
    rw [evalAssign]
    · exact .here _
    · exact h

theorem reaches_branch {operands : Value} (ho : ∀ e ∈ operands.elements, Follows room e)
    (env : ScopeId) :
    Reaches (branch env room frames st operands)
      (settle room frames (evalBranch (evalWithin room) operands env st)) := by
  unfold branch
  split
  · rename_i condition m consequent
    rw [evalBranch]
    refine (ho condition (by simp)).under (fun _ _ _ _ => rfl) fun context st' => ?_
    simp only [resume]
    split
    · exact ho consequent (by simp) context.env frames st'
    · exact .here _
  · rename_i condition m consequent m' alternative
    rw [evalBranch]
    refine (ho condition (by simp)).under (fun _ _ _ _ => rfl) fun context st' => ?_
    simp only [resume]
    split
    · exact ho consequent (by simp) context.env frames st'
    · exact ho alternative (by simp) context.env frames st'
  · rename_i h1 h2
    rw [evalBranch]
    · exact .here _
    · exact h1
    · exact h2

theorem reaches_block (ih : ∀ n, room = n + 1 → ∀ e, Follows n e) (operands : Value)
    (env : ScopeId) :
    Reaches (block operands env room frames st)
      (settle room frames
        ((do return ⟨← letForm (evalWithin room) operands env, env⟩ : Run Context) st)) := by
  unfold block letForm
  cases letBlock operands with
  | error e => exact .here _
  | ok block =>
    simp only [Run.ofOutcome, pure_bind]
    have hmark : Run.newMark st = .ok st.marks { st with marks := st.marks + 1 } := rfl
    refine (reaches_call ih [] (.closure st.marks .nil block env) env).trans ?_
    cases h : applyTo (evalWithin room) [] (.closure st.marks .nil block env)
        { st with marks := st.marks + 1 } with
    | ok v st' =>
      have hw : Run.within (blockCall block)
          (do applyTo (evalWithin room) [] (.closure (← Run.newMark) .nil block env)) st =
            .ok v st' := by
        rw [Run.within, bind_of_ok hmark, h]
      rw [bind_of_ok h, bind_of_ok hw]
      exact .one rfl
    | error e st' =>
      have hw : Run.within (blockCall block)
          (do applyTo (evalWithin room) [] (.closure (← Run.newMark) .nil block env)) st =
            .error (e.within (blockCall block)) st' := by
        rw [Run.within, bind_of_ok hmark, h]
      rw [bind_of_error h, bind_of_error hw]
      exact .one rfl

theorem follows_pair (ih : ∀ n, room = n + 1 → ∀ e, Follows n e) {mark : Option Nat}
    {head operands : Value} (hh : Follows room head)
    (ho : ∀ e ∈ operands.elements, Follows room e) : Follows room (.pair mark head operands) := by
  intro env frames st
  rw [evalForm]
  refine .step rfl (reaches_within ?_)
  unfold combination
  cases head.symbol?.bind SpecialForm.named? with
  | some form =>
    simp only
    cases hc : checkOperands form (.pair mark head operands) operands with
    | error e => exact .here _
    | ok _ =>
      cases form with
      | quote => exact .here _
      | lambda => exact .here _
      | letIn => exact reaches_block ih operands env
      | defun =>
        simp only [special, answer, bind_assoc, pure_bind]
        exact .here _
      | define => exact reaches_define ho env
      | assign => exact reaches_assign ho env
      | begin => exact reaches_sequence ho ⟨.nil, env⟩ st
      | branch => exact reaches_branch ho env
  | none =>
    simp only
    split
    · exact .here _
    · exact hh.under (fun _ _ _ _ => rfl) fun context st' =>
        reaches_arguments ih context.value ho [] context.env st'

theorem follows_of_body (ih : ∀ n, room = n + 1 → ∀ e, Follows n e) (e : Value) :
    Follows room e := by
  induction e using Value.form_induction with
  | combination mark head operands hhead hoperands => exact follows_pair ih hhead hoperands
  | atom v hv =>
    intro env frames st
    cases v with
    | pair mark a d => exact absurd rfl (hv mark a d)
    | _ => exact .one rfl

theorem follows (room : Nat) (e : Value) : Follows room e := by
  induction room generalizing e with
  | zero => exact follows_of_body (fun n h => by cases h) e
  | succ n ih => exact follows_of_body (fun m h => by cases h; exact ih) e

theorem reaches_evalForm (room : Nat) (e : Value) (env : ScopeId) (frames : List Frame)
    (st : Store) :
    Reaches ⟨.form e env, room, frames, st⟩
      (settle room frames (evalForm (evalWithin room) e env st)) :=
  follows room e env frames st

end SlotLisp.Machine
