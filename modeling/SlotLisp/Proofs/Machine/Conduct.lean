import SlotLisp.Proofs.Evaluation.Discipline

/-!
# Every state of a run

A `Discipline` says what evaluation keeps from its beginning to its end. The machine keeps it at
each step between them too: whatever a state still has in hand, the expression or value in control
and what waits in its frames, keeps to the discipline in the store of that state
(`keeps_of_reaches`).
-/

namespace SlotLisp

variable [Host]

namespace Machine

/-- A result that may be used, with an environment that code may run in. -/
def Usable (D : Discipline) (st : Store) (context : Context) : Prop :=
  D.Env st context.env ∧ D.Val st context.value

def Control.Keeps (D : Discipline) (st : Store) : Control → Prop
  | .form e env => D.Env st env ∧ D.Expr st e
  | .done context => Usable D st context
  | .failed _ => True

def Frame.Keeps (D : Discipline) (st : Store) : Frame → Prop
  | .within form => D.Val st form
  | .define _ env => D.Env st env
  | .assign _ env => D.Env st env ∧ D.Sym SpecialForm.assign.name
  | .sequence rest => D.Expr st rest
  | .branch consequent alternative? =>
    D.Expr st consequent ∧ ∀ alternative, alternative? = some alternative → D.Expr st alternative
  | .callee operands => D.Expr st operands
  | .argument f rest args =>
    D.Val st f ∧ D.Expr st rest ∧ ∀ v ∈ args, D.Val st v
  | .body env => D.Env st env

structure State.Keeps (D : Discipline) (s : State) : Prop where
  inv : D.Inv s.store
  control : s.control.Keeps D s.store
  frames : ∀ frame ∈ s.frames, frame.Keeps D s.store

section

variable {D : Discipline} {room : Nat} {frames : List Frame} {st st' : Store} {env : ScopeId}

theorem Frame.Keeps.mono (h : st.Grows st') {frame : Frame} (hframe : frame.Keeps D st) :
    frame.Keeps D st' := by
  cases frame with
  | within form => exact Discipline.Val.mono h hframe
  | define name scope | body scope => exact D.env_mono h (show D.Env st scope from hframe)
  | assign name env => exact ⟨D.env_mono h hframe.1, hframe.2⟩
  | sequence operands | callee operands => exact Discipline.Expr.mono h hframe
  | branch consequent alternative? =>
    exact ⟨hframe.1.mono h, fun alternative ha => (hframe.2 alternative ha).mono h⟩
  | argument f rest args =>
    exact ⟨hframe.1.mono h, hframe.2.1.mono h, fun v hv => (hframe.2.2 v hv).mono h⟩

theorem keeps_cons (frame : Frame) (hframe : frame.Keeps D st)
    (hframes : ∀ frame ∈ frames, frame.Keeps D st) :
    ∀ f ∈ frame :: frames, f.Keeps D st :=
  List.forall_mem_cons.2 ⟨hframe, hframes⟩

theorem frames_mono (h : st.Grows st') (hframes : ∀ frame ∈ frames, frame.Keeps D st) :
    ∀ frame ∈ frames, frame.Keeps D st' := fun frame hframe => (hframes frame hframe).mono h

theorem keeps_failed (hinv : D.Inv st) (hframes : ∀ frame ∈ frames, frame.Keeps D st) (e : Error) :
    State.Keeps D ⟨.failed e, room, frames, st⟩ := ⟨hinv, trivial, hframes⟩

/-! ## What the machine leaves to the evaluator -/

theorem keeps_settle {act : Run Context} (hact : D.Keeps act st (Usable D))
    (hframes : ∀ frame ∈ frames, frame.Keeps D st) :
    (settle room frames (act st)).Keeps D := by
  obtain ⟨hinv, hgrows, hresult⟩ := hact
  cases hrun : act st with
  | ok context st' =>
    simp only [Run.leaves, hrun] at hinv hgrows
    exact ⟨hinv, hresult context st' hrun, frames_mono hgrows hframes⟩
  | error e st' =>
    simp only [Run.leaves, hrun] at hinv hgrows
    exact ⟨hinv, trivial, frames_mono hgrows hframes⟩

theorem keeps_answer {act : Run Value} (hact : D.Keeps act st D.Val) (henv : D.Env st env)
    (hframes : ∀ frame ∈ frames, frame.Keeps D st) :
    (answer act env room frames st).Keeps D := by
  have hcontext : D.Keeps (do return ⟨← act, env⟩) st (Usable D) :=
    Discipline.Keeps.bind (hact.mono fun _ _ hgrows hv => ⟨D.env_mono hgrows henv, hv⟩)
      fun _ _ hinv _ hv => Discipline.keeps_pure hinv hv
  exact keeps_settle hcontext hframes

/-! ## One step -/

theorem keeps_enter {body : Value} {scope : ScopeId} (hinv : D.Inv st) (henv : D.Env st env)
    (hscope : D.Env st scope) (hbody : D.Expr st body)
    (hframes : ∀ frame ∈ frames, frame.Keeps D st) :
    (enter body scope env room frames st).Keeps D := by
  cases room with
  | zero => exact keeps_failed hinv hframes _
  | succ room => exact ⟨hinv, ⟨hscope, hbody⟩, keeps_cons (.body env) henv hframes⟩

theorem keeps_call {args : List Value} {callee : Value} (hinv : D.Inv st) (henv : D.Env st env)
    (hcallee : D.Val st callee) (hargs : ∀ v ∈ args, D.Val st v)
    (hframes : ∀ frame ∈ frames, frame.Keeps D st) :
    (call args callee env room frames st).Keeps D := by
  cases callee with
  | closure mark params body captured =>
    obtain ⟨hclosure, -, hbody⟩ := hcallee
    have hcode : D.Expr st body := ⟨D.code hclosure, hbody⟩
    obtain ⟨hinv', hgrows, hresult⟩ := Discipline.keeps_enterClosure hinv hclosure hargs
    simp only [call]
    cases hrun : enterClosure params captured args st with
    | ok scope st' =>
      simp only [Run.leaves, hrun] at hinv' hgrows
      exact keeps_enter hinv' (D.env_mono hgrows henv) (hresult scope st' hrun)
        (hcode.mono hgrows) (frames_mono hgrows hframes)
    | error e st' =>
      simp only [Run.leaves, hrun] at hinv' hgrows
      exact keeps_failed hinv' (frames_mono hgrows hframes) e
  | native f => exact keeps_answer (Discipline.keeps_native hinv hargs) henv hframes
  | _ => exact keeps_failed hinv hframes _

theorem keeps_arguments {callee operands : Value} {args : List Value} (hinv : D.Inv st)
    (henv : D.Env st env) (hcallee : D.Val st callee) (hargs : ∀ v ∈ args, D.Val st v)
    (hop : D.Expr st operands) (hframes : ∀ frame ∈ frames, frame.Keeps D st) :
    (arguments callee args env room frames st operands).Keeps D := by
  cases operands with
  | pair mark e rest =>
    refine ⟨hinv, ⟨henv, hop.car⟩, keeps_cons (.argument callee rest args) ?_ hframes⟩
    exact ⟨hcallee, hop.cdr, hargs⟩
  | _ => exact keeps_call hinv henv hcallee (fun v hv => hargs v (List.mem_reverse.1 hv)) hframes

theorem keeps_sequence {context : Context} {operands : Value} (hinv : D.Inv st)
    (hcontext : Usable D st context) (hop : D.Expr st operands)
    (hframes : ∀ frame ∈ frames, frame.Keeps D st) :
    (sequence context room frames st operands).Keeps D := by
  cases operands with
  | pair mark e rest =>
    exact ⟨hinv, ⟨hcontext.1, hop.car⟩, keeps_cons (.sequence rest) hop.cdr hframes⟩
  | _ => exact ⟨hinv, hcontext, hframes⟩

theorem keeps_define {operands : Value} (hinv : D.Inv st) (henv : D.Env st env)
    (hop : D.Expr st operands) (hframes : ∀ frame ∈ frames, frame.Keeps D st) :
    (define env room frames st operands).Keeps D := by
  unfold define
  split
  · rename_i name _ source
    have hshare : D.Keeps (do
        Run.bindSlot env name (← Run.lookupSlot env source)
        return ⟨.nil, env⟩) st (Usable D) := by
      rw [← bind_assoc]
      exact (Discipline.keeps_share hinv henv).bind fun _ _ hinv' hgrows _ =>
        Discipline.keeps_pure hinv' ⟨D.env_mono hgrows henv, trivial⟩
    exact keeps_settle hshare hframes
  · rename_i name _ init _
    exact ⟨hinv, ⟨henv, hop.cdr.car⟩, keeps_cons (.define name env) henv hframes⟩
  · exact keeps_answer (Discipline.keeps_ofOutcome hinv fun v h => by cases h) henv hframes

theorem keeps_assign {operands : Value} (hsym : D.Sym SpecialForm.assign.name) (hinv : D.Inv st)
    (henv : D.Env st env) (hop : D.Expr st operands)
    (hframes : ∀ frame ∈ frames, frame.Keeps D st) :
    (assign env room frames st operands).Keeps D := by
  unfold assign
  split
  · rename_i name _ e
    exact ⟨hinv, ⟨henv, hop.cdr.car⟩, keeps_cons (.assign name env) ⟨henv, hsym⟩ hframes⟩
  · exact keeps_answer (Discipline.keeps_ofOutcome hinv fun v h => by cases h) henv hframes

theorem keeps_branch {operands : Value} (hinv : D.Inv st) (henv : D.Env st env)
    (hop : D.Expr st operands) (hframes : ∀ frame ∈ frames, frame.Keeps D st) :
    (branch env room frames st operands).Keeps D := by
  unfold branch
  split
  · rename_i condition _ consequent
    refine ⟨hinv, ⟨henv, hop.car⟩, keeps_cons (.branch consequent none) ?_ hframes⟩
    exact ⟨hop.cdr.car, fun _ h => by cases h⟩
  · rename_i condition _ consequent _ alternative
    refine ⟨hinv, ⟨henv, hop.car⟩,
      keeps_cons (.branch consequent (some alternative)) ?_ hframes⟩
    exact ⟨hop.cdr.car, fun _ h => Option.some.inj h ▸ hop.cdr.cdr.car⟩
  · exact keeps_answer (Discipline.keeps_ofOutcome hinv fun v h => by cases h) henv hframes

theorem keeps_block {operands : Value} (hinv : D.Inv st) (henv : D.Env st env)
    (hop : D.Expr st operands) (hframes : ∀ frame ∈ frames, frame.Keeps D st) :
    (block operands env room frames st).Keeps D := by
  unfold block
  split
  · rename_i block hblock
    have hexpr : D.Expr st block := Discipline.expr_letBlock hblock hop
    have hgrows : st.Grows { st with marks := st.marks + 1 } := .of_content rfl rfl
    have henv' := D.env_mono hgrows henv
    have hcheck : checkParameters operands [] .nil = .ok () := rfl
    have hbody := (hexpr.mono hgrows).2
    have hcall : D.Val { st with marks := st.marks + 1 } (blockCall block) :=
      ⟨⟨trivial, trivial, hbody, trivial⟩, trivial⟩
    exact keeps_call (D.content hinv rfl rfl) henv'
      ⟨D.lambda henv' hcheck hexpr.1, trivial, hbody⟩ (by simp)
      (keeps_cons (.within _) hcall (frames_mono hgrows hframes))
  · exact keeps_failed hinv hframes _

theorem keeps_special {form : SpecialForm} {operands : Value} (hsym : D.Sym form.name)
    (hinv : D.Inv st) (henv : D.Env st env) (hop : D.Expr st operands)
    (hframes : ∀ frame ∈ frames, frame.Keeps D st) :
    (special form operands env room frames st).Keeps D := by
  cases form with
  | quote =>
    refine keeps_answer (Discipline.keeps_ofOutcome hinv fun v h => ?_) henv hframes
    unfold quoteForm at h
    split at h
    · exact Except.ok.inj h ▸ hop.car.2
    · cases h
  | lambda => exact keeps_answer (Discipline.keeps_lambdaForm hinv henv hop) henv hframes
  | defun =>
    refine keeps_answer ((Discipline.keeps_defunForm hinv henv hop).bind ?_) henv hframes
    exact fun _ _ hinv' _ _ => Discipline.keeps_pure hinv' trivial
  | letIn => exact keeps_block hinv henv hop hframes
  | define => exact keeps_define hinv henv hop hframes
  | assign => exact keeps_assign hsym hinv henv hop hframes
  | begin => exact keeps_sequence hinv ⟨henv, trivial⟩ hop hframes
  | branch => exact keeps_branch hinv henv hop hframes

theorem keeps_combination {mark : Option Nat} {head operands : Value} (hinv : D.Inv st)
    (henv : D.Env st env) (he : D.Expr st (.pair mark head operands))
    (hframes : ∀ frame ∈ frames, frame.Keeps D st) :
    (combination (.pair mark head operands) head operands env room frames st).Keeps D := by
  unfold combination
  split
  · rename_i form hform
    split
    · exact keeps_special (he.car.1.formName hform) hinv henv he.cdr hframes
    · exact keeps_failed hinv hframes _
  · split
    · exact keeps_failed hinv hframes _
    · exact ⟨hinv, ⟨henv, he.car⟩, keeps_cons (.callee operands) he.cdr hframes⟩

theorem keeps_resume {frame : Frame} {context : Context} (hinv : D.Inv st)
    (hcontext : Usable D st context) (hframe : frame.Keeps D st)
    (hframes : ∀ frame ∈ frames, frame.Keeps D st) :
    (resume context room frames st frame).Keeps D := by
  cases frame with
  | within form => exact ⟨hinv, hcontext, hframes⟩
  | define name env =>
    have hgrows := Store.Grows.bind st env name context.value
    exact ⟨D.bind hinv hframe hcontext.2, ⟨D.env_mono hgrows hframe, trivial⟩,
      frames_mono hgrows hframes⟩
  | assign name env =>
    refine keeps_settle
      ((Discipline.keeps_assign hframe.2 hinv hframe.1 hcontext.2).bind ?_) hframes
    exact fun _ _ hinv' hgrows _ =>
      Discipline.keeps_pure hinv' ⟨D.env_mono hgrows hframe.1, trivial⟩
  | sequence rest => exact keeps_sequence hinv hcontext hframe hframes
  | branch consequent alternative? =>
    simp only [resume]
    split
    · exact ⟨hinv, ⟨hcontext.1, hframe.1⟩, hframes⟩
    · split
      · exact ⟨hinv, ⟨hcontext.1, hframe.2 _ rfl⟩, hframes⟩
      · exact ⟨hinv, ⟨hcontext.1, trivial⟩, hframes⟩
  | callee operands => exact keeps_arguments hinv hcontext.1 hcontext.2 (by simp) hframe hframes
  | argument callee rest args =>
    obtain ⟨hcallee, hrest, hargs⟩ := hframe
    exact keeps_arguments hinv hcontext.1 hcallee (List.forall_mem_cons.2 ⟨hcontext.2, hargs⟩)
      hrest hframes
  | body env => exact ⟨hinv, ⟨hframe, hcontext.2⟩, hframes⟩

theorem keeps_unwind {frame : Frame} (hinv : D.Inv st)
    (hframes : ∀ frame ∈ frames, frame.Keeps D st) (e : Error) :
    (unwind e room frames st frame).Keeps D := by
  cases frame <;> exact keeps_failed hinv hframes _

/-- One transition keeps to the discipline. -/
theorem keeps_step {s t : State} (hs : s.Keeps D) (h : s.step = .inl t) : t.Keeps D := by
  obtain ⟨control, room, frames, st⟩ := s
  obtain ⟨hinv, hcontrol, hframes⟩ := hs
  cases control with
  | form e env =>
    obtain ⟨henv, he⟩ := hcontrol
    cases e with
    | symbol name =>
      obtain rfl := Sum.inl.inj h
      exact keeps_answer (Discipline.keeps_lookup hinv henv) henv hframes
    | pair mark head operands =>
      obtain rfl := Sum.inl.inj h
      exact keeps_combination hinv henv he (keeps_cons (.within _) he.2 hframes)
    | _ =>
      obtain rfl := Sum.inl.inj h
      exact ⟨hinv, ⟨henv, he.2⟩, hframes⟩
  | done context =>
    cases frames with
    | nil => cases h
    | cons frame frames =>
      obtain rfl := Sum.inl.inj h
      rw [List.forall_mem_cons] at hframes
      exact keeps_resume hinv hcontrol hframes.1 hframes.2
  | failed e =>
    cases frames with
    | nil => cases h
    | cons frame frames =>
      obtain rfl := Sum.inl.inj h
      rw [List.forall_mem_cons] at hframes
      exact keeps_unwind hinv hframes.2 e

/-- Every state of a run keeps to the discipline. -/
theorem keeps_of_reaches {s t : State} (hs : s.Keeps D) (h : Reaches s t) : t.Keeps D := by
  induction h with
  | here => exact hs
  | step hstep _ ih => exact ih (keeps_step hs hstep)

end

end Machine

end SlotLisp
