import SlotLisp.Proofs.Evaluation.Reachable
import SlotLisp.Proofs.Evaluation.Reduction

/-!
# Termination

From every reachable store reduction comes to an end, with the outcome of the evaluator. The
measure is the number of calls that may still be made and, between two calls, the expression; what a
`let` or a `defun` stands for is written out, so that its reduction is seen to come down to parts of
the form itself.
-/

namespace SlotLisp

open Process

/-- With enough steps the process ends from `st`, with the outcome of the run. -/
def Follows {α : Type} (p : Nat → Process (Outcome α)) (act : Run α) (st : Store) : Prop :=
  ∃ least, ∀ steps ≥ least, p steps st = some (ofResult (act st))

section Rules

variable {α β : Type} {p : Nat → Process (Outcome α)} {act : Run α} {st : Store}

theorem follows_ofRun (act : Run α) (st : Store) : Follows (fun _ => ofRun act) act st :=
  ⟨0, fun _ _ => rfl⟩

theorem follows_outcome (o : Outcome α) (st : Store) :
    Follows (fun _ => pure o) (Run.ofOutcome o) st := by
  refine ⟨0, fun _ _ => ?_⟩
  cases o <;> rfl

/-- One step more on the side of the process. -/
theorem Follows.step {q : Nat → Process (Outcome α)} (h : Follows q act st)
    (hstep : ∀ steps, p (steps + 1) = q steps) : Follows p act st := by
  obtain ⟨least, hends⟩ := h
  refine ⟨least + 1, fun steps hsteps => ?_⟩
  obtain ⟨steps, rfl⟩ := Nat.exists_eq_add_of_le' (Nat.le_trans (Nat.le_add_left 1 least) hsteps)
  rw [hstep]
  exact hends steps (Nat.le_of_succ_le_succ hsteps)

theorem bind_of_ends {γ : Type} {p : Process (Outcome α)}
    (h : p st = some (ofResult (act st))) (next : Outcome α → Process γ) :
    (p >>= next) st = next (ofResult (act st)).1 (ofResult (act st)).2 := by
  change Option.bind (p st) _ = _
  rw [h]
  rfl

/-- A process goes on only after a success, as a run does. -/
theorem Follows.andThen (h : Follows p act st) {next : Nat → Outcome α → Process (Outcome β)}
    {next' : α → Run β} (herror : ∀ steps e, next steps (.error e) = pure (.error e))
    (hnext : ∀ a st', act st = .ok a st' →
      Follows (fun steps => next steps (.ok a)) (next' a) st') :
    Follows (fun steps => p steps >>= next steps) (act >>= next') st := by
  obtain ⟨least, hends⟩ := h
  cases hact : act st with
  | ok a st' =>
    obtain ⟨least', hends'⟩ := hnext a st' hact
    refine ⟨max least least', fun steps hsteps => ?_⟩
    dsimp only
    rw [bind_of_ends (hends steps (by omega)), hact, Machine.bind_of_ok hact]
    exact hends' steps (by omega)
  | error e st' =>
    refine ⟨least, fun steps hsteps => ?_⟩
    dsimp only
    rw [bind_of_ends (hends steps hsteps), hact, Machine.bind_of_error hact]
    exact congrFun (herror steps e) st'

theorem Follows.bind [Host] {D : Discipline} {Q : Store → α → Prop} (h : Follows p act st)
    (hkeeps : D.Keeps act st Q) {next : Nat → Outcome α → Process (Outcome β)}
    {next' : α → Run β} (herror : ∀ steps e, next steps (.error e) = pure (.error e))
    (hnext : ∀ a st', D.Inv st' → st.Grows st' → Q st' a →
      Follows (fun steps => next steps (.ok a)) (next' a) st') :
    Follows (fun steps => p steps >>= next steps) (act >>= next') st := by
  obtain ⟨hinv, hgrows, hresult⟩ := hkeeps
  refine h.andThen herror fun a st' hact => ?_
  rw [Run.leaves, hact] at hinv hgrows
  exact hnext a st' hinv hgrows (hresult a st' hact)

theorem Follows.map (h : Follows p act st) (f : α → β) :
    Follows (fun steps => do return (← p steps).map f) (do return f (← act)) st :=
  h.andThen (fun _ _ => rfl) fun _ _ _ => ⟨0, fun _ _ => rfl⟩

theorem Follows.within (h : Follows p act st) (form : Value) :
    Follows (fun steps => do return (← p steps).mapError (·.within form)) (Run.within form act)
      st := by
  obtain ⟨least, hends⟩ := h
  refine ⟨least, fun steps hsteps => ?_⟩
  dsimp only
  rw [bind_of_ends (hends steps hsteps)]
  cases hact : act st with
  | ok a st' => rw [Run.within_of_ok form hact]; rfl
  | error e st' => rw [Run.within_of_error form hact]; rfl

/-- The result of a run may be put into a context before or after a combination is named in its
error. -/
theorem within_map (form : Value) (act : Run α) (f : α → β) :
    Run.within form (do return f (← act)) = (do return f (← Run.within form act)) := by
  funext st
  cases hact : act st with
  | ok a st' => rw [Run.within, Machine.bind_of_ok hact, Machine.bind_of_ok
      (Run.within_of_ok form hact)]; rfl
  | error e st' => rw [Run.within, Machine.bind_of_error hact, Machine.bind_of_error
      (Run.within_of_error form hact)]

end Rules

/-! ## Names -/

section Names

variable {st : Store}

theorem get_bind {α : Type} (next : Store → Process α) : (get >>= next) st = next st st := rfl

theorem locateIn_of_bound {find : Finder} {name : String} {scope : ScopeId} {slot : SlotId}
    (h : (st.bindingsOf scope).find? name = some slot) :
    locateIn find name (some scope) st = some (.ok slot, st) := by
  rw [locateIn, get_bind, h]
  rfl

theorem locateIn_of_unbound {find : Finder} {name : String} {scope : ScopeId}
    (h : (st.bindingsOf scope).find? name = none) :
    locateIn find name (some scope) st = find name (st.parentOf? scope) st := by
  rw [locateIn, get_bind, h]
  rfl

/-- The way outwards ends, because a parent is numbered below its child. -/
theorem follows_locate (h : st.Sound) (name : String) (scope : ScopeId) :
    Follows (fun steps => locate steps name (some scope)) (Run.lookupSlot scope name) st := by
  induction scope using Nat.strongRecOn with
  | ind scope ih =>
    refine Follows.step (q := fun steps => locateIn (locate steps) name (some scope)) ?_
      fun _ => rfl
    have hslot := h.isTree.slotOf?_eq scope name
    cases hfind : (st.bindingsOf scope).find? name with
    | some slot =>
      rw [hfind] at hslot
      refine ⟨0, fun steps _ => ?_⟩
      dsimp only
      rw [locateIn_of_bound hfind, Run.lookupSlot_of_bound hslot]
      rfl
    | none =>
      rw [hfind, Option.none_or] at hslot
      cases hparent : st.parentOf? scope with
      | none =>
        rw [hparent] at hslot
        -- Beyond the outermost scope one step more is taken, to say that there is no slot.
        refine ⟨1, fun steps hsteps => ?_⟩
        obtain ⟨steps, rfl⟩ := Nat.exists_eq_add_of_le' hsteps
        dsimp only
        rw [locateIn_of_unbound hfind, hparent, Run.lookupSlot_of_unbound hslot]
        rfl
      | some parent =>
        rw [hparent] at hslot
        obtain ⟨least, hends⟩ := ih parent (h.parents scope parent hparent)
        refine ⟨least, fun steps hsteps => ?_⟩
        dsimp only
        rw [locateIn_of_unbound hfind, hparent]
        refine (hends steps hsteps).trans ?_
        rw [Run.lookupSlot, Run.lookupSlot, hslot]
        rfl

theorem follows_readName (h : st.Sound) (env : ScopeId) (name : String) :
    Follows (fun steps => readName (locate steps) env name) (Run.lookup env name) st := by
  obtain ⟨least, hends⟩ := follows_locate h name env
  refine ⟨least, fun steps hsteps => ?_⟩
  dsimp only
  rw [readName, bind_of_ends (hends steps hsteps), Run.lookupSlot, Run.lookup, Store.valueOf?]
  cases st.slotOf? env name with
  | none => rfl
  | some slot =>
    simp only [ofResult, get_bind, Option.bind_some]
    cases st.slots[slot]? <;> rfl

theorem follows_shareName (h : st.Sound) (env : ScopeId) (name source : String) :
    Follows (fun steps => shareName (locate steps) env name source)
      (do Run.bindSlot env name (← Run.lookupSlot env source)) st :=
  (follows_locate h source env).andThen (fun _ _ => rfl) fun slot st' _ =>
    follows_ofRun (Run.bindSlot env name slot) st'

theorem follows_writeName (h : st.Sound) (env : ScopeId) (name : String) (v : Value) :
    Follows (fun steps => writeName (locate steps) env name v) (Run.assign env name v) st := by
  obtain ⟨least, hends⟩ := follows_locate h name env
  refine ⟨least, fun steps hsteps => ?_⟩
  dsimp only
  rw [writeName, bind_of_ends (hends steps hsteps), Run.lookupSlot, Run.assign, Store.assign?]
  cases st.slotOf? env name <;> rfl

end Names

/-! ## Combinations -/

section Combinations

variable [Host] {depth : Nat} {st : Store} {operands : Value} {env : ScopeId}

theorem reduce_pair (hdepth : depth < callLimit) (steps : Nat) (mark : Option Nat)
    (head : Value) :
    reduce (steps + 1) depth (.pair mark head operands) env = do
      return (← reduceCombination (locate steps) (reduce steps) depth (.pair mark head operands)
        head operands env).mapError (·.within (.pair mark head operands)) := by
  rw [reduce, reduceIn, if_neg (Nat.not_le.2 hdepth)]

/-- A combination is reduced with one step more than its parts. -/
theorem follows_pair (hdepth : depth < callLimit) {mark : Option Nat} {head : Value}
    {act : Run Context}
    (h : Follows (fun steps => reduceCombination (locate steps) (reduce steps) depth
      (.pair mark head operands) head operands env) act st) :
    Follows (fun steps => reduce steps depth (.pair mark head operands) env)
      (Run.within (.pair mark head operands) act) st :=
  (h.within _).step fun steps => reduce_pair hdepth steps mark head

/-- A special form that is written with as many operands as it takes. -/
theorem follows_written (hdepth : depth < callLimit) (form : SpecialForm) {act : Run Context}
    (hcheck : checkOperands form (.cons (.symbol form.name) operands) operands = .ok ())
    (h : Follows (fun steps => reduceSpecial (locate steps) (reduce steps) depth form operands
      env) act st) :
    Follows (fun steps => reduce steps depth (.cons (.symbol form.name) operands) env)
      (Run.within (.cons (.symbol form.name) operands) act) st := by
  refine follows_pair hdepth ?_
  simp only [reduceCombination, Value.symbol?, Option.bind_some, SpecialForm.named?_name, hcheck]
  exact h

/-- A function as `let` and `defun` write it down. -/
theorem follows_lambda (hdepth : depth < callLimit) (params body : Value) :
    Follows
      (fun steps => reduce steps depth
        (.cons (.symbol SpecialForm.lambda.name) (.ofList [params, body])) env)
      (do return ⟨← Run.within (.cons (.symbol SpecialForm.lambda.name) (.ofList [params, body]))
        (lambdaForm (.ofList [params, body]) env), env⟩) st := by
  rw [← within_map]
  refine follows_written hdepth .lambda rfl ?_
  exact (follows_ofRun (lambdaForm (.ofList [params, body]) env) st).map (Context.mk · env)

/-- The definition of a function, as `defun` writes it down. -/
theorem follows_definition (hdepth : depth < callLimit) (name : String) (params body : Value)
    {lambda : Value}
    (hlambda : lambda = .cons (.symbol SpecialForm.lambda.name) (.ofList [params, body])) :
    Follows (fun steps => reduce steps depth (definitionOf name lambda) env)
      (do
        Run.within (definitionOf name lambda) do
          Run.bind env name (← Run.within lambda (lambdaForm (.ofList [params, body]) env))
        return ⟨.nil, env⟩) st := by
  -- The evaluator binds the closure as it makes it; reduction has it in a context in between.
  have hact : (do
        Run.bind env name (← Run.within lambda (lambdaForm (.ofList [params, body]) env))) =
      (do return ⟨← Run.within lambda (lambdaForm (.ofList [params, body]) env), env⟩ :
        Run Context) >>= fun context => Run.bind env name context.value := by
    simp only [bind_assoc, pure_bind]
  rw [← within_map _ _ fun _ => Context.mk .nil env, definitionOf, Value.ofList,
    Value.ofListTail_cons]
  refine follows_written hdepth .define rfl ?_
  refine Follows.map (p := fun steps => reduceDefine (locate steps) (reduce steps) depth
    (.ofListTail [.symbol name, lambda] .nil) env) ?_ fun _ => Context.mk .nil env
  rw [hact, hlambda]
  exact (follows_lambda hdepth params body).andThen (fun _ _ => rfl)
    fun context st' _ => follows_ofRun (Run.bind env name context.value) st'

/-- What a `defun` stands for is reduced to the definition of a closure. -/
theorem follows_defun (hdepth : depth < callLimit) :
    Follows (fun steps => reduceSpecial (locate steps) (reduce steps) depth .defun operands env)
      (do defunForm operands env; return ⟨.nil, env⟩) st := by
  rw [defunForm.eq_def]
  split
  · exact follows_definition hdepth _ _ _ rfl
  · simp only [reduceSpecial, defunDefinition]
    exact follows_outcome (malformed .defun operands .nameParametersAndBody) st

end Combinations

/-! ## Expressions -/

section Forms

variable [Host] [Host.Lawful] {depth : Nat} {call : Caller} {st : Store} {operands : Value}
  {env : ScopeId}

/-- With `depth` calls pending, reducing a body ends with the outcome of `call`. -/
def FollowsCalls (depth : Nat) (call : Caller) : Prop :=
  ∀ (st : Store) (body : Value) (scope : ScopeId), st.Sound → scope < st.scopes.size →
    Discipline.sound.Expr st body →
      Follows (fun steps => reduce steps depth body scope) (call body scope) st

/-- With `depth` calls pending, reducing `e` ends with the outcome of evaluating it. -/
def FollowsForm (depth : Nat) (call : Caller) (e : Value) : Prop :=
  ∀ (st : Store) (env : ScopeId), st.Sound → env < st.scopes.size →
    Discipline.sound.Expr st e →
      Follows (fun steps => reduce steps depth e env) (evalForm call e env) st

theorem follows_reduceDefine (hkeeps : ∀ e, Discipline.sound.KeepsForm call e)
    (hforms : ∀ e ∈ operands.elements, FollowsForm depth call e)
    (hst : st.Sound) (henv : env < st.scopes.size) (hop : Discipline.sound.Expr st operands) :
    Follows (fun steps => reduceDefine (locate steps) (reduce steps) depth operands env)
      (evalDefine call operands env) st := by
  rw [evalDefine.eq_def]
  split <;> unfold reduceDefine <;> simp only
  · exact follows_shareName hst env _ _
  · rename_i init _
    exact (hforms init (by simp) st env hst henv hop.cdr.car).bind
      (hkeeps init st env hst henv hop.cdr.car) (fun _ _ => rfl)
      fun _ st' _ _ _ => follows_ofRun _ st'
  · exact follows_outcome _ st

theorem follows_reduceAssign (hkeeps : ∀ e, Discipline.sound.KeepsForm call e)
    (hforms : ∀ e ∈ operands.elements, FollowsForm depth call e)
    (hst : st.Sound) (henv : env < st.scopes.size) (hop : Discipline.sound.Expr st operands) :
    Follows (fun steps => reduceAssign (locate steps) (reduce steps) depth operands env)
      (evalAssign call operands env) st := by
  rw [evalAssign.eq_def]
  split <;> unfold reduceAssign <;> simp only
  · rename_i e
    exact (hforms e (by simp) st env hst henv hop.cdr.car).bind
      (hkeeps e st env hst henv hop.cdr.car) (fun _ _ => rfl)
      fun _ _ hst' _ _ => follows_writeName hst' env _ _
  · exact follows_outcome _ st

theorem follows_reduceSequence (hkeeps : ∀ e, Discipline.sound.KeepsForm call e) {es : Value}
    (hforms : ∀ e ∈ es.elements, FollowsForm depth call e) {context : Context}
    (hst : st.Sound) (henv : context.env < st.scopes.size) (hes : Discipline.sound.Expr st es) :
    Follows (fun steps => reduceSequence (reduce steps) depth es context)
      (evalSequence call es context) st := by
  induction es generalizing st context with
  | pair mark e rest _ ih =>
    rw [Value.elements_pair, List.forall_mem_cons] at hforms
    rw [evalSequence]
    unfold reduceSequence
    refine (hforms.1 st _ hst henv hes.car).bind (hkeeps e st _ hst henv hes.car)
      (fun _ _ => rfl) ?_
    intro context' st' hst' hgrows hstays
    have henv' : context'.env < st'.scopes.size :=
      hstays.1 ▸ Discipline.sound.env_mono hgrows henv
    exact ih hforms.2 hst' henv' (hes.cdr.mono hgrows)
  | _ =>
    rw [evalSequence.eq_def]
    exact follows_outcome (.ok context) st

theorem follows_reduceBranch (hkeeps : ∀ e, Discipline.sound.KeepsForm call e)
    (hforms : ∀ e ∈ operands.elements, FollowsForm depth call e)
    (hst : st.Sound) (henv : env < st.scopes.size) (hop : Discipline.sound.Expr st operands) :
    Follows (fun steps => reduceBranch (reduce steps) depth operands env)
      (evalBranch call operands env) st := by
  rw [evalBranch.eq_def]
  split <;> unfold reduceBranch <;> simp only
  · rename_i condition _ consequent
    refine (hforms condition (by simp) st env hst henv hop.car).bind
      (hkeeps condition st env hst henv hop.car) (fun _ _ => rfl) ?_
    rintro ⟨test, env'⟩ st' hst' hgrows ⟨rfl, -⟩
    have henv' := Discipline.sound.env_mono hgrows henv
    simp only
    split
    · exact hforms consequent (by simp) st' env' hst' henv' (hop.cdr.car.mono hgrows)
    · exact follows_outcome (.ok (Context.mk .nil env')) st'
  · rename_i condition _ consequent _ alternative
    refine (hforms condition (by simp) st env hst henv hop.car).bind
      (hkeeps condition st env hst henv hop.car) (fun _ _ => rfl) ?_
    rintro ⟨test, env'⟩ st' hst' hgrows ⟨rfl, -⟩
    have henv' := Discipline.sound.env_mono hgrows henv
    simp only
    split
    · exact hforms consequent (by simp) st' env' hst' henv' (hop.cdr.car.mono hgrows)
    · exact hforms alternative (by simp) st' env' hst' henv' (hop.cdr.cdr.car.mono hgrows)
  · exact follows_outcome _ st

theorem follows_reduceArguments (hkeeps : ∀ e, Discipline.sound.KeepsForm call e) {es : Value}
    (hforms : ∀ e ∈ es.elements, FollowsForm depth call e) {args : List Value}
    (hst : st.Sound) (henv : env < st.scopes.size) (hes : Discipline.sound.Expr st es) :
    Follows (fun steps => reduceArguments (reduce steps) depth es args env)
      (evalArguments call es args env) st := by
  induction es generalizing st args with
  | pair mark e rest _ ih =>
    rw [Value.elements_pair, List.forall_mem_cons] at hforms
    rw [evalArguments]
    unfold reduceArguments
    refine (hforms.1 st env hst henv hes.car).bind (hkeeps e st env hst henv hes.car)
      (fun _ _ => rfl) ?_
    rintro ⟨v, env'⟩ st' hst' hgrows ⟨rfl, -⟩
    exact ih hforms.2 hst' (Discipline.sound.env_mono hgrows henv) (hes.cdr.mono hgrows)
  | _ =>
    rw [evalArguments.eq_def]
    exact follows_outcome (.ok (args.reverse, env)) st

theorem follows_apply (hcall : FollowsCalls (depth + 1) call) {callee : Value}
    {args : List Value} (hst : st.Sound) (hcallee : Discipline.sound.Val st callee)
    (hargs : ∀ v ∈ args, Discipline.sound.Val st v) :
    Follows (fun steps => apply (reduce steps) depth callee args)
      (applyTo call args callee) st := by
  unfold apply
  cases callee with
  | closure mark params body captured =>
    obtain ⟨hclosure, -, hbody⟩ := hcallee
    have hcode : Discipline.sound.Expr st body := ⟨body.symbols_true, hbody⟩
    refine (follows_ofRun _ st).bind (Discipline.keeps_enterClosure hst hclosure hargs)
      (fun _ _ => rfl) ?_
    intro scope st' hst' hgrows hscope
    exact (hcall st' body scope hst' hscope (hcode.mono hgrows)).map Context.value
  | native f => exact follows_ofRun (f.call args) st
  | _ => exact follows_outcome (Outcome.fail (.notCallable _ _)) st

/-- The function that a `let` stands for. -/
theorem keeps_function {block : Value} (hst : st.Sound) (henv : env < st.scopes.size)
    (hcode : Discipline.sound.Expr st block) :
    Discipline.sound.Keeps
      (do return ⟨.closure (← Run.newMark) .nil block env, env⟩ : Run Context) st
      (Discipline.sound.Stays env) := by
  refine (Discipline.keeps_newMark hst).bind fun mark st' hst' hgrows _ => ?_
  have hmade : Store.Made st' .nil block env :=
    ⟨Discipline.sound.env_mono hgrows henv, .nil, rfl⟩
  exact Discipline.keeps_pure hst' ⟨rfl, hmade, trivial, (hcode.mono hgrows).2⟩

/-- The block is larger than the `let` it comes from, but it is the body of a call. -/
theorem follows_blockCall {block : Value} (hdepth : depth < callLimit)
    (hcall : FollowsCalls (depth + 1) call) (hst : st.Sound) (henv : env < st.scopes.size)
    (hcode : Discipline.sound.Expr st block) :
    Follows (fun steps => reduce steps depth (blockCall block) env)
      (do
        return ⟨← Run.within (blockCall block)
          (do applyTo call [] (.closure (← Run.newMark) .nil block env)), env⟩) st := by
  have hact : (do
        return ⟨← (do applyTo call [] (.closure (← Run.newMark) .nil block env)), env⟩ :
          Run Context) =
      (do return ⟨.closure (← Run.newMark) .nil block env, env⟩ : Run Context) >>=
        fun callee => do return ⟨← applyTo call [] callee.value, callee.env⟩ := by
    simp only [bind_assoc, pure_bind]
  have hfunction : Follows
      (fun steps => reduce steps depth
        (.cons (.symbol SpecialForm.lambda.name) (.ofList [.nil, block])) env)
      (do return ⟨.closure (← Run.newMark) .nil block env, env⟩) st :=
    follows_lambda hdepth .nil block
  rw [← within_map, hact]
  refine follows_pair hdepth ?_
  refine hfunction.bind (keeps_function hst henv hcode) (fun _ _ => rfl) ?_
  intro callee st' hst' _ hstays
  exact (follows_apply hcall hst' hstays.2 (by simp)).map (Context.mk · callee.env)

theorem follows_let (hdepth : depth < callLimit) (hcall : FollowsCalls (depth + 1) call)
    (hst : st.Sound) (henv : env < st.scopes.size) (hop : Discipline.sound.Expr st operands) :
    Follows (fun steps => reduceSpecial (locate steps) (reduce steps) depth .letIn operands env)
      (do return ⟨← letForm call operands env, env⟩) st := by
  simp only [reduceSpecial, letForm]
  cases hblock : letBlock operands with
  | error e => exact follows_outcome (.error e) st
  | ok block =>
    simp only [Run.ofOutcome, pure_bind]
    exact follows_blockCall hdepth hcall hst henv (Discipline.expr_letBlock hblock hop)

theorem follows_combination (hdepth : depth < callLimit)
    (hkeeps : ∀ e, Discipline.sound.KeepsForm call e) (hcall : FollowsCalls (depth + 1) call)
    {mark : Option Nat} {head operands : Value} (hhead : FollowsForm depth call head)
    (hforms : ∀ e ∈ operands.elements, FollowsForm depth call e) :
    FollowsForm depth call (.pair mark head operands) := by
  intro st env hst henv he
  have hop : Discipline.sound.Expr st operands := he.cdr
  rw [evalForm]
  refine follows_pair hdepth ?_
  unfold reduceCombination
  cases hform : head.symbol?.bind SpecialForm.named? with
  | some form =>
    simp only
    cases checkOperands form (.pair mark head operands) operands with
    | error e => exact follows_outcome (.error e) st
    | ok _ =>
      cases form with
      | quote => exact (follows_outcome (quoteForm operands) st).map (Context.mk · env)
      | lambda => exact (follows_ofRun (lambdaForm operands env) st).map (Context.mk · env)
      | letIn => exact follows_let hdepth hcall hst henv hop
      | defun => exact follows_defun hdepth
      | define =>
        exact (follows_reduceDefine hkeeps hforms hst henv hop).map fun _ => Context.mk .nil env
      | assign =>
        exact (follows_reduceAssign hkeeps hforms hst henv hop).map fun _ => Context.mk .nil env
      | begin => exact follows_reduceSequence hkeeps hforms hst henv hop
      | branch => exact follows_reduceBranch hkeeps hforms hst henv hop
  | none =>
    simp only
    split
    · exact follows_outcome (Outcome.fail _) st
    · refine (hhead st env hst henv he.car).bind (hkeeps head st env hst henv he.car)
        (fun _ _ => rfl) ?_
      rintro ⟨callee, env'⟩ st' hst' hgrows ⟨rfl, hcallee⟩
      have henv' := Discipline.sound.env_mono hgrows henv
      have hop' := hop.mono hgrows
      refine (follows_reduceArguments hkeeps hforms hst' henv' hop').bind
        (Discipline.keeps_evalArguments (fun e _ => hkeeps e) hst' henv' hop' (by simp))
        (fun _ _ => rfl) ?_
      rintro ⟨args, env''⟩ st'' hst'' hgrows' ⟨hargs, rfl⟩
      exact (follows_apply hcall hst'' (hcallee.mono hgrows') hargs).map (Context.mk · env'')

theorem followsForm (hdepth : depth < callLimit)
    (hkeeps : ∀ e, Discipline.sound.KeepsForm call e) (hcall : FollowsCalls (depth + 1) call)
    (e : Value) : FollowsForm depth call e := by
  induction e using Value.form_induction with
  | combination mark head operands hhead hoperands =>
    exact follows_combination hdepth hkeeps hcall hhead hoperands
  | atom v hv =>
    intro st env hst henv _
    cases v with
    | pair mark a d => exact absurd rfl (hv mark a d)
    | symbol name =>
      rw [evalForm]
      refine ((follows_readName hst env name).map (Context.mk · env)).step fun steps => ?_
      rw [reduce, reduceIn, if_neg (Nat.not_le.2 hdepth)]
    | _ =>
      rw [evalForm.eq_def]
      refine (follows_outcome (.ok (Context.mk _ env)) st).step fun steps => ?_
      rw [reduce, reduceIn.eq_def, if_neg (Nat.not_le.2 hdepth)]

end Forms

section

variable [Host] [Host.Lawful]

/-- The measure is the number of calls that may still be made; within one call it is the
expression. -/
theorem followsCalls_evalWithin (depth : Nat) :
    FollowsCalls depth (evalWithin (callLimit - depth)) := by
  generalize hroom : callLimit - depth = room
  induction room generalizing depth with
  | zero =>
    intro st body scope _ _ _
    refine (follows_outcome (Outcome.fail (.depthLimit callLimit)) st).step fun steps => ?_
    rw [reduce, reduceIn.eq_def, if_pos (Nat.le_of_sub_eq_zero hroom)]
  | succ room ih =>
    intro st body scope hst hscope hbody
    have hdepth : depth < callLimit := by omega
    have hcall : FollowsCalls (depth + 1) (evalWithin room) := ih (depth + 1) (by omega)
    have hkeeps := Discipline.keepsForm (D := .sound) (Discipline.keepsCalls_evalWithin room)
    exact followsForm hdepth hkeeps hcall body st scope hst hscope hbody

theorem follows_eval {st : Store} (hst : st.Sound) {e : Value} {env : ScopeId}
    (henv : env < st.scopes.size) (he : Discipline.sound.Expr st e) :
    Follows (fun steps => reduce steps 0 e env) (eval e env) st := by
  rw [eval_eq_evalWithin]
  exact followsCalls_evalWithin 0 st e env hst henv he

theorem follows_reduceProgram {program : List Value} {st : Store} (hst : st.Sound)
    {context : Context} (henv : context.env < st.scopes.size)
    (hprogram : ∀ datum ∈ program, Discipline.sound.Expr st datum) :
    Follows (fun steps => reduceProgram (reduce steps) program context)
      (evalProgram program context) st := by
  induction program generalizing st context with
  | nil => exact follows_outcome (.ok context) st
  | cons datum rest ih =>
    rw [List.forall_mem_cons] at hprogram
    rw [evalProgram, evalDatum, bind_assoc]
    refine (follows_ofRun (Run.place datum) st).bind (Discipline.keeps_place hst hprogram.1.2)
      (fun _ _ => rfl) ?_
    intro e st' hst' hgrows he
    have henv' := Discipline.sound.env_mono hgrows henv
    have hexpr : Discipline.sound.Expr st' e := ⟨e.symbols_true, he⟩
    refine (follows_eval hst' henv' hexpr).bind (Discipline.keeps_eval e hst' henv' hexpr)
      (fun _ _ => rfl) ?_
    intro context' st'' hst'' hgrows' hstays
    refine ih hst'' (hstays.1 ▸ Discipline.sound.env_mono hgrows' henv') fun x hx => ?_
    exact (hprogram.2 x hx).mono (hgrows.trans hgrows')

end

/-- From a reachable store every look-up, every expression with any number of calls pending, and
every program is reduced to an end, with the outcome of the evaluator. The functions of the host
come to an end, and are asked for nothing else but what every host does. -/
theorem reduction_terminates [Host] [Host.Lawful] {st : Store} {held : List Value}
    (hst : Reachable st held) {env : ScopeId} (henv : env < st.scopes.size) :
    (∀ name, Follows (fun steps => locate steps name (some env)) (Run.lookupSlot env name) st) ∧
    (∀ e, Obtainable held e → ∀ depth,
      Follows (fun steps => reduce steps depth e env) (evalWithin (callLimit - depth) e env) st) ∧
    (∀ e, Obtainable held e → Follows (fun steps => reduce steps 0 e env) (eval e env) st) ∧
    (∀ program, (∀ datum ∈ program, Obtainable held datum) →
      Follows (fun steps => reduceProgram (reduce steps) program ⟨.nil, env⟩)
        (evalProgram program ⟨.nil, env⟩) st) := by
  have hexpr (e : Value) (he : Obtainable held e) : Discipline.sound.Expr st e :=
    (hst.make he).expr List.mem_cons_self
  refine ⟨fun name => follows_locate hst.sound name env, fun e he depth => ?_, fun e he => ?_,
    fun program hprogram => ?_⟩
  · exact followsCalls_evalWithin depth st e env hst.sound henv (hexpr e he)
  · exact follows_eval hst.sound henv (hexpr e he)
  · exact follows_reduceProgram hst.sound henv fun datum hdatum =>
      hexpr datum (hprogram datum hdatum)

/-- A function that calls its argument with that argument. -/
def selfCaller : Value :=
  Value.ofList [.symbol SpecialForm.lambda.name, Value.ofList [.symbol "f"],
    Value.ofList [.symbol "f", .symbol "f"]]

section

attribute [local instance] Host.keeper

/-- Called with itself it goes on calling itself; its reduction ends all the same, and so does that
of a call of the host, which binds a name in the environment it keeps. -/
theorem self_call_terminates :
    let root := (({} : Store).newScope none).2
    (∃ steps result, reduce steps 0 (Value.ofList [selfCaller, selfCaller]) 0 root = some result) ∧
    ∃ steps st, reduce steps 0 (Value.ofList [.native (.host "keep" "kept"), .int 21]) 0 root =
      some (.ok ⟨.nil, 0⟩, st) ∧ st.valueOf? 0 "kept" = some (.int 21) := by
  intro root
  have hroot : Reachable root [] := Reachable.empty.newScope fun _ h => by cases h
  have hcaller : Obtainable [] selfCaller :=
    .cons (.atom trivial) (.cons (.cons (.atom trivial) (.atom trivial))
      (.cons (.cons (.atom trivial) (.cons (.atom trivial) (.atom trivial))) (.atom trivial)))
  have hcall : Obtainable [] (Value.ofList [selfCaller, selfCaller]) :=
    .cons hcaller (.cons hcaller (.atom trivial))
  have hkeep : Obtainable [] (Value.ofList [.native (.host "keep" "kept"), .int 21]) :=
    .cons (.atom trivial) (.cons (.atom trivial) (.atom trivial))
  have henv : (0 : ScopeId) < root.scopes.size := by decide
  obtain ⟨-, -, heval, -⟩ := reduction_terminates hroot henv
  obtain ⟨steps, hends⟩ := heval _ hcall
  obtain ⟨steps', hends'⟩ := heval _ hkeep
  refine ⟨⟨steps, _, hends steps (Nat.le_refl steps)⟩, steps', root.bind 0 "kept" (.int 21), ?_, ?_⟩
  · refine (hends' steps' (Nat.le_refl steps')).trans ?_
    rw [eval_eq_evalWithin]
    rfl
  · rw [Store.valueOf?, Store.slotOf?, Store.chain_eq]
    rfl

end

end SlotLisp
