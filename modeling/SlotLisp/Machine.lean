import SlotLisp.Eval

/-!
# The evaluation machine

The same evaluation as a machine that keeps what is still to be done on a stack of frames, so
that nested calls take space in that stack and nowhere else. `State.step` is one transition.
That it follows the evaluator is shown in `SlotLisp.Machine.Simulation`.
-/

namespace SlotLisp

variable [Host]

namespace Machine

/-- What is to be done with the outcome of the expression in hand. -/
inductive Frame
  /-- Name this combination in an error. -/
  | within (form : Value)
  | define (name : String) (env : ScopeId)
  | assign (name : String) (env : ScopeId)
  | sequence (rest : Value)
  | branch (consequent : Value) (alternative? : Option Value)
  /-- The value is that of the head of a call with these operands. -/
  | callee (operands : Value)
  /-- The value is that of an operand, in front of `rest` and behind `args`, last first. -/
  | argument (callee rest : Value) (args : List Value)
  /-- The value is that of a body called from `env`. -/
  | body (env : ScopeId)

inductive Control
  | form (e : Value) (env : ScopeId)
  | done (context : Context)
  | failed (e : Error)

structure State where
  control : Control
  /-- The number of calls that may still be nested in the present one. -/
  room : Nat
  frames : List Frame
  store : Store

/-- The state in which a part of the evaluation has come to its outcome. -/
def settle (room : Nat) (frames : List Frame) : EStateM.Result Error Store Context → State
  | .ok context st => ⟨.done context, room, frames, st⟩
  | .error e st => ⟨.failed e, room, frames, st⟩

/-- The outcome of a run that only yields a value. -/
def answer (act : Run Value) (env : ScopeId) (room : Nat) (frames : List Frame) (st : Store) :
    State :=
  settle room frames ((do return ⟨← act, env⟩ : Run Context) st)

/-- Goes into a body in its scope, if there is room for one more call. -/
def enter (body : Value) (scope env : ScopeId) (room : Nat) (frames : List Frame) (st : Store) :
    State :=
  match room with
  | 0 => ⟨.failed ⟨.depthLimit callLimit, none⟩, 0, frames, st⟩
  | n + 1 => ⟨.form body scope, n, .body env :: frames, st⟩

def call (args : List Value) (callee : Value) (env : ScopeId) (room : Nat) (frames : List Frame)
    (st : Store) : State :=
  match callee with
  | .closure _ params body captured =>
    match enterClosure params captured args st with
    | .ok scope st => enter body scope env room frames st
    | .error e st => ⟨.failed e, room, frames, st⟩
  | .native f => answer (f.call args) env room frames st
  | v => ⟨.failed ⟨.notCallable v.typeName v.text, none⟩, room, frames, st⟩

def arguments (callee : Value) (args : List Value) (env : ScopeId) (room : Nat)
    (frames : List Frame) (st : Store) : Value → State
  | .pair _ e rest => ⟨.form e env, room, .argument callee rest args :: frames, st⟩
  | _ => call args.reverse callee env room frames st

def sequence (context : Context) (room : Nat) (frames : List Frame) (st : Store) : Value → State
  | .pair _ e rest => ⟨.form e context.env, room, .sequence rest :: frames, st⟩
  | _ => ⟨.done context, room, frames, st⟩

def define (env : ScopeId) (room : Nat) (frames : List Frame) (st : Store) : Value → State
  | .pair _ (.symbol name) (.pair _ (.symbol source) .nil) =>
    settle room frames
      ((do Run.bindSlot env name (← Run.lookupSlot env source); return ⟨.nil, env⟩ : Run Context)
        st)
  | .pair _ (.symbol name) (.pair _ init .nil) =>
    ⟨.form init env, room, .define name env :: frames, st⟩
  | operands => answer (Run.ofOutcome (malformed .define operands .symbolAndExpression)) env room
      frames st

def assign (env : ScopeId) (room : Nat) (frames : List Frame) (st : Store) : Value → State
  | .pair _ (.symbol name) (.pair _ e .nil) =>
    ⟨.form e env, room, .assign name env :: frames, st⟩
  | operands => answer (Run.ofOutcome (malformed .assign operands .symbolAndExpression)) env room
      frames st

def branch (env : ScopeId) (room : Nat) (frames : List Frame) (st : Store) : Value → State
  | .pair _ condition (.pair _ consequent .nil) =>
    ⟨.form condition env, room, .branch consequent none :: frames, st⟩
  | .pair _ condition (.pair _ consequent (.pair _ alternative .nil)) =>
    ⟨.form condition env, room, .branch consequent (some alternative) :: frames, st⟩
  | operands => answer (Run.ofOutcome (malformed .branch operands .conditionAndBranches)) env room
      frames st

def block (operands : Value) (env : ScopeId) (room : Nat) (frames : List Frame) (st : Store) :
    State :=
  match letBlock operands with
  | .ok block =>
    call [] (.closure st.marks .nil block env) env room (.within (blockCall block) :: frames)
      { st with marks := st.marks + 1 }
  | .error e => ⟨.failed e, room, frames, st⟩

/-- Takes up a special form with operands of the right number. -/
def special (form : SpecialForm) (operands : Value) (env : ScopeId) (room : Nat)
    (frames : List Frame) (st : Store) : State :=
  match form with
  | .quote => answer (Run.ofOutcome (quoteForm operands)) env room frames st
  | .lambda => answer (lambdaForm operands env) env room frames st
  | .letIn => block operands env room frames st
  | .defun => answer (do defunForm operands env; return .nil) env room frames st
  | .define => define env room frames st operands
  | .assign => assign env room frames st operands
  | .begin => sequence ⟨.nil, env⟩ room frames st operands
  | .branch => branch env room frames st operands

/-- Takes up a combination. -/
def combination (whole head operands : Value) (env : ScopeId) (room : Nat) (frames : List Frame)
    (st : Store) : State :=
  match head.symbol?.bind SpecialForm.named? with
  | some form =>
    match checkOperands form whole operands with
    | .ok () => special form operands env room frames st
    | .error e => ⟨.failed e, room, frames, st⟩
  | none =>
    if !operands.isProper then ⟨.failed ⟨.argumentsNotList whole.text, none⟩, room, frames, st⟩
    else ⟨.form head env, room, .callee operands :: frames, st⟩

/-- Hands the outcome of an expression to the frame that waits for it. -/
def resume (context : Context) (room : Nat) (frames : List Frame) (st : Store) : Frame → State
  | .within _ => ⟨.done context, room, frames, st⟩
  | .define name env => ⟨.done ⟨.nil, env⟩, room, frames, st.bind env name context.value⟩
  | .assign name env =>
    settle room frames
      ((do Run.assign env name context.value; return ⟨.nil, env⟩ : Run Context) st)
  | .sequence rest => sequence context room frames st rest
  | .branch consequent alternative? =>
    if context.value.isTruthy then ⟨.form consequent context.env, room, frames, st⟩
    else
      match alternative? with
      | some alternative => ⟨.form alternative context.env, room, frames, st⟩
      | none => ⟨.done ⟨.nil, context.env⟩, room, frames, st⟩
  | .callee operands => arguments context.value [] context.env room frames st operands
  | .argument callee rest args =>
    arguments callee (context.value :: args) context.env room frames st rest
  | .body env => ⟨.done ⟨context.value, env⟩, room + 1, frames, st⟩

/-- Hands an error to the next frame, which most pass on as it is. -/
def unwind (e : Error) (room : Nat) (frames : List Frame) (st : Store) : Frame → State
  | .within form => ⟨.failed (e.within form), room, frames, st⟩
  | .body _ => ⟨.failed e, room + 1, frames, st⟩
  | _ => ⟨.failed e, room, frames, st⟩

/-- One transition, or the outcome when no frame is left. -/
def State.step : State → State ⊕ EStateM.Result Error Store Context
  | ⟨.form (.symbol name) env, room, frames, st⟩ =>
    .inl (answer (Run.lookup env name) env room frames st)
  | ⟨.form (.pair mark head operands) env, room, frames, st⟩ =>
    .inl (combination (.pair mark head operands) head operands env room
      (.within (.pair mark head operands) :: frames) st)
  | ⟨.form v env, room, frames, st⟩ => .inl ⟨.done ⟨v, env⟩, room, frames, st⟩
  | ⟨.done context, room, frame :: frames, st⟩ => .inl (resume context room frames st frame)
  | ⟨.failed e, room, frame :: frames, st⟩ => .inl (unwind e room frames st frame)
  | ⟨.done context, _, [], st⟩ => .inr (.ok context st)
  | ⟨.failed e, _, [], st⟩ => .inr (.error e st)

/-- The machine gets from one state to another. -/
inductive Reaches : State → State → Prop
  | here (s : State) : Reaches s s
  | step {s t u : State} (h : s.step = .inl t) (rest : Reaches t u) : Reaches s u

theorem Reaches.trans {s t u : State} (h : Reaches s t) (h' : Reaches t u) : Reaches s u := by
  induction h with
  | here => exact h'
  | step hs _ ih => exact .step hs (ih h')

theorem Reaches.one {s t : State} (h : s.step = .inl t) : Reaches s t := .step h (.here t)

end Machine

end SlotLisp
