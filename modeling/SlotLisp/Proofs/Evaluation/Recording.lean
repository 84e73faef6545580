import SlotLisp.Proofs.Evaluation.Block

/-!
# Evaluation that records where errors are raised

The evaluator once more, told at each step which combination is the innermost one that is being
evaluated. An error is raised as it is, with this combination beside it, and no combination further
out gets to see it.
-/

namespace SlotLisp

/-- An error as it is raised, and the innermost combination that is being evaluated then. -/
structure Raised where
  error : Error
  form? : Option Value

/-- Runs that are told the innermost combination that is being evaluated. -/
abbrev Recording := ReaderT (Option Value) (EStateM Raised Store)

namespace Recording

variable {α : Type}

/-- A run that evaluates no combination itself. -/
def raising (act : Run α) : Recording α := fun form? st =>
  match act st with
  | .ok a st => .ok a st
  | .error e st => .error ⟨e, form?⟩ st

/-- The evaluation of the combination `form`. -/
def during (form : Value) (act : Recording α) : Recording α := fun _ => act (some form)

end Recording

open Recording

/-- The means to evaluate the body of a closure in a scope of its own. -/
abbrev Recorder := Value → ScopeId → Recording Context

variable [Host]

def recordCall (call : Recorder) (args : List Value) : Value → Recording Value
  | .native f => raising (f.call args)
  | .closure _ params body captured => do
    let scope ← raising (enterClosure params captured args)
    return (← call body scope).value
  | v => raising (Run.fail (.notCallable v.typeName v.text))

/-- The definition that a `defun` stands for is a combination of its own, and so is the `lambda` in
it. -/
def recordDefun (operands : Value) (env : ScopeId) : Recording Unit :=
  match operands with
  | .pair _ (.symbol name) (.pair _ params (.pair _ body .nil)) =>
    let closure := Value.ofList [params, body]
    let lambda := Value.cons (.symbol SpecialForm.lambda.name) closure
    during (definitionOf name lambda) do
      let v ← during lambda (raising (lambdaForm closure env))
      raising (Run.bind env name v)
  | _ => raising (Run.ofOutcome (malformed .defun operands .nameParametersAndBody))

/-- The call that a `let` stands for is a combination of its own. -/
def recordLet (call : Recorder) (operands : Value) (env : ScopeId) : Recording Value := do
  let block ← raising (Run.ofOutcome (letBlock operands))
  during (blockCall block) do
    let mark ← raising Run.newMark
    recordCall call [] (.closure mark .nil block env)

mutual

def recordForm (call : Recorder) : Value → ScopeId → Recording Context
  | .symbol name, env => do return ⟨← raising (Run.lookup env name), env⟩
  | .pair mark head operands, env =>
    during (.pair mark head operands) <|
      match head.symbol?.bind SpecialForm.named? with
      | some form => do
        raising (Run.ofOutcome (checkOperands form (.pair mark head operands) operands))
        match form with
        | .quote => return ⟨← raising (Run.ofOutcome (quoteForm operands)), env⟩
        | .lambda => return ⟨← raising (lambdaForm operands env), env⟩
        | .letIn => return ⟨← recordLet call operands env, env⟩
        | .defun => recordDefun operands env; return ⟨.nil, env⟩
        | .define => recordDefine call operands env; return ⟨.nil, env⟩
        | .assign => recordAssign call operands env; return ⟨.nil, env⟩
        | .begin => recordSequence call operands ⟨.nil, env⟩
        | .branch => recordBranch call operands env
      | none => do
        if !operands.isProper then
          raising (Run.fail (.argumentsNotList (Value.pair mark head operands).text))
        else
          let callee ← recordForm call head env
          let (args, env) ← recordArguments call operands [] callee.env
          return ⟨← recordCall call args callee.value, env⟩
  | v, env => return ⟨v, env⟩

def recordDefine (call : Recorder) : Value → ScopeId → Recording Unit
  | .pair _ (.symbol name) (.pair _ (.symbol source) .nil), env => do
    let slot ← raising (Run.lookupSlot env source)
    raising (Run.bindSlot env name slot)
  | .pair _ (.symbol name) (.pair _ init .nil), env => do
    let context ← recordForm call init env
    raising (Run.bind env name context.value)
  | operands, _ => raising (Run.ofOutcome (malformed .define operands .symbolAndExpression))

def recordAssign (call : Recorder) : Value → ScopeId → Recording Unit
  | .pair _ (.symbol name) (.pair _ e .nil), env => do
    let context ← recordForm call e env
    raising (Run.assign env name context.value)
  | operands, _ => raising (Run.ofOutcome (malformed .assign operands .symbolAndExpression))

def recordSequence (call : Recorder) : Value → Context → Recording Context
  | .pair _ e rest, context => do recordSequence call rest (← recordForm call e context.env)
  | _, context => return context

def recordBranch (call : Recorder) : Value → ScopeId → Recording Context
  | .pair _ condition (.pair _ consequent .nil), env => do
    let test ← recordForm call condition env
    if test.value.isTruthy then recordForm call consequent test.env else return ⟨.nil, test.env⟩
  | .pair _ condition (.pair _ consequent (.pair _ alternative .nil)), env => do
    let test ← recordForm call condition env
    if test.value.isTruthy then recordForm call consequent test.env
    else recordForm call alternative test.env
  | operands, _ => raising (Run.ofOutcome (malformed .branch operands .conditionAndBranches))

def recordArguments (call : Recorder) :
    Value → List Value → ScopeId → Recording (List Value × ScopeId)
  | .pair _ e rest, args, env => do
    let context ← recordForm call e env
    recordArguments call rest (context.value :: args) context.env
  | _, args, env => return (args.reverse, env)

end

/-- An expression for which no call is left is refused before it is evaluated, in the combination
that calls for it. -/
def recordWithin : Nat → Recorder
  | 0 => fun _ _ => raising (Run.fail (.depthLimit callLimit))
  | n + 1 => recordForm (recordWithin n)

end SlotLisp
