import SlotLisp.Run

/-!
# Evaluation

`evalForm` evaluates an expression, given the means to evaluate the body of a closure one call
further in. `evalWithin n` supplies these means for `n` nested calls. So evaluation is recursion
on the calls that are still allowed and, between two calls, on the expression.

A combination is headed by the name of a special form, or it is a call: the head is evaluated,
then the operands from left to right, each in the environment that the one before it left.
-/

namespace SlotLisp

/-- What an expression evaluates to, and the environment in effect afterwards. -/
structure Context where
  value : Value
  env : ScopeId

/-- The number of nested calls that are allowed. -/
def callLimit : Nat := 10000

/-! ## Calling closures -/

/-- Binds the parameters to the arguments. A symbol behind the last parameter takes the
remaining arguments as a list. -/
def bindParameters (scope : ScopeId) : Value → List Value → Run Unit
  | .pair _ (.symbol name) rest, v :: vs => do
    Run.bind scope name v
    bindParameters scope rest vs
  | .pair _ parameter _, _ :: _ => Run.fail (.parameterNotSymbol parameter.text)
  | .symbol rest, vs => do Run.bind scope rest (← Run.place (Value.ofList vs))
  | _, _ => return

@[simp] theorem bindParameters_nil (scope : ScopeId) (mark : Option Nat) (p rest : Value) :
    bindParameters scope (.pair mark p rest) [] = pure () := by
  cases p <;> rfl

/-- A new scope inside the captured one, with the arguments bound in it. -/
def enterClosure (params : Value) (captured : ScopeId) (args : List Value) : Run ScopeId := do
  let required := params.countFrom 0
  let rest := params.finalTail.symbol?.isSome
  if args.length < required || (!rest && required < args.length) then
    Run.fail (.closureArity required rest args.length)
  else
    let scope ← Run.newScope (some captured)
    bindParameters scope params args
    return scope

/-- The means to evaluate the body of a closure in a scope of its own. -/
abbrev Caller := Value → ScopeId → Run Context

variable [Host]

def applyTo (call : Caller) (args : List Value) : Value → Run Value
  | .native f => f.call args
  | .closure _ params body captured => do
    let scope ← enterClosure params captured args
    return (← call body scope).value
  | v => Run.fail (.notCallable v.typeName v.text)

/-! ## Special forms that evaluate no operand themselves -/

def malformed {α : Type} (form : SpecialForm) (operands : Value) (shape : Shape) : Outcome α :=
  Outcome.fail (.malformed form shape (Value.cons (.symbol form.name) operands).text)

/-- The operands have to be a proper list of as many as the form takes. -/
def checkOperands (form : SpecialForm) (whole operands : Value) : Outcome Unit :=
  match operands.length? with
  | none => Outcome.fail (.operandsNotList form whole.text)
  | some count =>
    match form.arity.violated? count with
    | some _ => Outcome.fail (.operandCount form count whole.text)
    | none => .ok ()

def quoteForm (operands : Value) : Outcome Value :=
  match operands with
  | .pair _ datum .nil => .ok datum
  | _ => malformed .quote operands .oneDatum

/-- The parameters have to be distinct symbols, with or without one more behind the last. -/
def checkParameters (operands : Value) (seen : List String) : Value → Outcome Unit
  | .pair _ (.symbol name) rest =>
    if seen.contains name then malformed .lambda operands .distinctParameters
    else checkParameters operands (name :: seen) rest
  | .nil => .ok ()
  | .symbol name =>
    if seen.contains name then malformed .lambda operands .distinctParameters else .ok ()
  | _ => malformed .lambda operands .symbolParameters

def lambdaForm (operands : Value) (env : ScopeId) : Run Value :=
  match operands with
  | .pair _ params (.pair _ body .nil) => do
    Run.ofOutcome (checkParameters operands [] params)
    return .closure (← Run.newMark) params body env
  | _ => Run.ofOutcome (malformed .lambda operands .parametersAndBody)

/-- A `(defun name params body)` stands for `(define name (lambda params body))`. -/
def defunForm (operands : Value) (env : ScopeId) : Run Unit :=
  match operands with
  | .pair _ (.symbol name) (.pair _ params (.pair _ body .nil)) =>
    let closure := Value.ofList [params, body]
    let lambda := Value.cons (.symbol SpecialForm.lambda.name) closure
    Run.within (Value.ofList [.symbol SpecialForm.define.name, .symbol name, lambda]) do
      Run.bind env name (← Run.within lambda (lambdaForm closure env))
  | _ => Run.ofOutcome (malformed .defun operands .nameParametersAndBody)

/-- One definition for each binding of a `let`. -/
def letDefinitions : List Value → Outcome (List Value)
  | [] => .ok []
  | .pair _ (.symbol name) (.pair _ init .nil) :: rest => do
    return Value.ofList [.symbol SpecialForm.define.name, .symbol name, init] ::
      (← letDefinitions rest)
  | binding :: _ => Outcome.fail (.badBinding binding.text)

/-- The definitions of a `let` and then its body, as one `begin`. -/
def letBlock (operands : Value) : Outcome Value :=
  match operands.elements with
  | [] => Outcome.fail .letWithoutBindings
  | [bindings, body] => do
    let definitions ← letDefinitions bindings.elements
    if bindings.isProper then
      return Value.cons (.symbol SpecialForm.begin.name) (Value.ofList (definitions ++ [body]))
    else Outcome.fail (.bindingsNotList bindings.text)
  | _ :: bodies => Outcome.fail (.letBodyCount bodies.length)

/-- The call of a function without parameters that a `let` stands for. -/
def blockCall (block : Value) : Value :=
  Value.ofList [Value.ofList [.symbol SpecialForm.lambda.name, .nil, block]]

/-- A `(let ((v e) ...) body)` stands for `((lambda () (begin (define v e) ... body)))`. -/
def letForm (call : Caller) (operands : Value) (env : ScopeId) : Run Value := do
  let block ← Run.ofOutcome (letBlock operands)
  Run.within (blockCall block) do
    applyTo call [] (.closure (← Run.newMark) .nil block env)

/-! ## The evaluator -/

mutual

/-- Evaluates an expression, with `call` for the bodies of closures. -/
def evalForm (call : Caller) : Value → ScopeId → Run Context
  | .symbol name, env => do return ⟨← Run.lookup env name, env⟩
  | .pair mark head operands, env =>
    Run.within (.pair mark head operands) <|
      match head.symbol?.bind SpecialForm.named? with
      | some form => do
        Run.ofOutcome (checkOperands form (.pair mark head operands) operands)
        match form with
        | .quote => return ⟨← Run.ofOutcome (quoteForm operands), env⟩
        | .lambda => return ⟨← lambdaForm operands env, env⟩
        | .letIn => return ⟨← letForm call operands env, env⟩
        | .defun => defunForm operands env; return ⟨.nil, env⟩
        | .define => evalDefine call operands env; return ⟨.nil, env⟩
        | .assign => evalAssign call operands env; return ⟨.nil, env⟩
        | .begin => evalSequence call operands ⟨.nil, env⟩
        | .branch => evalBranch call operands env
      | none => do
        if !operands.isProper then
          Run.fail (.argumentsNotList (Value.pair mark head operands).text)
        else
          let callee ← evalForm call head env
          let (args, env) ← evalArguments call operands [] callee.env
          return ⟨← applyTo call args callee.value, env⟩
  | v, env => return ⟨v, env⟩

/-- A name defined by another name shares its slot; one defined by an expression gets a slot of
its own. -/
def evalDefine (call : Caller) : Value → ScopeId → Run Unit
  | .pair _ (.symbol name) (.pair _ (.symbol source) .nil), env => do
    Run.bindSlot env name (← Run.lookupSlot env source)
  | .pair _ (.symbol name) (.pair _ init .nil), env => do
    Run.bind env name (← evalForm call init env).value
  | operands, _ => Run.ofOutcome (malformed .define operands .symbolAndExpression)

def evalAssign (call : Caller) : Value → ScopeId → Run Unit
  | .pair _ (.symbol name) (.pair _ e .nil), env => do
    Run.assign env name (← evalForm call e env).value
  | operands, _ => Run.ofOutcome (malformed .assign operands .symbolAndExpression)

/-- Evaluates the expressions of a list one after the other; the last one counts. -/
def evalSequence (call : Caller) : Value → Context → Run Context
  | .pair _ e rest, context => do evalSequence call rest (← evalForm call e context.env)
  | _, context => return context

def evalBranch (call : Caller) : Value → ScopeId → Run Context
  | .pair _ condition (.pair _ consequent .nil), env => do
    let test ← evalForm call condition env
    if test.value.isTruthy then evalForm call consequent test.env else return ⟨.nil, test.env⟩
  | .pair _ condition (.pair _ consequent (.pair _ alternative .nil)), env => do
    let test ← evalForm call condition env
    if test.value.isTruthy then evalForm call consequent test.env
    else evalForm call alternative test.env
  | operands, _ => Run.ofOutcome (malformed .branch operands .conditionAndBranches)

/-- The values of the operands behind those already evaluated, last first. -/
def evalArguments (call : Caller) : Value → List Value → ScopeId → Run (List Value × ScopeId)
  | .pair _ e rest, args, env => do
    let context ← evalForm call e env
    evalArguments call rest (context.value :: args) context.env
  | _, args, env => return (args.reverse, env)

end

/-- Evaluates an expression with at most as many closure calls inside one another. -/
def evalWithin : Nat → Value → ScopeId → Run Context
  | 0 => fun _ _ => Run.fail (.depthLimit callLimit)
  | n + 1 => evalForm (evalWithin n)

end SlotLisp
