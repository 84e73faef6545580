import SlotLisp.Program
import SlotLisp.Proofs.Evaluation.Block

/-!
# Reduction

The evaluator as an unbounded recursion. It counts the pending calls upwards and looks names up
scope by scope. A `let` and a `defun` are rewritten, and what they stand for is reduced again with
as many calls pending. So neither the expression nor the count goes down from one reduction to the
next, and nothing in the text makes it come to an end. `reduce steps` is what can be seen of it with
at most `steps` reductions inside one another: a result, or none yet.
-/

namespace SlotLisp

/-- A computation on a store, or as much of it as is allowed: it may have no result yet. -/
abbrev Process := StateT Store Option

namespace Process

def unfinished {α : Type} : Process α := fun _ => none

/-- What a run ends with, as the result of a process. -/
def ofResult {α : Type} : EStateM.Result Error Store α → Outcome α × Store
  | .ok a st => (.ok a, st)
  | .error e st => (.error e, st)

/-- A run always comes to an end. -/
def ofRun {α : Type} (act : Run α) : Process (Outcome α) := fun st => some (ofResult (act st))

end Process

open Process

/-! ## Names -/

/-- The look-up of a name from a scope outwards. -/
abbrev Finder := String → Option ScopeId → Process (Outcome SlotId)

/-- Looks into one scope, and leaves its parent to `find`. -/
def locateIn (find : Finder) (name : String) : Option ScopeId → Process (Outcome SlotId)
  | none => return .error (.unbound name)
  | some scope => do
    match ((← get).bindingsOf scope).find? name with
    | some slot => return .ok slot
    | none => find name ((← get).parentOf? scope)

/-- The look-up through at most as many scopes. -/
def locate : Nat → Finder
  | 0 => fun _ _ => unfinished
  | steps + 1 => locateIn (locate steps)

def readName (find : Finder) (env : ScopeId) (name : String) : Process (Outcome Value) := do
  match ← find name (some env) with
  | .error e => return .error e
  | .ok slot =>
    match (← get).slots[slot]? with
    | some v => return .ok v
    | none => return .error (.unbound name)

/-- Makes a name share the slot of another one. -/
def shareName (find : Finder) (env : ScopeId) (name source : String) : Process (Outcome Unit) := do
  match ← find source (some env) with
  | .error e => return .error e
  | .ok slot => ofRun (Run.bindSlot env name slot)

def writeName (find : Finder) (env : ScopeId) (name : String) (v : Value) :
    Process (Outcome Unit) := do
  match ← find name (some env) with
  | .error e => return .error e
  | .ok slot => fun st => some (.ok (), st.setSlot slot v)

/-! ## Expressions -/

/-- The definition that a `defun` stands for. -/
def defunDefinition : Value → Outcome Value
  | .pair _ (.symbol name) (.pair _ params (.pair _ body .nil)) =>
    .ok (definitionOf name (Value.ofList [.symbol SpecialForm.lambda.name, params, body]))
  | operands => malformed .defun operands .nameParametersAndBody

/-- The evaluation of an expression with a number of calls pending. -/
abbrev Reducer := Nat → Value → ScopeId → Process (Outcome Context)

variable [Host]

section

variable (find : Finder) (self : Reducer) (depth : Nat)

def reduceDefine (operands : Value) (env : ScopeId) : Process (Outcome Unit) := do
  match operands with
  | .pair _ (.symbol name) (.pair _ (.symbol source) .nil) => shareName find env name source
  | .pair _ (.symbol name) (.pair _ init .nil) =>
    match ← self depth init env with
    | .error e => return .error e
    | .ok context => ofRun (Run.bind env name context.value)
  | operands => return malformed .define operands .symbolAndExpression

def reduceAssign (operands : Value) (env : ScopeId) : Process (Outcome Unit) := do
  match operands with
  | .pair _ (.symbol name) (.pair _ e .nil) =>
    match ← self depth e env with
    | .error e => return .error e
    | .ok context => writeName find env name context.value
  | operands => return malformed .assign operands .symbolAndExpression

def reduceSequence : Value → Context → Process (Outcome Context)
  | .pair _ e rest, context => do
    match ← self depth e context.env with
    | .error e => return .error e
    | .ok context => reduceSequence rest context
  | _, context => return .ok context

def reduceBranch (operands : Value) (env : ScopeId) : Process (Outcome Context) := do
  match operands with
  | .pair _ condition (.pair _ consequent .nil) =>
    match ← self depth condition env with
    | .error e => return .error e
    | .ok test =>
      if test.value.isTruthy then self depth consequent test.env
      else return .ok ⟨.nil, test.env⟩
  | .pair _ condition (.pair _ consequent (.pair _ alternative .nil)) =>
    match ← self depth condition env with
    | .error e => return .error e
    | .ok test =>
      if test.value.isTruthy then self depth consequent test.env
      else self depth alternative test.env
  | operands => return malformed .branch operands .conditionAndBranches

def reduceArguments : Value → List Value → ScopeId → Process (Outcome (List Value × ScopeId))
  | .pair _ e rest, args, env => do
    match ← self depth e env with
    | .error e => return .error e
    | .ok context => reduceArguments rest (context.value :: args) context.env
  | _, args, env => return .ok (args.reverse, env)

/-- Applies a value; the body of a closure is reduced with one more call pending. -/
def apply (callee : Value) (args : List Value) : Process (Outcome Value) := do
  match callee with
  | .native f => ofRun (f.call args)
  | .closure _ params body captured =>
    match ← ofRun (enterClosure params captured args) with
    | .error e => return .error e
    | .ok scope => return (← self (depth + 1) body scope).map Context.value
  | v => return Outcome.fail (.notCallable v.typeName v.text)

/-- A `let` and a `defun` are rewritten, and the result is reduced in their place. -/
def reduceSpecial (form : SpecialForm) (operands : Value) (env : ScopeId) :
    Process (Outcome Context) := do
  match form with
  | .quote => return (quoteForm operands).map (⟨·, env⟩)
  | .lambda => return (← ofRun (lambdaForm operands env)).map (⟨·, env⟩)
  | .define => return (← reduceDefine find self depth operands env).map fun _ => ⟨.nil, env⟩
  | .assign => return (← reduceAssign find self depth operands env).map fun _ => ⟨.nil, env⟩
  | .begin => reduceSequence self depth operands ⟨.nil, env⟩
  | .branch => reduceBranch self depth operands env
  | .defun =>
    match defunDefinition operands with
    | .error e => return .error e
    | .ok definition => self depth definition env
  | .letIn =>
    match letBlock operands with
    | .error e => return .error e
    | .ok block => self depth (blockCall block) env

def reduceCombination (whole head operands : Value) (env : ScopeId) :
    Process (Outcome Context) := do
  match head.symbol?.bind SpecialForm.named? with
  | some form =>
    match checkOperands form whole operands with
    | .error e => return .error e
    | .ok () => reduceSpecial find self depth form operands env
  | none =>
    if !operands.isProper then return Outcome.fail (.argumentsNotList whole.text)
    else
      match ← self depth head env with
      | .error e => return .error e
      | .ok callee =>
        match ← reduceArguments self depth operands [] callee.env with
        | .error e => return .error e
        | .ok (args, env) => return (← apply self depth callee.value args).map (⟨·, env⟩)

/-- One reduction, which leaves those inside it to `self`. -/
def reduceIn (e : Value) (env : ScopeId) : Process (Outcome Context) := do
  if callLimit ≤ depth then return Outcome.fail (.depthLimit callLimit)
  else match e with
    | .symbol name => return (← readName find env name).map (⟨·, env⟩)
    | .pair mark head operands =>
      return (← reduceCombination find self depth (.pair mark head operands) head operands
        env).mapError (·.within (.pair mark head operands))
    | v => return .ok ⟨v, env⟩

/-- Reduces the data of a program one after the other, each placed in the store just before. -/
def reduceProgram : List Value → Context → Process (Outcome Context)
  | [], context => return .ok context
  | datum :: rest, context => do
    match ← ofRun (Run.place datum) with
    | .error e => return .error e
    | .ok e =>
      match ← self 0 e context.env with
      | .error e => return .error e
      | .ok context => reduceProgram rest context

end

/-- Evaluates an expression with at most as many reductions inside one another. -/
def reduce : Nat → Reducer
  | 0 => fun _ _ _ => unfinished
  | steps + 1 => reduceIn (locate steps) (reduce steps)

end SlotLisp
