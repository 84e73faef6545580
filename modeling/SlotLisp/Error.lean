import SlotLisp.Double.Text
import SlotLisp.Integer
import SlotLisp.Reader.Fault
import SlotLisp.SpecialForm

/-!
# Errors

A `Problem` is the cause of an error; its wording is `Problem.text` and its kind decides the
heading. An `Error` is a problem together with the combination it happened in. Only some kinds
record one, and only the first is kept (`Error.awaitsContext`).
-/

namespace SlotLisp

inductive ErrorKind
  | reading
  | unboundVariable
  | bindingsFormat
  | letBodyFormat
  | functionCall
  | specialForm
  | typeMismatch
  | arity
  | evaluation
  deriving DecidableEq, Repr

/-- What a special form demands of its operands, apart from their number. -/
inductive Shape
  | oneDatum
  | symbolAndExpression
  | parametersAndBody
  | symbolParameters
  | distinctParameters
  | nameParametersAndBody
  | conditionAndBranches
  deriving DecidableEq, Repr

def Shape.text : Shape → String
  | oneDatum => "expected one datum"
  | symbolAndExpression => "expected a symbol and an expression"
  | parametersAndBody => "expected parameters and one body"
  | symbolParameters => "parameters must be symbols"
  | distinctParameters => "duplicate parameter name"
  | nameParametersAndBody => "expected a name, parameters and one body"
  | conditionAndBranches => "expected a condition and one or two branches"

/-- Causes of errors. Values appear in them as their type name and text. `reported` is an error
that a host function makes up. -/
inductive Problem
  | reading (e : ReadError)
  | unbound (name : String)
  | letWithoutBindings
  | badBinding (binding : String)
  | bindingsNotList (bindings : String)
  | letBodyCount (got : Nat)
  | argumentsNotList (form : String)
  | closureArity (required : Nat) (rest : Bool) (got : Nat)
  | parameterNotSymbol (parameter : String)
  | operandsNotList (form : SpecialForm) (whole : String)
  | operandCount (form : SpecialForm) (got : Nat) (whole : String)
  | malformed (form : SpecialForm) (shape : Shape) (whole : String)
  | notCallable (typeName value : String)
  | wrongType (operation wanted typeName value : String)
  | arity (expected got : Nat)
  | depthLimit (limit : Nat)
  | overflow (operation : String)
  | negationOverflow
  | emptyList (operation : String)
  | notInteger (text : String) (fault : IntegerFault)
  | notDouble (text : String) (fault : DoubleFault)
  | notCharacterCode (n : Int64)
  | missingArgument (operation : String)
  | reported (kind : ErrorKind) (message : String)
  deriving DecidableEq, Repr

namespace Problem

def kind : Problem → ErrorKind
  | reading _ => .reading
  | unbound _ => .unboundVariable
  | letWithoutBindings | badBinding _ | bindingsNotList _ => .bindingsFormat
  | letBodyCount _ => .letBodyFormat
  | argumentsNotList _ | closureArity .. | parameterNotSymbol _ => .functionCall
  | operandsNotList .. | operandCount .. | malformed .. => .specialForm
  | notCallable .. | wrongType .. => .typeMismatch
  | arity .. => .arity
  | depthLimit _ | overflow _ | negationOverflow | emptyList _ | notInteger .. | notDouble ..
  | notCharacterCode _ | missingArgument _ => .evaluation
  | reported kind _ => kind

/-- The wording of a problem, without its heading. -/
def text : Problem → String
  | reading e => e.text
  | unbound name => name
  | letWithoutBindings => "let requires a binding list"
  | badBinding binding => "expected (symbol expression), got " ++ binding
  | bindingsNotList bindings => "bindings must be a list, got " ++ bindings
  | letBodyCount got => "expected exactly one body expression, got " ++ toString got
  | argumentsNotList form => "argument list is not a proper list: " ++ form
  | closureArity required rest got =>
    "closure expects " ++ (if rest then "at least " else "") ++ toString required ++
      " arguments, got " ++ toString got
  | parameterNotSymbol parameter => "parameter " ++ parameter ++ " is not a symbol"
  | operandsNotList form whole =>
    "operands of '" ++ form.name ++ "' must be a proper list: " ++ whole
  | operandCount form got whole =>
    "'" ++ form.name ++ "' expects " ++ form.arity.text ++ " operands, got " ++ toString got ++
      ": " ++ whole
  | malformed form shape whole => form.name ++ ": " ++ shape.text ++ ": " ++ whole
  | notCallable typeName value => "Cannot apply non-function: " ++ typeName ++ " " ++ value
  | wrongType operation wanted typeName value =>
    "'" ++ operation ++ "' expects " ++ wanted ++ ", got " ++ typeName ++ " " ++ value
  | arity expected got =>
    "function expected " ++ toString expected ++ " arguments but got " ++ toString got
  | depthLimit limit => "Evaluation depth limit exceeded (max: " ++ toString limit ++ ")"
  | overflow operation => "Integer overflow in '" ++ operation ++ "'"
  | negationOverflow => "Integer overflow in negation"
  | emptyList operation => "'" ++ operation ++ "' of empty list"
  | notInteger text fault =>
    "cannot convert \"" ++ text ++ "\" to an integer: " ++ fault.message
  | notDouble text fault => "cannot convert \"" ++ text ++ "\" to a double: " ++ fault.message
  | notCharacterCode n => Integer.text n ++ " is not a valid character code"
  | missingArgument operation => "'" ++ operation ++ "' lacks an argument"
  | reported _ message => message

end Problem

def ErrorKind.heading : ErrorKind → String
  | reading => "ParseError: "
  | unboundVariable => "Unbound variable: "
  | bindingsFormat => "Invalid bindings format: "
  | letBodyFormat => "Invalid let body format: "
  | functionCall => "Invalid function call: "
  | specialForm => "Invalid special form: "
  | typeMismatch => "Type mismatch: "
  | arity => "ArityError: "
  | evaluation => "EvaluationError: "

structure Error where
  problem : Problem
  context? : Option String := none
  deriving DecidableEq, Repr

namespace Error

def kind (e : Error) : ErrorKind := e.problem.kind

def unbound (name : String) : Error := ⟨.unbound name, none⟩

/-- What separates a message from the combination it happened in. -/
def contextMark : List Char := "\n  Context: ".toList

/-- Whether `pattern` occurs in the text. -/
def occursIn (pattern : List Char) : List Char → Bool
  | [] => pattern.isEmpty
  | c :: cs => pattern.isPrefixOf (c :: cs) || occursIn pattern cs

/-- Whether the error still lacks the combination it happened in. A message that shows the mark
already passes for one that has it. -/
def awaitsContext (e : Error) : Bool :=
  e.context?.isNone && match e.kind with
    | .arity => true
    | .typeMismatch | .evaluation => !occursIn contextMark e.problem.text.toList
    | _ => false

def message (e : Error) : String :=
  match e.problem, e.context? with
  | .arity expected got, some form =>
    e.kind.heading ++ "expression " ++ form ++ ": expected " ++ toString expected ++
      " arguments, got " ++ toString got
  | p, some form =>
    e.kind.heading ++ p.text ++ String.ofList contextMark ++ "while evaluating " ++ form
  | p, none => e.kind.heading ++ p.text

end Error

end SlotLisp
