import SlotLisp.Text.Blank
import SlotLisp.Value.Printer

/-!
# What the builtin operations compute

`Builtin.run` checks the number of arguments and then applies the operation. Arithmetic on
integers is exact or refused; it turns into arithmetic on doubles at the first double that it
meets. Pairs in a result are new and still without a mark.
-/

namespace SlotLisp

/-- A computation that fails with an error and changes nothing. -/
abbrev Outcome := Except Error

namespace Outcome

def fail {α : Type} (p : Problem) : Outcome α := .error ⟨p, none⟩

/-- The operation wanted an argument of another type. -/
def wrongType {α : Type} (operation wanted : String) (v : Value) : Outcome α :=
  fail (.wrongType operation wanted v.typeName v.text)

end Outcome

open Outcome

/-! ## Parts of lists -/

inductive Step
  | car
  | cdr
  deriving DecidableEq, Repr

def Step.take (operation : String) (step : Step) : Value → Outcome Value
  | .pair _ a d => .ok (match step with
    | .car => a
    | .cdr => d)
  | .nil => fail (.emptyList operation)
  | v => wrongType operation "a pair" v

/-- The part of a value that a sequence of steps leads to. -/
def Step.follow (operation : String) (steps : List Step) (v : Value) : Outcome Value :=
  steps.foldlM (fun v step => step.take operation v) v

/-! ## Numbers -/

/-- An integer or a double, the operands of arithmetic. -/
inductive Number
  | int (n : Int64)
  | float (x : Float)

namespace Number

def ofValue (operation : String) : Value → Outcome Number
  | .int n => .ok (int n)
  | .float x => .ok (float x)
  | v => wrongType operation "numbers" v

def toFloat : Number → Float
  | int n => n.toFloat
  | float x => x

def toValue : Number → Value
  | int n => .int n
  | float x => .float x

end Number

/-- An arithmetic operation: its name, what it does to integers, and what it does to doubles. -/
structure Arithmetic where
  name : String
  onInts : Int64 → Int64 → Option Int64
  onFloats : Float → Float → Float

namespace Arithmetic

def sum : Arithmetic := ⟨"+", Integer.add?, fun x y => x + y⟩
def difference : Arithmetic := ⟨"-", Integer.sub?, fun x y => x - y⟩
def product : Arithmetic := ⟨"*", Integer.mul?, fun x y => x * y⟩

def combine (op : Arithmetic) (acc : Number) (v : Value) : Outcome Number := do
  match acc, ← Number.ofValue op.name v with
  | .int m, .int n =>
    match op.onInts m n with
    | some k => .ok (.int k)
    | none => fail (.overflow op.name)
  | x, y => .ok (.float (op.onFloats x.toFloat y.toFloat))

/-- Combines the operands from left to right, beginning with `start`. -/
def fold (op : Arithmetic) (start : Number) (operands : List Value) : Outcome Value :=
  return (← operands.foldlM op.combine start).toValue

def negate (v : Value) : Outcome Value := do
  match ← Number.ofValue difference.name v with
  | .int n =>
    match Integer.neg? n with
    | some k => .ok (.int k)
    | none => fail .negationOverflow
  | .float x => .ok (.float (-x))

end Arithmetic

/-- An order or equality of numbers: its name, and when it holds of integers and of doubles. -/
structure Comparison where
  name : String
  onInts : Int64 → Int64 → Bool
  onFloats : Float → Float → Bool

namespace Comparison

def equal : Comparison := ⟨"=", fun m n => m == n, fun x y => x == y⟩
def less : Comparison := ⟨"<", fun m n => m < n, fun x y => x < y⟩
def greater : Comparison := ⟨">", fun m n => n < m, fun x y => y < x⟩
def lessOrEqual : Comparison := ⟨"<=", fun m n => m ≤ n, fun x y => x ≤ y⟩
def greaterOrEqual : Comparison := ⟨">=", fun m n => n ≤ m, fun x y => y ≤ x⟩

def holds (op : Comparison) : Number → Number → Bool
  | .int m, .int n => op.onInts m n
  | x, y => op.onFloats x.toFloat y.toFloat

/-- Whether the comparison holds of each number and the next one. -/
def chain (op : Comparison) : List Number → Bool
  | x :: y :: rest => op.holds x y && op.chain (y :: rest)
  | _ => true

/-- Every operand has to be a number, also behind a pair that already decides the answer. -/
def apply (op : Comparison) (operands : List Value) : Outcome Value :=
  return .bool (op.chain (← operands.mapM (Number.ofValue op.name)))

end Comparison

/-! ## Conversions -/

def intOfString (name : String) : Value → Outcome Value
  | .string s =>
    match Integer.read (Text.trim s.toList) with
    | .ok n => .ok (.int n)
    | .error fault => fail (.notInteger s fault)
  | v => wrongType name "a string" v

def doubleOfString (name : String) : Value → Outcome Value
  | .string s =>
    match Double.read (Text.trim s.toList) with
    | .ok x => .ok (.float x)
    | .error fault => fail (.notDouble s fault)
  | v => wrongType name "a string" v

def stringOfInt (name : String) : Value → Outcome Value
  | .int n => .ok (.string (Integer.text n))
  | v => wrongType name "an integer" v

def stringOfDouble (name : String) : Value → Outcome Value
  | .float x => .ok (.string (String.ofList (Double.text x)))
  | v => wrongType name "a float" v

def intOfChar (name : String) : Value → Outcome Value
  | .char c => .ok (.int (Int64.ofNat c.toNat))
  | v => wrongType name "a character" v

def charOfInt (name : String) : Value → Outcome Value
  | .int n =>
    if 0 ≤ n.toInt ∧ n.toInt.toNat.isValidChar then .ok (.char (Char.ofNat n.toInt.toNat))
    else fail (.notCharacterCode n)
  | v => wrongType name "an integer" v

def negation (name : String) : Value → Outcome Value
  | .bool b => .ok (.bool (!b))
  | v => wrongType name "a boolean" v

namespace Builtin

/-- The result of an operation on as many arguments as it takes. -/
def apply (op : Builtin) (args : List Value) : Outcome Value :=
  match op, args with
  | car, [v] | head, [v] | first, [v] => Step.follow "car" [.car] v
  | cdr, [v] | tail, [v] => Step.follow "cdr" [.cdr] v
  | cadr, [v] | second, [v] => Step.follow "cadr" [.cdr, .car] v
  | cddr, [v] => Step.follow "cddr" [.cdr, .cdr] v
  | caddr, [v] | third, [v] => Step.follow "caddr" [.cdr, .cdr, .car] v
  | cadddr, [v] | fourth, [v] => Step.follow "cadddr" [.cdr, .cdr, .cdr, .car] v
  | isNull, [v] => .ok (.bool v.isNil)
  | isPair, [v] => .ok (.bool (v matches .pair ..))
  | isString, [v] => .ok (.bool (v matches .string _))
  | isSymbol, [v] => .ok (.bool (v matches .symbol _))
  | isInt, [v] => .ok (.bool (v matches .int _))
  | isDouble, [v] => .ok (.bool (v matches .float _))
  | isChar, [v] => .ok (.bool (v matches .char _))
  | isCallable, [v] => .ok (.bool v.isCallable)
  | isTrue, [v] => .ok (.bool v.isTruthy)
  | isFalse, [v] => .ok (.bool (!v.isTruthy))
  | not, [v] => negation op.name v
  | list, vs => .ok (Value.ofList vs)
  | cons, [a, d] => .ok (Value.cons a d)
  | intOfString, [v] => SlotLisp.intOfString op.name v
  | doubleOfString, [v] => SlotLisp.doubleOfString op.name v
  | stringOfInt, [v] => SlotLisp.stringOfInt op.name v
  | stringOfDouble, [v] => SlotLisp.stringOfDouble op.name v
  | intOfChar, [v] => SlotLisp.intOfChar op.name v
  | charOfInt, [v] => SlotLisp.charOfInt op.name v
  | add, vs => Arithmetic.sum.fold (.int 0) vs
  | sub, [v] => Arithmetic.negate v
  | sub, v :: vs => do Arithmetic.difference.fold (← Number.ofValue op.name v) vs
  | mul, vs => Arithmetic.product.fold (.int 1) vs
  | equal, vs => Comparison.equal.apply vs
  | less, vs => Comparison.less.apply vs
  | greater, vs => Comparison.greater.apply vs
  | lessOrEqual, vs => Comparison.lessOrEqual.apply vs
  | greaterOrEqual, vs => Comparison.greaterOrEqual.apply vs
  | _, _ => fail (.missingArgument op.name)

/-- The result of calling an operation, which first checks the number of arguments. -/
def run (op : Builtin) (args : List Value) : Outcome Value :=
  match op.arity.violated? args.length with
  | some bound => fail (.arity bound args.length)
  | none => op.apply args

end Builtin

end SlotLisp
