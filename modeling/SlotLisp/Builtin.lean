import SlotLisp.Arity

/-!
# Builtin operations

The operations that a global environment starts with: their names and arities. What they
compute is in `SlotLisp.Builtin.Apply`.
-/

namespace SlotLisp

inductive Builtin
  | car | cdr | head | tail | cadr | cddr | caddr | cadddr | first | second | third | fourth
  | isNull | isPair | isString | isSymbol | isInt | isDouble | isChar | isCallable
  | isTrue | isFalse | not
  | list | cons
  | intOfString | doubleOfString | stringOfInt | stringOfDouble | intOfChar | charOfInt
  | add | sub | mul
  | equal | less | greater | lessOrEqual | greaterOrEqual
  deriving DecidableEq, Repr

namespace Builtin

def all : List Builtin :=
  [car, cdr, head, tail, cadr, cddr, caddr, cadddr, first, second, third, fourth,
   isNull, isPair, isString, isSymbol, isInt, isDouble, isChar, isCallable,
   isTrue, isFalse, not, list, cons,
   intOfString, doubleOfString, stringOfInt, stringOfDouble, intOfChar, charOfInt,
   add, sub, mul, equal, less, greater, lessOrEqual, greaterOrEqual]

def name : Builtin → String
  | car => "car"
  | cdr => "cdr"
  | head => "head"
  | tail => "tail"
  | cadr => "cadr"
  | cddr => "cddr"
  | caddr => "caddr"
  | cadddr => "cadddr"
  | first => "first"
  | second => "second"
  | third => "third"
  | fourth => "fourth"
  | isNull => "null?"
  | isPair => "pair?"
  | isString => "string?"
  | isSymbol => "symbol?"
  | isInt => "int?"
  | isDouble => "double?"
  | isChar => "char?"
  | isCallable => "callable?"
  | isTrue => "true?"
  | isFalse => "false?"
  | not => "not"
  | list => "list"
  | cons => "cons"
  | intOfString => "int-of-string"
  | doubleOfString => "double-of-string"
  | stringOfInt => "string-of-int"
  | stringOfDouble => "string-of-double"
  | intOfChar => "int-of-char"
  | charOfInt => "char-of-int"
  | add => "+"
  | sub => "-"
  | mul => "*"
  | equal => "="
  | less => "<"
  | greater => ">"
  | lessOrEqual => "<="
  | greaterOrEqual => ">="

def arity : Builtin → Arity
  | list | add => .any
  | cons => .exactly 2
  | sub | mul => .atLeast 1
  | equal | less | greater | lessOrEqual | greaterOrEqual => .atLeast 2
  | _ => .exactly 1

theorem mem_all (op : Builtin) : op ∈ all := by cases op <;> decide

end Builtin

end SlotLisp
