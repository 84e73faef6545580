import SlotLisp.Arity

/-!
# Special forms

The eight names that the evaluator recognises at the head of a combination, whatever they are
bound to, and how many operands each one takes.
-/

namespace SlotLisp

inductive SpecialForm
  | quote
  | define
  | assign
  | letIn
  | lambda
  | defun
  | begin
  | branch
  deriving DecidableEq, Repr

namespace SpecialForm

def name : SpecialForm → String
  | quote => "quote"
  | define => "define"
  | assign => "set!"
  | letIn => "let"
  | lambda => "lambda"
  | defun => "defun"
  | begin => "begin"
  | branch => "if"

/-- A `let` reports its own, more specific, shape errors, so it takes any number. -/
def arity : SpecialForm → Arity
  | quote => .exactly 1
  | define => .exactly 2
  | assign => .exactly 2
  | letIn => .any
  | lambda => .exactly 2
  | defun => .exactly 3
  | begin => .any
  | branch => .between 2 3

def named? : String → Option SpecialForm
  | "quote" => some quote
  | "define" => some define
  | "set!" => some assign
  | "let" => some letIn
  | "lambda" => some lambda
  | "defun" => some defun
  | "begin" => some begin
  | "if" => some branch
  | _ => none

theorem named?_name (form : SpecialForm) : named? form.name = some form := by
  cases form <;> rfl

theorem name_of_named? {name : String} {form : SpecialForm} (h : named? name = some form) :
    form.name = name := by
  unfold named? at h
  split at h <;> cases h <;> rfl

end SpecialForm

end SlotLisp
