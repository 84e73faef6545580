import SlotLisp.Machine.Execution
import SlotLisp.Reader

/-!
# Programs

A program is a sequence of data. They are evaluated one after the other, each in the environment
that the one before it left, up to the first error. A datum is placed in the store just before
it is evaluated.
-/

namespace SlotLisp

namespace Store

/-- Binds each builtin operation to its name. -/
def bindBuiltins (scope : ScopeId) (ops : List Builtin) (st : Store) : Store :=
  ops.foldl (fun st op => st.bind scope op.name (.native (.builtin op))) st

/-- A new root scope with all builtin operations. -/
def newGlobal (st : Store) : ScopeId × Store :=
  let (scope, st) := st.newScope none
  (scope, st.bindBuiltins scope Builtin.all)

end Store

variable [Host]

/-- Evaluates a datum as it comes from the reader. -/
def evalDatum (datum : Value) (env : ScopeId) : Run Context := do
  eval (← Run.place datum) env

/-- The context of the last datum, or the given one if there are none. -/
def evalProgram : List Value → Context → Run Context
  | [], context => return context
  | datum :: rest, context => do evalProgram rest (← evalDatum datum context.env)

/-- Reads all of a text and then evaluates it. -/
def evalText (source : String) (env : ScopeId) : Run Context :=
  match readProgram source with
  | .ok program => evalProgram program ⟨.nil, env⟩
  | .error e => Run.fail (.reading e)

theorem evalProgram_append (xs ys : List Value) (context : Context) :
    evalProgram (xs ++ ys) context = evalProgram xs context >>= evalProgram ys := by
  induction xs generalizing context with
  | nil => rfl
  | cons x xs ih =>
    have h : (fun next => evalProgram (xs ++ ys) next) =
        fun next => evalProgram xs next >>= evalProgram ys := funext ih
    simp only [List.cons_append, evalProgram, h, bind_assoc]

end SlotLisp
