/-!
# Arity

How many operands or arguments an operation accepts, and which bound a count violates.
-/

namespace SlotLisp

inductive Arity
  | exactly (n : Nat)
  | atLeast (n : Nat)
  | between (min max : Nat)
  | any
  deriving DecidableEq, Repr

namespace Arity

/-- The bound that `count` violates; the lower one first. -/
def violated? : Arity → Nat → Option Nat
  | .exactly n, count => if count = n then none else some n
  | .atLeast n, count => if count < n then some n else none
  | .between min max, count =>
    if count < min then some min else if max < count then some max else none
  | .any, _ => none

/-- The counts that the arity admits. -/
def Accepts : Arity → Nat → Prop
  | .exactly n, count => count = n
  | .atLeast n, count => n ≤ count
  | .between min max, count => min ≤ count ∧ count ≤ max
  | .any, _ => True

def text : Arity → String
  | .exactly n => "exactly " ++ toString n
  | .atLeast n => "at least " ++ toString n
  | .between min max => toString min ++ " to " ++ toString max
  | .any => "any number of"

theorem violated?_eq_none_iff {a : Arity} {count : Nat} :
    a.violated? count = none ↔ a.Accepts count := by
  cases a <;> simp only [violated?, Accepts]
  · simp
  · simp
  · split
    · simp; omega
    · split <;> simp <;> omega

end Arity

end SlotLisp
