/-!
# Integers

Integers are the words of 64 bits with a sign. `Integer.ofInt?` is the one place where an
exact result is admitted or refused, so no operation built on it can wrap around.
`Integer.read` reads decimal text with an optional sign.
-/

namespace SlotLisp

/-- Why a text is no integer. -/
inductive IntegerFault
  | empty
  | invalidDigit
  | tooLarge
  | tooSmall
  deriving DecidableEq, Repr

def IntegerFault.message : IntegerFault → String
  | .empty => "cannot parse integer from empty string"
  | .invalidDigit => "invalid digit found in string"
  | .tooLarge => "number too large to fit in target type"
  | .tooSmall => "number too small to fit in target type"

namespace Integer

def least : Int := -9223372036854775808
def greatest : Int := 9223372036854775807

/-- The range of `Int64`. -/
def InRange (n : Int) : Prop := least ≤ n ∧ n ≤ greatest

instance (n : Int) : Decidable (InRange n) := inferInstanceAs (Decidable (_ ∧ _))

/-- The word that stands for `n`, if there is one. -/
def ofInt? (n : Int) : Option Int64 :=
  if InRange n then some (Int64.ofInt n) else none

def add? (a b : Int64) : Option Int64 := ofInt? (a.toInt + b.toInt)
def sub? (a b : Int64) : Option Int64 := ofInt? (a.toInt - b.toInt)
def mul? (a b : Int64) : Option Int64 := ofInt? (a.toInt * b.toInt)
def neg? (a : Int64) : Option Int64 := ofInt? (-a.toInt)

def text (n : Int64) : String := toString n.toInt

def digitValue (c : Char) : Int := Int.ofNat (c.toNat - '0'.toNat)

/-- The digits `ds` appended to `acc`. The first character that is no digit, or the first digit
that leads out of the range, decides. -/
def appendDigits (negative : Bool) (acc : Int) : List Char → Except IntegerFault Int64
  | [] => .ok (Int64.ofInt acc)
  | d :: ds =>
    if d.isDigit then
      let next := if negative then acc * 10 - digitValue d else acc * 10 + digitValue d
      if InRange next then appendDigits negative next ds
      else .error (if negative then .tooSmall else .tooLarge)
    else .error .invalidDigit

/-- An optional sign and at least one digit. -/
def read : List Char → Except IntegerFault Int64
  | [] => .error .empty
  | ['+'] => .error .invalidDigit
  | ['-'] => .error .invalidDigit
  | '+' :: ds => appendDigits false 0 ds
  | '-' :: ds => appendDigits true 0 ds
  | ds => appendDigits false 0 ds

theorem inRange_toInt (w : Int64) : InRange w.toInt := by
  have h1 := Int64.le_toInt w
  have h2 := Int64.toInt_lt w
  unfold InRange least greatest
  omega

theorem ofInt?_eq_some_iff {n : Int} {w : Int64} : ofInt? n = some w ↔ w.toInt = n := by
  unfold ofInt?
  split
  · rename_i hr
    have hn : (Int64.ofInt n).toInt = n := by
      unfold InRange least greatest at hr
      exact Int64.toInt_ofInt_of_le (by omega) (by omega)
    constructor
    · intro h
      rw [← Option.some.inj h, hn]
    · rintro rfl
      exact congrArg some (Int64.ofInt_toInt w)
  · rename_i hr
    constructor
    · intro h
      cases h
    · rintro rfl
      exact absurd (inRange_toInt w) hr

theorem ofInt?_eq_none_iff {n : Int} : ofInt? n = none ↔ ¬ InRange n := by
  unfold ofInt?
  split <;> simp_all

end Integer

end SlotLisp
