import SlotLisp.Value.Basic

/-!
# Equality of values

Atoms are equal by content, doubles as numbers (so not a number differs from itself), closures
by their mark, native functions by their name. Pairs are equal when they are the very same pair,
whatever is in it, and else when their parts are.
-/

namespace SlotLisp.Value

/-- Whether two pairs are one and the same. -/
def sameMark : Option Nat → Option Nat → Bool
  | some m, some n => m == n
  | _, _ => false

def equal : Value → Value → Bool
  | nil, nil => true
  | bool a, bool b => a == b
  | int a, int b => a == b
  | float a, float b => a == b
  | char a, char b => a == b
  | string a, string b => a == b
  | symbol a, symbol b => a == b
  | pair m a d, pair m' a' d' => sameMark m m' || (equal a a' && equal d d')
  | closure m _ _ _, closure m' _ _ _ => m == m'
  | native f, native g => f.id == g.id
  | _, _ => false

instance : BEq Value := ⟨equal⟩

theorem sameMark_eq_true_iff {m n : Option Nat} :
    sameMark m n = true ↔ ∃ k, m = some k ∧ n = some k := by
  cases m <;> cases n <;> simp [sameMark]
  exact eq_comm

theorem equal_self_of_mark (k : Nat) (a d : Value) :
    equal (pair (some k) a d) (pair (some k) a d) = true := by
  rw [equal]
  simp [sameMark]

end SlotLisp.Value
