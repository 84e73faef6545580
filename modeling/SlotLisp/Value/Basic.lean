import SlotLisp.Builtin

/-!
# Values

A value is an atom, a pair, a closure or a native function; expressions are values too. Two
kinds of identity matter besides content. Every closure and every pair in a store carries a
mark of its own, by which a value is known to be the very same one again; a pair that has not
been placed in a store yet carries none.
-/

namespace SlotLisp

/-- The number of a scope in a store. -/
abbrev ScopeId := Nat

/-- A function that runs outside the language. A host keeps a function of its own under a key, so
that functions registered under one name stay apart. -/
inductive Native
  | builtin (op : Builtin)
  | host (name key : String)
  deriving DecidableEq, Repr

/-- The name under which a native function was registered, which is its identity. -/
def Native.id : Native → String
  | builtin op => op.name
  | host name _ => name

inductive Value
  | nil
  | bool (b : Bool)
  | int (n : Int64)
  | float (x : Float)
  | char (c : Char)
  | string (s : String)
  | symbol (name : String)
  | pair (mark : Option Nat) (car cdr : Value)
  | closure (mark : Nat) (params body : Value) (scope : ScopeId)
  | native (f : Native)

instance : Inhabited Value := ⟨.nil⟩

namespace Value

/-- A pair that is in no store yet. -/
abbrev cons (car cdr : Value) : Value := pair none car cdr

def isNil : Value → Bool
  | nil => true
  | _ => false

/-- Everything but the empty list and `#f` counts as true. -/
def isTruthy : Value → Bool
  | nil | bool false => false
  | _ => true

def isCallable : Value → Bool
  | closure .. | native _ => true
  | _ => false

def symbol? : Value → Option String
  | symbol name => some name
  | _ => none

def typeName : Value → String
  | nil => "nil"
  | bool _ => "boolean"
  | int _ => "integer"
  | float _ => "float"
  | char _ => "character"
  | string _ => "string"
  | symbol _ => "symbol"
  | pair .. => "pair"
  | closure .. => "closure"
  | native _ => "native function"

/-! ## Lists

A list is a chain of pairs. It is proper when it ends in the empty list. -/

/-- A list with the given elements, last first, before `tail`. -/
def ofReversed (elements : List Value) (tail : Value) : Value :=
  elements.foldl (fun rest element => cons element rest) tail

def ofListTail (elements : List Value) (tail : Value) : Value :=
  ofReversed elements.reverse tail

def ofList (elements : List Value) : Value := ofListTail elements nil

/-- The elements of a list in front of those already passed, last first. -/
def passElements (passed : List Value) : Value → List Value
  | pair _ a d => passElements (a :: passed) d
  | _ => passed

def elements (v : Value) : List Value := (passElements [] v).reverse

/-- What follows the last pair of a chain. -/
def finalTail : Value → Value
  | pair _ _ d => finalTail d
  | v => v

def isProper (v : Value) : Bool := v.finalTail.isNil

def countFrom (n : Nat) : Value → Nat
  | pair _ _ d => countFrom (n + 1) d
  | _ => n

/-- The number of elements of a proper list. -/
def length? (v : Value) : Option Nat := if v.isProper then some (countFrom 0 v) else none

def toList? (v : Value) : Option (List Value) := if v.isProper then some v.elements else none

theorem passElements_eq (passed : List Value) (v : Value) :
    v.passElements passed = v.elements.reverse ++ passed := by
  suffices h : ∀ (v : Value) (passed more : List Value),
      v.passElements (passed ++ more) = v.passElements passed ++ more by
    simpa [elements] using h v [] passed
  intro v
  induction v with
  | pair m a d _ ih =>
    intro passed more
    exact ih (a :: passed) more
  | _ => intros; rfl

@[simp] theorem elements_pair (m : Option Nat) (a d : Value) :
    (pair m a d).elements = a :: d.elements := by
  rw [elements, passElements, passElements_eq]
  simp

/-- Induction over an expression: the parts of a combination are its head and its operands. -/
@[elab_as_elim]
theorem form_induction {P : Value → Prop}
    (atom : ∀ v, (∀ mark a d, v ≠ .pair mark a d) → P v)
    (combination : ∀ mark head operands, P head → (∀ x ∈ operands.elements, P x) →
      P (.pair mark head operands)) (v : Value) : P v := by
  -- Operands are a chain of pairs, so the statement about their elements goes along.
  suffices hparts : P v ∧ ∀ x ∈ v.elements, P x from hparts.1
  induction v with
  | pair mark head operands ihHead ihOperands =>
    refine ⟨combination mark head operands ihHead.1 ihOperands.2, ?_⟩
    rw [elements_pair, List.forall_mem_cons]
    exact ⟨ihHead.1, ihOperands.2⟩
  | _ => exact ⟨atom _ fun mark a d h => (by cases h), fun x hx => (by cases hx)⟩

theorem countFrom_eq (n : Nat) (v : Value) : v.countFrom n = n + v.elements.length := by
  induction v generalizing n with
  | pair m a d _ ih => rw [countFrom, ih, elements_pair, List.length_cons]; omega
  | _ => rfl

theorem length?_eq (v : Value) : v.length? = v.toList?.map List.length := by
  unfold length? toList?
  split
  · simp [countFrom_eq]
  · rfl

@[simp] theorem ofListTail_nil (tail : Value) : ofListTail [] tail = tail := rfl

@[simp] theorem ofListTail_cons (v : Value) (vs : List Value) (tail : Value) :
    ofListTail (v :: vs) tail = cons v (ofListTail vs tail) := by
  simp [ofListTail, ofReversed]

theorem elements_ofListTail {vs : List Value} {tail : Value} :
    (ofListTail vs tail).elements = vs ++ tail.elements := by
  induction vs with
  | nil => rfl
  | cons v vs ih => simp [ih]

theorem toList?_ofList (vs : List Value) : (ofList vs).toList? = some vs := by
  have hproper : (ofList vs).isProper = true := by
    induction vs with
    | nil => rfl
    | cons v vs ih =>
      rw [ofList, ofListTail_cons]
      exact ih
  rw [toList?, if_pos hproper, ofList, elements_ofListTail]
  simp [elements, passElements]

theorem toList?_pair (mark : Option Nat) (a d : Value) :
    (pair mark a d).toList? = d.toList?.map (a :: ·) := by
  have hproper : (pair mark a d).isProper = d.isProper := rfl
  rw [toList?, toList?, hproper, elements_pair]
  cases d.isProper <;> rfl

theorem toList?_eq_cons_iff {v x : Value} {xs : List Value} :
    v.toList? = some (x :: xs) ↔ ∃ mark d, v = .pair mark x d ∧ d.toList? = some xs := by
  constructor
  · intro h
    cases v with
    | pair mark a d =>
      rw [toList?_pair, Option.map_eq_some_iff] at h
      obtain ⟨ys, hd, heq⟩ := h
      obtain ⟨rfl, rfl⟩ := List.cons.inj heq
      exact ⟨mark, d, rfl, hd⟩
    | _ => cases h
  · rintro ⟨mark, d, rfl, hd⟩
    rw [toList?_pair, hd, Option.map_some]

theorem toList?_eq_nil_iff {v : Value} : v.toList? = some [] ↔ v = .nil := by
  constructor
  · intro h
    cases v with
    | nil => rfl
    | pair mark a d =>
      rw [toList?_pair, Option.map_eq_some_iff] at h
      obtain ⟨ys, -, heq⟩ := h
      cases heq
    | _ => cases h
  · rintro rfl
    rfl

theorem toList?_eq_two_iff {v x y : Value} :
    v.toList? = some [x, y] ↔ ∃ mark mark', v = .pair mark x (.pair mark' y .nil) := by
  simp only [toList?_eq_cons_iff, toList?_eq_nil_iff]
  constructor
  · rintro ⟨mark, d, rfl, mark', d', rfl, rfl⟩
    exact ⟨mark, mark', rfl⟩
  · rintro ⟨mark, mark', rfl⟩
    exact ⟨mark, _, rfl, mark', _, rfl, rfl⟩

theorem elements_of_toList? {v : Value} {xs : List Value} (h : v.toList? = some xs) :
    v.elements = xs := by
  rw [toList?] at h
  split at h
  · exact Option.some.inj h
  · cases h

theorem toList?_of_improper {v : Value} (h : v.isProper = false) : v.toList? = none := by
  rw [toList?, h]
  rfl

end Value

end SlotLisp
