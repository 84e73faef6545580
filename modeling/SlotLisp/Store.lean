import SlotLisp.Store.Bindings
import SlotLisp.Value.Basic

/-!
# The store

All that a program can change: the scopes with their bindings, the slots with their values, the
supply of marks, and the notes of host functions. Names are bound to slots, and a slot to a value;
two names that refer to one slot see each other's assignments. A scope is numbered above its
parent, so the way outwards from it ends (`Store.chain`).
-/

namespace SlotLisp

structure Scope where
  bindings : Bindings := {}
  parent? : Option ScopeId := none

structure Store where
  scopes : Array Scope := #[]
  slots : Array Value := #[]
  /-- The first mark that is not in use. -/
  marks : Nat := 0
  /-- What host functions keep for themselves. -/
  notes : Array String := #[]

namespace Store

/-! ## Looking things up -/

def parentOf? (st : Store) (scope : ScopeId) : Option ScopeId :=
  st.scopes[scope]?.bind Scope.parent?

def bindingsOf (st : Store) (scope : ScopeId) : Bindings :=
  (st.scopes[scope]?.map Scope.bindings).getD {}

/-- The scope itself, its parent, and so on up to a root. -/
def chain (st : Store) (scope : ScopeId) : List ScopeId :=
  scope :: match st.parentOf? scope with
    | some parent => if parent < scope then st.chain parent else []
    | none => []
termination_by scope

/-- The slot that a name refers to in the nearest scope that binds it. -/
def slotOf? (st : Store) (scope : ScopeId) (name : String) : Option SlotId :=
  (st.chain scope).findSome? fun s => (st.bindingsOf s).find? name

def valueOf? (st : Store) (scope : ScopeId) (name : String) : Option Value :=
  (st.slotOf? scope name).bind (st.slots[·]?)

def bindsLocally (st : Store) (scope : ScopeId) (name : String) : Bool :=
  ((st.bindingsOf scope).find? name).isSome

/-- The bindings visible from a scope. -/
def visible (st : Store) (scope : ScopeId) : Bindings :=
  (st.chain scope).foldr (fun s outer => (st.bindingsOf s).shadow outer) {}

/-- The names visible from a scope with their values, in increasing order of the names. -/
def visibleValues (st : Store) (scope : ScopeId) : List (String × Value) :=
  (st.visible scope).entries.filterMap fun (name, slot) =>
    st.slots[slot]?.map fun v => (name, v)

/-! ## Changing the store -/

/-- An empty scope inside `parent?`. -/
def newScope (st : Store) (parent? : Option ScopeId) : ScopeId × Store :=
  (st.scopes.size, { st with scopes := st.scopes.push { parent? } })

def newSlot (st : Store) (v : Value) : SlotId × Store :=
  (st.slots.size, { st with slots := st.slots.push v })

/-- Makes a name of a scope refer to a slot. -/
def bindSlot (st : Store) (scope : ScopeId) (name : String) (slot : SlotId) : Store :=
  { st with
    scopes := st.scopes.modify scope fun s => { s with bindings := s.bindings.insert name slot } }

/-- Makes a name of a scope refer to a new slot that holds `v`. -/
def bind (st : Store) (scope : ScopeId) (name : String) (v : Value) : Store :=
  let (slot, st) := st.newSlot v
  st.bindSlot scope name slot

def setSlot (st : Store) (slot : SlotId) (v : Value) : Store :=
  { st with slots := st.slots.setIfInBounds slot v }

/-- Overwrites the slot that a name refers to, if there is one. -/
def assign? (st : Store) (scope : ScopeId) (name : String) (v : Value) : Option Store :=
  (st.slotOf? scope name).map fun slot => st.setSlot slot v

/-! ## Placing values

`place` gives a mark to each pair that has none yet. Pairs that have one are in the store, with
all that is inside them. -/

/-- Gives marks to the new pairs of a chain; `elements` are those before it, last first. -/
def placeFrom (mark : Nat) (elements : List Value) : Value → Value × Nat
  | .pair none a d =>
    let (a, mark) := placeFrom mark [] a
    placeFrom mark (a :: elements) d
  | v =>
    elements.foldl (fun (rest, mark) element => (.pair (some mark) element rest, mark + 1))
      (v, mark)

def place (st : Store) (v : Value) : Value × Store :=
  let (v, mark) := placeFrom st.marks [] v
  (v, { st with marks := mark })

/-! ## Elementary laws -/

theorem chain_eq (st : Store) (scope : ScopeId) :
    st.chain scope = scope :: match st.parentOf? scope with
      | some parent => if parent < scope then st.chain parent else []
      | none => [] := by
  rw [chain]

theorem bindingsOf_bindSlot (st : Store) (scope other : ScopeId) (name : String)
    (slot : SlotId) (h : scope < st.scopes.size) :
    (st.bindSlot scope name slot).bindingsOf other =
      if scope = other then (st.bindingsOf other).insert name slot else st.bindingsOf other := by
  by_cases ho : scope = other
  · subst ho
    simp [bindSlot, bindingsOf, Array.getElem?_modify, Array.getElem?_eq_getElem h]
  · simp [bindSlot, bindingsOf, Array.getElem?_modify, ho]

theorem parentOf?_bindSlot (st : Store) (scope other : ScopeId) (name : String)
    (slot : SlotId) : (st.bindSlot scope name slot).parentOf? other = st.parentOf? other := by
  by_cases ho : scope = other
  · subst ho
    cases h : st.scopes[scope]? <;> simp [bindSlot, parentOf?, Array.getElem?_modify, h]
  · simp [bindSlot, parentOf?, Array.getElem?_modify, ho]

end Store

end SlotLisp
