import SlotLisp.Builtin.Apply
import SlotLisp.Store
import SlotLisp.Value.Printer

/-!
# Runs

A `Run` works on a store and ends with a result or an error; either way the store keeps what was
done to it up to then. This module has the elementary runs, which the evaluator puts together.
-/

namespace SlotLisp

abbrev Run := EStateM Error Store

namespace Run

def fail {α : Type} (p : Problem) : Run α := throw ⟨p, none⟩

def ofOutcome {α : Type} : Outcome α → Run α
  | .ok a => pure a
  | .error e => throw e

/-- Names `form` in the error with which `act` may fail. -/
@[inline] def within {α : Type} (form : Value) (act : Run α) : Run α := fun st =>
  match act st with
  | .ok a st => .ok a st
  | .error e st => .error (e.within form) st

def lookup (env : ScopeId) (name : String) : Run Value := fun st =>
  match st.valueOf? env name with
  | some v => .ok v st
  | none => .error (.unbound name) st

def lookupSlot (env : ScopeId) (name : String) : Run SlotId := fun st =>
  match st.slotOf? env name with
  | some slot => .ok slot st
  | none => .error (.unbound name) st

def bind (env : ScopeId) (name : String) (v : Value) : Run Unit :=
  fun st => .ok () (st.bind env name v)

def bindSlot (env : ScopeId) (name : String) (slot : SlotId) : Run Unit :=
  fun st => .ok () (st.bindSlot env name slot)

def assign (env : ScopeId) (name : String) (v : Value) : Run Unit := fun st =>
  match st.assign? env name v with
  | some st => .ok () st
  | none => .error (.unbound name) st

def newScope (parent? : Option ScopeId) : Run ScopeId := fun st =>
  let (scope, st) := st.newScope parent?
  .ok scope st

def newMark : Run Nat := fun st => .ok st.marks { st with marks := st.marks + 1 }

def place (v : Value) : Run Value := fun st =>
  let (v, st) := st.place v
  .ok v st

theorem within_of_ok {α : Type} {act : Run α} {st st' : Store} {a : α} (form : Value)
    (h : act st = .ok a st') : within form act st = .ok a st' := by
  rw [within, h]

theorem within_of_error {α : Type} {act : Run α} {st st' : Store} {e : Error} (form : Value)
    (h : act st = .error e st') : within form act st = .error (e.within form) st' := by
  rw [within, h]

theorem exists_of_bind_ok {α β : Type} {act : Run α} {next : α → Run β} {st st' : Store} {b : β}
    (h : (act >>= next) st = .ok b st') :
    ∃ a st₁, act st = .ok a st₁ ∧ next a st₁ = .ok b st' := by
  simp only [Bind.bind, EStateM.bind] at h
  cases hact : act st with
  | ok a st₁ =>
    rw [hact] at h
    exact ⟨a, st₁, rfl, h⟩
  | error e st₁ =>
    rw [hact] at h
    cases h

theorem lookupSlot_of_bound {st : Store} {env : ScopeId} {name : String} {slot : SlotId}
    (h : st.slotOf? env name = some slot) :
    (lookupSlot env name : Run SlotId) st = .ok slot st := by
  rw [lookupSlot, h]

theorem lookupSlot_of_unbound {st : Store} {env : ScopeId} {name : String}
    (h : st.slotOf? env name = none) :
    (lookupSlot env name : Run SlotId) st = .error (.unbound name) st := by
  rw [lookupSlot, h]

end Run

/-! ## Calling native functions -/

/-- The functions of a host, each under a key. They are code outside the language and may be
anything that comes to an end: they may keep environments and change what these hold, evaluate, and
have a state of their own in the notes. -/
class Host where
  call (key : String) (args : List Value) : Run Value

/-- A host without functions of its own. -/
@[reducible] def Host.empty : Host where
  call key _ := throw (.unbound key)

def Native.call [Host] : Native → List Value → Run Value
  | builtin op, args => do Run.place (← Run.ofOutcome (op.run args))
  | host _ key, args => do Run.place (← Host.call key args)

end SlotLisp
