import SlotLisp.Eval
import SlotLisp.Proofs.Store.Growth
import SlotLisp.Proofs.Value.Parts

/-!
# Functions of a host

What a host's own functions do is outside the language, and most of the theory holds whatever they
do. Where it does not, what is asked of them has a name. `Host.Lawful` is what the interface of the
language leaves a host to do: it can add to a store and overwrite slots, but it takes nothing away
and makes no closure of its own. `Host.Detached` is what the builtin operations keep to: they work
on their arguments alone.
-/

namespace SlotLisp

/-- The store that a run leaves, whether it succeeds or fails. -/
def Run.leaves {α : Type} (act : Run α) (st : Store) : Store :=
  match act st with
  | .ok _ st' => st'
  | .error _ st' => st'

namespace Store

/-- A closure of this store, with parameters that `lambda` admits. -/
def Made (st : Store) (params _body : Value) (scope : ScopeId) : Prop :=
  scope < st.scopes.size ∧ ∃ operands, checkParameters operands [] params = .ok ()

variable {st st' : Store}

theorem Made.mono (h : st.Grows st') {params body : Value} {scope : ScopeId}
    (hmade : st.Made params body scope) : st'.Made params body scope :=
  ⟨Nat.lt_of_lt_of_le hmade.1 h.scopes, hmade.2⟩

theorem closures_made_mono (h : st.Grows st') {v : Value} (hv : v.Closures st.Made) :
    v.Closures st'.Made :=
  hv.mono fun _ _ _ => Made.mono h

/-- The closures in the slots of a store satisfy `C`. -/
def Closures (st : Store) (C : Value → Value → ScopeId → Prop) : Prop :=
  ∀ (slot : SlotId) (v : Value), st.slots[slot]? = some v → v.Closures C

/-- The store with the marks and the notes of another one. -/
def recording (st : Store) (marks : Nat) (notes : Array String) : Store := { st with marks, notes }

theorem recording_of_eq (hmarks : st'.marks = st.marks) (hnotes : st'.notes = st.notes) :
    st'.recording st.marks st.notes = st' := by
  rw [← hmarks, ← hnotes]
  rfl

end Store

/-- The same end, with its marks and notes, but in the scopes and slots of `st`. -/
def Run.endIn {α : Type} (st : Store) :
    EStateM.Result Error Store α → EStateM.Result Error Store α
  | .ok a st' => .ok a (st.recording st'.marks st'.notes)
  | .error e st' => .error e (st.recording st'.marks st'.notes)

namespace Host

section Laws

variable [Host]

/-- What a discipline asks of a host. Whatever function is called, `Inv` is kept, the store only
grows, and the closures in a result satisfy `C` if those in the arguments do. -/
def Keeps (Inv : Store → Prop) (C : Store → Value → Value → ScopeId → Prop) : Prop :=
  ∀ key args st, Inv st → (∀ v ∈ args, v.Closures (C st)) →
    Inv ((call key args).leaves st) ∧ st.Grows ((call key args).leaves st) ∧
      ∀ v st', call key args st = .ok v st' → v.Closures (C st')

/-- What every host does, since the interface of the language offers no more: no scope, slot or name
is taken away, and scopes keep their parents; a new scope has a parent that is there, and a name
refers to a slot that is there; and only `lambda` makes closures, so that every closure in the
result of a call or in a slot after it is one that `lambda` makes, or it was in an argument or in a
slot before. -/
class Lawful : Prop where
  grows (key : String) (args : List Value) (st : Store) : st.Grows ((call key args).leaves st)
  tree (key : String) (args : List Value) {st : Store} :
    st.IsTree → ((call key args).leaves st).IsTree
  closures (key : String) {args : List Value} {st : Store} {C : Value → Value → ScopeId → Prop} :
    (∀ params body scope, ((call key args).leaves st).Made params body scope →
      C params body scope) →
    (∀ v ∈ args, v.Closures C) → st.Closures C →
      ((call key args).leaves st).Closures C ∧
        ∀ v st', call key args st = .ok v st' → v.Closures C

/-- The functions of the host work on their arguments alone, as the builtin operations do: a call
leaves scopes and slots as they are, its end depends on nothing in the store but marks and notes,
and the closures in a result were in the arguments. -/
class Detached : Prop where
  acts (key : String) (args : List Value) {st st' : Store} :
    st'.marks = st.marks → st'.notes = st.notes →
      call key args st' = Run.endIn st' (call key args st)
  closures (key : String) {args : List Value} {st st' : Store} {v : Value}
    {C : Value → Value → ScopeId → Prop} :
    (∀ w ∈ args, w.Closures C) → call key args st = .ok v st' → v.Closures C

end Laws

/-! ## Functions that work on their arguments alone -/

section Detached

variable [Host] [Host.Detached] (key : String) (args : List Value) (st : Store)

theorem leaves_eq_recording :
    ∃ marks notes, (call key args).leaves st = st.recording marks notes := by
  have hacts := Detached.acts key args (rfl : st.marks = st.marks) rfl
  cases hcall : call key args st with
  | ok v st' =>
    rw [hcall] at hacts
    refine ⟨st'.marks, st'.notes, ?_⟩
    simp only [Run.leaves, hcall]
    exact (EStateM.Result.ok.inj hacts).2
  | error e st' =>
    rw [hcall] at hacts
    refine ⟨st'.marks, st'.notes, ?_⟩
    simp only [Run.leaves, hcall]
    exact (EStateM.Result.error.inj hacts).2

theorem scopes_of_detached : ((call key args).leaves st).scopes = st.scopes := by
  obtain ⟨marks, notes, h⟩ := leaves_eq_recording key args st
  rw [h]
  rfl

theorem slots_of_detached : ((call key args).leaves st).slots = st.slots := by
  obtain ⟨marks, notes, h⟩ := leaves_eq_recording key args st
  rw [h]
  rfl

/-- An invariant of scopes and slots is kept, whatever closures it is about. -/
theorem keeps_of_detached {Inv : Store → Prop} {C : Store → Value → Value → ScopeId → Prop}
    (content : ∀ {st st' : Store},
      Inv st → st'.scopes = st.scopes → st'.slots = st.slots → Inv st')
    (mono : ∀ {st st' : Store} {params body : Value} {scope : ScopeId},
      st.Grows st' → C st params body scope → C st' params body scope) : Keeps Inv C := by
  intro key args st hinv hargs
  have hgrows : st.Grows ((call key args).leaves st) :=
    .of_content (scopes_of_detached key args st) (slots_of_detached key args st)
  refine ⟨content hinv (scopes_of_detached key args st) (slots_of_detached key args st), hgrows,
    fun v st' hcall => ?_⟩
  simp only [Run.leaves, hcall] at hgrows
  exact (Detached.closures key hargs hcall).mono fun _ _ _ => mono hgrows

instance lawful_of_detached : Host.Lawful where
  grows key args st :=
    .of_content (scopes_of_detached key args st) (slots_of_detached key args st)
  tree key args st h := by
    have hscopes := scopes_of_detached key args st
    refine ⟨?_, ?_⟩
    · rw [Store.parentOf?_congr hscopes]
      exact h.parents
    · rw [Store.bindingsOf_congr hscopes, slots_of_detached]
      exact h.slots
  closures key args st C _ hargs hslots := by
    refine ⟨?_, fun v st' hcall => Detached.closures key hargs hcall⟩
    rw [Store.Closures, slots_of_detached]
    exact hslots

end Detached

section Empty

attribute [local instance] empty

/-- What holds with every host of this kind holds where there are only the builtin operations. -/
instance detached_empty : Detached where
  acts key args st st' hmarks hnotes := by
    have hsame := Store.recording_of_eq hmarks hnotes
    exact congrArg (EStateM.Result.error (Error.unbound key)) hsame.symm
  closures _ _ _ _ _ _ _ hcall := by cases hcall

end Empty

/-! ## A host with two functions -/

theorem closures_headD {C : Value → Value → ScopeId → Prop} {args : List Value}
    (h : ∀ v ∈ args, v.Closures C) : (args.headD .nil).Closures C := by
  cases args with
  | nil => trivial
  | cons v vs => exact h v List.mem_cons_self

/-- Keeps the texts of the arguments, and returns the first one. -/
def note (args : List Value) : Run Value := fun st =>
  .ok (args.headD .nil) { st with notes := st.notes ++ (args.map Value.text).toArray }

def twice (args : List Value) : Run Value :=
  match args with
  | [.int n] => return .int (n + n)
  | _ => Run.fail (.reported .typeMismatch "expected one integer")

/-- `note` under its own key, and `twice` under every other one. -/
@[reducible] def sample : Host where
  call key := if key = "note" then note else twice

theorem twice_eq (args : List Value) :
    (∃ n, twice args = pure (.int n)) ∨ ∃ p, twice args = Run.fail p := by
  unfold twice
  split
  · exact .inl ⟨_, rfl⟩
  · exact .inr ⟨_, rfl⟩

section Sample

attribute [local instance] sample

instance detached_sample : Detached where
  acts key args st st' hmarks hnotes := by
    by_cases hkey : key = "note"
    · simp only [call, if_pos hkey, note, Run.endIn, Store.recording, hmarks, hnotes]
    · simp only [call, if_neg hkey]
      have hsame := Store.recording_of_eq hmarks hnotes
      obtain ⟨n, h⟩ | ⟨p, h⟩ := twice_eq args <;> rw [h]
      · exact congrArg (EStateM.Result.ok (Value.int n)) hsame.symm
      · exact congrArg (EStateM.Result.error (Error.mk p none)) hsame.symm
  closures key args st st' v C hargs hcall := by
    by_cases hkey : key = "note"
    · simp only [call, if_pos hkey] at hcall
      obtain rfl := (EStateM.Result.ok.inj hcall).1
      exact closures_headD hargs
    · simp only [call, if_neg hkey] at hcall
      obtain ⟨n, h⟩ | ⟨p, h⟩ := twice_eq args <;> rw [h] at hcall
      · obtain rfl := (EStateM.Result.ok.inj hcall).1
        trivial
      · cases hcall

end Sample

/-! ## A host with an environment -/

/-- The host keeps the first environment. Each function binds its key there. -/
@[reducible] def keeper : Host where
  call key args := do
    Run.bind 0 key (args.headD .nil)
    return .nil

section Keeper

attribute [local instance] keeper

theorem leaves_keeper (key : String) (args : List Value) (st : Store) :
    (call key args).leaves st = st.bind 0 key (args.headD .nil) := rfl

instance lawful_keeper : Host.Lawful where
  grows key args st := by
    rw [leaves_keeper]
    exact .bind st 0 key (args.headD .nil)
  tree key args st h := by
    rw [leaves_keeper]
    exact h.bind 0 key (args.headD .nil)
  closures key args st C _ hargs hslots := by
    rw [leaves_keeper]
    refine ⟨fun slot v hv => ?_, fun v st' hcall => ?_⟩
    · obtain rfl | hold := Store.content_newSlot hv
      · exact closures_headD hargs
      · exact hslots slot v hold
    · obtain rfl := (EStateM.Result.ok.inj hcall).1
      trivial

end Keeper

end Host

end SlotLisp
