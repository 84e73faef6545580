import Mathlib.Logic.Relation
import SlotLisp.Proofs.Store.Growth

/-!
# Writes, and who sees them

A look-up goes outwards to the first scope that binds the name (`ComesTo`). A binding is seen from
its scope and from those inside, as far as no scope in between binds the name itself. An assignment
is seen through every name that refers to the same slot. Nothing else is seen to change
(`writes_are_seen_where_names_lead`).
-/

namespace SlotLisp

/-- What a run yields, whatever it does to the store. -/
def Run.yields {α : Type} (act : Run α) (st : Store) : Outcome α :=
  match act st with
  | .ok a _ => .ok a
  | .error e _ => .error e

namespace Store

/-- `outer` is `inner` itself, its parent, or lies further outwards. -/
def Outwards (st : Store) : ScopeId → ScopeId → Prop :=
  Relation.ReflTransGen fun inner outer => st.parentOf? inner = some outer

/-- Looked up from `inner`, the name is looked for in `scope`: this lies outwards from there, and no
scope nearer to `inner` binds the name. -/
inductive ComesTo (st : Store) (name : String) (scope : ScopeId) : (inner : ScopeId) → Prop
  | own : ComesTo st name scope scope
  | outwards {inner parent : ScopeId} (unbound : (st.bindingsOf inner).find? name = none)
      (hparent : st.parentOf? inner = some parent) (further : ComesTo st name scope parent) :
      ComesTo st name scope inner

/-- Through the names that `seen` holds of, `look` yields `a` after the change, and through every
other name what it yielded before. -/
def SeenThrough {α : Type} (look : ScopeId → String → Run α) (st st' : Store)
    (seen : ScopeId → String → Prop) (a : α) : Prop :=
  ∀ scope name, (seen scope name → (look scope name).yields st' = .ok a) ∧
    (¬ seen scope name → (look scope name).yields st' = (look scope name).yields st)

/-- The two names, each looked up from its scope, refer to one slot. -/
def SameSlot (st : Store) (scope : ScopeId) (name : String) (inner : ScopeId) (other : String) :
    Prop :=
  ∃ slot, (Run.lookupSlot scope name).yields st = .ok slot ∧
    (Run.lookupSlot inner other).yields st = .ok slot

variable {st st' : Store} {scope inner : ScopeId} {name other : String} {slot : SlotId}
  {v : Value}

/-! ## Look-ups -/

theorem yields_lookup : (Run.lookup scope name).yields st =
    match st.valueOf? scope name with
    | some v => .ok v
    | none => .error (.unbound name) := by
  unfold Run.yields Run.lookup
  cases st.valueOf? scope name <;> rfl

theorem yields_lookupSlot : (Run.lookupSlot scope name).yields st =
    match st.slotOf? scope name with
    | some slot => .ok slot
    | none => .error (.unbound name) := by
  unfold Run.yields Run.lookupSlot
  cases st.slotOf? scope name <;> rfl

theorem yields_lookup_eq_ok_iff :
    (Run.lookup scope name).yields st = .ok v ↔ st.valueOf? scope name = some v := by
  rw [yields_lookup]
  cases st.valueOf? scope name <;> simp

theorem yields_lookupSlot_eq_ok_iff :
    (Run.lookupSlot scope name).yields st = .ok slot ↔ st.slotOf? scope name = some slot := by
  rw [yields_lookupSlot]
  cases st.slotOf? scope name <;> simp

theorem yields_lookup_congr (h : st'.valueOf? scope name = st.valueOf? scope name) :
    (Run.lookup scope name).yields st' = (Run.lookup scope name).yields st := by
  rw [yields_lookup, yields_lookup, h]

theorem yields_lookupSlot_congr (h : st'.slotOf? scope name = st.slotOf? scope name) :
    (Run.lookupSlot scope name).yields st' = (Run.lookupSlot scope name).yields st := by
  rw [yields_lookupSlot, yields_lookupSlot, h]

theorem ComesTo.lies_outwards (h : st.ComesTo name scope inner) : st.Outwards inner scope := by
  induction h with
  | own => exact .refl
  | outwards _ hparent _ ih => exact .head hparent ih

namespace IsTree

variable (h : st.IsTree)

include h

/-- Induction from a root inwards. -/
theorem scope_induction {motive : ScopeId → Prop}
    (step : ∀ scope, (∀ parent, st.parentOf? scope = some parent → motive parent) → motive scope)
    (scope : ScopeId) : motive scope := by
  induction scope using Nat.strongRecOn with
  | ind scope ih =>
    exact step scope fun parent hparent => ih parent (h.parents scope parent hparent)

/-- The slot that a look-up finds is the one of the first scope that binds the name. -/
theorem slotOf?_eq_some_iff : st.slotOf? inner name = some slot ↔
    ∃ scope, st.ComesTo name scope inner ∧ (st.bindingsOf scope).find? name = some slot := by
  constructor
  · induction inner using h.scope_induction with
    | step inner ih =>
      intro hslot
      rw [h.slotOf?_eq] at hslot
      cases hfind : (st.bindingsOf inner).find? name with
      | some own =>
        rw [hfind] at hslot
        exact ⟨inner, .own, hfind.trans hslot⟩
      | none =>
        rw [hfind, Option.none_or] at hslot
        obtain ⟨parent, hparent, hslot⟩ := Option.bind_eq_some_iff.1 hslot
        obtain ⟨scope, hcomes, hscope⟩ := ih parent hparent hslot
        exact ⟨scope, .outwards hfind hparent hcomes, hscope⟩
  · rintro ⟨scope, hcomes, hscope⟩
    induction hcomes with
    | own => rw [h.slotOf?_eq, hscope, Option.some_or]
    | outwards unbound hparent _ ih => rw [h.slotOf?_eq, unbound, hparent, Option.none_or]; exact ih

theorem slotOf?_isSome_iff : (st.slotOf? inner name).isSome = true ↔
    ∃ scope, st.Outwards inner scope ∧ st.bindsLocally scope name = true := by
  constructor
  · intro hslot
    obtain ⟨slot, hslot⟩ := Option.isSome_iff_exists.1 hslot
    obtain ⟨scope, hcomes, hscope⟩ := h.slotOf?_eq_some_iff.1 hslot
    exact ⟨scope, hcomes.lies_outwards, by rw [bindsLocally, hscope]; rfl⟩
  · rintro ⟨scope, houtwards, hscope⟩
    induction houtwards using Relation.ReflTransGen.head_induction_on with
    | refl =>
      obtain ⟨slot, hslot⟩ := Option.isSome_iff_exists.1 hscope
      rw [h.slotOf?_eq, hslot]
      rfl
    | head hparent _ ih =>
      rw [h.slotOf?_eq, hparent, Option.bind_some]
      cases (st.bindingsOf _).find? name with
      | some slot => rfl
      | none => exact ih

/-- A look-up yields what the slot holds that the nearest scope binds the name to. -/
theorem yields_lookup_eq_ok_iff : (Run.lookup inner name).yields st = .ok v ↔
    ∃ scope slot, st.ComesTo name scope inner ∧
      (st.bindingsOf scope).find? name = some slot ∧ st.slots[slot]? = some v := by
  rw [Store.yields_lookup_eq_ok_iff, valueOf?, Option.bind_eq_some_iff]
  constructor
  · rintro ⟨slot, hslot, hv⟩
    obtain ⟨scope, hcomes, hscope⟩ := h.slotOf?_eq_some_iff.1 hslot
    exact ⟨scope, slot, hcomes, hscope, hv⟩
  · rintro ⟨scope, slot, hcomes, hscope, hv⟩
    exact ⟨slot, h.slotOf?_eq_some_iff.2 ⟨scope, hcomes, hscope⟩, hv⟩

theorem yields_lookup_eq_unbound_iff :
    (Run.lookup inner name).yields st = .error (.unbound name) ↔
      ∀ scope, st.Outwards inner scope → st.bindsLocally scope name = false := by
  have hbound : (st.slotOf? inner name).isSome = false ↔
      ∀ scope, st.Outwards inner scope → st.bindsLocally scope name = false := by
    rw [← Bool.not_eq_true, h.slotOf?_isSome_iff]
    simp
  rw [← hbound, yields_lookup, valueOf?]
  cases hfind : st.slotOf? inner name with
  | none => simp
  | some slot => simp [h.slot_lt hfind]

end IsTree

/-! ## Bindings -/

theorem IsTree.slotOf?_bindSlot_eq (h : st.IsTree) :
    (st.bindSlot scope name slot).slotOf? inner other =
      (if scope = inner ∧ scope < st.scopes.size ∧ name = other then some slot
        else (st.bindingsOf inner).find? other).or
        ((st.parentOf? inner).bind ((st.bindSlot scope name slot).slotOf? · other)) := by
  have hparent : ∀ parent, (st.bindSlot scope name slot).parentOf? inner = some parent →
      parent < inner := by
    rw [parentOf?_bindSlot]
    exact h.parents inner
  rw [Store.slotOf?_eq hparent, find?_bindSlot, parentOf?_bindSlot]

/-- A binding is what a look-up finds that comes to its scope. -/
theorem IsTree.slotOf?_bindSlot_of_comesTo (h : st.IsTree) (hscope : scope < st.scopes.size)
    (hcomes : st.ComesTo name scope inner) :
    (st.bindSlot scope name slot).slotOf? inner name = some slot := by
  induction hcomes with
  | own => rw [h.slotOf?_bindSlot_eq, if_pos ⟨rfl, hscope, rfl⟩, Option.some_or]
  | @outwards inner parent unbound hparent _ ih =>
    rw [h.slotOf?_bindSlot_eq, unbound, hparent, Option.bind_some, ih]
    split <;> rfl

/-- A look-up of another name, or one that does not come to the scope, finds what it found. -/
theorem IsTree.slotOf?_bindSlot_of_not (h : st.IsTree)
    (hnot : ¬ (other = name ∧ st.ComesTo name scope inner)) :
    (st.bindSlot scope name slot).slotOf? inner other = st.slotOf? inner other := by
  induction inner using h.scope_induction with
  | step inner ih =>
    have hown : ¬ (scope = inner ∧ scope < st.scopes.size ∧ name = other) := by
      rintro ⟨rfl, -, rfl⟩
      exact hnot ⟨rfl, .own⟩
    rw [h.slotOf?_bindSlot_eq, if_neg hown, h.slotOf?_eq inner]
    cases hfind : (st.bindingsOf inner).find? other with
    | some slot => rfl
    | none =>
      cases hparent : st.parentOf? inner with
      | none => rfl
      | some parent =>
        refine ih parent hparent fun hboth => hnot ⟨hboth.1, ?_⟩
        exact .outwards (hboth.1 ▸ hfind) hparent hboth.2

/-- A value is bound by way of a new slot, which no name referred to before. -/
theorem slotOf?_bind : (st.bind scope name v).slotOf? inner other =
    (st.bindSlot scope name st.slots.size).slotOf? inner other := by
  refine slotOf?_congr ?_ inner other
  rfl

theorem IsTree.valueOf?_bind_of_comesTo (h : st.IsTree) (hscope : scope < st.scopes.size)
    (hcomes : st.ComesTo name scope inner) :
    (st.bind scope name v).valueOf? inner name = some v := by
  rw [valueOf?, slotOf?_bind, h.slotOf?_bindSlot_of_comesTo hscope hcomes, Option.bind_some,
    slots_bind, Array.getElem?_push_size]

theorem IsTree.valueOf?_bind_of_not (h : st.IsTree)
    (hnot : ¬ (other = name ∧ st.ComesTo name scope inner)) :
    (st.bind scope name v).valueOf? inner other = st.valueOf? inner other := by
  rw [valueOf?, valueOf?, slotOf?_bind, h.slotOf?_bindSlot_of_not hnot]
  cases hfind : st.slotOf? inner other with
  | none => rfl
  | some slot =>
    rw [Option.bind_some, Option.bind_some, slots_bind,
      Array.getElem?_push_lt (h.slot_lt hfind), Array.getElem?_eq_getElem (h.slot_lt hfind)]

/-- The names through which a binding is seen: those that a look-up comes to its scope with. -/
theorem IsTree.seenThrough_bind (h : st.IsTree) (hscope : scope < st.scopes.size) :
    SeenThrough Run.lookup st (st.bind scope name v)
      (fun inner other => other = name ∧ st.ComesTo name scope inner) v := by
  intro inner other
  constructor
  · rintro ⟨rfl, hcomes⟩
    exact Store.yields_lookup_eq_ok_iff.2 (h.valueOf?_bind_of_comesTo hscope hcomes)
  · intro hnot
    exact yields_lookup_congr (h.valueOf?_bind_of_not hnot)

theorem IsTree.seenThrough_bindSlot (h : st.IsTree) (hscope : scope < st.scopes.size) :
    SeenThrough Run.lookupSlot st (st.bindSlot scope name slot)
      (fun inner other => other = name ∧ st.ComesTo name scope inner) slot := by
  intro inner other
  constructor
  · rintro ⟨rfl, hcomes⟩
    rw [yields_lookupSlot, h.slotOf?_bindSlot_of_comesTo hscope hcomes]
  · intro hnot
    exact yields_lookupSlot_congr (h.slotOf?_bindSlot_of_not hnot)

/-! ## Assignments -/

theorem valueOf?_setSlot_of_ne (hne : st.slotOf? inner other ≠ some slot) :
    (st.setSlot slot v).valueOf? inner other = st.valueOf? inner other := by
  rw [valueOf?, valueOf?, slotOf?_setSlot]
  cases hfind : st.slotOf? inner other with
  | none => rfl
  | some slot' =>
    refine content_setSlot_of_ne fun heq => hne ?_
    rw [hfind, heq]

theorem assign_of_bound (hslot : st.slotOf? scope name = some slot) :
    Run.assign scope name v st = .ok () (st.setSlot slot v) := by
  rw [Run.assign, assign?, hslot]
  rfl

theorem assign_of_unbound (hslot : st.slotOf? scope name = none) :
    Run.assign scope name v st = .error (.unbound name) st := by
  rw [Run.assign, assign?, hslot]
  rfl

/-- An assignment is made to the slot that the name refers to; without one, it is not made. -/
theorem assign_eq_ok_iff : Run.assign scope name v st = .ok () st' ↔
    ∃ slot, st.slotOf? scope name = some slot ∧ st' = st.setSlot slot v := by
  cases hslot : st.slotOf? scope name with
  | some slot =>
    rw [assign_of_bound hslot]
    simp [eq_comm]
  | none =>
    rw [assign_of_unbound hslot]
    simp

theorem IsTree.assign_succeeds_iff (h : st.IsTree) :
    (∃ st', Run.assign scope name v st = .ok () st') ↔
      ∃ outer, st.Outwards scope outer ∧ st.bindsLocally outer name = true := by
  rw [← h.slotOf?_isSome_iff, Option.isSome_iff_exists]
  constructor
  · rintro ⟨st', hassign⟩
    obtain ⟨slot, hslot, -⟩ := assign_eq_ok_iff.1 hassign
    exact ⟨slot, hslot⟩
  · rintro ⟨slot, hslot⟩
    exact ⟨_, assign_of_bound hslot⟩

theorem sameSlot_iff (hslot : st.slotOf? scope name = some slot) :
    st.SameSlot scope name inner other ↔ st.slotOf? inner other = some slot := by
  simp [SameSlot, yields_lookupSlot_eq_ok_iff, hslot]

/-- The names through which an assignment is seen: those that refer to the same slot. -/
theorem IsTree.seenThrough_assign (h : st.IsTree)
    (hassign : Run.assign scope name v st = .ok () st') :
    SeenThrough Run.lookup st st' (st.SameSlot scope name) v := by
  obtain ⟨slot, hslot, rfl⟩ := assign_eq_ok_iff.1 hassign
  intro inner other
  rw [sameSlot_iff hslot]
  constructor
  · intro hother
    exact Store.yields_lookup_eq_ok_iff.2 (valueOf?_setSlot (h.slot_lt hslot) hother)
  · intro hother
    exact yields_lookup_congr (valueOf?_setSlot_of_ne hother)

/-! ## The law -/

/-- A look-up yields what the slot holds that the nearest scope binds the name to. A binding, of a
value or of a slot, is seen in the same places: under its name, where no nearer scope binds it. An
assignment goes through where the name is bound, and is seen wherever its slot is. -/
theorem writes_are_seen_where_names_lead {st : Store} (h : st.IsTree) {scope : ScopeId}
    (hscope : scope < st.scopes.size) {slot : SlotId} (hslot : slot < st.slots.size)
    (name : String) (v : Value) :
    (∀ inner other,
      (∀ w, (Run.lookup inner other).yields st = .ok w ↔ ∃ s slot, st.ComesTo other s inner ∧
        (st.bindingsOf s).find? other = some slot ∧ st.slots[slot]? = some w) ∧
      ((Run.lookup inner other).yields st = .error (.unbound other) ↔
        ∀ s, st.Outwards inner s → st.bindsLocally s other = false)) ∧
    (∃ st', Run.bind scope name v st = .ok () st' ∧ st'.IsTree ∧
      SeenThrough Run.lookup st st'
        (fun inner other => other = name ∧ st.ComesTo name scope inner) v) ∧
    (∃ st', Run.bindSlot scope name slot st = .ok () st' ∧ st'.IsTree ∧
      SeenThrough Run.lookupSlot st st'
        (fun inner other => other = name ∧ st.ComesTo name scope inner) slot ∧
      st'.slots = st.slots) ∧
    ((∃ st', Run.assign scope name v st = .ok () st') ↔
      ∃ s, st.Outwards scope s ∧ st.bindsLocally s name = true) ∧
    (∀ st', Run.assign scope name v st = .ok () st' → st'.IsTree ∧
      SeenThrough Run.lookup st st' (st.SameSlot scope name) v ∧
      ∀ inner other,
        (Run.lookupSlot inner other).yields st' = (Run.lookupSlot inner other).yields st) ∧
    (∀ e st', Run.assign scope name v st = .error e st' → st' = st ∧ e = .unbound name) := by
  refine ⟨fun inner other => ⟨fun w => h.yields_lookup_eq_ok_iff, h.yields_lookup_eq_unbound_iff⟩,
    ⟨_, rfl, h.bind scope name v, h.seenThrough_bind hscope⟩,
    ⟨_, rfl, h.bindSlot hslot scope name, h.seenThrough_bindSlot hscope, rfl⟩,
    h.assign_succeeds_iff, fun st' hassign => ⟨?_, h.seenThrough_assign hassign, ?_⟩, ?_⟩
  · obtain ⟨slot, -, rfl⟩ := assign_eq_ok_iff.1 hassign
    exact h.setSlot slot v
  · obtain ⟨slot, -, rfl⟩ := assign_eq_ok_iff.1 hassign
    exact fun inner other => yields_lookupSlot_congr (slotOf?_setSlot slot v)
  · intro e st' hassign
    cases hfind : st.slotOf? scope name with
    | some slot =>
      rw [assign_of_bound hfind] at hassign
      cases hassign
    | none =>
      rw [assign_of_unbound hfind] at hassign
      cases hassign
      exact ⟨rfl, rfl⟩

/-- An outer `x` and an inner `y` that refer to one slot. -/
def aliased : Store :=
  ((({} : Store).newScope none).2.newScope (some 0)).2.bind 0 "x" .nil |>.bindSlot 1 "y" 0

theorem aliased_isTree : aliased.IsTree := by
  refine IsTree.bindSlot (IsTree.bind ((IsTree.empty.newScope ?_).newScope ?_) 0 "x" .nil) ?_ 1 "y"
  · rintro parent ⟨⟩
  · rintro parent ⟨⟩
    decide
  · decide

/-- What is assigned to the inner `y` is read as the outer `x`, but not what a new inner `x` is
bound to. -/
theorem aliased_writes :
    (∃ st', Run.assign 1 "y" (.bool true) aliased = .ok () st' ∧
      (Run.lookup 0 "x").yields st' = .ok (.bool true)) ∧
    ∃ st', Run.bind 1 "x" (.bool true) aliased = .ok () st' ∧
      (Run.lookup 1 "x").yields st' = .ok (.bool true) ∧
      (Run.lookup 0 "x").yields st' = (Run.lookup 0 "x").yields aliased := by
  have hscope : 1 < aliased.scopes.size := by decide
  have hslot : 0 < aliased.slots.size := by decide
  obtain ⟨-, -, -, hsucceeds, hassigned, -⟩ :=
    writes_are_seen_where_names_lead aliased_isTree hscope hslot "y" (.bool true)
  obtain ⟨-, ⟨st', hbind, -, hbound⟩, -⟩ :=
    writes_are_seen_where_names_lead aliased_isTree hscope hslot "x" (.bool true)
  constructor
  · obtain ⟨st', hassign⟩ := hsucceeds.2 ⟨1, .refl, by decide⟩
    have hsame : aliased.SameSlot 1 "y" 0 "x" := by
      refine ⟨0, ?_, ?_⟩ <;> rw [yields_lookupSlot_eq_ok_iff, aliased_isTree.slotOf?_eq_some_iff]
      · exact ⟨1, .own, by decide⟩
      · exact ⟨0, .own, by decide⟩
    exact ⟨st', hassign, ((hassigned st' hassign).2.1 0 "x").1 hsame⟩
  · refine ⟨st', hbind, (hbound 1 "x").1 ⟨rfl, .own⟩, (hbound 0 "x").2 ?_⟩
    rintro ⟨-, _ | ⟨-, hparent, -⟩⟩
    exact absurd hparent (by rw [show aliased.parentOf? 0 = none by decide]; simp)

end Store

end SlotLisp
