import SlotLisp.Proofs.Store.Growth

/-!
# Stores with one more binding

`HasExtra x st st'` says that `st'` is `st` with the binding `x` besides, whose slot nothing else
refers to. The slots behind that one are numbered one higher. As long as the name of `x` is not
used, names refer to corresponding slots with the same contents, and every change of the one store
has its counterpart in the other.
-/

namespace SlotLisp

/-- One more binding: a name of a scope refers to a slot of its own. -/
structure Extra where
  name : String
  scope : ScopeId
  slot : Nat
  content : Value
  /-- What the name refers to in that scope without the binding. -/
  hidden? : Option SlotId

namespace Extra

variable {x : Extra} {a b : Nat}

/-- The number of a slot when there is one more. -/
def shift (x : Extra) (slot : Nat) : Nat := if slot < x.slot then slot else slot + 1

theorem shift_of_le (h : x.slot ≤ a) : x.shift a = a + 1 := if_neg (Nat.not_lt.2 h)

/-- No slot is shifted to the one that is added. -/
theorem shift_ne_slot : x.shift a ≠ x.slot := by
  unfold shift
  split <;> omega

@[simp] theorem shift_inj : x.shift a = x.shift b ↔ a = b := by
  unfold shift
  split <;> split <;> omega

/-- Slots that are there stay there, and no others come in but the one that is added. -/
theorem shift_lt_iff {size : Nat} (h : x.slot ≤ size) : x.shift a < size + 1 ↔ a < size := by
  unfold shift
  split <;> omega

end Extra

namespace Store

/-- `st'` is `st` with the binding `x` besides. -/
structure HasExtra (x : Extra) (st st' : Store) : Prop where
  scopes : st'.scopes.size = st.scopes.size
  parents : st'.parentOf? = st.parentOf?
  names : ∀ scope name, scope ≠ x.scope ∨ name ≠ x.name →
    (st'.bindingsOf scope).find? name = ((st.bindingsOf scope).find? name).map x.shift
  bound : (st'.bindingsOf x.scope).find? x.name = some x.slot
  hidden : (st.bindingsOf x.scope).find? x.name = x.hidden?
  slots : st'.slots.size = st.slots.size + 1
  inside : x.slot ≤ st.slots.size
  contents : ∀ slot, st'.slots[x.shift slot]? = st.slots[slot]?
  content : st'.slots[x.slot]? = some x.content
  marks : st'.marks = st.marks
  notes : st'.notes = st.notes

/-- The binding that `bind` makes. -/
def extraOf (st : Store) (scope : ScopeId) (name : String) (v : Value) : Extra where
  name := name
  scope := scope
  slot := st.slots.size
  content := v
  hidden? := (st.bindingsOf scope).find? name

namespace HasExtra

variable {x : Extra} {st st' : Store}

/-- Binding a name adds a binding, as long as the names refer to slots of the store. -/
theorem of_bind (hslots : ∀ scope name slot,
      (st.bindingsOf scope).find? name = some slot → slot < st.slots.size)
    {scope : ScopeId} (hscope : scope < st.scopes.size) (name : String) (v : Value) :
    st.HasExtra (st.extraOf scope name v) (st.bind scope name v) where
  scopes := scopes_size_bindSlot
  parents := funext fun other => parentOf?_bindSlot _ scope other name _
  names other name' hne := by
    have hother : ¬ (scope = other ∧ scope < (st.newSlot v).2.scopes.size ∧ name = name') := by
      rintro ⟨rfl, -, rfl⟩
      exact hne.elim (· rfl) (· rfl)
    rw [Store.bind, find?_bindSlot, if_neg hother]
    change (st.bindingsOf other).find? name' = _
    -- The slot of the new binding is the last one, so none that a name refers to is shifted.
    cases hfind : (st.bindingsOf other).find? name' with
    | none => rfl
    | some slot => exact congrArg some (if_pos (hslots other name' slot hfind)).symm
  bound := by
    rw [Store.bind, find?_bindSlot]
    exact if_pos ⟨rfl, hscope, rfl⟩
  hidden := rfl
  slots := by simp [Store.bind, newSlot]
  inside := Nat.le_refl _
  contents slot := by
    have hslot : (st.slots.push v)[if slot < st.slots.size then slot else slot + 1]? =
        st.slots[slot]? := by
      rw [Array.getElem?_push]
      split <;> rename_i h
      · rw [if_neg (Nat.ne_of_lt h)]
      · rw [if_neg (by omega), Array.getElem?_eq_none (by omega), Array.getElem?_eq_none (by omega)]
    exact hslot
  content := by simp [Store.bind, Store.newSlot, extraOf]
  marks := rfl
  notes := rfl

/-! ## Looking things up -/

/-- On the way outwards the added binding is passed by, as it has another name. -/
theorem slotOf? (h : st.HasExtra x st') {name : String} (hname : name ≠ x.name) (scope : ScopeId) :
    st'.slotOf? scope name = (st.slotOf? scope name).map x.shift := by
  have hchain : st'.chain scope = st.chain scope := chain_congr fun s _ => by rw [h.parents]
  rw [Store.slotOf?, Store.slotOf?, hchain]
  induction st.chain scope with
  | nil => rfl
  | cons s rest ih =>
    rw [List.findSome?_cons, List.findSome?_cons, h.names s name (.inr hname)]
    cases (st.bindingsOf s).find? name with
    | none => exact ih
    | some slot => rfl

/-- Names refer to slots with other numbers but with the same contents. -/
theorem valueOf? (h : st.HasExtra x st') {name : String} (hname : name ≠ x.name)
    (scope : ScopeId) : st'.valueOf? scope name = st.valueOf? scope name := by
  rw [Store.valueOf?, Store.valueOf?, h.slotOf? hname]
  cases st.slotOf? scope name with
  | none => rfl
  | some slot => exact h.contents slot

/-! ## Changes on both sides -/

theorem newScope (h : st.HasExtra x st') (parent? : Option ScopeId) :
    (st.newScope parent?).2.HasExtra x (st'.newScope parent?).2 :=
  { h with
    scopes := by simp [h.scopes]
    parents := by
      funext scope
      rw [parentOf?_newScope, parentOf?_newScope, h.scopes, h.parents]
    names := fun scope name hne => by
      rw [bindingsOf_newScope, bindingsOf_newScope, h.names scope name hne]
    bound := by rw [bindingsOf_newScope, h.bound]
    hidden := by rw [bindingsOf_newScope, h.hidden] }

/-- A slot is shared under its number on either side. -/
theorem bindSlot (h : st.HasExtra x st') {name : String} (hname : name ≠ x.name)
    (scope : ScopeId) (slot : SlotId) :
    (st.bindSlot scope name slot).HasExtra x (st'.bindSlot scope name (x.shift slot)) :=
  { h with
    scopes := by simp [h.scopes]
    parents := by
      funext other
      rw [parentOf?_bindSlot, parentOf?_bindSlot, h.parents]
    names := fun other name' hne => by
      rw [find?_bindSlot, find?_bindSlot, h.scopes]
      split
      · rfl
      · exact h.names other name' hne
    bound := by
      rw [find?_bindSlot, if_neg fun hsame => hname hsame.2.2]
      exact h.bound
    hidden := by
      rw [find?_bindSlot, if_neg fun hsame => hname hsame.2.2]
      exact h.hidden }

/-- The new slots are the last ones of both stores, so they correspond. -/
theorem newSlot (h : st.HasExtra x st') (v : Value) :
    (st.newSlot v).2.HasExtra x (st'.newSlot v).2 :=
  have hinside := h.inside
  { h with
    slots := by simp [Store.newSlot, h.slots]
    inside := by
      simp only [Store.newSlot, Array.size_push]
      omega
    contents := fun slot => by
      have hlast : x.shift slot = st.slots.size + 1 ↔ slot = st.slots.size := by
        rw [← Extra.shift_of_le hinside, Extra.shift_inj]
      simp only [Store.newSlot, Array.getElem?_push, h.slots, hlast, h.contents slot]
    content := by
      simp only [Store.newSlot, Array.getElem?_push, h.slots]
      rw [if_neg (by omega)]
      exact h.content }

theorem bind (h : st.HasExtra x st') {name : String} (hname : name ≠ x.name) (scope : ScopeId)
    (v : Value) : (st.bind scope name v).HasExtra x (st'.bind scope name v) := by
  have hslot : x.shift st.slots.size = st'.slots.size := by
    rw [h.slots, Extra.shift_of_le h.inside]
  have hbound := (h.newSlot v).bindSlot hname scope st.slots.size
  rw [hslot] at hbound
  exact hbound

theorem setSlot (h : st.HasExtra x st') (slot : SlotId) (v : Value) :
    (st.setSlot slot v).HasExtra x (st'.setSlot (x.shift slot) v) :=
  { h with
    slots := by simp [Store.setSlot, h.slots]
    inside := by simpa [Store.setSlot] using h.inside
    contents := fun other => by
      simp only [Store.setSlot, Array.getElem?_setIfInBounds, Extra.shift_inj, h.slots,
        Extra.shift_lt_iff h.inside, h.contents other]
    content := by
      simp only [Store.setSlot, Array.getElem?_setIfInBounds, if_neg Extra.shift_ne_slot]
      exact h.content }

theorem marked (h : st.HasExtra x st') (marks : Nat) :
    HasExtra x { st with marks } { st' with marks } :=
  { h with marks := rfl }

theorem noted (h : st.HasExtra x st') (notes : Array String) :
    HasExtra x { st with notes } { st' with notes } :=
  { h with notes := rfl }

end HasExtra

end Store

end SlotLisp
