import Mathlib.Tactic.ByContra
import SlotLisp.Run

/-!
# How stores grow

Whatever a program does to a store, scopes and slots are only added, a scope keeps its parent, and
a name once bound in a scope stays bound there. `Store.Grows` says so of two stores, and each change
of a store is an instance. Hence a name once visible stays visible (`Grows.slotOf?_isSome`).
-/

namespace SlotLisp.Store

/-! ## The changes, seen through the look-ups -/

section Views

variable {st : Store} {scope other : ScopeId} {name : String} {slot : SlotId} {v : Value}

@[simp] theorem scopes_size_bindSlot :
    (st.bindSlot scope name slot).scopes.size = st.scopes.size := by
  simp [bindSlot]

@[simp] theorem slots_bindSlot : (st.bindSlot scope name slot).slots = st.slots := rfl

theorem slots_bind (name : String) (v : Value) :
    (st.bind scope name v).slots = st.slots.push v := rfl

theorem bindingsOf_of_size_le (h : st.scopes.size ≤ scope) : st.bindingsOf scope = {} := by
  simp [bindingsOf, h]

theorem parentOf?_of_size_le (h : st.scopes.size ≤ scope) : st.parentOf? scope = none := by
  simp [parentOf?, h]

theorem parentOf?_congr {st' : Store} (h : st'.scopes = st.scopes) :
    st'.parentOf? = st.parentOf? := by
  funext scope
  rw [parentOf?, parentOf?, h]

theorem bindingsOf_congr {st' : Store} (h : st'.scopes = st.scopes) :
    st'.bindingsOf = st.bindingsOf := by
  funext scope
  rw [bindingsOf, bindingsOf, h]

theorem bindingsOf_bindSlot_of_ne (h : scope ≠ other) :
    (st.bindSlot scope name slot).bindingsOf other = st.bindingsOf other := by
  by_cases hscope : scope < st.scopes.size
  · rw [bindingsOf_bindSlot _ _ _ _ _ hscope, if_neg h]
  · simp [bindingsOf, bindSlot, Array.getElem?_modify, h]

theorem find?_bindSlot (other : ScopeId) (other' : String) :
    ((st.bindSlot scope name slot).bindingsOf other).find? other' =
      if scope = other ∧ scope < st.scopes.size ∧ name = other' then some slot
      else (st.bindingsOf other).find? other' := by
  by_cases hother : scope = other
  · subst hother
    by_cases hscope : scope < st.scopes.size
    · simp [bindingsOf_bindSlot _ _ _ _ _ hscope, hscope]
    · have hsize : (st.bindSlot scope name slot).scopes.size ≤ scope := by simpa using hscope
      rw [bindingsOf_of_size_le hsize, bindingsOf_of_size_le (Nat.le_of_not_lt hscope)]
      simp [hscope]
  · simp [bindingsOf_bindSlot_of_ne hother, hother]

@[simp] theorem scopes_size_newScope (parent? : Option ScopeId) :
    (st.newScope parent?).2.scopes.size = st.scopes.size + 1 := by
  simp [newScope]

@[simp] theorem slots_newScope (parent? : Option ScopeId) :
    (st.newScope parent?).2.slots = st.slots := rfl

@[simp] theorem bindingsOf_newScope (parent? : Option ScopeId) :
    (st.newScope parent?).2.bindingsOf scope = st.bindingsOf scope := by
  rcases Nat.lt_trichotomy scope st.scopes.size with h | rfl | h
  · simp [newScope, bindingsOf, Array.getElem?_push_lt h, Array.getElem?_eq_getElem h]
  · simp [newScope, bindingsOf]
  · simp [newScope, bindingsOf, Nat.le_of_lt h, Nat.ne_of_gt h, Array.getElem?_push]

theorem parentOf?_newScope (parent? : Option ScopeId) :
    (st.newScope parent?).2.parentOf? scope =
      if scope = st.scopes.size then parent? else st.parentOf? scope := by
  simp only [newScope, parentOf?, Array.getElem?_push]
  split <;> rfl

variable {other : SlotId} {w : Value}

theorem content_newSlot (h : (st.newSlot v).2.slots[other]? = some w) :
    w = v ∨ st.slots[other]? = some w := by
  have hpush : (st.slots.push v)[other]? = some w := h
  rw [Array.getElem?_push] at hpush
  split at hpush
  · exact .inl (Option.some.inj hpush).symm
  · exact .inr hpush

theorem content_newSlot_of_lt (h : other < st.slots.size) :
    (st.newSlot v).2.slots[other]? = st.slots[other]? := by
  show (st.slots.push v)[other]? = st.slots[other]?
  rw [Array.getElem?_push, if_neg (Nat.ne_of_lt h)]

theorem content_setSlot (h : (st.setSlot slot v).slots[other]? = some w) :
    w = v ∨ st.slots[other]? = some w := by
  have hset : (st.slots.setIfInBounds slot v)[other]? = some w := h
  rw [Array.getElem?_setIfInBounds] at hset
  split at hset
  · split at hset
    · exact .inl (Option.some.inj hset).symm
    · cases hset
  · exact .inr hset

theorem content_setSlot_of_ne (h : slot ≠ other) :
    (st.setSlot slot v).slots[other]? = st.slots[other]? := by
  show (st.slots.setIfInBounds slot v)[other]? = st.slots[other]?
  rw [Array.getElem?_setIfInBounds, if_neg h]

@[simp] theorem scopes_setSlot (slot : SlotId) (v : Value) :
    (st.setSlot slot v).scopes = st.scopes := rfl

@[simp] theorem slots_size_setSlot (slot : SlotId) (v : Value) :
    (st.setSlot slot v).slots.size = st.slots.size := by
  simp [setSlot]

/-- What the scope itself binds hides what the scopes outwards bind. -/
theorem slotOf?_of_own (h : (st.bindingsOf scope).find? name = some slot) :
    st.slotOf? scope name = some slot := by
  rw [slotOf?, Store.chain_eq, List.findSome?_cons, h]

end Views

/-! ## The way outwards -/

/-- The way outwards depends on the parents of the scopes up to the first one only. -/
theorem chain_congr {st st' : Store} {scope : ScopeId}
    (h : ∀ s ≤ scope, st'.parentOf? s = st.parentOf? s) : st'.chain scope = st.chain scope := by
  induction scope using Nat.strongRecOn with
  | ind scope ih =>
    rw [chain_eq, chain_eq, h scope (Nat.le_refl scope)]
    cases st.parentOf? scope with
    | none => rfl
    | some parent =>
      simp only
      split
      · rename_i hlt
        rw [ih parent hlt fun s hs => h s (Nat.le_trans hs (Nat.le_of_lt hlt))]
      · rfl

/-- A name is looked up in the scope itself and, when it is not bound there, in the parent. -/
theorem slotOf?_eq {st : Store} {scope : ScopeId}
    (hparent : ∀ parent, st.parentOf? scope = some parent → parent < scope) (name : String) :
    st.slotOf? scope name =
      ((st.bindingsOf scope).find? name).or
        ((st.parentOf? scope).bind (st.slotOf? · name)) := by
  rw [slotOf?, Store.chain_eq, List.findSome?_cons]
  cases (st.bindingsOf scope).find? name with
  | some slot => rfl
  | none =>
    cases hp : st.parentOf? scope with
    | none => rfl
    | some parent => simp only [if_pos (hparent parent hp)]; rfl

/-- Which slot a name refers to depends on the scopes only. -/
theorem slotOf?_congr {st st' : Store} (h : st'.scopes = st.scopes) (scope : ScopeId)
    (name : String) : st'.slotOf? scope name = st.slotOf? scope name := by
  have hchain : st'.chain scope = st.chain scope :=
    chain_congr fun s _ => congrFun (parentOf?_congr h) s
  rw [slotOf?, slotOf?, hchain, bindingsOf_congr h]

theorem slotOf?_setSlot {st : Store} {scope : ScopeId} {name : String} (slot : SlotId) (v : Value) :
    (st.setSlot slot v).slotOf? scope name = st.slotOf? scope name :=
  slotOf?_congr (scopes_setSlot slot v) scope name

/-- What is written to a slot is read through every name that refers to it. -/
theorem valueOf?_setSlot {st : Store} {scope : ScopeId} {name : String} {slot : SlotId} {v : Value}
    (hslot : slot < st.slots.size) (hname : st.slotOf? scope name = some slot) :
    (st.setSlot slot v).valueOf? scope name = some v := by
  rw [valueOf?, slotOf?_setSlot, hname, Option.bind_some, setSlot,
    Array.getElem?_setIfInBounds_self_of_lt hslot]

theorem le_of_mem_chain {st : Store} {scope s : ScopeId} (h : s ∈ st.chain scope) :
    s ≤ scope := by
  induction scope using Nat.strongRecOn with
  | ind scope ih =>
    rw [chain_eq, List.mem_cons] at h
    obtain rfl | h := h
    · exact Nat.le_refl s
    · split at h
      · split at h
        · rename_i hlt
          exact Nat.le_trans (ih _ hlt h) (Nat.le_of_lt hlt)
        · cases h
      · cases h

/-! ## Growth -/

/-- `st'` comes from `st` by adding scopes and slots, rebinding names and overwriting slots. -/
structure Grows (st st' : Store) : Prop where
  scopes : st.scopes.size ≤ st'.scopes.size
  slots : st.slots.size ≤ st'.slots.size
  parents : ∀ scope < st.scopes.size, st'.parentOf? scope = st.parentOf? scope
  names : ∀ scope name, ((st.bindingsOf scope).find? name).isSome = true →
    ((st'.bindingsOf scope).find? name).isSome = true

namespace Grows

theorem refl (st : Store) : st.Grows st :=
  ⟨Nat.le_refl _, Nat.le_refl _, fun _ _ => rfl, fun _ _ h => h⟩

theorem trans {st st' st'' : Store} (h : st.Grows st') (h' : st'.Grows st'') : st.Grows st'' where
  scopes := Nat.le_trans h.scopes h'.scopes
  slots := Nat.le_trans h.slots h'.slots
  parents scope hscope := by
    have hsize := h.scopes
    rw [h'.parents scope (by omega), h.parents scope hscope]
  names scope name hname := h'.names scope name (h.names scope name hname)

variable {st st' : Store}

theorem bindSlot (st : Store) (scope : ScopeId) (name : String) (slot : SlotId) :
    st.Grows (st.bindSlot scope name slot) where
  scopes := by simp
  slots := by simp
  parents other _ := parentOf?_bindSlot st scope other name slot
  names other name' h := by
    rw [find?_bindSlot]
    split
    · rfl
    · exact h

theorem newSlot (st : Store) (v : Value) : st.Grows (st.newSlot v).2 where
  scopes := Nat.le_refl _
  slots := by simp [Store.newSlot]
  parents _ _ := rfl
  names _ _ h := h

theorem bind (st : Store) (scope : ScopeId) (name : String) (v : Value) :
    st.Grows (st.bind scope name v) :=
  (newSlot st v).trans (bindSlot _ scope name _)

theorem newScope (st : Store) (parent? : Option ScopeId) : st.Grows (st.newScope parent?).2 where
  scopes := by simp
  slots := by simp
  parents scope h := by rw [parentOf?_newScope, if_neg (Nat.ne_of_lt h)]
  names scope name h := by simpa using h

theorem assign {scope : ScopeId} {name : String} {v : Value}
    (h : st.assign? scope name v = some st') : st.Grows st' := by
  obtain ⟨slot, -, rfl⟩ := Option.map_eq_some_iff.1 h
  exact ⟨Nat.le_refl _, by simp [setSlot], fun _ _ => rfl, fun _ _ h => h⟩

/-- Marks and notes do not matter. -/
theorem of_content (hscopes : st'.scopes = st.scopes) (hslots : st'.slots = st.slots) :
    st.Grows st' := by
  refine ⟨Nat.le_of_eq (by rw [hscopes]), Nat.le_of_eq (by rw [hslots]), fun scope _ => ?_,
    fun scope name h => ?_⟩
  · rw [parentOf?_congr hscopes]
  · rwa [bindingsOf_congr hscopes]

theorem chain_eq (h : st.Grows st') {scope : ScopeId} (hscope : scope < st.scopes.size) :
    st'.chain scope = st.chain scope :=
  chain_congr fun s hs => h.parents s (Nat.lt_of_le_of_lt hs hscope)

end Grows

/-! ## Trees of scopes -/

/-- The way outwards from every scope ends, and every name refers to a slot of the store. Any number
of names may refer to one slot. -/
structure IsTree (st : Store) : Prop where
  parents : ∀ scope parent, st.parentOf? scope = some parent → parent < scope
  slots : ∀ scope name slot, (st.bindingsOf scope).find? name = some slot → slot < st.slots.size

namespace IsTree

variable {st : Store}

theorem empty : IsTree {} := by
  refine ⟨fun scope parent h => ?_, fun scope name slot h => ?_⟩
  · simp [parentOf?] at h
  · simp [bindingsOf] at h

theorem newScope (h : st.IsTree) {parent? : Option ScopeId}
    (hparent : ∀ parent, parent? = some parent → parent < st.scopes.size) :
    (st.newScope parent?).2.IsTree := by
  refine ⟨fun scope parent hp => ?_, fun scope name slot hslot => ?_⟩
  · rw [parentOf?_newScope] at hp
    split at hp
    · rename_i hscope
      exact hscope ▸ hparent parent hp
    · exact h.parents scope parent hp
  · rw [bindingsOf_newScope] at hslot
    exact h.slots scope name slot hslot

theorem newSlot (h : st.IsTree) (v : Value) : (st.newSlot v).2.IsTree := by
  refine ⟨h.parents, fun scope name slot hslot => ?_⟩
  exact Nat.lt_of_lt_of_le (h.slots scope name slot hslot) (Grows.newSlot st v).slots

theorem bindSlot (h : st.IsTree) {slot : SlotId} (hslot : slot < st.slots.size) (scope : ScopeId)
    (name : String) : (st.bindSlot scope name slot).IsTree := by
  refine ⟨fun other parent hp => ?_, fun other name' slot' hs => ?_⟩
  · rw [parentOf?_bindSlot] at hp
    exact h.parents other parent hp
  · rw [find?_bindSlot] at hs
    split at hs
    · obtain rfl := Option.some.inj hs
      exact hslot
    · exact h.slots other name' slot' hs

theorem bind (h : st.IsTree) (scope : ScopeId) (name : String) (v : Value) :
    (st.bind scope name v).IsTree := by
  refine (h.newSlot v).bindSlot ?_ scope name
  simp [Store.newSlot]

theorem setSlot (h : st.IsTree) (slot : SlotId) (v : Value) : (st.setSlot slot v).IsTree := by
  refine ⟨h.parents, fun scope name slot' hslot => ?_⟩
  rw [slots_size_setSlot]
  exact h.slots scope name slot' hslot

theorem slotOf?_eq (h : st.IsTree) (scope : ScopeId) (name : String) :
    st.slotOf? scope name =
      ((st.bindingsOf scope).find? name).or ((st.parentOf? scope).bind (st.slotOf? · name)) :=
  Store.slotOf?_eq (h.parents scope) name

theorem slot_lt (h : st.IsTree) {scope : ScopeId} {name : String} {slot : SlotId}
    (hslot : st.slotOf? scope name = some slot) : slot < st.slots.size := by
  obtain ⟨s, -, hs⟩ := List.exists_of_findSome?_eq_some hslot
  exact h.slots s name slot hs

end IsTree

/-- Only a scope of the store binds names, directly or through the scopes outwards. -/
theorem lt_of_slotOf? {st : Store} {scope : ScopeId} {name : String} {slot : SlotId}
    (h : st.slotOf? scope name = some slot) : scope < st.scopes.size := by
  by_contra hscope
  have hsize : st.scopes.size ≤ scope := Nat.le_of_not_lt hscope
  rw [slotOf?, Store.chain_eq, parentOf?_of_size_le hsize] at h
  simp [bindingsOf_of_size_le hsize] at h

/-- Whatever lies inside a scope of the store is a scope of the store. -/
theorem lt_of_mem_chain {st : Store} {scope other : ScopeId} (hscope : scope < st.scopes.size)
    (h : scope ∈ st.chain other) : other < st.scopes.size := by
  by_contra hother
  rw [Store.chain_eq, parentOf?_of_size_le (Nat.le_of_not_lt hother)] at h
  obtain rfl := List.mem_singleton.1 h
  exact hother hscope

theorem Grows.slotOf?_isSome {st st' : Store} (h : st.Grows st') {scope : ScopeId} {name : String}
    (hvisible : (st.slotOf? scope name).isSome = true) :
    (st'.slotOf? scope name).isSome = true := by
  obtain ⟨slot, hslot⟩ := Option.isSome_iff_exists.1 hvisible
  have hscope : scope < st.scopes.size := lt_of_slotOf? hslot
  rw [slotOf?, h.chain_eq hscope, List.isSome_findSome?, List.any_eq_true]
  rw [slotOf?, List.isSome_findSome?, List.any_eq_true] at hvisible
  obtain ⟨s, hs, hname⟩ := hvisible
  exact ⟨s, hs, h.names s name hname⟩

end SlotLisp.Store
