import SlotLisp.Proofs.Store.Growth

/-!
# Scopes with several names

A call of a closure, and a global environment, make one scope and bind several names in it, each to
a new slot. What comes of it is told entry by entry (`Store.bindsTo_addScope`); the scopes and slots
that were there are as before.
-/

namespace SlotLisp.Store

/-! ## Binding several names -/

/-- Binds each name to a new slot with its value, in this order. -/
def bindAll (st : Store) (scope : ScopeId) (entries : List (String × Value)) : Store :=
  entries.foldl (fun st entry => st.bind scope entry.1 entry.2) st

/-- The name refers to this slot, and the slot holds `v`. -/
def BindsTo (st : Store) (scope : ScopeId) (name : String) (slot : SlotId) (v : Value) : Prop :=
  (st.bindingsOf scope).find? name = some slot ∧ st.slots[slot]? = some v

variable {st : Store} {scope : ScopeId} {entries : List (String × Value)}

theorem bindAll_cons (entry : String × Value) :
    st.bindAll scope (entry :: entries) = (st.bind scope entry.1 entry.2).bindAll scope entries :=
  rfl

theorem slots_bindAll : (st.bindAll scope entries).slots.toList =
    st.slots.toList ++ entries.map Prod.snd := by
  induction entries generalizing st with
  | nil => simp [bindAll]
  | cons entry entries ih => rw [bindAll_cons, ih, slots_bind]; simp

theorem scopes_size_bindAll : (st.bindAll scope entries).scopes.size = st.scopes.size := by
  induction entries generalizing st with
  | nil => rfl
  | cons entry entries ih => rw [bindAll_cons, ih]; simp [bind, newSlot]

theorem parentOf?_bindAll (other : ScopeId) :
    (st.bindAll scope entries).parentOf? other = st.parentOf? other := by
  induction entries generalizing st with
  | nil => rfl
  | cons entry entries ih =>
    rw [bindAll_cons, ih]
    exact parentOf?_bindSlot _ scope other _ _

theorem bindingsOf_bindAll_of_ne {other : ScopeId} (h : scope ≠ other) :
    (st.bindAll scope entries).bindingsOf other = st.bindingsOf other := by
  induction entries generalizing st with
  | nil => rfl
  | cons entry entries ih =>
    rw [bindAll_cons, ih]
    exact bindingsOf_bindSlot_of_ne h

theorem find?_bindAll_of_not_mem {name : String} (h : name ∉ entries.map Prod.fst) :
    ((st.bindAll scope entries).bindingsOf scope).find? name =
      (st.bindingsOf scope).find? name := by
  induction entries generalizing st with
  | nil => rfl
  | cons entry entries ih =>
    rw [List.map_cons, List.mem_cons, not_or] at h
    rw [bindAll_cons, ih h.2, bind, find?_bindSlot, if_neg fun hname => h.1 hname.2.2.symm]
    rfl

/-- The `i`-th name refers to the `i`-th of the new slots. -/
theorem find?_bindAll (hscope : scope < st.scopes.size) (hdistinct : (entries.map Prod.fst).Nodup)
    {i : Nat} {entry : String × Value} (hi : entries[i]? = some entry) :
    ((st.bindAll scope entries).bindingsOf scope).find? entry.1 = some (st.slots.size + i) := by
  induction entries generalizing st i with
  | nil => simp at hi
  | cons first entries ih =>
    rw [List.map_cons, List.nodup_cons] at hdistinct
    cases i with
    | zero =>
      obtain rfl := Option.some.inj hi
      rw [bindAll_cons, find?_bindAll_of_not_mem hdistinct.1, bind, find?_bindSlot,
        if_pos ⟨rfl, hscope, rfl⟩]
      rfl
    | succ i =>
      rw [List.getElem?_cons_succ] at hi
      rw [bindAll_cons, ih (by simpa [bind, newSlot] using hscope) hdistinct.2 hi, slots_bind,
        Array.size_push, Nat.add_right_comm]
      rfl

theorem bindsTo_bindAll (hscope : scope < st.scopes.size)
    (hdistinct : (entries.map Prod.fst).Nodup) {i : Nat} {entry : String × Value}
    (hi : entries[i]? = some entry) :
    (st.bindAll scope entries).BindsTo scope entry.1 (st.slots.size + i) entry.2 := by
  refine ⟨find?_bindAll hscope hdistinct hi, ?_⟩
  rw [← Array.getElem?_toList, slots_bindAll, ← Array.length_toList,
    List.getElem?_append_right (Nat.le_add_right _ i), Nat.add_sub_cancel_left, List.getElem?_map,
    hi, Option.map_some]

/-! ## A new scope -/

/-- One more scope, which binds the names of the entries, each to a new slot with its value. -/
def addScope (st : Store) (parent? : Option ScopeId) (entries : List (String × Value)) : Store :=
  (st.newScope parent?).2.bindAll st.scopes.size entries

variable {parent? : Option ScopeId}

theorem scopes_size_addScope :
    (st.addScope parent? entries).scopes.size = st.scopes.size + 1 := by
  rw [addScope, scopes_size_bindAll, scopes_size_newScope]

theorem parentOf?_addScope : (st.addScope parent? entries).parentOf? scope =
    if scope = st.scopes.size then parent? else st.parentOf? scope := by
  rw [addScope, parentOf?_bindAll, parentOf?_newScope]

theorem content_addScope_of_lt {slot : SlotId} (h : slot < st.slots.size) :
    (st.addScope parent? entries).slots[slot]? = st.slots[slot]? := by
  rw [← Array.getElem?_toList, ← Array.getElem?_toList, addScope, slots_bindAll, slots_newScope,
    List.getElem?_append_left (by rwa [Array.length_toList])]

theorem bindingsOf_addScope_of_ne (h : scope ≠ st.scopes.size) :
    (st.addScope parent? entries).bindingsOf scope = st.bindingsOf scope := by
  rw [addScope, bindingsOf_bindAll_of_ne h.symm, bindingsOf_newScope]

theorem find?_addScope_of_not_mem {name : String} (h : name ∉ entries.map Prod.fst) :
    ((st.addScope parent? entries).bindingsOf st.scopes.size).find? name = none := by
  rw [addScope, find?_bindAll_of_not_mem h, bindingsOf_newScope,
    bindingsOf_of_size_le (Nat.le_refl _)]
  rfl

theorem bindsTo_addScope (hdistinct : (entries.map Prod.fst).Nodup) {i : Nat}
    {entry : String × Value} (hi : entries[i]? = some entry) :
    (st.addScope parent? entries).BindsTo st.scopes.size entry.1 (st.slots.size + i) entry.2 :=
  bindsTo_bindAll (by simp) hdistinct hi

/-- Only the new scope refers to a new slot, and only by the name of the entry in its place. -/
theorem place_of_new_slot (htree : st.IsTree) (hdistinct : (entries.map Prod.fst).Nodup)
    {name : String} {slot : SlotId} (hslot : st.slots.size ≤ slot)
    (h : ((st.addScope parent? entries).bindingsOf scope).find? name = some slot) :
    scope = st.scopes.size ∧ (entries.map Prod.fst)[slot - st.slots.size]? = some name := by
  have hscope : scope = st.scopes.size := by
    by_contra hne
    rw [bindingsOf_addScope_of_ne hne] at h
    exact absurd (htree.slots scope name slot h) (Nat.not_lt.2 hslot)
  subst hscope
  have hname : name ∈ entries.map Prod.fst := by
    by_contra hname
    rw [find?_addScope_of_not_mem hname] at h
    cases h
  obtain ⟨entry, hentry, rfl⟩ := List.mem_map.1 hname
  obtain ⟨i, hi⟩ := List.mem_iff_getElem?.1 hentry
  rw [(bindsTo_addScope hdistinct hi).1] at h
  obtain rfl := Option.some.inj h
  rw [Nat.add_sub_cancel_left, List.getElem?_map, hi, Option.map_some]
  exact ⟨rfl, rfl⟩

end SlotLisp.Store
