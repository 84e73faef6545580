import Mathlib.Data.List.Basic
import SlotLisp.Proofs.Store.Writes
import SlotLisp.Proofs.Text.ByteOrder

/-!
# The listing of visible bindings

The listing of a scope is put together from the bindings of the scopes on the way outwards, inner
ones over outer ones (`find?_shadow`), while a look-up stops at the first scope that binds the name.
The two agree on every name, and the listing is the only one in the order of the names that does
(`eq_visibleValues_iff`).
-/

namespace SlotLisp

namespace Bindings

theorem findIn_eq_none {name : String} {l : List (String × SlotId)}
    (h : ∀ entry ∈ l, name < entry.1) : findIn name l = none := by
  induction l with
  | nil => rfl
  | cons entry rest ih =>
    rw [List.forall_mem_cons] at h
    rw [findIn, if_neg (Std.ne_of_lt h.1).symm, ih h.2]

/-- A name has one entry at most, so its entries are what the look-up finds. -/
theorem mem_iff_findIn {name : String} {slot : SlotId} {l : List (String × SlotId)}
    (h : l.Pairwise fun a b => a.1 < b.1) : (name, slot) ∈ l ↔ findIn name l = some slot := by
  induction l with
  | nil => simp [findIn]
  | cons entry rest ih =>
    obtain ⟨hfirst, hrest⟩ := List.pairwise_cons.1 h
    rw [List.mem_cons, ih hrest, findIn]
    split
    · rename_i hname
      subst hname
      rw [findIn_eq_none hfirst]
      simp [Prod.ext_iff, eq_comm]
    · rename_i hname
      simp [Prod.ext_iff, Ne.symm hname]

theorem mem_entries_iff (b : Bindings) {name : String} {slot : SlotId} :
    (name, slot) ∈ b.entries ↔ b.find? name = some slot :=
  mem_iff_findIn b.increasing

/-- Inner bindings hide outer ones of the same name. -/
theorem find?_shadow (inner outer : Bindings) (name : String) :
    (inner.shadow outer).find? name = (inner.find? name).or (outer.find? name) := by
  obtain ⟨l, h⟩ := inner
  show (l.foldl _ outer).find? name = (findIn name l).or _
  -- Entries go in one after the other, and none of those that follow has the name of the first.
  induction l generalizing outer with
  | nil => rfl
  | cons entry rest ih =>
    obtain ⟨hfirst, hrest⟩ := List.pairwise_cons.1 h
    rw [List.foldl_cons, ih _ hrest, find?_insert, findIn]
    split
    · rename_i hname
      subst hname
      rw [findIn_eq_none hfirst]
      rfl
    · rfl

end Bindings

namespace Store

variable (st : Store) (scope : ScopeId)

/-- What is visible from a scope is what its look-ups find. -/
theorem find?_visible (name : String) : (st.visible scope).find? name = st.slotOf? scope name := by
  rw [visible, slotOf?]
  induction st.chain scope with
  | nil => rfl
  | cons s outwards ih =>
    rw [List.foldr_cons, Bindings.find?_shadow, ih, List.findSome?_cons]
    cases (st.bindingsOf s).find? name <;> rfl

theorem mem_visibleValues_iff {name : String} {v : Value} :
    (name, v) ∈ st.visibleValues scope ↔ st.valueOf? scope name = some v := by
  rw [visibleValues, valueOf?, List.mem_filterMap, Option.bind_eq_some_iff]
  constructor
  · rintro ⟨⟨name', slot⟩, hentry, hv⟩
    obtain ⟨w, hw, heq⟩ := Option.map_eq_some_iff.1 hv
    obtain ⟨rfl, rfl⟩ := Prod.ext_iff.1 heq
    rw [Bindings.mem_entries_iff, find?_visible] at hentry
    exact ⟨slot, hentry, hw⟩
  · rintro ⟨slot, hslot, hv⟩
    rw [← find?_visible, ← Bindings.mem_entries_iff] at hslot
    exact ⟨(name, slot), hslot, Option.map_eq_some_iff.2 ⟨v, hv, rfl⟩⟩

theorem pairwise_visibleValues : (st.visibleValues scope).Pairwise fun a b => a.1 < b.1 := by
  refine (st.visible scope).increasing.filterMap _ fun a b hlt a' ha b' hb => ?_
  obtain ⟨v, -, rfl⟩ := Option.map_eq_some_iff.1 ha
  obtain ⟨w, -, rfl⟩ := Option.map_eq_some_iff.1 hb
  exact hlt

/-- In a given order, a list is known from its members. -/
theorem eq_of_pairwise_of_mem_iff {l l' : List (String × Value)}
    (h : l.Pairwise fun a b => a.1 < b.1) (h' : l'.Pairwise fun a b => a.1 < b.1)
    (hmem : ∀ name v, (name, v) ∈ l ↔ (name, v) ∈ l') : l = l' := by
  have hne {a b : String × Value} (hlt : a.1 < b.1) : a ≠ b := by
    rintro rfl
    exact String.lt_irrefl _ hlt
  have hperm : l.Perm l' :=
    (List.perm_ext_iff_of_nodup (h.imp hne) (h'.imp hne)).2 fun entry => hmem entry.1 entry.2
  exact hperm.eq_of_pairwise (fun a b _ _ hab hba => absurd hba (String.lt_asymm hab)) h h'

/-- The listing has the visible names in the increasing order of their bytes, each with the value
that a look-up yields, and nothing else; and no other list does. -/
theorem eq_visibleValues_iff (l : List (String × Value)) :
    l = st.visibleValues scope ↔
      (l.Pairwise fun a b => utf8Bytes a.1 < utf8Bytes b.1) ∧
      ∀ name v, (name, v) ∈ l ↔ (Run.lookup scope name).yields st = .ok v := by
  simp only [utf8Bytes_lt_iff, yields_lookup_eq_ok_iff, ← mem_visibleValues_iff]
  constructor
  · rintro rfl
    exact ⟨st.pairwise_visibleValues scope, fun name v => .rfl⟩
  · rintro ⟨hsorted, hmem⟩
    exact eq_of_pairwise_of_mem_iff hsorted (st.pairwise_visibleValues scope) hmem

end Store

end SlotLisp
