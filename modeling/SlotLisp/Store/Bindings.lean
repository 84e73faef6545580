/-!
# Bindings

The names that one scope binds, each with the number of the slot it refers to. The entries are
in strictly increasing order of their names, so there is at most one for each name.
-/

namespace SlotLisp

/-- The number of a slot in a store. -/
abbrev SlotId := Nat

structure Bindings where
  entries : List (String × SlotId) := []
  increasing : entries.Pairwise (fun a b => a.1 < b.1) := by exact .nil
  deriving DecidableEq

namespace Bindings

def findIn (name : String) : List (String × SlotId) → Option SlotId
  | [] => none
  | (n, slot) :: rest => if n = name then some slot else findIn name rest

def insertIn (name : String) (slot : SlotId) :
    List (String × SlotId) → List (String × SlotId)
  | [] => [(name, slot)]
  | (n, s) :: rest =>
    if n = name then (name, slot) :: rest
    else if name < n then (name, slot) :: (n, s) :: rest
    else (n, s) :: insertIn name slot rest

theorem mem_insertIn {name : String} {slot : SlotId} {entry : String × SlotId}
    {l : List (String × SlotId)} (h : entry ∈ insertIn name slot l) :
    entry = (name, slot) ∨ entry ∈ l := by
  fun_induction insertIn name slot l with
  | case1 => simpa using h
  | case2 s rest =>
    rcases List.mem_cons.1 h with h | h
    · exact .inl h
    · exact .inr (List.mem_cons_of_mem _ h)
  | case3 n s rest _ _ => exact List.mem_cons.1 h
  | case4 n s rest _ _ ih =>
    rcases List.mem_cons.1 h with h | h
    · exact .inr (h ▸ List.mem_cons_self)
    · exact (ih h).imp_right (List.mem_cons_of_mem _)

theorem pairwise_insertIn (name : String) (slot : SlotId) {l : List (String × SlotId)}
    (h : l.Pairwise fun a b => a.1 < b.1) :
    (insertIn name slot l).Pairwise fun a b => a.1 < b.1 := by
  fun_induction insertIn name slot l with
  | case1 => exact List.pairwise_singleton _ _
  | case2 s rest => exact List.pairwise_cons.2 (List.pairwise_cons.1 h)
  | case3 n s rest _ hlt =>
    refine List.pairwise_cons.2 ⟨fun entry he => ?_, h⟩
    rcases List.mem_cons.1 he with rfl | he
    · exact hlt
    · exact String.lt_trans hlt ((List.pairwise_cons.1 h).1 entry he)
  | case4 n s rest hne hlt ih =>
    obtain ⟨hn, hrest⟩ := List.pairwise_cons.1 h
    refine List.pairwise_cons.2 ⟨fun entry he => ?_, ih hrest⟩
    rcases mem_insertIn he with rfl | he
    · exact Std.lt_of_le_of_ne (String.not_lt.1 hlt) hne
    · exact hn entry he

/-- The slot that a name refers to. -/
def find? (b : Bindings) (name : String) : Option SlotId := findIn name b.entries

/-- Makes a name refer to a slot, whatever it referred to before. -/
def insert (b : Bindings) (name : String) (slot : SlotId) : Bindings :=
  ⟨insertIn name slot b.entries, pairwise_insertIn name slot b.increasing⟩

def names (b : Bindings) : List String := b.entries.map (·.1)

/-- The entries of `inner`, and those of `outer` whose names it does not bind. -/
def shadow (inner outer : Bindings) : Bindings :=
  inner.entries.foldl (fun b entry => b.insert entry.1 entry.2) outer

@[simp] theorem find?_empty (name : String) : ({} : Bindings).find? name = none := rfl

theorem findIn_insertIn (name other : String) (slot : SlotId) (l : List (String × SlotId)) :
    findIn other (insertIn name slot l) = if name = other then some slot else findIn other l := by
  induction l with
  | nil => rfl
  | cons entry rest ih =>
    obtain ⟨n, s⟩ := entry
    rw [insertIn]
    split
    · rename_i h
      subst h
      by_cases ho : n = other <;> simp [findIn, ho]
    · rename_i h
      split
      · rfl
      · by_cases ho : n = other
        · subst ho
          simp [findIn, Ne.symm h]
        · simp [findIn, ho, ih]

@[simp] theorem find?_insert (b : Bindings) (name other : String) (slot : SlotId) :
    (b.insert name slot).find? other = if name = other then some slot else b.find? other :=
  findIn_insertIn name other slot b.entries

end Bindings

end SlotLisp
