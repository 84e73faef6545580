import SlotLisp.Eval

/-!
# Parameter lists

`lambda` admits the lists of distinct symbols, with or without one more behind the last
(`checkParameters_eq_ok_iff`).
-/

namespace SlotLisp

/-- A list of these names, all distinct, and a name behind the last one if there is to be a rest. -/
structure Parameters (params : Value) (names : List String) (rest? : Option String) : Prop where
  required : params.elements = names.map .symbol
  tail : params.finalTail = rest?.elim .nil .symbol
  distinct : (names ++ rest?.toList).Nodup

/-- A parameter list that some `lambda` admits. -/
def HasParameters (params : Value) : Prop := ∃ names rest?, Parameters params names rest?

/-- How many arguments a closure takes: as many as it requires, or more if there is a rest. -/
def TakesArguments (required : Nat) (rest? : Option String) (got : Nat) : Prop :=
  got = required ∨ required ≤ got ∧ rest?.isSome = true

theorem Parameters.cons_iff {mark : Option Nat} {name : String} {rest : Value} {names : List String}
    {rest? : Option String} :
    Parameters (.pair mark (.symbol name) rest) (name :: names) rest? ↔
      Parameters rest names rest? ∧ name ∉ names ++ rest?.toList := by
  constructor
  · rintro ⟨hrequired, htail, hdistinct⟩
    rw [Value.elements_pair, List.map_cons] at hrequired
    rw [List.cons_append, List.nodup_cons] at hdistinct
    exact ⟨⟨List.tail_eq_of_cons_eq hrequired, htail, hdistinct.2⟩, hdistinct.1⟩
  · rintro ⟨⟨hrequired, htail, hdistinct⟩, hname⟩
    refine ⟨?_, htail, ?_⟩
    · rw [Value.elements_pair, List.map_cons, hrequired]
    · rw [List.cons_append, List.nodup_cons]
      exact ⟨hname, hdistinct⟩

theorem Parameters.of_pair {mark : Option Nat} {p rest : Value} {names : List String}
    {rest? : Option String} (h : Parameters (.pair mark p rest) names rest?) :
    ∃ name names', p = .symbol name ∧ names = name :: names' := by
  have hrequired := h.required
  rw [Value.elements_pair] at hrequired
  cases names with
  | nil => cases hrequired
  | cons name names' => exact ⟨name, names', List.head_eq_of_cons_eq hrequired, rfl⟩

theorem checkParameters_eq_ok_iff {operands params : Value} {seen : List String} :
    checkParameters operands seen params = .ok () ↔
      ∃ names rest?, Parameters params names rest? ∧
        ∀ name ∈ names ++ rest?.toList, name ∉ seen := by
  induction params generalizing seen with
  | pair mark p rest _ ih =>
    constructor
    · intro h
      cases p with
      | symbol name =>
        rw [checkParameters] at h
        split at h
        · cases h
        · rename_i hseen
          obtain ⟨names, rest?, hparams, hnew⟩ := ih.1 h
          have hname : name ∉ names ++ rest?.toList := fun hmem =>
            hnew name hmem List.mem_cons_self
          refine ⟨name :: names, rest?, Parameters.cons_iff.2 ⟨hparams, hname⟩, ?_⟩
          rw [List.cons_append, List.forall_mem_cons]
          refine ⟨by simpa using hseen, fun other hother hmem => ?_⟩
          exact hnew other hother (List.mem_cons_of_mem name hmem)
      | _ =>
        rw [checkParameters.eq_def] at h
        cases h
    · rintro ⟨names, rest?, hparams, hnew⟩
      obtain ⟨name, names, rfl, rfl⟩ := hparams.of_pair
      obtain ⟨hrest, hname⟩ := Parameters.cons_iff.1 hparams
      rw [List.cons_append, List.forall_mem_cons] at hnew
      rw [checkParameters, if_neg (by simpa using hnew.1)]
      refine ih.2 ⟨names, rest?, hrest, fun other hother => ?_⟩
      rw [List.mem_cons, not_or]
      exact ⟨fun heq => hname (heq ▸ hother), hnew.2 other hother⟩
  | nil => exact ⟨fun _ => ⟨[], none, ⟨rfl, rfl, by simp⟩, by simp⟩, fun _ => rfl⟩
  | symbol name =>
    rw [checkParameters]
    constructor
    · intro h
      split at h
      · cases h
      · rename_i hseen
        exact ⟨[], some name, ⟨rfl, rfl, by simp⟩, by simpa using hseen⟩
    · rintro ⟨names, rest?, ⟨-, htail, -⟩, hnew⟩
      cases rest? with
      | none => cases htail
      | some rest =>
        obtain rfl : name = rest := Value.symbol.inj htail
        have hseen : name ∉ seen := hnew name (by simp)
        simp [hseen]
  | _ =>
    constructor
    · intro h
      rw [checkParameters.eq_def] at h
      cases h
    · rintro ⟨names, rest?, ⟨-, htail, -⟩, -⟩
      cases rest? <;> cases htail

end SlotLisp
