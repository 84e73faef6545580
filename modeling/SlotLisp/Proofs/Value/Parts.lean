import SlotLisp.Run

/-!
# Properties of the parts of a value

`Value.Symbols S` says that each symbol of an expression satisfies `S`, `Value.Closures C` that each
closure in a value does, also those inside the code of other closures. Building lists, placing
values and the builtin operations make no closure, so they keep `Closures C` whatever `C` is.
-/

namespace SlotLisp

namespace Value

/-- Each symbol satisfies `S`. The code of a closure is not part of the expression it stands in. -/
def Symbols (S : String → Prop) : Value → Prop
  | symbol name => S name
  | pair _ a d => a.Symbols S ∧ d.Symbols S
  | _ => True

/-- Each closure satisfies `C` of its parameters, its body and the scope it captured. -/
def Closures (C : Value → Value → ScopeId → Prop) : Value → Prop
  | pair _ a d => a.Closures C ∧ d.Closures C
  | closure _ params body scope => C params body scope ∧ params.Closures C ∧ body.Closures C
  | _ => True

/-- Neither a pair nor a closure. -/
def IsAtom : Value → Prop
  | pair .. | closure .. => False
  | _ => True

variable {S : String → Prop} {C : Value → Value → ScopeId → Prop}

theorem closures_of_isAtom {v : Value} (h : v.IsAtom) : v.Closures C := by
  cases v <;> trivial

theorem symbols_true (v : Value) : v.Symbols fun _ => True := by
  induction v with
  | pair mark a d iha ihd => exact ⟨iha, ihd⟩
  | _ => trivial

theorem closures_true (v : Value) : v.Closures fun _ _ _ => True := by
  induction v with
  | pair mark a d iha ihd => exact ⟨iha, ihd⟩
  | closure mark params body scope ihp ihb => exact ⟨trivial, ihp, ihb⟩
  | _ => trivial

theorem Closures.mono {C' : Value → Value → ScopeId → Prop}
    (hC : ∀ params body scope, C params body scope → C' params body scope) {v : Value}
    (h : v.Closures C) : v.Closures C' := by
  induction v with
  | pair mark a d iha ihd => exact ⟨iha h.1, ihd h.2⟩
  | closure mark params body scope ihp ihb => exact ⟨hC _ _ _ h.1, ihp h.2.1, ihb h.2.2⟩
  | _ => trivial

theorem Closures.elements {v : Value} (h : v.Closures C) : ∀ x ∈ v.elements, x.Closures C := by
  induction v with
  | pair mark a d _ ih =>
    simp only [elements_pair, List.mem_cons, forall_eq_or_imp]
    exact ⟨h.1, ih h.2⟩
  | _ =>
    intro x hx
    cases hx

theorem Symbols.elements {v : Value} (h : v.Symbols S) : ∀ x ∈ v.elements, x.Symbols S := by
  induction v with
  | pair mark a d _ ih =>
    simp only [elements_pair, List.mem_cons, forall_eq_or_imp]
    exact ⟨h.1, ih h.2⟩
  | _ =>
    intro x hx
    cases hx

/-- A form that is named at the head of an expression is one of its symbols. -/
theorem Symbols.formName {head : Value} {form : SpecialForm} (h : head.Symbols S)
    (hform : head.symbol?.bind SpecialForm.named? = some form) : S form.name := by
  obtain ⟨name, hname, hnamed⟩ := Option.bind_eq_some_iff.1 hform
  cases head with
  | symbol s =>
    obtain rfl : s = name := Option.some.inj hname
    exact SpecialForm.name_of_named? hnamed ▸ h
  | _ => cases hname

theorem closures_ofListTail {vs : List Value} {tail : Value} (hvs : ∀ v ∈ vs, v.Closures C)
    (htail : tail.Closures C) : (ofListTail vs tail).Closures C := by
  induction vs with
  | nil => exact htail
  | cons v vs ih =>
    rw [ofListTail_cons]
    rw [List.forall_mem_cons] at hvs
    exact ⟨hvs.1, ih hvs.2⟩

theorem closures_ofList {vs : List Value} (hvs : ∀ v ∈ vs, v.Closures C) :
    (ofList vs).Closures C := closures_ofListTail hvs trivial

theorem symbols_ofList {vs : List Value} (hvs : ∀ v ∈ vs, v.Symbols S) :
    (ofList vs).Symbols S := by
  induction vs with
  | nil => trivial
  | cons v vs ih =>
    rw [ofList, ofListTail_cons]
    rw [List.forall_mem_cons] at hvs
    exact ⟨hvs.1, ih hvs.2⟩

end Value

open Value

variable {C : Value → Value → ScopeId → Prop}

/-! ## Placing -/

/-- Marked pairs are put around what has been placed already. -/
theorem closures_foldl_mark {elements : List Value} (helements : ∀ x ∈ elements, x.Closures C)
    {placed : Value × Nat} (hplaced : placed.1.Closures C) :
    (elements.foldl (fun p element => (.pair (some p.2) element p.1, p.2 + 1))
      placed).1.Closures C := by
  induction elements generalizing placed with
  | nil => exact hplaced
  | cons x xs ih =>
    rw [List.forall_mem_cons] at helements
    exact ih helements.2 ⟨helements.1, hplaced⟩

theorem Store.closures_placeFrom {v : Value} (hv : v.Closures C) (mark : Nat)
    {elements : List Value} (helements : ∀ x ∈ elements, x.Closures C) :
    (Store.placeFrom mark elements v).1.Closures C := by
  induction v generalizing mark elements with
  | pair m a d iha ihd =>
    cases m with
    | none =>
      rw [Store.placeFrom]
      refine ihd hv.2 _ ?_
      rw [List.forall_mem_cons]
      exact ⟨iha hv.1 mark (by simp), helements⟩
    | some m => exact closures_foldl_mark helements hv
  | _ => exact closures_foldl_mark helements hv

theorem Store.closures_place (st : Store) {v : Value} (hv : v.Closures C) :
    (st.place v).1.Closures C :=
  closures_placeFrom hv st.marks (by simp)

/-! ## Builtin operations -/

theorem Step.closures_follow {name : String} {steps : List Step} {v r : Value}
    (h : Step.follow name steps v = .ok r) (hv : v.Closures C) : r.Closures C := by
  induction steps generalizing v with
  | nil =>
    obtain rfl : v = r := by simpa [follow, pure, Except.pure] using h
    exact hv
  | cons step steps ih =>
    simp only [follow, List.foldlM_cons] at h
    cases htake : step.take name v with
    | error e => simp [htake, bind, Except.bind] at h
    | ok part =>
      simp only [htake, bind, Except.bind] at h
      refine ih h ?_
      cases v with
      | pair mark a d =>
        obtain rfl := Except.ok.inj htake
        cases step
        · exact hv.1
        · exact hv.2
      | _ => cases htake

theorem Arithmetic.isAtom_fold {op : Arithmetic} {start : Number} {operands : List Value}
    {r : Value} (h : op.fold start operands = .ok r) : r.IsAtom := by
  unfold fold at h
  cases hfold : operands.foldlM op.combine start with
  | error e => simp [hfold, bind, Except.bind] at h
  | ok x =>
    simp only [hfold, bind, Except.bind, pure, Except.pure] at h
    obtain rfl := Except.ok.inj h
    cases x <;> trivial

theorem Comparison.isAtom_apply {op : Comparison} {operands : List Value} {r : Value}
    (h : op.apply operands = .ok r) : r.IsAtom := by
  unfold apply at h
  cases hmap : operands.mapM (Number.ofValue op.name) with
  | error e => simp [hmap, bind, Except.bind] at h
  | ok xs =>
    simp only [hmap, bind, Except.bind, pure, Except.pure] at h
    obtain rfl := Except.ok.inj h
    trivial

theorem Arithmetic.isAtom_negate {v r : Value} (h : negate v = .ok r) : r.IsAtom := by
  unfold negate at h
  cases hv : Number.ofValue difference.name v with
  | error e => simp [hv, bind, Except.bind] at h
  | ok x =>
    simp only [hv, bind, Except.bind] at h
    cases x with
    | int n =>
      simp only at h
      split at h
      · obtain rfl := Except.ok.inj h
        trivial
      · cases h
    | float x =>
      obtain rfl := Except.ok.inj h
      trivial

theorem isAtom_negation {name : String} {v r : Value} (h : negation name v = .ok r) :
    r.IsAtom := by
  unfold negation at h
  split at h <;> cases h
  trivial

theorem isAtom_intOfString {name : String} {v r : Value} (h : intOfString name v = .ok r) :
    r.IsAtom := by
  unfold intOfString at h
  split at h
  · split at h <;> cases h
    trivial
  · cases h

theorem isAtom_doubleOfString {name : String} {v r : Value} (h : doubleOfString name v = .ok r) :
    r.IsAtom := by
  unfold doubleOfString at h
  split at h
  · split at h <;> cases h
    trivial
  · cases h

theorem isAtom_stringOfInt {name : String} {v r : Value} (h : stringOfInt name v = .ok r) :
    r.IsAtom := by
  unfold stringOfInt at h
  split at h <;> cases h
  trivial

theorem isAtom_stringOfDouble {name : String} {v r : Value} (h : stringOfDouble name v = .ok r) :
    r.IsAtom := by
  unfold stringOfDouble at h
  split at h <;> cases h
  trivial

theorem isAtom_intOfChar {name : String} {v r : Value} (h : intOfChar name v = .ok r) :
    r.IsAtom := by
  unfold intOfChar at h
  split at h <;> cases h
  trivial

theorem isAtom_charOfInt {name : String} {v r : Value} (h : charOfInt name v = .ok r) :
    r.IsAtom := by
  unfold charOfInt at h
  split at h
  · split at h <;> cases h
    trivial
  · cases h

theorem Arithmetic.isAtom_fold_from {op : Arithmetic} {name : String} {v r : Value}
    {operands : List Value}
    (h : (do op.fold (← Number.ofValue name v) operands : Outcome Value) = .ok r) : r.IsAtom := by
  cases hv : Number.ofValue name v with
  | error e => simp [hv, bind, Except.bind] at h
  | ok x => exact isAtom_fold (by simpa [hv, bind, Except.bind] using h)

/-- The result is a part of an argument, made of the arguments, or an atom. -/
theorem Builtin.closures_apply {op : Builtin} {args : List Value} {r : Value}
    (h : op.apply args = .ok r) (hargs : ∀ v ∈ args, v.Closures C) : r.Closures C := by
  unfold apply at h
  split at h
  all_goals first
    | exact Step.closures_follow h (hargs _ List.mem_cons_self)
    | exact Except.ok.inj h ▸ closures_ofList hargs
    | exact Except.ok.inj h ▸ ⟨hargs _ (by simp), hargs _ (by simp)⟩
    | exact Except.ok.inj h ▸ trivial
    | refine closures_of_isAtom ?_
  all_goals first
    | exact isAtom_negation h
    | exact isAtom_intOfString h
    | exact isAtom_doubleOfString h
    | exact isAtom_stringOfInt h
    | exact isAtom_stringOfDouble h
    | exact isAtom_intOfChar h
    | exact isAtom_charOfInt h
    | exact Arithmetic.isAtom_fold h
    | exact Arithmetic.isAtom_negate h
    | exact Arithmetic.isAtom_fold_from h
    | exact Comparison.isAtom_apply h
    | cases h

theorem Builtin.closures_run {op : Builtin} {args : List Value} {r : Value}
    (h : op.run args = .ok r) (hargs : ∀ v ∈ args, v.Closures C) : r.Closures C := by
  unfold run at h
  split at h
  · cases h
  · exact closures_apply h hargs

end SlotLisp
