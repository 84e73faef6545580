import SlotLisp.Run

/-!
# How builtin operations fail

The number of arguments is checked first. What an operation makes of a number that it accepts fails
for what the arguments are: they have the wrong type, or there is no result.
-/

namespace SlotLisp

open Outcome

variable {α β : Type}

/-- If the computation fails, it is for the values that it is about. -/
def FailsByValue (r : Outcome α) : Prop :=
  ∀ e, r = .error e → e.kind = .typeMismatch ∨ e.kind = .evaluation

theorem failsByValue_ok (a : α) : FailsByValue (.ok a) := by
  intro e herror
  cases herror

theorem failsByValue_fail {p : Problem} (h : p.kind = .evaluation) :
    FailsByValue (fail p : Outcome α) := by
  intro e herror
  cases herror
  exact .inr h

theorem failsByValue_wrongType (operation wanted : String) (v : Value) :
    FailsByValue (wrongType operation wanted v : Outcome α) := by
  intro e herror
  cases herror
  exact .inl rfl

theorem FailsByValue.bind {r : Outcome α} {next : α → Outcome β} (h : FailsByValue r)
    (hnext : ∀ a, FailsByValue (next a)) : FailsByValue (r >>= next) := by
  cases r with
  | ok a => exact hnext a
  | error e =>
    intro e' herror
    cases herror
    exact h e rfl

theorem failsByValue_foldlM {f : β → α → Outcome β} (h : ∀ acc a, FailsByValue (f acc a))
    (start : β) (l : List α) : FailsByValue (l.foldlM f start) := by
  induction l generalizing start with
  | nil => exact failsByValue_ok start
  | cons a l ih =>
    rw [List.foldlM_cons]
    exact (h start a).bind ih

theorem failsByValue_mapM {f : α → Outcome β} (h : ∀ a, FailsByValue (f a)) (l : List α) :
    FailsByValue (l.mapM f) := by
  induction l with
  | nil => exact failsByValue_ok []
  | cons a l ih =>
    rw [List.mapM_cons]
    exact (h a).bind fun b => ih.bind fun bs => failsByValue_ok (b :: bs)

/-! ## The operations -/

theorem Step.failsByValue_take (operation : String) (step : Step) (v : Value) :
    FailsByValue (step.take operation v) := by
  cases v with
  | pair => exact failsByValue_ok _
  | nil => exact failsByValue_fail rfl
  | _ => exact failsByValue_wrongType _ _ _

theorem Step.failsByValue_follow (operation : String) (steps : List Step) (v : Value) :
    FailsByValue (Step.follow operation steps v) :=
  failsByValue_foldlM (fun v step => step.failsByValue_take operation v) v steps

theorem Number.failsByValue_ofValue (operation : String) (v : Value) :
    FailsByValue (Number.ofValue operation v) := by
  cases v with
  | int => exact failsByValue_ok _
  | float => exact failsByValue_ok _
  | _ => exact failsByValue_wrongType _ _ _

namespace Arithmetic

theorem failsByValue_combine (op : Arithmetic) (acc : Number) (v : Value) :
    FailsByValue (op.combine acc v) := by
  refine (Number.failsByValue_ofValue op.name v).bind fun x => ?_
  split
  · split
    · exact failsByValue_ok _
    · exact failsByValue_fail rfl
  · exact failsByValue_ok _

theorem failsByValue_fold (op : Arithmetic) (start : Number) (operands : List Value) :
    FailsByValue (op.fold start operands) :=
  (failsByValue_foldlM op.failsByValue_combine start operands).bind fun _ => failsByValue_ok _

theorem failsByValue_negate (v : Value) : FailsByValue (negate v) := by
  refine (Number.failsByValue_ofValue _ v).bind fun x => ?_
  split
  · split
    · exact failsByValue_ok _
    · exact failsByValue_fail rfl
  · exact failsByValue_ok _

end Arithmetic

theorem Comparison.failsByValue_apply (op : Comparison) (operands : List Value) :
    FailsByValue (op.apply operands) :=
  (failsByValue_mapM (Number.failsByValue_ofValue op.name) operands).bind fun _ => failsByValue_ok _

section Conversions

variable (name : String) (v : Value)

theorem failsByValue_intOfString : FailsByValue (intOfString name v) := by
  fun_cases intOfString name v
  · exact failsByValue_ok _
  · exact failsByValue_fail rfl
  · exact failsByValue_wrongType _ _ _

theorem failsByValue_doubleOfString : FailsByValue (doubleOfString name v) := by
  fun_cases doubleOfString name v
  · exact failsByValue_ok _
  · exact failsByValue_fail rfl
  · exact failsByValue_wrongType _ _ _

theorem failsByValue_charOfInt : FailsByValue (charOfInt name v) := by
  fun_cases charOfInt name v
  · exact failsByValue_ok _
  · exact failsByValue_fail rfl
  · exact failsByValue_wrongType _ _ _

theorem failsByValue_stringOfInt : FailsByValue (stringOfInt name v) := by
  fun_cases stringOfInt name v
  · exact failsByValue_ok _
  · exact failsByValue_wrongType _ _ _

theorem failsByValue_stringOfDouble : FailsByValue (stringOfDouble name v) := by
  fun_cases stringOfDouble name v
  · exact failsByValue_ok _
  · exact failsByValue_wrongType _ _ _

theorem failsByValue_intOfChar : FailsByValue (intOfChar name v) := by
  fun_cases intOfChar name v
  · exact failsByValue_ok _
  · exact failsByValue_wrongType _ _ _

theorem failsByValue_negation : FailsByValue (negation name v) := by
  fun_cases negation name v
  · exact failsByValue_ok _
  · exact failsByValue_wrongType _ _ _

end Conversions

namespace Builtin

/-- What an operation computes fails for the values of the arguments only. -/
theorem failsByValue_apply (op : Builtin) (args : List Value) : FailsByValue (op.apply args) := by
  unfold apply
  split
  all_goals first
    | exact failsByValue_ok _
    | exact Step.failsByValue_follow _ _ _
    | exact failsByValue_negation _ _
    | exact failsByValue_intOfString _ _
    | exact failsByValue_doubleOfString _ _
    | exact failsByValue_stringOfInt _ _
    | exact failsByValue_stringOfDouble _ _
    | exact failsByValue_intOfChar _ _
    | exact failsByValue_charOfInt _ _
    | exact Arithmetic.failsByValue_fold _ _ _
    | exact Arithmetic.failsByValue_negate _
    | exact (Number.failsByValue_ofValue _ _).bind fun x => Arithmetic.failsByValue_fold _ x _
    | exact Comparison.failsByValue_apply _ _
    | exact failsByValue_fail rfl

theorem run_of_accepts {op : Builtin} {args : List Value} (h : op.arity.Accepts args.length) :
    op.run args = op.apply args := by
  rw [run, Arity.violated?_eq_none_iff.2 h]

/-- An operation fails with an arity error when it does not accept the number of arguments, and
otherwise for their values only. -/
theorem kind_of_run_error {op : Builtin} {args : List Value} {e : Error}
    (h : op.run args = .error e) :
    e.kind = .arity ∧ ¬ op.arity.Accepts args.length ∨
      (e.kind = .typeMismatch ∨ e.kind = .evaluation) ∧ op.arity.Accepts args.length := by
  unfold run at h
  split at h
  · rename_i bound hbound
    obtain rfl := Except.error.inj h
    refine .inl ⟨rfl, fun haccepts => ?_⟩
    rw [Arity.violated?_eq_none_iff.2 haccepts] at hbound
    cases hbound
  · rename_i haccepts
    exact .inr ⟨failsByValue_apply op args e h, Arity.violated?_eq_none_iff.1 haccepts⟩

theorem run_of_call_error [Host] {op : Builtin} {args : List Value} {st st' : Store} {e : Error}
    (h : (Native.builtin op).call args st = .error e st') : op.run args = .error e := by
  rw [Native.call] at h
  cases hop : op.run args with
  | ok v =>
    rw [hop] at h
    cases h
  | error e' =>
    rw [hop] at h
    cases h
    rfl

end Builtin

end SlotLisp
