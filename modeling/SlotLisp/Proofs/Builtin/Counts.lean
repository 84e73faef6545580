import Mathlib.Data.List.Basic
import SlotLisp.Program
import SlotLisp.Proofs.Builtin.Failures
import SlotLisp.Proofs.Store.BindAll
import SlotLisp.Proofs.Store.Writes

/-!
# The number of arguments

The body of an operation reads the arguments by position and trusts its callers with their number:
where there are too few, it lapses (`Builtin.body`). Each call checks the number before, and any
number that the declared arity admits is enough for the body (`Builtin.body_eq_apply`). So no call
lapses, and the number is what a call fails for exactly when the arity does not admit it
(`Builtin.checksCount_call`).
-/

namespace SlotLisp

open Outcome

/-! ## The bound that is violated -/

namespace Arity

variable {a : Arity} {count bound : Nat}

/-- The accepted counts end with `bound`, and `count` lies beyond it. -/
def IsViolated (a : Arity) (count bound : Nat) : Prop :=
  a.Accepts bound ∧
    (count < bound ∧ (∀ n, a.Accepts n → bound ≤ n) ∨
      bound < count ∧ ∀ n, a.Accepts n → n ≤ bound)

/-- An arity that accepts nothing has no bound to go by. -/
theorem isViolated_of_violated? (hsome : ∃ n, a.Accepts n) (h : a.violated? count = some bound) :
    a.IsViolated count bound := by
  cases a with
  | exactly n =>
    simp only [violated?, Option.ite_none_left_eq_some, Option.some.injEq] at h
    obtain ⟨hne, rfl⟩ := h
    refine ⟨rfl, (Nat.lt_or_gt_of_ne hne).imp ?_ ?_⟩
    · exact fun hlt => ⟨hlt, fun m hm => Nat.le_of_eq (Eq.symm hm)⟩
    · exact fun hgt => ⟨hgt, fun m hm => Nat.le_of_eq hm⟩
  | atLeast n =>
    simp only [violated?, Option.ite_none_right_eq_some, Option.some.injEq] at h
    obtain ⟨hlt, rfl⟩ := h
    exact ⟨Nat.le_refl n, .inl ⟨hlt, fun m hm => hm⟩⟩
  | between min max =>
    -- Both ends are accepted counts, as long as there are any.
    obtain ⟨n, hmin, hmax⟩ : ∃ n, min ≤ n ∧ n ≤ max := hsome
    have hends : min ≤ max := Nat.le_trans hmin hmax
    simp only [violated?] at h
    split at h
    · rename_i hlt
      obtain rfl := Option.some.inj h
      exact ⟨⟨Nat.le_refl min, hends⟩, .inl ⟨hlt, fun m hm => hm.1⟩⟩
    · simp only [Option.ite_none_right_eq_some, Option.some.injEq] at h
      obtain ⟨hgt, rfl⟩ := h
      exact ⟨⟨hends, Nat.le_refl max⟩, .inr ⟨hgt, fun m hm => hm.2⟩⟩
  | any => cases h

end Arity

/-! ## Bodies -/

/-- What goes wrong in a body that has been given too few arguments. -/
inductive Lapse
  /-- An argument is read where there is none. -/
  | outside (position : Nat)
  /-- A difference has nothing to begin with, and would have to report what the check reports. -/
  | emptyDifference
  deriving DecidableEq, Repr

def argument (args : List Value) (position : Nat) : Except Lapse Value :=
  match args[position]? with
  | some v => .ok v
  | none => .error (.outside position)

def onFirst (f : Value → Outcome Value) (args : List Value) : Except Lapse (Outcome Value) :=
  return f (← argument args 0)

namespace Builtin

variable {op : Builtin} {args : List Value}

/-- What an operation makes of its arguments, whose number it does not look at. -/
def body (op : Builtin) (args : List Value) : Except Lapse (Outcome Value) :=
  match op with
  | car | head | first => onFirst (Step.follow "car" [.car]) args
  | cdr | tail => onFirst (Step.follow "cdr" [.cdr]) args
  | cadr | second => onFirst (Step.follow "cadr" [.cdr, .car]) args
  | cddr => onFirst (Step.follow "cddr" [.cdr, .cdr]) args
  | caddr | third => onFirst (Step.follow "caddr" [.cdr, .cdr, .car]) args
  | cadddr | fourth => onFirst (Step.follow "cadddr" [.cdr, .cdr, .cdr, .car]) args
  | isNull => onFirst (fun v => .ok (.bool v.isNil)) args
  | isPair => onFirst (fun v => .ok (.bool (v matches .pair ..))) args
  | isString => onFirst (fun v => .ok (.bool (v matches .string _))) args
  | isSymbol => onFirst (fun v => .ok (.bool (v matches .symbol _))) args
  | isInt => onFirst (fun v => .ok (.bool (v matches .int _))) args
  | isDouble => onFirst (fun v => .ok (.bool (v matches .float _))) args
  | isChar => onFirst (fun v => .ok (.bool (v matches .char _))) args
  | isCallable => onFirst (fun v => .ok (.bool v.isCallable)) args
  | isTrue => onFirst (fun v => .ok (.bool v.isTruthy)) args
  | isFalse => onFirst (fun v => .ok (.bool (!v.isTruthy))) args
  | not => onFirst (negation op.name) args
  | intOfString => onFirst (SlotLisp.intOfString op.name) args
  | doubleOfString => onFirst (SlotLisp.doubleOfString op.name) args
  | stringOfInt => onFirst (SlotLisp.stringOfInt op.name) args
  | stringOfDouble => onFirst (SlotLisp.stringOfDouble op.name) args
  | intOfChar => onFirst (SlotLisp.intOfChar op.name) args
  | charOfInt => onFirst (SlotLisp.charOfInt op.name) args
  | cons => return .ok (Value.cons (← argument args 0) (← argument args 1))
  | list => .ok (.ok (Value.ofList args))
  | add => .ok (Arithmetic.sum.fold (.int 0) args)
  | mul => .ok (Arithmetic.product.fold (.int 1) args)
  | sub =>
    match args with
    | [v] => .ok (Arithmetic.negate v)
    | v :: vs => .ok (do Arithmetic.difference.fold (← Number.ofValue op.name v) vs)
    | [] => .error .emptyDifference
  | equal => .ok (Comparison.equal.apply args)
  | less => .ok (Comparison.less.apply args)
  | greater => .ok (Comparison.greater.apply args)
  | lessOrEqual => .ok (Comparison.lessOrEqual.apply args)
  | greaterOrEqual => .ok (Comparison.greaterOrEqual.apply args)

/-- With as many arguments as the arity admits, the body finds all that it reads. -/
theorem body_eq_apply (h : op.arity.Accepts args.length) : op.body args = .ok (op.apply args) := by
  cases op with
  | list | add | mul | equal | less | greater | lessOrEqual | greaterOrEqual => rfl
  | sub =>
    match args, h with
    | [_], _ => rfl
    | _ :: _ :: _, _ => rfl
  | cons =>
    obtain ⟨a, d, rfl⟩ := List.length_eq_two.1 h
    rfl
  | _ =>
    obtain ⟨v, rfl⟩ := List.length_eq_one_iff.1 h
    rfl

-- With fewer it lapses, which is what the calls have to keep from it.
example : cons.body [.int 1] = .error (.outside 1) := rfl

example : sub.body [] = .error .emptyDifference := rfl

/-! ## Calls -/

theorem exists_accepts (op : Builtin) : ∃ n, op.arity.Accepts n := by
  cases op with
  | list | add => exact ⟨0, trivial⟩
  | sub | mul => exact ⟨1, Nat.le_refl 1⟩
  | equal | less | greater | lessOrEqual | greaterOrEqual => exact ⟨2, Nat.le_refl 2⟩
  | cons => exact ⟨2, rfl⟩
  | _ => exact ⟨1, rfl⟩

theorem run_of_not_accepts (h : ¬ op.arity.Accepts args.length) :
    ∃ bound, op.arity.IsViolated args.length bound ∧
      op.run args = fail (.arity bound args.length) := by
  rw [← Arity.violated?_eq_none_iff] at h
  obtain ⟨bound, hbound⟩ := Option.ne_none_iff_exists'.1 h
  exact ⟨bound, Arity.isViolated_of_violated? op.exists_accepts hbound, by rw [run, hbound]⟩

/-- What a call of the operation with these arguments comes to, as their number is checked first. -/
structure ChecksCount (op : Builtin) (args : List Value) (act : Run Value) : Prop where
  performs : op.arity.Accepts args.length →
    ∃ outcome, op.body args = .ok outcome ∧ act = (do Run.place (← Run.ofOutcome outcome))
  refuses : ¬ op.arity.Accepts args.length →
    ∃ bound, op.arity.IsViolated args.length bound ∧ act = Run.fail (.arity bound args.length)
  arityError_iff : ∀ st, (∃ e st', act st = .error e st' ∧ e.kind = .arity) ↔
    ¬ op.arity.Accepts args.length

variable [Host]

theorem call_of_accepts (h : op.arity.Accepts args.length) :
    (Native.builtin op).call args = (do Run.place (← Run.ofOutcome (op.apply args))) := by
  rw [Native.call, run_of_accepts h]

theorem call_of_not_accepts (h : ¬ op.arity.Accepts args.length) :
    ∃ bound, op.arity.IsViolated args.length bound ∧
      (Native.builtin op).call args = Run.fail (.arity bound args.length) := by
  obtain ⟨bound, hbound, hrun⟩ := run_of_not_accepts h
  refine ⟨bound, hbound, ?_⟩
  rw [Native.call, hrun]
  rfl

theorem checksCount_call (op : Builtin) (args : List Value) :
    op.ChecksCount args ((Native.builtin op).call args) where
  performs h := ⟨_, body_eq_apply h, call_of_accepts h⟩
  refuses := call_of_not_accepts
  arityError_iff st := by
    constructor
    · rintro ⟨e, st', hcall, hkind⟩
      obtain ⟨-, h⟩ | ⟨hother, -⟩ := kind_of_run_error (run_of_call_error hcall)
      · exact h
      · rw [hkind] at hother
        exact absurd hother (by decide)
    · intro h
      obtain ⟨bound, -, hcall⟩ := call_of_not_accepts h
      exact ⟨_, st, by rw [hcall]; rfl, rfl⟩

end Builtin

/-! ## The global environment -/

theorem Builtin.nodup_names : (all.map name).Nodup := by decide +kernel

namespace Store

variable {st : Store} {name : String} {v : Value}

theorem bindBuiltins_eq_bindAll (scope : ScopeId) (ops : List Builtin) :
    st.bindBuiltins scope ops =
      st.bindAll scope (ops.map fun op => (op.name, .native (.builtin op))) := by
  rw [bindBuiltins, bindAll, List.foldl_map]

theorem newGlobal_eq_addScope : st.newGlobal = (st.scopes.size, st.addScope none
    (Builtin.all.map fun op => (op.name, .native (.builtin op)))) := by
  rw [addScope, ← bindBuiltins_eq_bindAll]
  rfl

/-- The global scope is a root, so that a look-up in it ends there. -/
theorem slotOf?_newGlobal : st.newGlobal.2.slotOf? st.newGlobal.1 name =
    (st.newGlobal.2.bindingsOf st.newGlobal.1).find? name := by
  have hroot : st.newGlobal.2.parentOf? st.newGlobal.1 = none := by
    rw [newGlobal_eq_addScope, parentOf?_addScope, if_pos rfl]
  rw [slotOf?_eq (by simp [hroot]), hroot, Option.bind_none, Option.or_none]

theorem valueOf?_newGlobal (op : Builtin) :
    st.newGlobal.2.valueOf? st.newGlobal.1 op.name = some (.native (.builtin op)) := by
  obtain ⟨i, hi⟩ := List.mem_iff_getElem?.1 op.mem_all
  have hdistinct : ((Builtin.all.map fun op =>
      (op.name, Value.native (.builtin op))).map Prod.fst).Nodup := by
    simpa [Function.comp_def] using Builtin.nodup_names
  have hentry : (Builtin.all.map fun op => (op.name, Value.native (.builtin op)))[i]? =
      some (op.name, .native (.builtin op)) := by
    rw [List.getElem?_map, hi, Option.map_some]
  have hbinds := @bindsTo_addScope st _ none hdistinct i _ hentry
  rw [valueOf?, slotOf?_newGlobal, newGlobal_eq_addScope, hbinds.1, Option.bind_some, hbinds.2]

/-- A new global environment has the operations under their names, and nothing else. -/
theorem valueOf?_newGlobal_eq_some_iff :
    st.newGlobal.2.valueOf? st.newGlobal.1 name = some v ↔
      ∃ op : Builtin, op.name = name ∧ v = .native (.builtin op) := by
  constructor
  · intro h
    by_cases hname : ∃ op : Builtin, op.name = name
    · obtain ⟨op, rfl⟩ := hname
      rw [valueOf?_newGlobal] at h
      exact ⟨op, rfl, (Option.some.inj h).symm⟩
    · have hnot : name ∉ (Builtin.all.map fun op =>
          (op.name, Value.native (.builtin op))).map Prod.fst := by
        simpa using fun op _ h => hname ⟨op, h⟩
      have hunbound : (st.newGlobal.2.bindingsOf st.newGlobal.1).find? name = none := by
        rw [newGlobal_eq_addScope, find?_addScope_of_not_mem hnot]
      rw [valueOf?, slotOf?_newGlobal, hunbound] at h
      cases h
  · rintro ⟨op, rfl, rfl⟩
    exact valueOf?_newGlobal op

end Store

end SlotLisp
