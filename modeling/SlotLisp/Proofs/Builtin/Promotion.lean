import SlotLisp.Proofs.Builtin.Exactness

/-!
# Mixed arithmetic

Arithmetic goes over to doubles at the first double that it meets, and stays with them. The integers
in front of that one are still computed with as integers: where they leave the range, the operation
is refused although a double follows.
-/

namespace SlotLisp

open Outcome Integer

namespace Number

/-- The integers in front of the first double. -/
def leadingInts : List Number → List Int64
  | .int n :: xs => n :: leadingInts xs
  | _ => []

theorem eq_leadingInts_append {xs : List Number} (h : ∃ x, .float x ∈ xs) :
    ∃ x rest, xs = (leadingInts xs).map .int ++ .float x :: rest := by
  induction xs with
  | nil => simp at h
  | cons first xs ih =>
    cases first with
    | float x => exact ⟨x, xs, rfl⟩
    | int n =>
      obtain ⟨x, rest, heq⟩ := ih (by simpa using h)
      exact ⟨x, rest, congrArg (.int n :: ·) heq⟩

end Number

namespace Arithmetic

variable {op : Arithmetic} {f : Int → Int → Int}

/-- A double if all results in front of the first one fit into a word, and otherwise the error that
an integer left the range. -/
inductive PromotedOrRefused (held : List Int) (name : String) : Outcome Value → Prop
  | promoted {x : Float} (fits : ∀ r ∈ held, InRange r) :
      PromotedOrRefused held name (.ok (.float x))
  | refused (overflows : ¬ ∀ r ∈ held, InRange r) :
      PromotedOrRefused held name (fail (.overflow name))

theorem combine_float_left (x : Float) (y : Number) :
    op.combine (.float x) y.toValue = .ok (.float (op.onFloats x y.toFloat)) := by
  cases y <;> rfl

theorem combine_float_right (acc : Number) (x : Float) :
    op.combine acc (.float x) = .ok (.float (op.onFloats acc.toFloat x)) := by
  cases acc <;> rfl

/-- Behind a double there are doubles only. -/
theorem foldlM_float (op : Arithmetic) (x : Float) (ys : List Number) :
    (ys.map Number.toValue).foldlM op.combine (.float x) =
      .ok (.float ((ys.map Number.toFloat).foldl op.onFloats x)) := by
  induction ys generalizing x with
  | nil => rfl
  | cons y ys ih =>
    rw [List.map_cons, List.foldlM_cons, combine_float_left]
    exact ih _

/-- Whatever is held, the first double makes a double of it. -/
theorem foldlM_meets_float (op : Arithmetic) (acc : Number) (x : Float) (ys : List Number) :
    ∃ y, (Value.float x :: ys.map Number.toValue).foldlM op.combine acc = .ok (.float y) := by
  rw [List.foldlM_cons, combine_float_right]
  exact ⟨_, op.foldlM_float _ ys⟩

theorem promotedOrRefused_fold (h : op.Checks f) (start : Int64) {xs : List Number}
    (hfloat : ∃ x, .float x ∈ xs) :
    PromotedOrRefused (((Number.leadingInts xs).map Int64.toInt).scanl f start.toInt) op.name
      (op.fold (.int start) (xs.map Number.toValue)) := by
  obtain ⟨x, rest, heq⟩ := Number.eq_leadingInts_append hfloat
  generalize Number.leadingInts xs = ns at heq ⊢
  have hsplit : (xs.map Number.toValue).foldlM op.combine (.int start) =
      (ns.map Value.int).foldlM op.combine (.int start) >>= fun acc =>
        (Value.float x :: rest.map Number.toValue).foldlM op.combine acc := by
    rw [← List.foldlM_append, heq, List.map_append, List.map_map]
    rfl
  -- What is held when the double comes does not matter, only that something is.
  by_cases hfits : ∀ r ∈ (ns.map Int64.toInt).scanl f start.toInt, InRange r
  · obtain ⟨n, -, hrun⟩ := foldlM_ints h hfits
    obtain ⟨y, hfloats⟩ := op.foldlM_meets_float (.int n) x rest
    rw [hrun] at hsplit
    rw [fold_of_ok (hsplit.trans hfloats)]
    exact .promoted hfits
  · rw [foldlM_ints_of_overflow h hfits] at hsplit
    rw [fold_of_fail hsplit]
    exact .refused hfits

end Arithmetic

namespace Builtin

/-- A sum, difference or product of numbers with a double among them is a double, unless the
integers in front of the first double leave the range. -/
theorem mixed_arithmetic_promotes {op : Builtin} (hop : op ∈ [add, sub, mul]) {xs : List Number}
    (hcount : 2 ≤ xs.length) (hfloat : ∃ x, .float x ∈ xs) :
    Arithmetic.PromotedOrRefused (op.heldResults ((Number.leadingInts xs).map Int64.toInt)) op.name
      (op.run (xs.map Number.toValue)) := by
  simp only [List.mem_cons, List.not_mem_nil, or_false] at hop
  obtain rfl | rfl | rfl := hop
  · exact Arithmetic.promotedOrRefused_fold Arithmetic.sum_checks 0 hfloat
  · -- The first operand is what the others are taken from.
    rcases xs with _ | ⟨first, _ | ⟨second, rest⟩⟩
    · exact absurd hcount (Nat.not_succ_le_zero 1)
    · exact absurd hcount (Nat.lt_irrefl 1)
    · cases first with
      | int n =>
        have hrest : ∃ x, .float x ∈ second :: rest := by simpa using hfloat
        exact Arithmetic.promotedOrRefused_fold Arithmetic.difference_checks n hrest
      | float x =>
        have hall := Arithmetic.fold_of_ok (Arithmetic.difference.foldlM_float x (second :: rest))
        show Arithmetic.PromotedOrRefused _ _ (Arithmetic.difference.fold _ _)
        rw [hall]
        exact .promoted (by simp [Number.leadingInts, heldResults])
  · rw [run_of_accepts (by simpa [arity, Arity.Accepts] using Nat.le_of_succ_le hcount)]
    exact Arithmetic.promotedOrRefused_fold Arithmetic.product_checks 1 hfloat

/-- The least integer in front of a double and behind it. -/
theorem double_between_integers :
    Arithmetic.PromotedOrRefused [-2, -9223372036854775808] "-"
      (sub.run [.int (-2), .int 9223372036854775806, .float 0.5, .int Int64.minValue]) :=
  mixed_arithmetic_promotes
    (by decide : sub ∈ [add, sub, mul])
    (by decide : 2 ≤ [Number.int (-2), .int 9223372036854775806, .float 0.5,
      .int Int64.minValue].length)
    ⟨0.5, by simp⟩

/-- Two integers whose sum is no word, in front of any double. -/
theorem sum_leaves_the_range_before_a_float :
    ¬ ∀ op ∈ [add, sub, mul], ∀ xs : List Number, 2 ≤ xs.length → (∃ x, .float x ∈ xs) →
      ∃ x, op.run (xs.map Number.toValue) = .ok (.float x) := by
  intro h
  obtain ⟨x, hrun⟩ :=
    h add (by decide) [.int Int64.maxValue, .int 1, .float 1.5] (by decide) ⟨1.5, by simp⟩
  have hfails : add.run [.int Int64.maxValue, .int 1, .float 1.5] = fail (.overflow "+") := rfl
  cases hfails.symm.trans hrun

end Builtin

end SlotLisp
