import SlotLisp.Proofs.Double.Bits

/-!
# Doubles compared

Two doubles are equal when they stand for the same number (`beq_iff`): the two zeros for one, not a
number for none. So equality is symmetric and transitive, and a double equals itself unless it is
not a number.
-/

namespace SlotLisp.Double

open Float.Model

/-- The number that a double stands for, in the form that the library takes doubles apart into. -/
def numberOf? : UnpackedFloat → Option UnpackedFloat
  | .notANumber => none
  | .zero _ => some (.zero .positive)
  | x => some x

/-- A comparison of two doubles finds them equal if they stand for one number. -/
theorem unpacked_beq_iff (x y : UnpackedFloat) :
    x.beq y = true ↔ ∃ n, numberOf? x = some n ∧ numberOf? y = some n := by
  have hbeq : x.beq y = true ↔ x.compare y = some .eq := beq_iff_eq
  rw [hbeq]
  cases x with
  | notANumber => simp [UnpackedFloat.compare, numberOf?]
  | infinity s => cases y with
    | infinity s' => cases s <;> cases s' <;> simp [UnpackedFloat.compare, numberOf?] <;> decide
    | _ => cases s <;> simp [UnpackedFloat.compare, numberOf?]
  | zero s => cases y with
    | infinity s' => cases s' <;> simp [UnpackedFloat.compare, numberOf?]
    | finite s' => cases s' <;> simp [UnpackedFloat.compare, numberOf?]
    | _ => simp [UnpackedFloat.compare, numberOf?]
  | finite s m e => cases y with
    | infinity s' => cases s <;> cases s' <;> simp [UnpackedFloat.compare, numberOf?]
    | finite s' m' e' =>
      cases s <;> cases s' <;>
        simp [UnpackedFloat.compare, numberOf?, and_comm, @eq_comm _ m, @eq_comm _ e]
    | _ => cases s <;> simp [UnpackedFloat.compare, numberOf?]

theorem beq_iff {x y : Float} :
    (x == y) = true ↔
      ∃ n, numberOf? x.toModel.unpack = some n ∧ numberOf? y.toModel.unpack = some n :=
  unpacked_beq_iff _ _

theorem beq_symm {x y : Float} (h : (x == y) = true) : (y == x) = true := by
  obtain ⟨n, hx, hy⟩ := beq_iff.1 h
  exact beq_iff.2 ⟨n, hy, hx⟩

theorem beq_trans {x y z : Float} (hxy : (x == y) = true) (hyz : (y == z) = true) :
    (x == z) = true := by
  obtain ⟨n, hx, hy⟩ := beq_iff.1 hxy
  obtain ⟨n', hy', hz⟩ := beq_iff.1 hyz
  obtain rfl : n = n' := Option.some.inj (hy.symm.trans hy')
  exact beq_iff.2 ⟨n, hx, hz⟩

theorem beq_self_iff {x : Float} : (x == x) = true ↔ x.isNaN = false := by
  have hnan : x.isNaN = x.toModel.unpack.isNaN := rfl
  rw [beq_iff, hnan]
  cases x.toModel.unpack <;> simp [numberOf?, UnpackedFloat.isNaN]

end SlotLisp.Double
