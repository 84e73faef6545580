import Mathlib
import SlotLisp.Double.Text

/-!
# The bits of a double

Finite doubles without a sign, as the library takes them apart. Each has one canonical form
`significand * 2 ^ exponent`, and its bits are a number made of the two.
-/

namespace SlotLisp.Double

open Float.Model

theorem lt_signBit {n : Nat} (h : n < infinityBits) : n < signBit := by
  unfold infinityBits at h
  unfold signBit
  omega

/-! ## The three fields -/

theorem unpackMantissa_toNat (b : BitVec 64) :
    (@UnpackedFloat.unpackMantissa Format.binary64 b).toNat = b.toNat % exponentBit := by
  simp [UnpackedFloat.unpackMantissa, exponentBit]

theorem unpackExponent_toNat (b : BitVec 64) :
    (@UnpackedFloat.unpackExponent Format.binary64 b).toNat =
      b.toNat / exponentBit % 2048 := by
  simp [UnpackedFloat.unpackExponent, exponentBit, Nat.shiftRight_eq_div_pow]

theorem unpackSign_toNat (b : BitVec 64) :
    (@UnpackedFloat.unpackSign Format.binary64 b).toNat = b.toNat / signBit % 2 := by
  simp [UnpackedFloat.unpackSign, signBit, Nat.shiftRight_eq_div_pow]

theorem unpackSign_eq_zero {b : BitVec 64} (hsign : b.toNat < signBit) :
    @UnpackedFloat.unpackSign Format.binary64 b = 0#1 := by
  apply BitVec.eq_of_toNat_eq
  rw [unpackSign_toNat, Nat.div_eq_of_lt hsign]
  rfl

/-- The largest exponent field is that of the infinities and of what is no number. -/
theorem unpackExponent_eq_neg_one_iff {b : BitVec 64} (hsign : b.toNat < signBit) :
    @UnpackedFloat.unpackExponent Format.binary64 b = -1#_ ↔ infinityBits ≤ b.toNat := by
  have hfield : @UnpackedFloat.unpackExponent Format.binary64 b = -1#_ ↔
      b.toNat / exponentBit % 2048 = 2047 := by
    rw [← BitVec.toNat_inj, unpackExponent_toNat]
    exact Iff.rfl
  rw [hfield]
  unfold signBit at hsign
  unfold infinityBits
  simp only [exponentBit]
  omega

/-! ## The canonical form -/

namespace Binary

/-- The form in which each positive double is written once. -/
structure Canonical (b : Binary) : Prop where
  significand_lt : b.significand < 2 * exponentBit
  normal : exponentBit ≤ b.significand ∨ b.exponent = -1074
  least : -1074 ≤ b.exponent
  greatest : b.exponent ≤ 971

/-- The bits of a double in canonical form. -/
def bits (b : Binary) : Nat := (b.exponent + 1074).toNat * exponentBit + b.significand

theorem ofBits_of_field_eq {n : Nat} (h : n / exponentBit % 2048 = 0) :
    ofBits n = ⟨n % exponentBit, -1074⟩ := if_pos h

theorem ofBits_of_field_ne {n : Nat} (h : n / exponentBit % 2048 ≠ 0) :
    ofBits n = ⟨exponentBit + n % exponentBit, ((n / exponentBit % 2048 : Nat) : Int) - 1075⟩ :=
  if_neg h

theorem canonical_ofBits {n : Nat} (h : n < infinityBits) : (ofBits n).Canonical := by
  unfold infinityBits at h
  by_cases hfield : n / exponentBit % 2048 = 0
  · rw [ofBits_of_field_eq hfield]
    refine ⟨?_, .inr rfl, Int.le_refl _, by show (-1074 : Int) ≤ 971; decide⟩
    simp only [exponentBit]
    omega
  · rw [ofBits_of_field_ne hfield]
    simp only [exponentBit] at hfield
    refine ⟨?_, .inl (Nat.le_add_right _ _), ?_, ?_⟩ <;> simp only [exponentBit] <;> omega

theorem bits_ofBits {n : Nat} (h : n < infinityBits) : (ofBits n).bits = n := by
  unfold infinityBits at h
  by_cases hfield : n / exponentBit % 2048 = 0
  · rw [ofBits_of_field_eq hfield]
    simp only [exponentBit] at hfield
    simp only [bits, exponentBit]
    omega
  · rw [ofBits_of_field_ne hfield]
    simp only [exponentBit] at hfield
    simp only [bits, exponentBit]
    omega

theorem eq_zero_of_significand {n : Nat} (h : n < infinityBits)
    (hzero : (ofBits n).significand = 0) : n = 0 := by
  have hbits := bits_ofBits h
  obtain ⟨-, hnormal, -, -⟩ := canonical_ofBits h
  rw [bits, hzero] at hbits
  rw [hzero] at hnormal
  simp only [exponentBit] at hbits hnormal
  omega

end Binary

/-! ## Taking apart -/

theorem finite_congr {m m' : Nat} {e e' : Int} (hm : m = m') (he : e = e') (h : 0 < m)
    (h' : 0 < m') : UnpackedFloat.finite .positive m e h = .finite .positive m' e' h' := by
  subst hm he
  rfl

/-- A positive finite double, as the library takes it apart. -/
theorem unpack_eq {b : BitVec 64} (hfinite : b.toNat < infinityBits)
    (hpos : 0 < (Binary.ofBits b.toNat).significand) :
    UnpackedFloat.unpack Format.binary64 b =
      .finite .positive (Binary.ofBits b.toNat).significand (Binary.ofBits b.toNat).exponent
        hpos := by
  have hm := unpackMantissa_toNat b
  have he := unpackExponent_toNat b
  have hsign := lt_signBit hfinite
  have hexp : @UnpackedFloat.unpackExponent Format.binary64 b ≠ -1#_ :=
    mt (unpackExponent_eq_neg_one_iff hsign).1 (by omega)
  unfold UnpackedFloat.unpack
  simp only
  rw [if_neg hexp, unpackSign_eq_zero hsign]
  by_cases hfield : b.toNat / exponentBit % 2048 = 0
  · have hzero' : @UnpackedFloat.unpackExponent Format.binary64 b = 0#_ := by
      apply BitVec.eq_of_toNat_eq
      rw [he]
      exact hfield
    have hne : @UnpackedFloat.unpackMantissa Format.binary64 b ≠ 0#_ := by
      intro h
      rw [h] at hm
      rw [Binary.ofBits_of_field_eq hfield] at hpos
      exact Nat.ne_of_gt hpos hm.symm
    rw [if_pos hzero', dif_neg hne]
    refine finite_congr ?_ ?_ _ _ <;> rw [Binary.ofBits_of_field_eq hfield]
    · exact hm
    · rw [he, hfield]
      rfl
  · have hne : @UnpackedFloat.unpackExponent Format.binary64 b ≠ 0#_ := by
      intro h
      rw [h] at he
      exact hfield he.symm
    rw [if_neg hne]
    refine finite_congr ?_ ?_ _ _ <;> rw [Binary.ofBits_of_field_ne hfield]
    · rw [BitVec.toNat_append, ← Nat.shiftLeft_add_eq_or_of_lt (BitVec.isLt _), hm]
      rfl
    · rw [he]
      rfl

theorem unpack_tenPow16 :
    (1e16 : Float).toModel.unpack = .finite .positive 5000000000000000 1 (by decide) := by
  rfl

theorem unpack_zero : UnpackedFloat.unpack Format.binary64 0#64 = .zero .positive := rfl

/-- What the library takes a finite double without a sign apart into. -/
theorem unpack_cases {b : BitVec 64} (h : b.toNat < infinityBits) :
    (b = 0#64 ∧ UnpackedFloat.unpack Format.binary64 b = .zero .positive) ∨
    ∃ hpos, UnpackedFloat.unpack Format.binary64 b =
      .finite .positive (Binary.ofBits b.toNat).significand (Binary.ofBits b.toNat).exponent
        hpos := by
  by_cases hpos : 0 < (Binary.ofBits b.toNat).significand
  · exact .inr ⟨hpos, unpack_eq h hpos⟩
  · have hzero : b = 0#64 := BitVec.eq_of_toNat_eq
      (Binary.eq_zero_of_significand h (Nat.eq_zero_of_not_pos hpos))
    exact .inl ⟨hzero, hzero ▸ unpack_zero⟩

/-! ## Tests -/

theorem isFinite_iff {x : Float} (hsign : x.toBits.toNat < signBit) :
    x.isFinite = true ↔ x.toBits.toNat < infinityBits := by
  have hx : x.isFinite = (UnpackedFloat.unpack Format.binary64 x.toBits.toBitVec).isFinite := rfl
  rw [hx]
  constructor
  · intro h
    refine Nat.lt_of_not_le fun hlarge => ?_
    rw [UnpackedFloat.unpack] at h
    simp only at h
    rw [if_pos ((unpackExponent_eq_neg_one_iff hsign).2 hlarge)] at h
    split at h <;> cases h
  · intro h
    obtain ⟨-, hunpack⟩ | ⟨_, hunpack⟩ := unpack_cases h <;> rw [hunpack] <;> rfl

theorem beq_self {x : Float} (h : x.toBits.toNat < infinityBits) : (x == x) = true := by
  apply Float.beq_self_iff.2
  intro hnan
  rw [hnan] at h
  exact absurd h (by decide)

/-- A double below `10 ^ 16` is one whose last place is too low, or whose significand is. -/
theorem lt_tenPow16_iff {x : Float} (h : x.toBits.toNat < infinityBits) :
    x < 1e16 ↔ (Binary.ofBits x.toBits.toNat).exponent < 1 ∨
      (Binary.ofBits x.toBits.toNat).exponent = 1 ∧
        (Binary.ofBits x.toBits.toNat).significand < 5000000000000000 := by
  have hlt : x < 1e16 ↔ UnpackedFloat.lt (UnpackedFloat.unpack Format.binary64 x.toBits.toBitVec)
      (.finite .positive 5000000000000000 1 (by decide)) = true := by
    rw [← unpack_tenPow16]
    show decide (_ = true) = true ↔ _
    rw [decide_eq_true_iff]
    rfl
  rw [hlt]
  obtain ⟨hzero, hunpack⟩ | ⟨_, hunpack⟩ := unpack_cases h <;> rw [hunpack]
  · have hexponent : (Binary.ofBits x.toBits.toNat).exponent = -1074 := by
      have hbits : x.toBits.toNat = 0 := congrArg BitVec.toNat hzero
      rw [hbits]
      rfl
    rw [hexponent]
    exact ⟨fun _ => .inl (by decide), fun _ => rfl⟩
  · show ((some _ == some Ordering.lt) = true) ↔ _
    rw [beq_iff_eq, Option.some_inj, Ordering.then_eq_lt, Int.compare_eq_lt, Int.compare_eq_eq,
      Nat.compare_eq_lt]
    rfl

end SlotLisp.Double
