import SlotLisp.Proofs.Double.Bits

/-!
# Rounding to the nearest double

The ratios that a double stands for are those of an interval around its value. Every ratio in that
interval is rounded to the double (`nearestBits_eq`). The estimate of the last place is exact, but a
ratio just below a power of two may have a last place lower than that of the power it rounds to.
-/

namespace SlotLisp.Double

/-! ## Halves -/

theorem roundHalfEven_eq {num den s : Nat} (hlow : 2 * s * den ≤ 2 * num + den)
    (hhigh : 2 * num ≤ 2 * s * den + den)
    (hodd : s % 2 = 1 → 2 * s * den < 2 * num + den ∧ 2 * num < 2 * s * den + den)
    (hden : 0 < den) : roundHalfEven num den = s := by
  have hdiv := Nat.div_add_mod num den
  have hmod := Nat.mod_lt num hden
  obtain ⟨q, hq⟩ : ∃ q, num / den = q := ⟨_, rfl⟩
  obtain ⟨r, hr⟩ : ∃ r, num % den = r := ⟨_, rfl⟩
  rw [hq, hr] at hdiv
  rw [hr] at hmod
  have hnum : 2 * num = 2 * (q * den) + 2 * r := by rw [← hdiv, Nat.mul_comm den q]; omega
  have hs : 2 * s * den = 2 * (s * den) := Nat.mul_assoc 2 s den
  unfold roundHalfEven
  simp only [hq, hr]
  obtain hlt | rfl | hgt := Nat.lt_trichotomy q s
  · obtain hnext | hfar : s = q + 1 ∨ q + 2 ≤ s := by omega
    · have hmul : s * den = q * den + den := by rw [hnext, Nat.succ_mul]
      by_cases htie : 2 * r = den
      · have heven : s % 2 ≠ 1 := fun h => by have := (hodd h).1; omega
        rw [if_neg (by omega), if_neg (by omega)]
        omega
      · rw [if_neg (by omega), if_pos (by omega), hnext]
    · have hmul : (q + 2) * den ≤ s * den := Nat.mul_le_mul_right den hfar
      rw [Nat.add_mul] at hmul
      omega
  · by_cases htie : 2 * r = den
    · have heven : q % 2 ≠ 1 := fun h => by have := (hodd h).2; omega
      rw [if_neg (by omega), if_neg (by omega)]
      omega
    · rw [if_pos (by omega)]
  · have hmul : (s + 1) * den ≤ q * den := Nat.mul_le_mul_right den hgt
    rw [Nat.add_mul] at hmul
    omega

/-! ## The last place -/

theorem scaleDown_spec (num : Nat) {den : Nat} (hden : 0 < den) (e : Int) :
    0 < (scaleDown num den e).2 ∧
      ((scaleDown num den e).1 : ℚ) / (scaleDown num den e).2 = num / den / 2 ^ e := by
  have hpos : (den : ℚ) ≠ 0 := by positivity
  unfold scaleDown
  by_cases he : 0 ≤ e
  · obtain ⟨k, rfl⟩ := Int.eq_ofNat_of_zero_le he
    rw [if_pos he, Int.toNat_natCast, Nat.shiftLeft_eq]
    refine ⟨by positivity, ?_⟩
    push_cast
    rw [zpow_natCast, div_div]
  · obtain ⟨k, hk⟩ := Int.eq_ofNat_of_zero_le (show 0 ≤ -e by omega)
    obtain rfl : e = -k := by omega
    rw [if_neg he, neg_neg, Int.toNat_natCast, Nat.shiftLeft_eq]
    refine ⟨hden, ?_⟩
    push_cast
    rw [zpow_neg, zpow_natCast, div_inv_eq_mul, div_mul_eq_mul_div]

theorem two_zpow_add_one (e : ℤ) : (2 : ℚ) ^ (e + 1) = 2 * 2 ^ e := by
  rw [zpow_add_one₀ two_ne_zero, mul_comm]

theorem log2_bounds {n : Nat} (hn : 0 < n) :
    (2 : ℚ) ^ (n.log2 : ℤ) ≤ n ∧ (n : ℚ) < 2 ^ ((n.log2 : ℤ) + 1) := by
  rw [two_zpow_add_one, zpow_natCast]
  have hle := Nat.log2_self_le (Nat.ne_of_gt hn)
  have hlt := Nat.lt_log2_self (n := n)
  rw [pow_succ, Nat.mul_comm] at hlt
  exact ⟨by exact_mod_cast hle, by exact_mod_cast hlt⟩

/-- The significand of the ratio at its last place has fifty-three bits, or less when the place is
the lowest one. -/
theorem lastPlace_spec {num den : Nat} (hnum : 0 < num) (hden : 0 < den) :
    (num : ℚ) / den < 2 ^ (lastPlace num den + 53) ∧ -1074 ≤ lastPlace num den ∧
      (lastPlace num den = -1074 ∨ (2 : ℚ) ^ (lastPlace num den + 52) ≤ num / den) := by
  obtain ⟨hnlow, hnhigh⟩ := log2_bounds hnum
  obtain ⟨hdlow, hdhigh⟩ := log2_bounds hden
  have hdpos : (0 : ℚ) < den := by positivity
  obtain ⟨e, he⟩ : ∃ e : ℤ, e = (num.log2 : ℤ) - den.log2 - 53 := ⟨_, rfl⟩
  have hlow : (2 : ℚ) ^ (e + 52) ≤ num / den := by
    rw [le_div_iff₀ hdpos]
    calc (2 : ℚ) ^ (e + 52) * den ≤ 2 ^ (e + 52) * 2 ^ ((den.log2 : ℤ) + 1) := by gcongr
      _ = 2 ^ (num.log2 : ℤ) := by rw [← zpow_add₀ two_ne_zero]; congr 1; omega
      _ ≤ num := hnlow
  have hhigh : (num : ℚ) / den < 2 ^ (e + 54) := by
    rw [div_lt_iff₀ hdpos]
    calc (num : ℚ) < 2 ^ ((num.log2 : ℤ) + 1) := hnhigh
      _ = 2 ^ (e + 54) * 2 ^ (den.log2 : ℤ) := by rw [← zpow_add₀ two_ne_zero]; congr 1; omega
      _ ≤ 2 ^ (e + 54) * den := by gcongr
  obtain ⟨hscaled, hratio⟩ := scaleDown_spec num hden e
  have hfloor : (scaleDown num den e).1 / (scaleDown num den e).2 < 2 * exponentBit ↔
      (num : ℚ) / den < 2 ^ (e + 53) := by
    have hpos : (0 : ℚ) < (scaleDown num den e).2 := by exact_mod_cast hscaled
    rw [Nat.div_lt_iff_lt_mul hscaled, ← Nat.cast_lt (α := ℚ), Nat.cast_mul, ← div_lt_iff₀ hpos,
      hratio, div_lt_iff₀ (by positivity), zpow_add₀ two_ne_zero, mul_comm ((2 : ℚ) ^ e)]
    norm_num [exponentBit]
  have hplace : lastPlace num den = max (if (scaleDown num den e).1 / (scaleDown num den e).2 <
      2 * exponentBit then e else e + 1) (-1074) := by rw [lastPlace, he]
  by_cases hsmall : (num : ℚ) / den < 2 ^ (e + 53)
  · rw [hplace, if_pos (hfloor.2 hsmall)]
    refine ⟨hsmall.trans_le (zpow_le_zpow_right₀ one_le_two (by omega)), by omega, ?_⟩
    by_cases hleast : e ≤ -1074
    · exact .inl (by omega)
    · exact .inr (by rwa [max_eq_left (by omega)])
  · rw [hplace, if_neg (fun h => hsmall (hfloor.1 h))]
    refine ⟨hhigh.trans_le (zpow_le_zpow_right₀ one_le_two (by omega)), by omega, ?_⟩
    by_cases hleast : e + 1 ≤ -1074
    · exact .inl (by omega)
    · refine .inr ?_
      rw [max_eq_left (by omega), show e + 1 + 52 = e + 53 by omega]
      exact not_lt.1 hsmall

/-! ## The interval of a double -/

/-- The ratio lies in the interval of `b`; the ends belong to an even significand only. -/
structure Binary.Covers (b : Binary) (x : ℚ) : Prop where
  low : b.lowQuarters * 2 ^ (b.exponent - 2) ≤ x
  high : x ≤ b.highQuarters * 2 ^ (b.exponent - 2)
  strict : b.significand % 2 = 1 →
    b.lowQuarters * 2 ^ (b.exponent - 2) < x ∧ x < b.highQuarters * 2 ^ (b.exponent - 2)

namespace Binary

variable {b : Binary} {x : ℚ}

theorem cast_lowQuarters (hpos : 0 < b.significand) :
    (b.lowQuarters : ℚ) = 4 * b.significand - if b.narrowBelow then 1 else 2 := by
  unfold lowQuarters quarters
  rw [Nat.cast_sub (by split <;> omega)]
  split <;> push_cast <;> rfl

theorem cast_highQuarters : (b.highQuarters : ℚ) = 4 * b.significand + 2 := by
  unfold highQuarters quarters
  push_cast
  rfl

/-- The distances of the ends, in quarters of the last place. -/
theorem Covers.bounds (h : b.Covers x) (hpos : 0 < b.significand) :
    (4 * b.significand - 2) * 2 ^ (b.exponent - 2) ≤ x ∧
      x ≤ (4 * b.significand + 2) * 2 ^ (b.exponent - 2) := by
  have hlow := h.low
  have hhigh := h.high
  have hu : (0 : ℚ) < 2 ^ (b.exponent - 2) := by positivity
  rw [cast_lowQuarters hpos] at hlow
  rw [cast_highQuarters] at hhigh
  refine ⟨le_trans ?_ hlow, hhigh⟩
  gcongr
  split <;> norm_num

theorem Covers.pos (h : b.Covers x) (hpos : 0 < b.significand) : 0 < x := by
  have hone : (1 : ℚ) ≤ b.significand := by exact_mod_cast hpos
  refine lt_of_lt_of_le ?_ (h.bounds hpos).1
  have hfactor : (0 : ℚ) < 4 * b.significand - 2 := by linarith
  positivity

end Binary

theorem roundHalfEven_of_near {num den s : Nat} (hden : 0 < den)
    (hlow : (s : ℚ) - 1 / 2 ≤ num / den) (hhigh : (num : ℚ) / den ≤ s + 1 / 2)
    (hodd : s % 2 = 1 → (s : ℚ) - 1 / 2 < num / den ∧ (num : ℚ) / den < s + 1 / 2) :
    roundHalfEven num den = s := by
  have hpos : (0 : ℚ) < den := by exact_mod_cast hden
  rw [le_div_iff₀ hpos] at hlow
  rw [div_le_iff₀ hpos] at hhigh
  rw [lt_div_iff₀ hpos, div_lt_iff₀ hpos] at hodd
  refine roundHalfEven_eq ?_ ?_ (fun h => ⟨?_, ?_⟩) hden
  · have : (2 * s * den : ℚ) ≤ 2 * num + den := by linarith
    exact_mod_cast this
  · have : (2 * num : ℚ) ≤ 2 * s * den + den := by linarith
    exact_mod_cast this
  · have : (2 * s * den : ℚ) < 2 * num + den := by linarith [(hodd h).1]
    exact_mod_cast this
  · have : (2 * num : ℚ) < 2 * s * den + den := by linarith [(hodd h).2]
    exact_mod_cast this

theorem bits_lt_infinityBits {b : Binary} (hb : b.Canonical) : b.bits < infinityBits := by
  obtain ⟨hlt, -, hleast, hgreatest⟩ := hb
  unfold Binary.bits infinityBits
  simp only [exponentBit] at *
  omega

section Rounding

variable {b : Binary} {num den : Nat}

theorem two_zpow_split (e k : ℤ) : (2 : ℚ) ^ (e + k) = 2 ^ (e - 2) * 2 ^ (k + 2) := by
  rw [← zpow_add₀ two_ne_zero]
  congr 1
  omega

theorem lastPlace_le (hb : b.Canonical) (hpos : 0 < b.significand) (hnum : 0 < num)
    (hden : 0 < den) (h : b.Covers (num / den)) : lastPlace num den ≤ b.exponent := by
  obtain ⟨-, -, hplace⟩ := lastPlace_spec hnum hden
  have hu : (0 : ℚ) < 2 ^ (b.exponent - 2) := by positivity
  by_contra hgt
  have hleast := hb.least
  obtain hplace | hplace := hplace
  · omega
  have hle : (2 : ℚ) ^ (b.exponent + 53) ≤ num / den :=
    le_trans (zpow_le_zpow_right₀ one_le_two (by omega)) hplace
  have hhigh := (h.bounds hpos).2
  have hs : (b.significand : ℚ) ≤ 9007199254740991 := by
    exact_mod_cast Nat.le_of_lt_succ hb.significand_lt
  rw [two_zpow_split, mul_comm] at hle
  have hfactor : (2 : ℚ) ^ ((53 : ℤ) + 2) ≤ 4 * b.significand + 2 :=
    le_of_mul_le_mul_right (hle.trans hhigh) hu
  norm_num at hfactor
  linarith

/-- At the last place of the double the significand is the nearest one. -/
theorem round_at_place (hpos : 0 < b.significand) (hden : 0 < den)
    (h : b.Covers (num / den)) :
    roundHalfEven (scaleDown num den b.exponent).1 (scaleDown num den b.exponent).2 =
      b.significand := by
  obtain ⟨hscaled, hratio⟩ := scaleDown_spec num hden b.exponent
  have hu : (0 : ℚ) < 2 ^ (b.exponent - 2) := by positivity
  have hsplit : (2 : ℚ) ^ b.exponent = 2 ^ (b.exponent - 2) * 4 := by
    have := two_zpow_split b.exponent 0
    norm_num at this
    exact this
  obtain ⟨hlow, hhigh⟩ := h.bounds hpos
  refine roundHalfEven_of_near hscaled ?_ ?_ fun hodd => ?_
  · rw [hratio, hsplit, le_div_iff₀ (by positivity)]
    linarith
  · rw [hratio, hsplit, div_le_iff₀ (by positivity)]
    linarith
  · obtain ⟨hlow', hhigh'⟩ := h.strict hodd
    have hnarrow : b.narrowBelow = false := by
      by_contra hnarrow
      simp only [Binary.narrowBelow, Bool.not_eq_false, Bool.and_eq_true, decide_eq_true_eq]
        at hnarrow
      rw [hnarrow.1, exponentBit] at hodd
      exact absurd hodd (by decide)
    rw [Binary.cast_lowQuarters hpos, hnarrow] at hlow'
    rw [Binary.cast_highQuarters] at hhigh'
    rw [hratio, hsplit, lt_div_iff₀ (by positivity), div_lt_iff₀ (by positivity)]
    norm_num at hlow'
    constructor <;> linarith

/-- A ratio with a lower last place lies just below a power of two. -/
theorem significand_of_lastPlace_lt (hb : b.Canonical) (hpos : 0 < b.significand) (hnum : 0 < num)
    (hden : 0 < den) (h : b.Covers (num / den)) (hlt : lastPlace num den < b.exponent) :
    b.significand = exponentBit ∧ lastPlace num den = b.exponent - 1 ∧
      (2 ^ 54 - 1) * 2 ^ (b.exponent - 2) ≤ (num : ℚ) / den ∧
      (num : ℚ) / den < 2 ^ 54 * 2 ^ (b.exponent - 2) := by
  obtain ⟨hratio, hleast, -⟩ := lastPlace_spec hnum hden
  have hu : (0 : ℚ) < 2 ^ (b.exponent - 2) := by positivity
  have hhigh : (num : ℚ) / den < 2 ^ 54 * 2 ^ (b.exponent - 2) := by
    refine hratio.trans_le ((zpow_le_zpow_right₀ one_le_two (by omega)).trans_eq
      (two_zpow_split b.exponent 52) |>.trans_eq ?_)
    norm_num [mul_comm]
  have hnormal : exponentBit ≤ b.significand := hb.normal.resolve_right (by omega)
  have hsignificand : b.significand = exponentBit := by
    have hfactor := lt_of_mul_lt_mul_right ((h.bounds hpos).1.trans_lt hhigh) hu.le
    have hlt : (4 * b.significand : ℚ) < 2 ^ 54 + 2 := by linarith
    have hnat : 4 * b.significand < 2 ^ 54 + 2 := by exact_mod_cast hlt
    simp only [exponentBit] at *
    omega
  have hnarrow : b.narrowBelow = true := by
    simp only [Binary.narrowBelow, Bool.and_eq_true, decide_eq_true_eq]
    exact ⟨hsignificand, by omega⟩
  have hlow : (2 ^ 54 - 1) * 2 ^ (b.exponent - 2) ≤ (num : ℚ) / den := by
    have hlow := h.low
    rw [Binary.cast_lowQuarters hpos, hnarrow, hsignificand] at hlow
    norm_num [exponentBit] at hlow ⊢
    exact hlow
  refine ⟨hsignificand, ?_, hlow, hhigh⟩
  by_contra hne
  have hsmall : (num : ℚ) / den < 2 ^ 53 * 2 ^ (b.exponent - 2) := by
    refine hratio.trans_le ((zpow_le_zpow_right₀ one_le_two (by omega)).trans_eq
      (two_zpow_split b.exponent 51) |>.trans_eq ?_)
    norm_num [mul_comm]
  have hfactor := lt_of_mul_lt_mul_right (hlow.trans_lt hsmall) hu.le
  norm_num at hfactor

theorem round_below_place (hden : 0 < den) {e : ℤ}
    (hlow : (2 ^ 54 - 1) * 2 ^ (e - 2) ≤ (num : ℚ) / den)
    (hhigh : (num : ℚ) / den < 2 ^ 54 * 2 ^ (e - 2)) :
    roundHalfEven (scaleDown num den (e - 1)).1 (scaleDown num den (e - 1)).2 =
      2 * exponentBit := by
  obtain ⟨hscaled, hratio⟩ := scaleDown_spec num hden (e - 1)
  have hu : (0 : ℚ) < 2 ^ (e - 2) := by positivity
  have hsplit : (2 : ℚ) ^ (e - 1) = 2 ^ (e - 2) * 2 := by
    have := two_zpow_split e (-1)
    norm_num at this
    exact this
  refine roundHalfEven_of_near hscaled ?_ ?_ fun hodd => by cases hodd
  · rw [hratio, hsplit, le_div_iff₀ (by positivity)]
    norm_num [exponentBit] at hlow ⊢
    linarith
  · rw [hratio, hsplit, div_le_iff₀ (by positivity)]
    norm_num [exponentBit] at hhigh ⊢
    linarith

theorem nearestBits_eq (hb : b.Canonical) (hpos : 0 < b.significand) (hden : 0 < den)
    (h : b.Covers (num / den)) : nearestBits num den = b.bits := by
  have hnum : 0 < num := by
    have hdenpos : (0 : ℚ) < den := by exact_mod_cast hden
    have hratio := h.pos hpos
    rw [lt_div_iff₀ hdenpos, zero_mul] at hratio
    exact_mod_cast hratio
  have hinf := bits_lt_infinityBits hb
  have hleast := hb.least
  rw [nearestBits, if_neg (Nat.ne_of_gt hnum)]
  simp only
  obtain hplace | hplace := (lastPlace_le hb hpos hnum hden h).eq_or_lt
  · rw [hplace, round_at_place hpos hden h]
    exact Nat.min_eq_left hinf.le
  · obtain ⟨hsignificand, hbelow, hlow, hhigh⟩ :=
      significand_of_lastPlace_lt hb hpos hnum hden h hplace
    have hleast' := (lastPlace_spec hnum hden).2.1
    have hcarry : (b.exponent - 1 + 1074).toNat * exponentBit + 2 * exponentBit = b.bits := by
      rw [Binary.bits, hsignificand]
      simp only [exponentBit]
      omega
    rw [hbelow, round_below_place hden hlow hhigh, hcarry]
    exact Nat.min_eq_left hinf.le

end Rounding

end SlotLisp.Double
