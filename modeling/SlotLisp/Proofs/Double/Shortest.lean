import SlotLisp.Proofs.Double.Nearest

/-!
# The shortest decimal rounds to its double

Whatever grid the search stops at, its point lies in the interval of the double
(`covers_shortest`). The search never descends more than seventeen grids below that of the leading
digit, so a double of `10 ^ 16` or more has a decimal without a fraction.
-/

namespace SlotLisp.Double

def Binary.value (b : Binary) : ℚ := b.significand * 2 ^ b.exponent

def Decimal.value (x : Decimal) : ℚ := x.digits * 10 ^ x.exponent

namespace Binary

variable {b : Binary}

/-! ## Grids -/

theorem quarterOn_spec (b : Binary) (grid : Int) :
    0 < (b.quarterOn grid).2 ∧
      ((b.quarterOn grid).1 : ℚ) * 10 ^ grid = (b.quarterOn grid).2 * 2 ^ (b.exponent - 2) := by
  obtain ⟨n, d, hn, hd⟩ : ∃ n d : Nat, (if 0 ≤ b.exponent - 2
      then (Nat.pow 2 (b.exponent - 2).toNat, 1) else (1, Nat.pow 2 (-(b.exponent - 2)).toNat)) =
        (n, d) ∧ 0 < d ∧ (n : ℚ) = d * 2 ^ (b.exponent - 2) := by
    by_cases he : 0 ≤ b.exponent - 2
    · obtain ⟨k, hk⟩ := Int.eq_ofNat_of_zero_le he
      refine ⟨2 ^ k, 1, ?_, Nat.one_pos, ?_⟩
      · rw [if_pos he, hk]
        rfl
      · rw [hk, zpow_natCast]
        push_cast
        ring
    · obtain ⟨k, hk⟩ := Int.eq_ofNat_of_zero_le (show 0 ≤ -(b.exponent - 2) by omega)
      have hneg : b.exponent - 2 = -k := by omega
      refine ⟨1, 2 ^ k, ?_, by positivity, ?_⟩
      · rw [if_neg he, hk]
        rfl
      · rw [hneg, zpow_neg, zpow_natCast]
        push_cast
        rw [mul_inv_cancel₀ (by positivity)]
  obtain ⟨hdpos, hratio⟩ := hd
  have hquarter : b.quarterOn grid = if 0 ≤ grid then (n, d * Nat.pow 10 grid.toNat)
      else (n * Nat.pow 10 (-grid).toNat, d) := by
    unfold quarterOn
    simp only [hn]
  rw [hquarter]
  by_cases hgrid : 0 ≤ grid
  · obtain ⟨k, rfl⟩ := Int.eq_ofNat_of_zero_le hgrid
    rw [if_pos hgrid, Int.toNat_natCast, zpow_natCast]
    refine ⟨Nat.mul_pos hdpos (Nat.pow_pos (by decide)), ?_⟩
    show (n : ℚ) * 10 ^ k = ((d * 10 ^ k : Nat) : ℚ) * 2 ^ (b.exponent - 2)
    push_cast
    rw [hratio]
    ring
  · obtain ⟨k, hk⟩ := Int.eq_ofNat_of_zero_le (show 0 ≤ -grid by omega)
    obtain rfl : grid = -k := by omega
    rw [if_neg hgrid, neg_neg, Int.toNat_natCast, zpow_neg, zpow_natCast]
    refine ⟨hdpos, ?_⟩
    show ((n * 10 ^ k : Nat) : ℚ) * (10 ^ k)⁻¹ = d * 2 ^ (b.exponent - 2)
    push_cast
    rw [mul_assoc, mul_inv_cancel₀ (by positivity), mul_one, hratio]

/-- The unit in which both a quarter of the last place and the step of a grid are whole numbers. -/
theorem exists_unit (b : Binary) (grid : Int) :
    ∃ unit : ℚ, 0 < unit ∧ 2 ^ (b.exponent - 2) = (b.quarterOn grid).1 * unit ∧
      10 ^ grid = (b.quarterOn grid).2 * unit := by
  obtain ⟨hpos, hquarter⟩ := b.quarterOn_spec grid
  have hpos' : (0 : ℚ) < (b.quarterOn grid).2 := by exact_mod_cast hpos
  refine ⟨10 ^ grid / (b.quarterOn grid).2, by positivity, ?_, ?_⟩
  · rw [← mul_div_assoc, hquarter, mul_div_cancel_left₀ _ hpos'.ne']
  · rw [mul_div_cancel₀ _ hpos'.ne']

theorem quarters_le_iff (b : Binary) (grid : Int) (m c : Nat) :
    m * (b.quarterOn grid).1 ≤ c * (b.quarterOn grid).2 ↔
      (m : ℚ) * 2 ^ (b.exponent - 2) ≤ c * 10 ^ grid := by
  obtain ⟨unit, hunit, hquarter, hstep⟩ := b.exists_unit grid
  rw [hquarter, hstep, ← mul_assoc, ← mul_assoc, mul_le_mul_iff_left₀ hunit]
  exact_mod_cast Iff.rfl

theorem le_quarters_iff (b : Binary) (grid : Int) (m c : Nat) :
    c * (b.quarterOn grid).2 ≤ m * (b.quarterOn grid).1 ↔
      (c : ℚ) * 10 ^ grid ≤ m * 2 ^ (b.exponent - 2) := by
  obtain ⟨unit, hunit, hquarter, hstep⟩ := b.exists_unit grid
  rw [hquarter, hstep, ← mul_assoc, ← mul_assoc, mul_le_mul_iff_left₀ hunit]
  exact_mod_cast Iff.rfl

theorem covers_of_holds {grid : Int} {c : Nat} (h : b.holds (b.quarterOn grid) c = true) :
    b.Covers (c * 10 ^ grid) := by
  unfold holds at h
  by_cases heven : b.significand % 2 = 0
  · rw [if_pos heven, Bool.and_eq_true, decide_eq_true_iff, decide_eq_true_iff, quarters_le_iff,
      le_quarters_iff] at h
    exact ⟨h.1, h.2, fun hodd => by omega⟩
  · rw [if_neg heven, Bool.and_eq_true, decide_eq_true_iff, decide_eq_true_iff, ← not_le, ← not_le,
      quarters_le_iff, le_quarters_iff, not_le, not_le] at h
    exact ⟨h.1.le, h.2.le, fun _ => h⟩

theorem onGrid?_cases {grid : Int} {c : Nat} (h : b.onGrid? grid = some c) :
    b.holds (b.quarterOn grid) c = true ∧
      b.quarters * (b.quarterOn grid).1 / (b.quarterOn grid).2 ≤ c := by
  unfold onGrid? at h
  simp only at h
  split at h
  · rename_i hbelow habove
    obtain rfl := Option.some.inj h
    split
    · exact ⟨hbelow, Nat.le_refl _⟩
    · exact ⟨habove, Nat.le_succ _⟩
  · rename_i hbelow _
    obtain rfl := Option.some.inj h
    exact ⟨hbelow, Nat.le_refl _⟩
  · rename_i _ habove
    obtain rfl := Option.some.inj h
    exact ⟨habove, Nat.le_succ _⟩
  · cases h

/-! ## The decimal -/

theorem value_eq_quarters (b : Binary) : b.value = b.quarters * 2 ^ (b.exponent - 2) := by
  unfold value quarters
  rw [zpow_sub₀ two_ne_zero]
  push_cast
  ring

theorem covers_value (hpos : 0 < b.significand) : b.Covers b.value := by
  have hu : (0 : ℚ) < 2 ^ (b.exponent - 2) := by positivity
  have hlow : (b.lowQuarters : ℚ) < b.quarters := by
    have hnat : b.lowQuarters < b.quarters := by
      unfold lowQuarters quarters
      split <;> omega
    exact_mod_cast hnat
  have hhigh : (b.quarters : ℚ) < b.highQuarters := by
    have hnat : b.quarters < b.highQuarters := Nat.lt_add_of_pos_right (by decide)
    exact_mod_cast hnat
  rw [value_eq_quarters]
  exact ⟨(mul_lt_mul_of_pos_right hlow hu).le, (mul_lt_mul_of_pos_right hhigh hu).le,
    fun _ => ⟨mul_lt_mul_of_pos_right hlow hu, mul_lt_mul_of_pos_right hhigh hu⟩⟩

theorem value_dropZeros (n : Nat) (x : Decimal) :
    (dropZeros n x).value = x.value ∧ x.exponent ≤ (dropZeros n x).exponent := by
  induction n generalizing x with
  | zero => exact ⟨rfl, Int.le_refl _⟩
  | succ n ih =>
    rw [dropZeros]
    split
    · rename_i hzero
      obtain ⟨hvalue, hexponent⟩ := ih ⟨x.digits / 10, x.exponent + 1⟩
      refine ⟨hvalue.trans ?_, Int.le_trans (Int.le_of_lt (Int.lt_succ _)) hexponent⟩
      have hdigits : x.digits = x.digits / 10 * 10 := by omega
      unfold Decimal.value
      simp only
      rw [zpow_add_one₀ (by norm_num), hdigits]
      push_cast
      rw [Nat.mul_div_cancel _ (by decide)]
      ring
    · exact ⟨rfl, Int.le_refl _⟩

/-- The decimal that is written out in full when no grid has a point. -/
def full (b : Binary) : Decimal :=
  if 0 ≤ b.exponent then ⟨b.significand * Nat.pow 2 b.exponent.toNat, 0⟩
  else ⟨b.significand * Nat.pow 5 (-b.exponent).toNat, b.exponent⟩

theorem value_full (b : Binary) : b.full.value = b.value := by
  unfold full Decimal.value value
  by_cases he : 0 ≤ b.exponent
  · obtain ⟨k, hk⟩ := Int.eq_ofNat_of_zero_le he
    rw [if_pos he, hk, Int.toNat_natCast, zpow_natCast]
    show ((b.significand * 2 ^ k : Nat) : ℚ) * 10 ^ (0 : ℤ) = b.significand * 2 ^ k
    push_cast
    ring
  · obtain ⟨k, hk⟩ := Int.eq_ofNat_of_zero_le (show 0 ≤ -b.exponent by omega)
    have hneg : b.exponent = -k := by omega
    rw [if_neg he, hneg, neg_neg, Int.toNat_natCast]
    show ((b.significand * 5 ^ k : Nat) : ℚ) * 10 ^ (-(k : ℤ)) = b.significand * 2 ^ (-(k : ℤ))
    push_cast
    rw [zpow_neg, zpow_neg, zpow_natCast, zpow_natCast, show (10 : ℚ) = 5 * 2 by norm_num,
      mul_pow, mul_inv]
    field_simp

theorem shortest_cases (b : Binary) :
    (∃ x, b.search b.leadingPlace 17 = some x ∧ b.shortest = dropZeros 17 x) ∨
      b.shortest = b.full := by
  unfold shortest
  cases h : b.search b.leadingPlace 17 with
  | some x => exact .inl ⟨x, rfl, rfl⟩
  | none => exact .inr rfl

theorem covers_shortest (hpos : 0 < b.significand) : b.Covers b.shortest.value := by
  obtain ⟨x, hsearch, hshortest⟩ | hshortest := b.shortest_cases
  · rw [hshortest, (value_dropZeros 17 x).1]
    exact covers_of_holds (onGrid?_cases (search_eq_some hsearch)).1
  · rw [hshortest, value_full]
    exact covers_value hpos

/-! ## Doubles of `10 ^ 16` or more -/

/-- The last place decides, and at the place `2 ^ 1` the significand. -/
theorem value_lt_iff (hb : b.Canonical) :
    b.value < 10 ^ 16 ↔
      b.exponent < 1 ∨ b.exponent = 1 ∧ b.significand < 5000000000000000 := by
  have hlt := hb.significand_lt
  unfold value
  obtain hexp | hexp | hexp := lt_trichotomy b.exponent 1
  · refine iff_of_true ?_ (.inl hexp)
    have hs : (b.significand : ℚ) < 2 ^ 53 := by exact_mod_cast hlt
    have hpow : (2 : ℚ) ^ b.exponent ≤ 2 ^ (0 : ℤ) := zpow_le_zpow_right₀ one_le_two (by omega)
    calc (b.significand : ℚ) * 2 ^ b.exponent ≤ b.significand * 2 ^ (0 : ℤ) := by gcongr
      _ < 10 ^ 16 := by norm_num at hs ⊢; linarith
  · rw [hexp, zpow_one]
    constructor
    · intro h
      have hs : (b.significand : ℚ) < 5000000000000000 := by norm_num at h; linarith
      exact .inr ⟨rfl, by exact_mod_cast hs⟩
    · rintro (h | ⟨-, h⟩)
      · exact absurd h (by decide)
      · have hs : (b.significand : ℚ) < 5000000000000000 := by exact_mod_cast h
        norm_num
        linarith
  · refine iff_of_false (not_lt.2 ?_) (by omega)
    have hs : (4503599627370496 : ℚ) ≤ b.significand := by
      exact_mod_cast hb.normal.resolve_right (by omega)
    have hpow : (2 : ℚ) ^ (2 : ℤ) ≤ 2 ^ b.exponent := zpow_le_zpow_right₀ one_le_two (by omega)
    calc (10 : ℚ) ^ 16 ≤ b.significand * 2 ^ (2 : ℤ) := by norm_num; linarith
      _ ≤ b.significand * 2 ^ b.exponent := by gcongr

/-- The interval of a double below `10 ^ 16` lies below it. -/
theorem Covers.lt_of_value_lt {x : ℚ} (hb : b.Canonical) (hpos : 0 < b.significand)
    (h : b.Covers x) (hvalue : b.value < 10 ^ 16) : x < 10 ^ 16 := by
  have hhigh := (h.bounds hpos).2
  apply hhigh.trans_lt
  obtain hexp | ⟨hexp, hs⟩ := (value_lt_iff hb).1 hvalue
  · have hs : (b.significand : ℚ) < 9007199254740992 := by exact_mod_cast hb.significand_lt
    have hpow : (2 : ℚ) ^ (b.exponent - 2) ≤ 2 ^ (-2 : ℤ) :=
      zpow_le_zpow_right₀ one_le_two (by omega)
    calc (4 * b.significand + 2 : ℚ) * 2 ^ (b.exponent - 2)
        ≤ (4 * b.significand + 2) * 2 ^ (-2 : ℤ) := by gcongr
      _ < 10 ^ 16 := by norm_num; linarith
  · have hs' : (b.significand : ℚ) + 1 ≤ 5000000000000000 := by exact_mod_cast hs
    rw [hexp, show (1 : ℤ) - 2 = -1 by norm_num, zpow_neg_one]
    norm_num
    linarith

theorem below_iff (b : Binary) (k : Int) : b.below k = true ↔ b.value < 10 ^ k := by
  have hle := b.le_quarters_iff k b.quarters 1
  rw [Nat.one_mul, Nat.cast_one, one_mul, ← value_eq_quarters] at hle
  unfold below
  rw [decide_eq_true_iff, ← not_le, hle, not_le]

theorem leadingPlace_ge (hb : b.Canonical) (hvalue : 10 ^ 16 ≤ b.value) :
    16 ≤ b.leadingPlace := by
  have hbelow : ∀ k : Int, k ≤ 16 → b.below k = false := by
    intro k hk
    rw [← Bool.not_eq_true, below_iff, not_lt]
    exact le_trans (zpow_le_zpow_right₀ (by norm_num) hk) hvalue
  have hestimate : 53 ≤ (b.significand.log2 : Int) + b.exponent := by
    have hhigh := (not_congr (value_lt_iff hb)).1 (not_lt.2 hvalue)
    have hnormal : 4503599627370496 ≤ b.significand := hb.normal.resolve_right (by omega)
    have hlog : 52 ≤ b.significand.log2 := (Nat.le_log2 (by omega)).2 hnormal
    omega
  unfold leadingPlace
  simp only
  split
  · rename_i hlt
    by_contra hsmall
    rw [hbelow _ (by omega)] at hlt
    cases hlt
  · split
    · rename_i hlt
      by_contra hsmall
      rw [hbelow _ (by omega)] at hlt
      cases hlt
    · omega

theorem search_exponent {place : Int} {n : Nat} {x : Decimal} (h : b.search place n = some x) :
    place < x.exponent + n := by
  induction n generalizing place with
  | zero => cases h
  | succ n ih =>
    rw [search] at h
    split at h
    · obtain rfl := Option.some.inj h
      show place < place + ((n + 1 : Nat) : Int)
      omega
    · have := ih h
      omega

theorem le_value_of_onGrid? (hpos : 0 < b.significand) (hvalue : 10 ^ 16 ≤ b.value) {place : Nat}
    {c : Nat} (h : b.onGrid? place = some c) : (10 : ℚ) ^ 16 ≤ c * 10 ^ (place : ℤ) := by
  obtain ⟨hholds, hfloor⟩ := onGrid?_cases h
  have hcovers := (covers_of_holds hholds).pos hpos
  rw [zpow_natCast] at hcovers ⊢
  have hc : 0 < c := by
    have hpow : (0 : ℚ) < 10 ^ place := by positivity
    exact_mod_cast pos_of_mul_pos_left hcovers hpow.le
  by_cases hplace : 16 ≤ place
  · have hone : (1 : ℚ) ≤ c := by exact_mod_cast hc
    calc (10 : ℚ) ^ 16 ≤ 10 ^ place := pow_le_pow_right₀ (by norm_num) hplace
      _ ≤ c * 10 ^ place := le_mul_of_one_le_left (by positivity) hone
  · have hsplit : (10 : ℚ) ^ 16 = (10 ^ (16 - place) : Nat) * 10 ^ place := by
      push_cast
      rw [← pow_add, Nat.sub_add_cancel (by omega)]
    have hquotient : 10 ^ (16 - place) ≤
        b.quarters * (b.quarterOn place).1 / (b.quarterOn place).2 := by
      rw [Nat.le_div_iff_mul_le (b.quarterOn_spec place).1, le_quarters_iff, ← value_eq_quarters,
        zpow_natCast, ← hsplit]
      exact hvalue
    have hcast : ((10 ^ (16 - place) : Nat) : ℚ) ≤ c := by exact_mod_cast hquotient.trans hfloor
    rw [hsplit]
    gcongr

/-- A double of `10 ^ 16` or more has a whole decimal, no less than that either. -/
theorem shortest_of_le_value (hb : b.Canonical) (hpos : 0 < b.significand)
    (hvalue : 10 ^ 16 ≤ b.value) :
    0 ≤ b.shortest.exponent ∧ 10 ^ 16 ≤ b.shortest.value := by
  obtain ⟨x, hsearch, hshortest⟩ | hshortest := b.shortest_cases
  · have hplace := leadingPlace_ge hb hvalue
    have hexponent := search_exponent hsearch
    obtain ⟨hdrop, hle⟩ := value_dropZeros 17 x
    obtain ⟨place, hx⟩ := Int.eq_ofNat_of_zero_le (show 0 ≤ x.exponent by omega)
    have hgrid := search_eq_some hsearch
    rw [hx] at hgrid
    rw [hshortest, hdrop, Decimal.value, hx]
    exact ⟨by omega, le_value_of_onGrid? hpos hvalue hgrid⟩
  · have hhigh := (not_congr (value_lt_iff hb)).1 (not_lt.2 hvalue)
    rw [hshortest, value_full]
    refine ⟨?_, hvalue⟩
    rw [full, if_pos (by omega)]

end Binary

end SlotLisp.Double
