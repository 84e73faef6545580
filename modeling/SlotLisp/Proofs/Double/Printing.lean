import SlotLisp.Proofs.Double.Shortest

/-!
# Printed doubles

A finite double below `10 ^ 16` without a sign prints as digits, a point and digits, and these are
rounded to the double again (`text_of_lt`). The other doubles print as digits alone, as a name, or
with a sign in front.
-/

namespace SlotLisp.Double

/-- Digits on both sides of a point, which together denote `value`. -/
structure Pointed (whole fraction : List Char) (value : ℚ) : Prop where
  whole_ne : whole ≠ []
  fraction_ne : fraction ≠ []
  whole_digits : ∀ c ∈ whole, c.isDigit = true
  fraction_digits : ∀ c ∈ fraction, c.isDigit = true
  value_eq : (Nat.ofDigitChars 10 (whole ++ fraction) 0 : ℚ) / 10 ^ fraction.length = value

namespace Decimal

variable {x : Decimal}

theorem isDigit_of_mem {c : Char} (h : c ∈ x.digitText) : c.isDigit = true :=
  Nat.isDigit_of_mem_toDigits (by decide) (by decide) h

theorem isDigit_of_mem_zeros {c : Char} {n : Nat} (h : c ∈ List.replicate n '0') :
    c.isDigit = true := by
  rw [List.eq_of_mem_replicate h]
  rfl

theorem isDigit_of_mem_zero : ∀ c ∈ ['0'], c.isDigit = true := List.forall_mem_singleton.2 rfl

theorem digitText_ne_nil (x : Decimal) : x.digitText ≠ [] := Nat.toDigits_ne_nil

theorem ofDigitChars_digitText (x : Decimal) : Nat.ofDigitChars 10 x.digitText 0 = x.digits :=
  Nat.ofDigitChars_ten_toDigits

/-- A whole decimal below `10 ^ 16` is written with at most sixteen digits. -/
theorem leading_lt_iff (hpos : 0 < x.digits) (hwhole : 0 ≤ x.exponent) :
    x.leading < 16 ↔ x.value < 10 ^ 16 := by
  obtain ⟨k, hk⟩ := Int.eq_ofNat_of_zero_le hwhole
  have hvalue : x.value = (x.digits * 10 ^ k : Nat) := by
    unfold value
    rw [hk, zpow_natCast]
    push_cast
    rfl
  have hlength : x.digitText.length + k ≤ 16 ↔ x.digits * 10 ^ k < 10 ^ 16 := by
    by_cases hlarge : 16 ≤ k
    · have hlen : 0 < x.digitText.length := List.length_pos_iff.2 x.digitText_ne_nil
      refine iff_of_false (by omega) (Nat.not_lt.2 ?_)
      calc 10 ^ 16 ≤ 10 ^ k := Nat.pow_le_pow_right (by decide) hlarge
        _ ≤ x.digits * 10 ^ k := Nat.le_mul_of_pos_left _ hpos
    · have hsplit : 10 ^ 16 = 10 ^ (16 - k) * 10 ^ k := by
        rw [← Nat.pow_add, Nat.sub_add_cancel (by omega)]
      rw [hsplit, Nat.mul_lt_mul_right (Nat.pow_pos (by decide)),
        ← Nat.length_toDigits_le_iff (by decide) (by omega)]
      show x.digitText.length + k ≤ 16 ↔ x.digitText.length ≤ 16 - k
      omega
  rw [hvalue]
  have hcast : ((x.digits * 10 ^ k : Nat) : ℚ) < 10 ^ 16 ↔ x.digits * 10 ^ k < 10 ^ 16 := by
    exact_mod_cast Iff.rfl
  rw [hcast, ← hlength, leading, hk]
  omega

theorem positional_of_whole {k : Nat} (hk : x.exponent = k) :
    x.positional = x.digitText ++ List.replicate k '0' := by
  unfold positional
  rw [if_pos (by omega), hk, Int.toNat_natCast]

theorem pointed_of_whole {k : Nat} (hk : x.exponent = k) :
    Pointed (x.digitText ++ List.replicate k '0') ['0'] x.value := by
  refine ⟨by simp [digitText_ne_nil], by decide, ?_, isDigit_of_mem_zero, ?_⟩
  · intro c hc
    obtain hc | hc := List.mem_append.1 hc
    · exact isDigit_of_mem hc
    · exact isDigit_of_mem_zeros hc
  · have hzero : ['0'] = List.replicate 1 '0' := rfl
    rw [hzero, List.append_assoc, List.replicate_append_replicate, Nat.ofDigitChars_append,
      ofDigitChars_digitText, Nat.ofDigitChars_replicate_zero, value, hk, zpow_natCast,
      List.length_replicate]
    push_cast
    rw [pow_succ]
    field_simp

theorem pointed_of_short {k : Nat} (hk : x.exponent = -k) (hplaces : k < x.digitText.length)
    (hpos : 0 < k) :
    Pointed (x.digitText.take (x.digitText.length - k)) (x.digitText.drop (x.digitText.length - k))
      x.value := by
  have hdrop : (x.digitText.drop (x.digitText.length - k)).length = k := by
    rw [List.length_drop]
    omega
  refine ⟨fun h => ?_, fun h => ?_, fun c hc => isDigit_of_mem (List.mem_of_mem_take hc),
    fun c hc => isDigit_of_mem (List.mem_of_mem_drop hc), ?_⟩
  · have hlen := congrArg List.length h
    rw [List.length_take, List.length_nil] at hlen
    omega
  · rw [h, List.length_nil] at hdrop
    omega
  · rw [List.take_append_drop, ofDigitChars_digitText, hdrop, value, hk, zpow_neg, zpow_natCast,
      div_eq_mul_inv]

theorem pointed_of_long {k : Nat} (hk : x.exponent = -k) (hplaces : x.digitText.length ≤ k) :
    Pointed ['0'] (List.replicate (k - x.digitText.length) '0' ++ x.digitText) x.value := by
  refine ⟨by decide, by simp [digitText_ne_nil], isDigit_of_mem_zero, ?_, ?_⟩
  · intro c hc
    obtain hc | hc := List.mem_append.1 hc
    · exact isDigit_of_mem_zeros hc
    · exact isDigit_of_mem hc
  · have hlength : (List.replicate (k - x.digitText.length) '0' ++ x.digitText).length = k := by
      rw [List.length_append, List.length_replicate]
      omega
    have hzero : ['0'] = List.replicate 1 '0' := rfl
    rw [hlength, hzero, ← List.append_assoc, List.replicate_append_replicate,
      Nat.ofDigitChars_append, Nat.ofDigitChars_replicate_zero, Nat.mul_zero,
      ofDigitChars_digitText, value, hk, zpow_neg, zpow_natCast, div_eq_mul_inv]

/-- The text of a decimal below `10 ^ 16`. -/
theorem text_of_lt (hpos : 0 < x.digits) (hvalue : x.value < 10 ^ 16) :
    ∃ whole fraction, x.text = whole ++ '.' :: fraction ∧ Pointed whole fraction x.value := by
  unfold text isWhole
  by_cases hwhole : 0 ≤ x.exponent
  · obtain ⟨k, hk⟩ := Int.eq_ofNat_of_zero_le hwhole
    have hleading := (leading_lt_iff hpos hwhole).2 hvalue
    refine ⟨_, _, ?_, pointed_of_whole hk⟩
    rw [if_pos (by simp [hwhole, hleading]), positional_of_whole hk]
  · obtain ⟨k, hneg⟩ := Int.eq_ofNat_of_zero_le (show 0 ≤ -x.exponent by omega)
    have hk : x.exponent = -k := by omega
    rw [if_neg (by simp [hwhole])]
    unfold positional
    rw [if_neg hwhole, hneg, Int.toNat_natCast]
    by_cases hplaces : k < x.digitText.length
    · exact ⟨_, _, if_pos hplaces, pointed_of_short hk hplaces (by omega)⟩
    · exact ⟨_, _, if_neg hplaces, pointed_of_long hk (by omega)⟩

/-- A whole decimal of `10 ^ 16` or more is written without a point. -/
theorem isDigit_of_mem_text (hpos : 0 < x.digits) (hwhole : 0 ≤ x.exponent)
    (hvalue : 10 ^ 16 ≤ x.value) {c : Char} (h : c ∈ x.text) : c.isDigit = true := by
  obtain ⟨k, hk⟩ := Int.eq_ofNat_of_zero_le hwhole
  have hleading : ¬ x.leading < 16 := fun hlt =>
    not_lt.2 hvalue ((leading_lt_iff hpos hwhole).1 hlt)
  rw [text, if_neg (by simp [hleading]), positional_of_whole hk] at h
  obtain h | h := List.mem_append.1 h
  · exact isDigit_of_mem h
  · exact isDigit_of_mem_zeros h

/-- Every decimal is written with a digit in front. -/
theorem text_head (x : Decimal) : ∃ c rest, x.text = c :: rest ∧ c.isDigit = true := by
  have hpositional : ∃ c rest, x.positional = c :: rest ∧ c.isDigit = true := by
    obtain ⟨d, ds, hds⟩ := List.exists_cons_of_ne_nil x.digitText_ne_nil
    have hd : d.isDigit = true := isDigit_of_mem (x := x) (hds ▸ List.mem_cons_self)
    unfold positional
    simp only
    split
    · exact ⟨d, _, by rw [hds]; rfl, hd⟩
    · split
      · rename_i hplaces
        obtain ⟨n, hn⟩ : ∃ n, x.digitText.length - (-x.exponent).toNat = n + 1 :=
          ⟨_, (Nat.succ_pred_eq_of_pos (Nat.sub_pos_of_lt hplaces)).symm⟩
        refine ⟨d, ds.take n ++ '.' :: ds.drop n, ?_, hd⟩
        rw [hn, hds]
        rfl
      · exact ⟨'0', _, rfl, rfl⟩
  obtain ⟨c, rest, hc, hdigit⟩ := hpositional
  unfold text
  split
  · exact ⟨c, _, by rw [hc]; rfl, hdigit⟩
  · exact ⟨c, rest, hc, hdigit⟩

end Decimal

/-! ## Reading the digits back -/

/-- A ratio that stands for a double is not so small that its power is never formed. -/
theorem exponent_admitted {b : Binary} (hb : b.Canonical) (hpos : 0 < b.significand) {m f : Nat}
    (h : b.Covers (m / 10 ^ f)) : ¬ -(f : Int) < -400 - (m.log2 + 1 : Int) := by
  intro hsmall
  have hlow := (h.bounds hpos).1
  have hone : (1 : ℚ) ≤ b.significand := by exact_mod_cast hpos
  obtain ⟨k, hk⟩ : ∃ k : Nat, k = 1076 := ⟨_, rfl⟩
  have hleast : (2 : ℚ) ^ (-k : ℤ) ≤ 2 ^ (b.exponent - 2) := by
    have := hb.least
    exact zpow_le_zpow_right₀ one_le_two (by omega)
  have hratio : (2 : ℚ) ^ (-k : ℤ) ≤ m / 10 ^ f := by
    refine le_trans ?_ hlow
    calc (2 : ℚ) ^ (-k : ℤ) = 1 * 2 ^ (-k : ℤ) := (one_mul _).symm
      _ ≤ (4 * b.significand - 2) * 2 ^ (b.exponent - 2) := by
        have hfactor : (1 : ℚ) ≤ 4 * b.significand - 2 := by linarith
        gcongr
  have hm : m < 2 ^ (f - 401) :=
    Nat.lt_of_lt_of_le Nat.lt_log2_self (Nat.pow_le_pow_right (by decide) (by omega))
  have hpow : (2 : ℕ) ^ (3 * f) ≤ 10 ^ f := by
    rw [Nat.pow_mul]
    exact Nat.pow_le_pow_left (by decide) f
  have hproduct : 10 ^ f ≤ m * 2 ^ k := by
    have hten : (0 : ℚ) < 10 ^ f := by positivity
    rw [le_div_iff₀ hten, zpow_neg, zpow_natCast, inv_mul_le_iff₀ (by positivity),
      mul_comm] at hratio
    exact_mod_cast hratio
  have hlt : 2 ^ (3 * f) < 2 ^ (f - 401 + k) := by
    rw [Nat.pow_add]
    exact (hpow.trans hproduct).trans_lt (Nat.mul_lt_mul_of_pos_right hm (by positivity))
  have hexponent := (Nat.pow_lt_pow_iff_right (by decide)).1 hlt
  omega

theorem ofDecimal_of_covers {b : Binary} (hb : b.Canonical) (hpos : 0 < b.significand) {m f : Nat}
    (hf : 0 < f) (h : b.Covers (m / 10 ^ f)) :
    ofDecimal false m (-(f : Int)) = withSign false b.bits := by
  have hten : 0 < 10 ^ f := Nat.pow_pos (by decide)
  have hm : m ≠ 0 := by
    rintro rfl
    have hratio := h.pos hpos
    rw [Nat.cast_zero, zero_div] at hratio
    exact lt_irrefl _ hratio
  have hnearest : nearestBits m (10 ^ f) = b.bits :=
    nearestBits_eq hb hpos hten (by exact_mod_cast h)
  unfold ofDecimal
  rw [if_neg hm, if_neg (by omega), if_neg (exponent_admitted hb hpos h), if_neg (by omega),
    neg_neg, Int.toNat_natCast]
  exact congrArg (withSign false) hnearest

/-! ## The texts of doubles -/

section Texts

variable {x : Float}

theorem significand_pos (h : x.toBits.toNat < infinityBits) (hzero : x.toBits.toNat ≠ 0) :
    0 < (Binary.ofBits x.toBits.toNat).significand :=
  Nat.pos_of_ne_zero fun hs => hzero (Binary.eq_zero_of_significand h hs)

theorem lt_tenPow16_iff_value (h : x.toBits.toNat < infinityBits) :
    x < 1e16 ↔ (Binary.ofBits x.toBits.toNat).value < 10 ^ 16 :=
  (lt_tenPow16_iff h).trans (Binary.value_lt_iff (Binary.canonical_ofBits h)).symm

theorem withSign_toBits (x : Float) : withSign false x.toBits.toNat = x := by
  unfold withSign
  rw [if_neg (by decide), UInt64.ofNat_toNat]
  exact x.ofBits_toBits

theorem digits_pos {d : Decimal} (h : 0 < d.value) : 0 < d.digits := by
  apply Nat.pos_of_ne_zero
  intro hzero
  rw [Decimal.value, hzero, Nat.cast_zero, zero_mul] at h
  exact lt_irrefl _ h

theorem text_of_finite (h : x.toBits.toNat < infinityBits) (hzero : x.toBits.toNat ≠ 0) :
    text x = (Binary.ofBits x.toBits.toNat).shortest.text := by
  have hsign := lt_signBit h
  unfold text write
  simp only
  rw [Nat.mod_eq_of_lt hsign, if_neg (by omega), if_neg (by omega), if_neg hzero,
    if_neg (by omega)]

/-- A finite double below `10 ^ 16` without a sign is read back from its text. -/
theorem text_of_lt (h : x.toBits.toNat < infinityBits) (hlt : x < 1e16) :
    ∃ whole fraction, text x = whole ++ '.' :: fraction ∧ whole ≠ [] ∧ fraction ≠ [] ∧
      (∀ c ∈ whole, c.isDigit = true) ∧ (∀ c ∈ fraction, c.isDigit = true) ∧
      ofDecimal false (Nat.ofDigitChars 10 (whole ++ fraction) 0) (-fraction.length) = x := by
  by_cases hzero : x.toBits.toNat = 0
  · refine ⟨['0'], ['0'], ?_, by decide, by decide, Decimal.isDigit_of_mem_zero,
      Decimal.isDigit_of_mem_zero, ?_⟩
    · unfold text write
      rw [hzero]
      rfl
    · have hx : withSign false 0 = x := hzero ▸ withSign_toBits x
      rw [← hx]
      rfl
  · have hcanonical := Binary.canonical_ofBits h
    have hpos := significand_pos h hzero
    have hcovers := Binary.covers_shortest hpos
    have hvalue := hcovers.lt_of_value_lt hcanonical hpos ((lt_tenPow16_iff_value h).1 hlt)
    obtain ⟨whole, fraction, htext, hpointed⟩ :=
      Decimal.text_of_lt (digits_pos (hcovers.pos hpos)) hvalue
    have hfraction : 0 < fraction.length := List.length_pos_iff.2 hpointed.fraction_ne
    refine ⟨whole, fraction, (text_of_finite h hzero).trans htext, hpointed.whole_ne,
      hpointed.fraction_ne, hpointed.whole_digits, hpointed.fraction_digits, ?_⟩
    rw [ofDecimal_of_covers hcanonical hpos hfraction (hpointed.value_eq ▸ hcovers),
      Binary.bits_ofBits h, withSign_toBits x]

/-- A finite double of `10 ^ 16` or more without a sign is written with digits alone. -/
theorem text_of_not_lt (h : x.toBits.toNat < infinityBits) (hle : ¬ x < 1e16) :
    text x ≠ [] ∧ ∀ c ∈ text x, c.isDigit = true := by
  have hvalue := not_lt.1 ((not_congr (lt_tenPow16_iff_value h)).1 hle)
  have hzero : x.toBits.toNat ≠ 0 := by
    intro hzero
    rw [hzero] at hvalue
    norm_num [Binary.value, Binary.ofBits] at hvalue
  have hpos := significand_pos h hzero
  obtain ⟨hwhole, hlarge⟩ :=
    Binary.shortest_of_le_value (Binary.canonical_ofBits h) hpos hvalue
  have hdigits := digits_pos ((Binary.covers_shortest hpos).pos hpos)
  rw [text_of_finite h hzero]
  refine ⟨?_, fun c hc => Decimal.isDigit_of_mem_text hdigits hwhole hlarge hc⟩
  obtain ⟨c, rest, hc, -⟩ := Decimal.text_head (Binary.ofBits x.toBits.toNat).shortest
  rw [hc]
  exact List.cons_ne_nil c rest

/-- What is not finite and has no sign is written as a name. -/
theorem text_of_infinite (hsign : x.toBits.toNat < signBit)
    (h : infinityBits ≤ x.toBits.toNat) : text x = ['N', 'a', 'N'] ∨ text x = ['i', 'n', 'f'] := by
  unfold text write
  simp only
  rw [Nat.mod_eq_of_lt hsign]
  obtain heq | hlt := h.eq_or_lt
  · rw [if_neg (by omega), if_pos heq.symm, if_neg (by omega)]
    exact .inr rfl
  · rw [if_pos hlt]
    exact .inl rfl

/-- A double with a sign is written with a minus in front of a letter or digit, unless it is no
number. -/
theorem text_of_sign (hsign : signBit ≤ x.toBits.toNat) :
    text x = ['N', 'a', 'N'] ∨ ∃ c rest, text x = '-' :: c :: rest ∧ c.isAlphanum = true := by
  unfold text write
  simp only
  split
  · exact .inl rfl
  · refine .inr ?_
    split
    · exact ⟨'i', _, rfl, rfl⟩
    · split
      · exact ⟨'0', _, rfl, rfl⟩
      · obtain ⟨c, rest, hc, hdigit⟩ :=
          Decimal.text_head (Binary.ofBits (x.toBits.toNat % signBit)).shortest
        exact ⟨c, rest, by rw [hc], by simp [Char.isAlphanum, hdigit]⟩

end Texts

end SlotLisp.Double
