import Mathlib.Data.List.TakeWhile
import SlotLisp.Integer
import SlotLisp.Text.Blank

/-!
# Decimal texts

`Integer.read` takes an optional sign and digits and refuses a value at the first digit that leads
out of the range. As further digits only lead further away from zero, it accepts just the decimal
texts whose value fits (`read_ok_iff_decimal`), among them what `Integer.text` writes. `Text.trim`
leaves what stands between the blanks at the two ends (`trim_eq_iff`).
-/

namespace SlotLisp

namespace Integer

/-- One ASCII digit or more. -/
structure DigitRun (ds : List Char) : Prop where
  nonempty : ds ≠ []
  digits : ∀ d ∈ ds, d.isDigit = true

/-- Digits behind at most one sign, and the integer that they stand for. -/
inductive Decimal : List Char → Int → Prop
  | bare {ds : List Char} (run : DigitRun ds) : Decimal ds (Nat.ofDigitChars 10 ds 0)
  | plus {ds : List Char} (run : DigitRun ds) : Decimal ('+' :: ds) (Nat.ofDigitChars 10 ds 0)
  | minus {ds : List Char} (run : DigitRun ds) : Decimal ('-' :: ds) (-Nat.ofDigitChars 10 ds 0)

def signed (negative : Bool) (n : Nat) : Int := if negative then -n else n

variable {negative : Bool} {ds s : List Char} {d : Char} {n : Int64}

theorem le_ofDigitChars (ds : List Char) (acc : Nat) : acc ≤ Nat.ofDigitChars 10 ds acc := by
  induction ds generalizing acc with
  | nil => exact Nat.le_refl acc
  | cons d ds ih =>
    rw [Nat.ofDigitChars_cons]
    exact Nat.le_trans (by omega) (ih _)

theorem inRange_signed_of_le {m k : Nat} (h : m ≤ k) (hk : InRange (signed negative k)) :
    InRange (signed negative m) := by
  unfold InRange least greatest signed at *
  cases negative <;> simp at * <;> omega

theorem signed_digit (acc : Nat) (d : Char) :
    (if negative then signed negative acc * 10 - digitValue d
      else signed negative acc * 10 + digitValue d) =
      signed negative (10 * acc + (d.toNat - '0'.toNat)) := by
  unfold signed digitValue
  cases negative <;> simp <;> omega

theorem appendDigits_eq_ok_iff {acc : Nat} (h : InRange (signed negative acc)) :
    appendDigits negative (signed negative acc) ds = .ok n ↔
      (∀ d ∈ ds, d.isDigit = true) ∧ n.toInt = signed negative (Nat.ofDigitChars 10 ds acc) := by
  induction ds generalizing acc with
  | nil =>
    have hword : ofInt? (signed negative acc) = some (Int64.ofInt (signed negative acc)) := if_pos h
    rw [appendDigits, Nat.ofDigitChars_nil, ← ofInt?_eq_some_iff, hword]
    simp
  | cons d ds ih =>
    simp only [appendDigits, signed_digit, Nat.ofDigitChars_cons, List.forall_mem_cons]
    by_cases hd : d.isDigit = true
    · rw [if_pos hd]
      split
      · rename_i hnext
        rw [ih hnext]
        simp [hd]
      · rename_i hnext
        constructor
        · rintro ⟨⟩
        · -- The digits that follow do not lead back.
          rintro ⟨-, hn⟩
          exact absurd (inRange_signed_of_le (le_ofDigitChars ds _) (hn ▸ inRange_toInt n)) hnext
    · rw [if_neg hd]
      constructor
      · rintro ⟨⟩
      · rintro ⟨⟨hd', -⟩, -⟩
        exact absurd hd' hd

theorem appendDigits_zero_eq_ok_iff (negative : Bool) (ds : List Char) (n : Int64) :
    appendDigits negative 0 ds = .ok n ↔
      (∀ d ∈ ds, d.isDigit = true) ∧ n.toInt = signed negative (Nat.ofDigitChars 10 ds 0) := by
  have hzero : signed negative 0 = 0 := by cases negative <;> rfl
  have hrange : InRange (signed negative 0) := by rw [hzero]; decide
  have hiff : appendDigits negative (signed negative 0) ds = .ok n ↔ _ :=
    appendDigits_eq_ok_iff hrange
  rwa [hzero] at hiff

theorem DigitRun.cons_of_head {c : Char} (h : DigitRun (c :: ds)) : c.isDigit = true :=
  h.digits c List.mem_cons_self

theorem DigitRun.decimal_iff {m : Int} (run : DigitRun ds) :
    Decimal ds m ↔ m = Nat.ofDigitChars 10 ds 0 := by
  constructor
  · intro h
    cases h with
    | bare => rfl
    | plus => exact absurd run.cons_of_head (by decide)
    | minus => exact absurd run.cons_of_head (by decide)
  · rintro rfl
    exact .bare run

theorem decimal_plus_iff {m : Int} :
    Decimal ('+' :: ds) m ↔ DigitRun ds ∧ m = Nat.ofDigitChars 10 ds 0 := by
  constructor
  · intro h
    cases h with
    | bare run => exact absurd run.cons_of_head (by decide)
    | plus run => exact ⟨run, rfl⟩
  · rintro ⟨run, rfl⟩
    exact .plus run

theorem decimal_minus_iff {m : Int} :
    Decimal ('-' :: ds) m ↔ DigitRun ds ∧ m = -Nat.ofDigitChars 10 ds 0 := by
  constructor
  · intro h
    cases h with
    | bare run => exact absurd run.cons_of_head (by decide)
    | minus run => exact ⟨run, rfl⟩
  · rintro ⟨run, rfl⟩
    exact .minus run

theorem decimal_bare_iff {c : Char} {m : Int} (hplus : c ≠ '+') (hminus : c ≠ '-') :
    Decimal (c :: ds) m ↔ DigitRun (c :: ds) ∧ m = Nat.ofDigitChars 10 (c :: ds) 0 := by
  constructor
  · intro h
    cases h with
    | bare run => exact ⟨run, rfl⟩
    | plus => exact absurd rfl hplus
    | minus => exact absurd rfl hminus
  · rintro ⟨run, rfl⟩
    exact .bare run

theorem not_digitRun_nil : ¬ DigitRun [] := fun run => run.nonempty rfl

theorem read_ok_iff_decimal : read s = .ok n ↔ Decimal s n.toInt := by
  fun_cases read s with
  | case1 =>
    refine iff_of_false (by rintro ⟨⟩) fun h => ?_
    generalize n.toInt = m at h
    cases h with
    | bare run => exact not_digitRun_nil run
  | case2 =>
    rw [decimal_plus_iff]
    exact iff_of_false (by rintro ⟨⟩) fun h => not_digitRun_nil h.1
  | case3 =>
    rw [decimal_minus_iff]
    exact iff_of_false (by rintro ⟨⟩) fun h => not_digitRun_nil h.1
  | case4 ds hds =>
    rw [decimal_plus_iff, appendDigits_zero_eq_ok_iff]
    exact and_congr_left' ⟨fun hdigits => ⟨hds, hdigits⟩, DigitRun.digits⟩
  | case5 ds hds =>
    rw [decimal_minus_iff, appendDigits_zero_eq_ok_iff]
    exact and_congr_left' ⟨fun hdigits => ⟨hds, hdigits⟩, DigitRun.digits⟩
  | case6 s hnil _ _ hplus hminus =>
    obtain ⟨c, cs, rfl⟩ := List.exists_cons_of_ne_nil hnil
    have hcplus : c ≠ '+' := fun hc => hplus cs (hc ▸ rfl)
    have hcminus : c ≠ '-' := fun hc => hminus cs (hc ▸ rfl)
    rw [decimal_bare_iff hcplus hcminus, appendDigits_zero_eq_ok_iff]
    exact and_congr_left' ⟨fun hdigits => ⟨hnil, hdigits⟩, DigitRun.digits⟩

theorem digitRun_toDigits (n : Nat) : DigitRun (Nat.toDigits 10 n) :=
  ⟨Nat.toDigits_ne_nil, fun _ hd => Nat.isDigit_of_mem_toDigits (by decide) (by decide) hd⟩

/-- What is written for an integer is a decimal text of it. -/
theorem decimal_text (n : Int64) : Decimal (text n).toList n.toInt := by
  rw [text, Int.toString_eq_repr, Int.repr_eq_if]
  split
  · rename_i hn
    have h := Decimal.bare (digitRun_toDigits n.toInt.toNat)
    rwa [Nat.ofDigitChars_ten_toDigits, Int.toNat_of_nonneg hn, ← Nat.toList_repr] at h
  · rename_i hn
    have h := Decimal.minus (digitRun_toDigits (-n.toInt).toNat)
    rw [Nat.ofDigitChars_ten_toDigits, Int.toNat_of_nonneg (by omega), Int.neg_neg,
      ← Nat.toList_repr] at h
    rw [String.toList_append]
    exact h

end Integer

namespace Text

/-- The text has `core` between blanks, and `core` has none at its ends. -/
structure TrimsTo (text core : List Char) : Prop where
  between : ∃ before after, text = before ++ core ++ after ∧ ∀ c ∈ before ++ after, c ∈ blanks
  first : ∀ c ∈ core.head?, c ∉ blanks
  last : ∀ c ∈ core.getLast?, c ∉ blanks

theorem dropWhile_isBlank_of_head {s : List Char} (h : ∀ c ∈ s.head?, c ∉ blanks) :
    s.dropWhile isBlank = s := by
  cases s with
  | nil => rfl
  | cons c cs => exact List.dropWhile_cons_of_neg (mt isBlank_iff.1 (h c rfl))

theorem not_mem_blanks_of_dropWhile {s : List Char} {c : Char}
    (h : c ∈ (s.dropWhile isBlank).head?) : c ∉ blanks := by
  have hnot := List.head?_dropWhile_not isBlank s
  rw [h] at hnot
  exact fun hc => absurd (isBlank_iff.2 hc) (Bool.not_eq_true _ ▸ hnot)

theorem dropWhile_isBlank_append {blank s : List Char} (h : ∀ c ∈ blank, c ∈ blanks) :
    (blank ++ s).dropWhile isBlank = s.dropWhile isBlank :=
  List.dropWhile_append_of_pos fun c hc => isBlank_iff.2 (h c hc)

theorem TrimsTo.eq_trim {text core : List Char} (h : TrimsTo text core) : core = trim text := by
  obtain ⟨⟨before, after, rfl, hblank⟩, hfirst, hlast⟩ := h
  rw [List.forall_mem_append] at hblank
  have hafter : ∀ c ∈ after.reverse, c ∈ blanks := fun c hc => hblank.2 c (List.mem_reverse.1 hc)
  rw [trim, List.append_assoc, dropWhile_isBlank_append hblank.1]
  cases core with
  | nil =>
    have hall : after.dropWhile isBlank = [] :=
      List.dropWhile_eq_nil_iff.2 fun c hc => isBlank_iff.2 (hblank.2 c hc)
    rw [List.nil_append, hall]
    rfl
  | cons c cs =>
    have hfront : (c :: cs ++ after).dropWhile isBlank = c :: cs ++ after :=
      dropWhile_isBlank_of_head hfirst
    rw [hfront, List.reverse_append, dropWhile_isBlank_append hafter,
      dropWhile_isBlank_of_head (by rwa [List.head?_reverse]), List.reverse_reverse]

theorem trimsTo_trim (text : List Char) : TrimsTo text (trim text) := by
  have hfront := List.takeWhile_append_dropWhile (p := isBlank) (l := text)
  generalize hmid : text.dropWhile isBlank = mid at hfront
  have hback := List.takeWhile_append_dropWhile (p := isBlank) (l := mid.reverse)
  have hsplit : mid = trim text ++ (mid.reverse.takeWhile isBlank).reverse := by
    rw [trim, hmid, ← List.reverse_append, hback, List.reverse_reverse]
  refine ⟨⟨text.takeWhile isBlank, (mid.reverse.takeWhile isBlank).reverse, ?_, ?_⟩, ?_, ?_⟩
  · rw [List.append_assoc, ← hsplit, hfront]
  · intro c hc
    rw [List.mem_append, List.mem_reverse] at hc
    obtain hc | hc := hc
    · exact isBlank_iff.1 (List.mem_takeWhile_imp hc)
    · exact isBlank_iff.1 (List.mem_takeWhile_imp hc)
  · intro c hc
    refine not_mem_blanks_of_dropWhile (s := text) ?_
    rw [hmid, hsplit, List.head?_append, Option.mem_def.1 hc]
    rfl
  · intro c hc
    rw [trim, List.getLast?_reverse] at hc
    exact not_mem_blanks_of_dropWhile hc

/-- A text is trimmed to one core only. -/
theorem trim_eq_iff {text core : List Char} : trim text = core ↔ TrimsTo text core :=
  ⟨fun h => h ▸ trimsTo_trim text, fun h => h.eq_trim.symm⟩

end Text

end SlotLisp
