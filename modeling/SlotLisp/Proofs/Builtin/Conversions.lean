import SlotLisp.Builtin.Apply
import SlotLisp.Proofs.Reader.Pieces
import SlotLisp.Proofs.Text.Decimal

/-!
# Conversions and their inverses

What is written for an integer is read back as that integer, and an integer is read from nothing but
a decimal text between blanks whose value fits. A run of digits is the same integer to the
conversion and to the reader. Characters and their codes, the Unicode scalar values, correspond one
to one.
-/

namespace SlotLisp

open Outcome Integer

/-! ## Integers and texts -/

theorem Integer.Decimal.not_blank {s : List Char} {m : Int} (h : Decimal s m) :
    ∀ c ∈ s, c ∉ Text.blanks := by
  have hall : Text.blanks.all (fun c => !c.isDigit && c != '+' && c != '-') = true := by decide
  have hblanks : ∀ c ∈ Text.blanks, (c.isDigit = false ∧ c ≠ '+') ∧ c ≠ '-' := by
    simpa only [List.all_eq_true, Bool.and_eq_true, Bool.not_eq_true', bne_iff_ne] using hall
  have hdigit {c : Char} (hc : c.isDigit = true) : c ∉ Text.blanks := fun hblank => by
    rw [(hblanks c hblank).1.1] at hc
    cases hc
  cases h with
  | bare run => exact fun c hc => hdigit (run.digits c hc)
  | plus run =>
    rw [List.forall_mem_cons]
    exact ⟨fun hblank => (hblanks _ hblank).1.2 rfl, fun c hc => hdigit (run.digits c hc)⟩
  | minus run =>
    rw [List.forall_mem_cons]
    exact ⟨fun hblank => (hblanks _ hblank).2 rfl, fun c hc => hdigit (run.digits c hc)⟩

theorem Integer.Decimal.trim_eq {s : List Char} {m : Int} (h : Decimal s m) : Text.trim s = s := by
  refine Text.trim_eq_iff.2 ⟨⟨[], [], by simp, by simp⟩, fun c hc => ?_, fun c hc => ?_⟩
  · exact h.not_blank c (List.mem_of_mem_head? hc)
  · exact h.not_blank c (List.mem_of_mem_getLast? hc)

namespace Builtin

theorem run_intOfString_eq_ok_iff {t : String} {v : Value} :
    intOfString.run [.string t] = .ok v ↔
      ∃ n, Decimal (Text.trim t.toList) n.toInt ∧ v = .int n := by
  show SlotLisp.intOfString intOfString.name (.string t) = .ok v ↔ _
  rw [SlotLisp.intOfString]
  simp only [← read_ok_iff_decimal]
  cases hread : Integer.read (Text.trim t.toList) with
  | ok n => simp [eq_comm]
  | error fault => simp [fail]

theorem run_stringOfInt (n : Int64) :
    stringOfInt.run [.int n] = .ok (.string (Integer.text n)) := rfl

theorem run_intOfString_text (n : Int64) :
    intOfString.run [.string (Integer.text n)] = .ok (.int n) := by
  have hdecimal := decimal_text n
  rw [run_intOfString_eq_ok_iff, hdecimal.trim_eq]
  exact ⟨n, hdecimal, rfl⟩

end Builtin

/-! ## Integer literals -/

namespace Reader

/-- Behind its leading trivia the unread text has these digits, and then neither another digit nor a
point. -/
structure HoldsDigits (r : Reader) (digits : List Char) : Prop where
  run : DigitRun digits
  level : 0 < r.settings.depth
  ahead : ∃ rest, r.ahead = digits ++ rest ∧ ∀ c ∈ rest.head?, c.isDigit = false ∧ c ≠ '.'

/-- An integer literal is read as the integer that its digits stand for, if that fits. -/
theorem HoldsDigits.read_ok_iff {r : Reader} {digits : List Char} (h : r.HoldsDigits digits)
    {v : Value} :
    r.read.1 = .ok v ↔ ∃ n : Int64, n.toInt = Nat.ofDigitChars 10 digits 0 ∧ v = .int n := by
  obtain ⟨run, level, rest, hahead, hrest⟩ := h
  have hrun : LongestRun Char.isDigit digits rest := ⟨run.digits, fun c hc => (hrest c hc).1⟩
  have hpoint : '.' ∉ rest.head? := fun hc => (hrest '.' hc).2 rfl
  have hnext : r.next = readNumber (digits ++ rest) := by
    obtain ⟨n, hn⟩ := Nat.exists_eq_succ_of_ne_zero (Nat.ne_of_gt level)
    obtain ⟨c, cs, rfl⟩ := List.exists_cons_of_ne_nil run.nonempty
    rw [next, hahead, hn]
    exact readDatum_digit run.cons_of_head
  simp only [← ofInt?_eq_some_iff]
  cases hvalue : ofInt? (Nat.ofDigitChars 10 digits 0) with
  | some n =>
    rw [readNumber_of_run hrun hpoint (ofInt?_eq_some_iff.1 hvalue)] at hnext
    rw [read_eq_ok hnext]
    simp [eq_comm]
  | none =>
    rw [readNumber_of_tooLarge hrun hpoint hvalue] at hnext
    rw [read_eq_error hnext]
    simp

end Reader

theorem Builtin.run_intOfString_digits {digits : List Char} (run : DigitRun digits) {v : Value} :
    intOfString.run [.string (String.ofList digits)] = .ok v ↔
      ∃ n : Int64, n.toInt = Nat.ofDigitChars 10 digits 0 ∧ v = .int n := by
  simp only [run_intOfString_eq_ok_iff, String.toList_ofList, (Decimal.bare run).trim_eq,
    run.decimal_iff]

/-! ## Characters and codes -/

/-- The codes of characters: all up to the last one but the surrogates. -/
def IsScalarValue (n : Int) : Prop := 0 ≤ n ∧ n < 0xd800 ∨ 0xdfff < n ∧ n < 0x110000

theorem exists_char_of_valid {n : Nat} (h : n.isValidChar) : ∃ c : Char, c.toNat = n :=
  ⟨Char.ofNatAux n h, rfl⟩

theorem isScalarValue_iff {n : Int} : IsScalarValue n ↔ ∃ c : Char, n = c.toNat := by
  constructor
  · intro h
    have hvalid : n.toNat.isValidChar := by
      unfold IsScalarValue at h
      unfold Nat.isValidChar
      omega
    obtain ⟨c, hc⟩ := exists_char_of_valid hvalid
    refine ⟨c, ?_⟩
    unfold IsScalarValue at h
    omega
  · rintro ⟨c, rfl⟩
    have hvalid : c.toNat < 0xd800 ∨ 0xdfff < c.toNat ∧ c.toNat < 0x110000 := c.valid
    unfold IsScalarValue
    omega

namespace Builtin

theorem run_intOfChar (c : Char) :
    intOfChar.run [.char c] = .ok (.int (Int64.ofNat c.toNat)) := rfl

theorem toInt_ofNat_char (c : Char) : (Int64.ofNat c.toNat).toInt = c.toNat := by
  have hvalid : c.toNat < 0xd800 ∨ 0xdfff < c.toNat ∧ c.toNat < 0x110000 := c.valid
  exact Int64.toInt_ofNat_of_lt (by omega)

theorem run_charOfInt_eq_ok_iff {n : Int64} {v : Value} :
    charOfInt.run [.int n] = .ok v ↔ ∃ c : Char, n.toInt = c.toNat ∧ v = .char c := by
  show SlotLisp.charOfInt charOfInt.name (.int n) = .ok v ↔ _
  rw [SlotLisp.charOfInt]
  split
  · rename_i hvalid
    constructor
    · intro h
      obtain ⟨c, hc⟩ := exists_char_of_valid hvalid.2
      rw [← hc, Char.ofNat_toNat] at h
      refine ⟨c, ?_, (Except.ok.inj h).symm⟩
      rw [hc, Int.toNat_of_nonneg hvalid.1]
    · rintro ⟨c, hc, rfl⟩
      rw [hc, Int.toNat_natCast, Char.ofNat_toNat]
  · rename_i hvalid
    refine iff_of_false (by rintro ⟨⟩) ?_
    rintro ⟨c, hc, -⟩
    rw [hc, Int.toNat_natCast] at hvalid
    exact hvalid ⟨Int.natCast_nonneg _, c.valid⟩

/-- Integers and decimal texts, digits as they stand in a text, and characters and their codes: each
conversion succeeds on just what the other one, or the reader, has something for, and gives that. -/
theorem conversions_invert_each_other :
    (∀ n : Int64, ∃ t, stringOfInt.run [.int n] = .ok (.string t) ∧
      intOfString.run [.string t] = .ok (.int n)) ∧
    (∀ (t : String) (v : Value), intOfString.run [.string t] = .ok v ↔
      ∃ (core : List Char) (n : Int64),
        Text.TrimsTo t.toList core ∧ Decimal core n.toInt ∧ v = .int n) ∧
    (∀ (r : Reader) (digits : List Char), r.HoldsDigits digits →
      ∀ v, r.read.1 = .ok v ↔ intOfString.run [.string (String.ofList digits)] = .ok v) ∧
    (∀ c : Char, ∃ n, intOfChar.run [.char c] = .ok (.int n) ∧
      charOfInt.run [.int n] = .ok (.char c)) ∧
    (∀ n : Int64, (∃ v, charOfInt.run [.int n] = .ok v) ↔ IsScalarValue n.toInt) ∧
    ∀ (n : Int64) (v : Value), charOfInt.run [.int n] = .ok v →
      intOfChar.run [v] = .ok (.int n) := by
  refine ⟨fun n => ⟨_, run_stringOfInt n, run_intOfString_text n⟩, fun t v => ?_,
    fun r digits hdigits v => ?_, fun c => ⟨_, run_intOfChar c, ?_⟩, fun n => ?_, fun n v h => ?_⟩
  · simp only [run_intOfString_eq_ok_iff, ← Text.trim_eq_iff]
    constructor
    · rintro ⟨n, hdecimal, rfl⟩
      exact ⟨_, n, rfl, hdecimal, rfl⟩
    · rintro ⟨core, n, rfl, hdecimal, rfl⟩
      exact ⟨n, hdecimal, rfl⟩
  · rw [hdigits.read_ok_iff, run_intOfString_digits hdigits.run]
  · exact run_charOfInt_eq_ok_iff.2 ⟨c, toInt_ofNat_char c, rfl⟩
  · simp only [run_charOfInt_eq_ok_iff, isScalarValue_iff]
    constructor
    · rintro ⟨v, c, hc, -⟩
      exact ⟨c, hc⟩
    · rintro ⟨c, hc⟩
      exact ⟨_, c, hc, rfl⟩
  · obtain ⟨c, hn, rfl⟩ := run_charOfInt_eq_ok_iff.1 h
    have hcode : Int64.ofNat c.toNat = n := Int64.toInt_inj.1 ((toInt_ofNat_char c).trans hn.symm)
    rw [run_intOfChar, hcode]

/-- Digits in front of a bracket, and a code beyond the surrogates. -/
theorem conversions_of_digits_and_a_code :
    (Reader.ofString "007)").read.1 = .ok (.int 7) ∧
      intOfChar.run [.char '😀'] = .ok (.int 128512) := by
  obtain ⟨-, -, hdigits, -, -, hcode⟩ := conversions_invert_each_other
  have hliteral : (Reader.ofString "007)").HoldsDigits "007".toList :=
    ⟨⟨by decide, List.all_eq_true.1 (by decide)⟩, by decide, [')'], by decide,
      by rintro _ ⟨⟩; decide⟩
  exact ⟨(hdigits _ _ hliteral (.int 7)).2 rfl, hcode 128512 (.char '😀') rfl⟩

end Builtin

end SlotLisp
