/-!
# Blanks

The characters with the Unicode property `White_Space`. The reader skips them between data,
and the conversions from text drop them at both ends.
-/

namespace SlotLisp.Text

/-- All twenty-five characters with the property `White_Space`. -/
def blanks : List Char :=
  ['\t', '\n', '\x0b', '\x0c', '\r', ' ', '\u0085', '\u00a0', '\u1680', '\u2000', '\u2001',
   '\u2002', '\u2003', '\u2004', '\u2005', '\u2006', '\u2007', '\u2008', '\u2009', '\u200a',
   '\u2028', '\u2029', '\u202f', '\u205f', '\u3000']

/-- Membership in `blanks`, answered at once for the printable ASCII characters. -/
def isBlank (c : Char) : Bool :=
  c = ' ' || ((c < ' ' || '~' < c) && blanks.contains c)

/-- The text without the blanks at its two ends. -/
def trim (text : List Char) : List Char :=
  ((text.dropWhile isBlank).reverse.dropWhile isBlank).reverse

theorem isBlank_iff {c : Char} : isBlank c = true ↔ c ∈ blanks := by
  constructor
  · intro h
    simp only [isBlank, Bool.or_eq_true, decide_eq_true_eq, Bool.and_eq_true,
      List.contains_iff_mem] at h
    rcases h with rfl | ⟨_, h⟩
    · decide
    · exact h
  · intro h
    simp only [blanks, List.mem_cons, List.not_mem_nil, or_false] at h
    rcases h with h | h | h | h | h | h | h | h | h | h | h | h | h | h | h | h | h | h | h |
      h | h | h | h | h | h <;> subst h <;> decide

end SlotLisp.Text
