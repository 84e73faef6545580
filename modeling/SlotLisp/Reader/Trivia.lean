import SlotLisp.Text.Blank

/-!
# Trivia

What may stand between data: blanks and, if they are recognised, comments, which run from a
semicolon up to the end of the line.
-/

namespace SlotLisp.Reader

/-- The text from the first character on that is no trivia. The flag says that a comment is
still open. -/
def skipFrom (comments : Bool) : Bool → List Char → List Char
  | _, [] => []
  | true, c :: cs => skipFrom comments (c ≠ '\n') cs
  | false, c :: cs =>
    if Text.isBlank c then skipFrom comments false cs
    else if comments && c = ';' then skipFrom comments true cs
    else c :: cs

def skipTrivia (comments : Bool) (s : List Char) : List Char := skipFrom comments false s

/-- Whether the text begins with trivia. -/
def startsTrivia (comments : Bool) : List Char → Bool
  | [] => false
  | c :: _ => Text.isBlank c || (comments && c = ';')

theorem skipFrom_suffix (comments isOpen : Bool) (s : List Char) :
    skipFrom comments isOpen s <:+ s := by
  induction s generalizing isOpen with
  | nil => cases isOpen <;> exact List.suffix_refl _
  | cons c cs ih =>
    cases isOpen with
    | true => exact (ih _).trans (List.suffix_cons c cs)
    | false =>
      rw [skipFrom]
      split
      · exact (ih _).trans (List.suffix_cons c cs)
      · split
        · exact (ih _).trans (List.suffix_cons c cs)
        · exact List.suffix_refl _

theorem skipTrivia_suffix (comments : Bool) (s : List Char) : skipTrivia comments s <:+ s :=
  skipFrom_suffix comments false s

theorem skipTrivia_of_not_starts {comments : Bool} {s : List Char}
    (h : startsTrivia comments s = false) : skipTrivia comments s = s := by
  cases s with
  | nil => rfl
  | cons c cs =>
    simp only [startsTrivia, Bool.or_eq_false_iff] at h
    simp [skipTrivia, skipFrom, h.1, h.2]

theorem not_starts_skipTrivia (comments : Bool) (s : List Char) :
    startsTrivia comments (skipTrivia comments s) = false := by
  suffices h : ∀ isOpen, startsTrivia comments (skipFrom comments isOpen s) = false from h false
  induction s with
  | nil => intro isOpen; cases isOpen <;> rfl
  | cons c cs ih =>
    intro isOpen
    cases isOpen with
    | true => exact ih _
    | false =>
      rw [skipFrom]
      split
      · exact ih _
      · split
        · exact ih _
        · rename_i hb hc
          simp only [startsTrivia, Bool.or_eq_false_iff]
          exact ⟨by simpa using hb, by simpa using hc⟩

end SlotLisp.Reader
