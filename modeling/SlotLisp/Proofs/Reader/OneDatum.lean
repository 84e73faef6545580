import SlotLisp.Proofs.Reader.Cursor
import SlotLisp.Proofs.Reader.Faults

/-!
# One datum or all of them

A text that is to hold one datum and one that holds any number are read by the same steps, and come
to the same: `readOne` succeeds when `readProgram` finds that datum alone, and fails as it does if
the first datum cannot be read. What follows the datum counts only by being there.
-/

namespace SlotLisp

namespace Reader

/-- Behind its trivia the unread text begins with this character. -/
def GoesOnWith (r : Reader) (c : Char) : Prop :=
  ∃ w cs, r.rest = w ++ c :: cs ∧ LeadingTrivia r.settings.comments w (c :: cs)

theorem goesOnWith_iff {r : Reader} {c : Char} : r.GoesOnWith c ↔ ∃ cs, r.ahead = c :: cs := by
  constructor
  · rintro ⟨w, cs, hrest, htrivia⟩
    refine ⟨cs, ?_⟩
    rw [ahead, hrest]
    exact (leadingTrivia_iff.1 htrivia).2
  · rintro ⟨cs, hahead⟩
    obtain ⟨w, hrest, htrivia⟩ := exists_trivia r.settings.comments r.rest
    change r.rest = w ++ r.ahead at hrest
    change Trivia r.settings.comments w r.ahead at htrivia
    rw [hahead] at hrest htrivia
    refine ⟨w, cs, hrest, leadingTrivia_iff.2 ⟨htrivia, ?_⟩⟩
    rw [← hrest]
    exact hahead

theorem isExhausted_or_goesOnWith (r : Reader) : r.isExhausted = true ∨ ∃ c, r.GoesOnWith c := by
  cases hahead : r.ahead with
  | nil => exact .inl (isExhausted_iff.2 hahead)
  | cons c cs => exact .inr ⟨c, goesOnWith_iff.2 ⟨cs, hahead⟩⟩

theorem GoesOnWith.isExhausted_eq {r : Reader} {c : Char} (h : r.GoesOnWith c) :
    r.isExhausted = false := by
  obtain ⟨cs, hahead⟩ := goesOnWith_iff.1 h
  rw [isExhausted_eq_false_iff, hahead]
  exact List.cons_ne_nil c cs

/-- Nothing can be read where nothing is left. -/
theorem next_of_isExhausted {r : Reader} (h : r.isExhausted = true) {n : Nat}
    (hdepth : r.settings.depth = n + 1) : r.next = .error ⟨.endOfInput, []⟩ := by
  rw [next, hdepth, isExhausted_iff.1 h]
  rfl

end Reader

section OneDatum

open Reader

variable {s : String} {p : Parsed} {f : Failure}

/-! ## The three outcomes of reading one datum -/

theorem readOne_of_failure (h : (ofString s).next = .error f) :
    readOne s = .error (f.locate s.toList) := by
  simp only [readOne, read_eq_error h]
  rfl

theorem readOne_of_datum (h : (ofString s).next = .ok p)
    (hend : ({ ofString s with rest := p.rest } : Reader).isExhausted = true) :
    readOne s = .ok p.value := by
  simp only [readOne, read_eq_ok h, hend]
  rfl

theorem readOne_of_content (h : (ofString s).next = .ok p) {c : Char}
    (hcontent : ({ ofString s with rest := p.rest } : Reader).GoesOnWith c) :
    ∃ e, readOne s = .error e ∧ e.kind = .trailingContent ∧
      e.found? = some (String.singleton c) := by
  have hmore := hcontent.isExhausted_eq
  obtain ⟨cs, hahead⟩ := goesOnWith_iff.1 hcontent
  have hplace : c :: cs <:+ s.toList := by
    have hdatum := restOf_next (ofString s)
    rw [h] at hdatum
    rw [← hahead]
    exact (skipTrivia_suffix _ _).trans hdatum
  refine ⟨Failure.locate ⟨.trailing, c :: cs⟩ s.toList, ?_, rfl, ?_⟩
  · simp only [readOne, read_eq_ok h, hmore, ← hahead]
    rfl
  · exact found?_locate hplace

/-! ## Beside reading all data -/

theorem readProgram_eq_data (s : String) : readProgram s = (ofString s).data := rfl

/-- All data of a text with at least one, behind the first. -/
theorem readProgram_of_datum (h : (ofString s).next = .ok p) :
    readProgram s = ({ ofString s with rest := p.rest } : Reader).data.map (p.value :: ·) := by
  rw [readProgram_eq_data, data_of_datum (isExhausted_of_next h) h]

/-- There are no data only if nothing but trivia is there. -/
theorem data_eq_nil_iff {r : Reader} : r.data = .ok [] ↔ r.isExhausted = true := by
  refine ⟨fun h => ?_, data_of_exhausted⟩
  rcases r.isExhausted_or_goesOnWith with hend | ⟨c, hcontent⟩
  · exact hend
  · have hmore := hcontent.isExhausted_eq
    cases hnext : r.next with
    | error f =>
      rw [data_of_failure hmore hnext] at h
      cases h
    | ok p =>
      rw [data_of_datum hmore hnext] at h
      cases hdata : data { r with rest := p.rest } <;> rw [hdata] at h <;> cases h

theorem readOne_eq_ok_iff_readProgram {v : Value} :
    readOne s = .ok v ↔ readProgram s = .ok [v] := by
  cases hnext : (ofString s).next with
  | error f =>
    rw [readOne_of_failure hnext]
    refine ⟨fun h => (by cases h), fun h => ?_⟩
    rcases (ofString s).isExhausted_or_goesOnWith with hend | ⟨c, hcontent⟩
    · rw [readProgram_eq_data, data_of_exhausted hend] at h
      cases h
    · rw [readProgram_eq_data, data_of_failure hcontent.isExhausted_eq hnext] at h
      cases h
  | ok p =>
    rw [readProgram_of_datum hnext]
    rcases isExhausted_or_goesOnWith { ofString s with rest := p.rest } with hend | ⟨c, hcontent⟩
    · rw [readOne_of_datum hnext hend, data_of_exhausted hend]
      simp [Except.map]
    · obtain ⟨e, hone, -, -⟩ := readOne_of_content hnext hcontent
      rw [hone]
      refine ⟨fun h => (by cases h), fun h => ?_⟩
      have hnone : data { ofString s with rest := p.rest } ≠ .ok [] := by
        rw [Ne, data_eq_nil_iff, hcontent.isExhausted_eq]
        exact Bool.false_ne_true
      cases hdata : data { ofString s with rest := p.rest } with
      | error e =>
        rw [hdata] at h
        cases h
      | ok vs =>
        rw [hdata] at h hnone
        cases h
        exact absurd rfl hnone

/-- Reading one datum and reading all agree: on the datum that is alone in its text, on a text
without any, which is incomplete as a datum, and on the error if the first cannot be read. Content
behind the first datum is an error of its own kind, whatever it is, that shows where it begins. -/
theorem one_datum_beside_all (s : String) :
    (∀ v, readOne s = .ok v ↔ readProgram s = .ok [v]) ∧
    (readProgram s = .ok [] → ∃ e, readOne s = .error e ∧ e.kind = .incomplete) ∧
    (∀ c e r, (ofString s).GoesOnWith c → (ofString s).read = (.error e, r) →
      readOne s = .error e ∧ readProgram s = .error e) ∧
    ((∃ e, readOne s = .error e ∧ e.kind = .trailingContent) ↔
      ∃ v r c, (ofString s).read = (.ok v, r) ∧ r.GoesOnWith c) ∧
    (∀ v r c, (ofString s).read = (.ok v, r) → r.GoesOnWith c →
      ∃ e, readOne s = .error e ∧ e.kind = .trailingContent ∧
        e.found? = some (String.singleton c)) := by
  refine ⟨fun v => readOne_eq_ok_iff_readProgram, fun hnone => ?_, fun c e r hcontent hread => ?_,
    ⟨fun ⟨e, hone, hkind⟩ => ?_, fun ⟨v, r, c, hread, hcontent⟩ => ?_⟩,
    fun v r c hread hcontent => ?_⟩
  · have hend : (ofString s).isExhausted = true := data_eq_nil_iff.1 hnone
    exact ⟨_, readOne_of_failure (next_of_isExhausted hend rfl), rfl⟩
  · obtain ⟨p, hnext, hok⟩ | ⟨f, hnext, hfails⟩ := (ofString s).read_cases
    · rw [hok] at hread
      cases hread
    · rw [hfails] at hread
      cases hread
      exact ⟨readOne_of_failure hnext, data_of_failure hcontent.isExhausted_eq hnext⟩
  · cases hnext : (ofString s).next with
    | error f =>
      rw [readOne_of_failure hnext] at hone
      cases hone
      exact absurd hkind (kind_ne_trailingContent hnext)
    | ok p =>
      rcases isExhausted_or_goesOnWith { ofString s with rest := p.rest } with hend | ⟨c, hcontent⟩
      · rw [readOne_of_datum hnext hend] at hone
        cases hone
      · exact ⟨_, _, c, read_eq_ok hnext, hcontent⟩
  · obtain ⟨p, hnext, rfl, rfl⟩ := next_of_read hread
    obtain ⟨e, hone, hkind, -⟩ := readOne_of_content hnext hcontent
    exact ⟨e, hone, hkind⟩
  · obtain ⟨p, hnext, rfl, rfl⟩ := next_of_read hread
    exact readOne_of_content hnext hcontent

end OneDatum

end SlotLisp
