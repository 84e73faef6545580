import SlotLisp.Proofs.Reader.Pieces

/-!
# Where a reading fails

A text that is cut short fails at its end, but for a string, which fails at its opening quote
(`Sited`). Literals come first, then lists, then data, by induction on the levels of nesting. That
content trails is said of whole texts only, never by the reading of a datum.
-/

namespace SlotLisp.Reader

variable {comments : Bool} {settings : Settings}

/-- A result that points, if it is a failure, to the right place. -/
inductive Sited : Result → Prop
  | datum (p : Parsed) : Sited (.ok p)
  | cut {fault : ReadFault} (incomplete : fault.kind = .incomplete ∧ fault ≠ .openString) :
      Sited (.error ⟨fault, []⟩)
  | openString {s : List Char} (unquoted : '"' ∉ s) : Sited (.error ⟨.openString, '"' :: s⟩)
  | wrong {f : Failure} (complete : f.fault.kind ≠ .incomplete)
      (inDatum : f.fault.kind ≠ .trailingContent) : Sited (.error f)

theorem Sited.bind {R : Result} {k : Parsed → Result} (h : Sited R)
    (hk : ∀ p, R = .ok p → Sited (k p)) : Sited (R.bind k) := by
  cases h with
  | datum p => exact hk p rfl
  | cut incomplete => exact .cut incomplete
  | openString unquoted => exact .openString unquoted
  | wrong complete inDatum => exact .wrong complete inDatum

theorem Sited.map_quote {R : Result} (h : Sited R) : Sited (R.map Parsed.quote) := by
  cases h with
  | datum p => exact .datum p.quote
  | cut incomplete => exact .cut incomplete
  | openString unquoted => exact .openString unquoted
  | wrong complete inDatum => exact .wrong complete inDatum

/-! ## Literals -/

theorem sited_readCharacter (s : List Char) : Sited (readCharacter s) := by
  unfold readCharacter
  split
  · exact .datum _
  · exact .datum _
  · exact .cut (by decide)

theorem sited_readHash (s : List Char) : Sited (readHash s) := by
  unfold readHash
  split
  · exact sited_readCharacter _
  · exact .datum _
  · exact .datum _
  · exact .wrong (by rintro ⟨⟩) (by rintro ⟨⟩)
  · exact .cut (by decide)

theorem sited_readString (s : List Char) : Sited (readString s) := by
  unfold readString
  split
  · exact .datum _
  · rename_i hdrop
    refine .openString fun hmem => ?_
    have hpassed := List.dropWhile_eq_nil_iff.1 hdrop _ hmem
    simp at hpassed

theorem sited_readNumber (s : List Char) : Sited (readNumber s) := by
  simp only [readNumber]
  split
  · split
    · exact .wrong (by rintro ⟨⟩) (by rintro ⟨⟩)
    · exact .datum _
  · split
    · exact .datum _
    · exact .wrong (by rintro ⟨⟩) (by rintro ⟨⟩)

theorem sited_readSymbol (s : List Char) : Sited (readSymbol s) := by
  simp only [readSymbol]
  split
  · exact .datum _
  · exact .wrong (by rintro ⟨⟩) (by rintro ⟨⟩)

/-! ## Data -/

theorem sited_closeTail (elements : List Value) (tail : Parsed) :
    Sited (closeTail comments elements tail) := by
  unfold closeTail
  split
  · exact .datum _
  · exact .cut (by decide)
  · exact .wrong (by rintro ⟨⟩) (by rintro ⟨⟩)

section Lists

variable {item : List Char → Result} (hitem : ∀ s, Sited (item s))

include hitem

theorem sited_readTail (elements : List Value) (s : List Char) :
    Sited (readTail comments item elements s) := by
  cases hs : skipTrivia comments s with
  | nil =>
    rw [readTail_nil hs]
    exact .cut (by decide)
  | cons c cs =>
    rw [readTail_cons hs]
    exact (hitem (c :: cs)).bind fun tail _ => sited_closeTail elements tail

/-- The budget is enough, so a list ends before it does. -/
theorem sited_readList (hshortens : Shortens item) (elements : List Value) (closed : Bool)
    (s : List Char) : Sited (readList comments item elements closed s) := by
  induction hlength : s.length using Nat.strong_induction_on generalizing elements closed s with
  | _ length ih =>
    cases hs : skipTrivia comments s with
    | nil =>
      rw [readList_nil hs]
      exact .cut (by decide)
    | cons c cs =>
      rw [hshortens.readList_cons hs]
      split
      · exact .datum _
      · split
        · split
          · exact sited_readTail hitem elements cs
          · refine (hitem (c :: cs)).bind fun p hp => ?_
            exact ih _ (hlength ▸ hshortens.length_lt hs hp) _ _ _ rfl
        · exact .wrong (by rintro ⟨⟩) (by rintro ⟨⟩)

end Lists

theorem sited_readDatum (settings : Settings) (n : Nat) (s : List Char) :
    Sited (readDatum settings n s) := by
  induction n generalizing s with
  | zero => exact .wrong (by rintro ⟨⟩) (by rintro ⟨⟩)
  | succ n ih =>
    refine readDatum_cases (motive := fun _ R => Sited R)
      ?nil ?quote ?hash ?string ?list ?number ?symbol s
    case nil => exact .cut (by decide)
    case quote => exact fun cs => (ih _).map_quote
    case hash => exact sited_readHash
    case string => exact sited_readString
    case list => exact sited_readList ih (shortens_readDatum settings n) [] false
    case number => exact fun c cs _ => sited_readNumber (c :: cs)
    case symbol => exact fun c cs _ => sited_readSymbol (c :: cs)

/-! ## Failures of a reader -/

section Failures

variable {r : Reader} {f : Failure}

theorem sited_next (r : Reader) : Sited r.next := sited_readDatum _ _ _

/-- Content that trails is no failure of a reading. -/
theorem kind_ne_trailingContent (h : r.next = .error f) : f.fault.kind ≠ .trailingContent := by
  have hsited := sited_next r
  rw [h] at hsited
  cases hsited with
  | cut incomplete =>
    rw [incomplete.1]
    rintro ⟨⟩
  | openString => rintro ⟨⟩
  | wrong _ inDatum => exact inDatum

/-- A text that is cut short fails at its end, -/
theorem rest_of_incomplete (h : r.next = .error f) (hkind : f.fault.kind = .incomplete)
    (hfault : f.fault ≠ .openString) : f.rest = [] := by
  have hsited := sited_next r
  rw [h] at hsited
  cases hsited with
  | cut => rfl
  | openString => exact absurd rfl hfault
  | wrong complete => exact absurd hkind complete

/-- and in a string at its opening quote, behind which there is no other. -/
theorem rest_of_openString (h : r.next = .error f) (hfault : f.fault = .openString) :
    ∃ s, f.rest = '"' :: s ∧ '"' ∉ s := by
  have hsited := sited_next r
  rw [h] at hsited
  cases hsited with
  | cut incomplete => exact absurd hfault incomplete.2
  | openString unquoted => exact ⟨_, rfl, unquoted⟩
  | wrong complete =>
    rw [hfault] at complete
    exact absurd rfl complete

end Failures

end SlotLisp.Reader
