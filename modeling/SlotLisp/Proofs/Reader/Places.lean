import SlotLisp.Proofs.Reader.Extension

/-!
# Places of errors

Every reading ends or fails inside of the text it was given (`restOf_readDatum`). So the place of an
error is a place of the text, and the character found there is the one the failure points at
(`found?_locate`), whatever text the failing one is the end of.
-/

namespace SlotLisp.Reader

variable {comments : Bool} {settings : Settings}

/-! ## Where a reading ends -/

/-- The text from the place on where a reading ended or failed. -/
def restOf : Result → List Char
  | .ok p => p.rest
  | .error f => f.rest

theorem restOf_map_quote (R : Result) : restOf (R.map Parsed.quote) = restOf R := by
  cases R <;> rfl

/-- What goes on behind a datum ends further behind. -/
theorem restOf_bind {R : Result} {k : Parsed → Result} {s : List Char} (hR : restOf R <:+ s)
    (hk : ∀ p, restOf (k p) <:+ p.rest) : restOf (R.bind k) <:+ s := by
  cases R with
  | error f => exact hR
  | ok p => exact (hk p).trans hR

/-- Either a whole name is passed, or a single character. -/
theorem restOf_readCharacter (s : List Char) : restOf (readCharacter s) <:+ s := by
  unfold readCharacter
  split
  · exact List.drop_suffix _ _
  · exact List.suffix_cons _ _
  · exact List.suffix_refl _

theorem restOf_readHash (s : List Char) : restOf (readHash s) <:+ s := by
  unfold readHash
  split
  · exact (restOf_readCharacter _).trans (List.suffix_cons _ _)
  · exact List.suffix_cons _ _
  · exact List.suffix_cons _ _
  · exact List.suffix_refl _
  · exact List.suffix_refl _

/-- A string without an end fails at its opening mark, so the mark is a part of the text here. -/
theorem restOf_readString (s : List Char) : restOf (readString s) <:+ '"' :: s := by
  have hdrop := List.dropWhile_suffix (l := s) (· ≠ '"')
  unfold readString
  split
  · rename_i c rest hrest
    rw [hrest] at hdrop
    exact ((List.suffix_cons c rest).trans hdrop).trans (List.suffix_cons _ _)
  · exact List.suffix_refl _

theorem restOf_readNumber (s : List Char) : restOf (readNumber s) <:+ s := by
  have hdrop := List.dropWhile_suffix (l := s) Char.isDigit
  simp only [readNumber]
  split
  · rename_i rest hrest
    rw [hrest] at hdrop
    have hfraction := (List.suffix_cons '.' rest).trans hdrop
    split
    · exact hfraction
    · exact (List.dropWhile_suffix _).trans hfraction
  · split
    · exact hdrop
    · exact List.suffix_refl _

theorem restOf_readSymbol (s : List Char) : restOf (readSymbol s) <:+ s := by
  simp only [readSymbol]
  split
  · exact List.dropWhile_suffix _
  · exact List.suffix_refl _

/-- Behind the tail of a list only trivia are passed over, and the bracket. -/
theorem restOf_closeTail (elements : List Value) (tail : Parsed) :
    restOf (closeTail comments elements tail) <:+ tail.rest := by
  have hskip := skipTrivia_suffix comments tail.rest
  unfold closeTail
  split
  · rename_i rest hrest
    rw [hrest] at hskip
    exact (List.suffix_cons _ _).trans hskip
  · exact List.nil_suffix
  · rename_i hrest
    rw [hrest] at hskip
    exact hskip

section Lists

variable {item : List Char → Result} (hitem : ∀ s, restOf (item s) <:+ s)

include hitem

theorem restOf_readTail (elements : List Value) (s : List Char) :
    restOf (readTail comments item elements s) <:+ s := by
  have hskip := skipTrivia_suffix comments s
  cases hs : skipTrivia comments s with
  | nil =>
    rw [readTail_nil hs]
    exact List.nil_suffix
  | cons c cs =>
    rw [hs] at hskip
    rw [readTail_cons hs]
    exact restOf_bind ((hitem _).trans hskip) (restOf_closeTail elements)

/-- The elements of a list end inside of the text if each of them does. -/
theorem restOf_readElements (budget : List Char) (elements : List Value) (closed : Bool)
    (s : List Char) : restOf (readElements comments item budget elements closed s) <:+ s := by
  induction budget generalizing elements closed s with
  | nil => exact List.suffix_refl _
  | cons b budget ih =>
    have hskip := skipTrivia_suffix comments s
    cases hs : skipTrivia comments s with
    | nil =>
      rw [readElements_nil hs]
      exact List.nil_suffix
    | cons c cs =>
      rw [hs] at hskip
      have hbehind := (List.suffix_cons c cs).trans hskip
      rw [readElements_cons hs]
      split
      · exact hbehind
      · split
        · split
          · exact (restOf_readTail hitem elements cs).trans hbehind
          · exact restOf_bind ((hitem _).trans hskip) fun p => ih _ _ _
        · exact hskip

end Lists

/-- The induction is on the depth that is left; the first character tells what is read. -/
theorem restOf_readDatum (settings : Settings) (n : Nat) (s : List Char) :
    restOf (readDatum settings n s) <:+ s := by
  induction n generalizing s with
  | zero => exact List.suffix_refl _
  | succ n ih =>
    refine readDatum_cases (motive := fun s R => restOf R <:+ s)
      ?nil ?quote ?hash ?string ?list ?number ?symbol s
    case nil => exact List.suffix_refl _
    case quote =>
      intro cs
      rw [restOf_map_quote]
      exact ((ih _).trans (skipTrivia_suffix _ cs)).trans (List.suffix_cons _ cs)
    case hash => exact fun cs => (restOf_readHash cs).trans (List.suffix_cons _ cs)
    case string => exact restOf_readString
    case list => exact fun cs => (restOf_readElements ih _ _ _ cs).trans (List.suffix_cons _ cs)
    case number => exact fun c cs _ => restOf_readNumber (c :: cs)
    case symbol => exact fun c cs _ => restOf_readSymbol (c :: cs)

/-! ## What an error shows -/

/-- The count of bytes may begin with those before the text. -/
theorem byteLength_from (n : Nat) (s : List Char) :
    s.foldl (fun n c => n + c.utf8Size) n = n + byteLength s := by
  induction s generalizing n with
  | nil => rfl
  | cons c s ih =>
    rw [byteLength, List.foldl_cons, List.foldl_cons, ih, ih (0 + c.utf8Size)]
    omega

theorem byteLength_cons (c : Char) (s : List Char) :
    byteLength (c :: s) = c.utf8Size + byteLength s := by
  rw [byteLength, List.foldl_cons, byteLength_from, Nat.zero_add]

theorem byteLength_append (s t : List Char) :
    byteLength (s ++ t) = byteLength s + byteLength t := by
  rw [byteLength, List.foldl_append, byteLength_from]
  rfl

/-- Where one text ends and the other begins is a boundary of characters. -/
theorem charIndexFrom?_append (n : Nat) (s t : List Char) :
    charIndexFrom? n (s ++ t) (byteLength s) = some (n + s.length) := by
  induction s generalizing n with
  | nil => cases t <;> rfl
  | cons c s ih =>
    have hpos := c.utf8Size_pos
    obtain ⟨offset, hoffset⟩ : ∃ offset, byteLength (c :: s) = offset + 1 :=
      ⟨byteLength (c :: s) - 1, by rw [byteLength_cons]; omega⟩
    have hsize : byteLength s = offset + 1 - c.utf8Size := by rw [← hoffset, byteLength_cons]; omega
    have hfits : c.utf8Size ≤ offset + 1 := by rw [← hoffset, byteLength_cons]; omega
    rw [hoffset, List.cons_append, charIndexFrom?, if_pos hfits, ← hsize, ih, List.length_cons]
    congr 1
    omega

/-- An error shows the first character of the text its failure points at. -/
theorem found?_locate {f : Failure} {source : List Char} (h : f.rest <:+ source) :
    (f.locate source).found? = f.rest.head?.map String.singleton := by
  obtain ⟨read, rfl⟩ := h
  have hoffset : byteLength (read ++ f.rest) - byteLength f.rest = byteLength read := by
    rw [byteLength_append, Nat.add_sub_cancel]
  have hplace : charIndex? (read ++ f.rest) (byteLength read) = some read.length := by
    rw [charIndex?, charIndexFrom?_append, Nat.zero_add]
  simp only [Failure.locate, ReadError.locate, hoffset, hplace, Option.bind_some]
  rw [List.getElem?_append_right (Nat.le_refl _), Nat.sub_self, List.head?_eq_getElem?]

end SlotLisp.Reader
