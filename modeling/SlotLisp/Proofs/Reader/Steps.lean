import SlotLisp.Proofs.Reader.Lexemes

/-!
# Steps of the reader

What the readers of lists, tails and data do with the first character that counts. Every proof about
them starts from these equations, and from the case analysis of a datum by its first character
(`readDatum_cases`).
-/

namespace SlotLisp.Reader

variable {comments : Bool} {settings : Settings}

/-! ## Lists -/

/-- The closing bracket behind the tail of a list. -/
def closeTail (comments : Bool) (elements : List Value) (tail : Parsed) : Result :=
  match skipTrivia comments tail.rest with
  | ')' :: rest => .ok ⟨Value.ofReversed elements tail.value, true, rest⟩
  | [] => .error ⟨.openPair, []⟩
  | d :: ds => .error ⟨.afterTail, d :: ds⟩

/-- A reading in two steps succeeds only if both of them do. -/
theorem exists_of_bind_eq_ok {R : Result} {k : Parsed → Result} {p : Parsed}
    (h : R.bind k = .ok p) : ∃ q, R = .ok q ∧ k q = .ok p := by
  cases R with
  | error f => cases h
  | ok q => exact ⟨q, rfl, h⟩

section Lists

variable {item : List Char → Result} {budget : List Char} {b : Char} {elements : List Value}
  {closed : Bool} {s : List Char}

theorem closeTail_nil {tail : Parsed} (h : skipTrivia comments tail.rest = []) :
    closeTail comments elements tail = .error ⟨.openPair, []⟩ := by
  simp only [closeTail, h]

theorem closeTail_close {tail : Parsed} {rest : List Char}
    (h : skipTrivia comments tail.rest = ')' :: rest) :
    closeTail comments elements tail = .ok ⟨Value.ofReversed elements tail.value, true, rest⟩ := by
  simp only [closeTail, h]

theorem closeTail_other {tail : Parsed} {d : Char} {ds : List Char}
    (h : skipTrivia comments tail.rest = d :: ds) (hd : d ≠ ')') :
    closeTail comments elements tail = .error ⟨.afterTail, d :: ds⟩ := by
  simp only [closeTail, h]

/-- A text that ends behind the point has no tail. -/
theorem readTail_nil (hs : skipTrivia comments s = []) :
    readTail comments item elements s = .error ⟨.noTail, []⟩ := by
  rw [readTail, hs]

/-- Whatever follows the point is read as one datum, and the list has to be closed behind it. -/
theorem readTail_cons {c : Char} {cs : List Char} (hs : skipTrivia comments s = c :: cs) :
    readTail comments item elements s = (item (c :: cs)).bind (closeTail comments elements) := by
  rw [readTail, hs]
  cases hitem : item (c :: cs) with
  | error f => simp only [hitem, Except.bind]
  | ok tail =>
    simp only [hitem]
    rfl

theorem readElements_nil (hs : skipTrivia comments s = []) :
    readElements comments item (b :: budget) elements closed s = .error ⟨.openPair, []⟩ := by
  rw [readElements, hs]

/-- In front of an element the list may end, or a tail may begin; otherwise a delimiter is needed,
unless one of the two neighbours delimits itself. -/
theorem readElements_cons {c : Char} {cs : List Char} (hs : skipTrivia comments s = c :: cs) :
    readElements comments item (b :: budget) elements closed s =
      if c = ')' then .ok ⟨Value.ofReversed elements .nil, true, cs⟩
      else if elements.isEmpty || startsTrivia comments s || closed || opensItself c then
        if c = '.' && !elements.isEmpty then readTail comments item elements cs
        else (item (c :: cs)).bind fun p =>
          readElements comments item budget (p.value :: elements) p.closes p.rest
      else .error ⟨.noDelimiter, c :: cs⟩ := by
  rw [readElements, hs]
  cases hitem : item (c :: cs) <;> simp only [hitem, Except.bind]

theorem readElements_close {cs : List Char} (hs : skipTrivia comments s = ')' :: cs) :
    readElements comments item (b :: budget) elements closed s =
      .ok ⟨Value.ofReversed elements .nil, true, cs⟩ := by
  rw [readElements_cons hs, if_pos rfl]

/-- A point that is delimited from an element before it begins the tail. -/
theorem readElements_dot {cs : List Char} (hs : skipTrivia comments s = '.' :: cs)
    (helements : elements ≠ []) (delimited : startsTrivia comments s = true ∨ closed = true) :
    readElements comments item (b :: budget) elements closed s =
      readTail comments item elements cs := by
  rw [readElements_cons hs]
  rcases delimited with h | h <;> simp [helements, h]

/-- A delimited character that begins a datum begins an element. -/
theorem readElements_element {c : Char} {cs : List Char}
    (hs : skipTrivia comments s = c :: cs) (hc : startsDatum c = true)
    (delimited : elements = [] ∨ startsTrivia comments s = true ∨ closed = true ∨
      opensItself c = true) :
    readElements comments item (b :: budget) elements closed s =
      (item (c :: cs)).bind fun p =>
        readElements comments item budget (p.value :: elements) p.closes p.rest := by
  have hparen : c ≠ ')' := ne_of_class hc (by decide)
  have hpoint : c ≠ '.' := ne_of_class hc (by decide)
  rw [readElements_cons hs]
  rcases delimited with h | h | h | h <;> simp [h, hparen, hpoint]

end Lists

/-! ## Data -/

theorem not_isDigit_of_isAlpha {c : Char} (h : c.isAlpha = true) : c.isDigit = false := by
  change (decide (c.val ≥ 'A'.val ∧ c.val ≤ 'Z'.val) ||
    (c.val ≥ 'a'.val && c.val ≤ 'z'.val)) = true at h
  simp only [Bool.or_eq_true, Bool.and_eq_true, decide_eq_true_eq, UInt32.le_iff_toNat_le,
    ge_iff_le] at h
  simp only [Char.isDigit, Bool.and_eq_false_iff, decide_eq_false_iff_not,
    UInt32.le_iff_toNat_le, ge_iff_le]
  simp at h ⊢
  omega

/-- Names and numbers begin with characters of different classes. -/
theorem not_isAlphanum_of_isOperatorChar {c : Char} (h : isOperatorChar c = true) :
    c.isAlphanum = false := by
  have hall : ("+-*/<>=".toList.all fun d => !d.isAlphanum) = true := by decide
  simpa using List.all_eq_true.1 hall c (isOperatorChar_iff.1 h)

theorem readDatum_digit {n : Nat} {c : Char} {cs : List Char} (hc : c.isDigit = true) :
    readDatum settings (n + 1) (c :: cs) = readNumber (c :: cs) := by
  have hne : ∀ d, d.isDigit = false → c ≠ d := fun _ => ne_of_class hc
  simp [readDatum, hc, hne '\'' (by decide), hne '#' (by decide), hne '"' (by decide),
    hne '(' (by decide)]

/-- The first character of a name is enough for a text to be read as a symbol. -/
theorem readDatum_name {n : Nat} {c : Char} {cs name : List Char}
    (hname : isSymbolName (c :: name) = true) :
    readDatum settings (n + 1) (c :: cs) = readSymbol (c :: cs) := by
  have hc : c.isAlpha = true ∨ isOperatorChar c = true := by
    simp only [isSymbolName, List.all_cons, Bool.or_eq_true, Bool.and_eq_true] at hname
    exact hname.imp_right And.left
  have hdigit : c.isDigit = false := by
    rcases hc with hc | hc
    · exact not_isDigit_of_isAlpha hc
    · exact (Bool.or_eq_false_iff.1 (not_isAlphanum_of_isOperatorChar hc)).2
  rw [← Bool.or_eq_true] at hc
  have hne : ∀ d, (d.isAlpha || isOperatorChar d) = false → c ≠ d := by
    intro d hd h
    rw [h, hd] at hc
    cases hc
  simp [readDatum, hdigit, hne '\'' (by decide), hne '#' (by decide), hne '"' (by decide),
    hne '(' (by decide)]

theorem readDatum_list {n : Nat} (cs : List Char) :
    readDatum settings (n + 1) ('(' :: cs) =
      readElements settings.comments (readDatum settings n) ('(' :: cs) [] false cs := rfl

/-- What reading a datum comes down to, by its first character. -/
theorem readDatum_cases {n : Nat} {motive : List Char → Result → Prop}
    (nil : motive [] (.error ⟨.endOfInput, []⟩))
    (quote : ∀ cs, motive ('\'' :: cs)
      ((readDatum settings n (skipTrivia settings.comments cs)).map Parsed.quote))
    (hash : ∀ cs, motive ('#' :: cs) (readHash cs))
    (string : ∀ cs, motive ('"' :: cs) (readString cs))
    (list : ∀ cs, motive ('(' :: cs)
      (readElements settings.comments (readDatum settings n) ('(' :: cs) [] false cs))
    (number : ∀ c cs, c.isDigit = true → motive (c :: cs) (readNumber (c :: cs)))
    (symbol : ∀ c cs, (∀ settings n cs', readDatum settings (n + 1) (c :: cs') =
      readSymbol (c :: cs')) → motive (c :: cs) (readSymbol (c :: cs)))
    (s : List Char) : motive s (readDatum settings (n + 1) s) := by
  cases s with
  | nil => exact nil
  | cons c cs =>
    by_cases hquote : c = '\''
    · subst hquote
      exact quote cs
    by_cases hhash : c = '#'
    · subst hhash
      exact hash cs
    by_cases hstring : c = '"'
    · subst hstring
      exact string cs
    by_cases hlist : c = '('
    · subst hlist
      exact list cs
    cases hdigit : c.isDigit with
    | true =>
      rw [readDatum_digit hdigit]
      exact number c cs hdigit
    | false =>
      have hsymbol : ∀ settings n cs', readDatum settings (n + 1) (c :: cs') =
          readSymbol (c :: cs') := by
        simp [readDatum, hquote, hhash, hstring, hlist, hdigit]
      rw [hsymbol]
      exact symbol c cs hsymbol

end SlotLisp.Reader
