import SlotLisp.Proofs.Reader.Acceptance

/-!
# More text behind a text

What it does to the result of reading. A datum stays the datum and a fault the fault, unless the
text was cut short (`Extends`), for text that goes on with no token (`Breaks`). Literals come
first, then lists, whose budget is taken out of sight (`readList`), then data, by induction on the
levels of nesting (`extends_readDatum`).
-/

namespace SlotLisp.Reader

variable {comments : Bool} {settings : Settings}

/-- Text whose first character goes on with no name and no number. -/
inductive Breaks : List Char → Prop
  | intro {c : Char} (u : List Char) (notInName : isSymbolChar c = false) (notPoint : c ≠ '.') :
      Breaks (c :: u)

/-- How the result of reading a text and that of reading it with `u` behind it compare. -/
inductive Extends (u : List Char) : Result → Result → Prop
  | datum (p : Parsed) : Extends u (.ok p) (.ok { p with rest := p.rest ++ u })
  | fault {f f' : Failure} (same : f'.fault = f.fault) : Extends u (.error f) (.error f')
  | cut {f : Failure} (incomplete : f.fault.kind = .incomplete) (result : Result) :
      Extends u (.error f) result

/-! ## Literals -/

section Literals

variable {u : List Char}

theorem Breaks.stops (hu : Breaks u) {inClass : Char → Bool}
    (hclass : ∀ c, isSymbolChar c = false → inClass c = false) :
    ∀ c ∈ u.head?, inClass c = false := by
  obtain ⟨u, notInName, -⟩ := hu
  rintro _ ⟨⟩
  exact hclass _ notInName

theorem not_isDigit_of_not_isSymbolChar {c : Char} (h : isSymbolChar c = false) :
    c.isDigit = false := by
  simp only [isSymbolChar, Char.isAlphanum, Bool.or_eq_false_iff] at h
  exact h.1.1.2

/-- What follows the longest run of a class may grow by text that begins outside of it. -/
theorem longestRun_append {inClass : Char → Bool} (hu : ∀ c ∈ u.head?, inClass c = false)
    (s : List Char) :
    LongestRun inClass (s.takeWhile inClass) (s.dropWhile inClass ++ u) := by
  have hrun := longestRun_takeWhile inClass s
  refine ⟨hrun.all, fun c hc => ?_⟩
  rw [List.head?_append] at hc
  rcases Option.or_eq_some_iff.1 hc with hc | ⟨-, hc⟩
  · exact hrun.stops c hc
  · exact hu c hc

theorem takeWhile_append {inClass : Char → Bool} (hu : ∀ c ∈ u.head?, inClass c = false)
    (s : List Char) : (s ++ u).takeWhile inClass = s.takeWhile inClass := by
  have hrun := (longestRun_append hu s).takeWhile_eq
  rwa [← List.append_assoc, List.takeWhile_append_dropWhile] at hrun

theorem dropWhile_append {inClass : Char → Bool} (hu : ∀ c ∈ u.head?, inClass c = false)
    (s : List Char) : (s ++ u).dropWhile inClass = s.dropWhile inClass ++ u := by
  have hrun := (longestRun_append hu s).dropWhile_eq
  rwa [← List.append_assoc, List.takeWhile_append_dropWhile] at hrun

theorem Breaks.prefix_append_iff (hu : Breaks u) {name s : List Char}
    (hname : ∀ c ∈ name, isSymbolChar c = true) : name <+: s ++ u ↔ name <+: s := by
  refine ⟨fun h => ?_, fun h => h.trans (List.prefix_append s u)⟩
  rcases List.prefix_or_prefix_of_prefix h (List.prefix_append s u) with h' | ⟨v, rfl⟩
  · exact h'
  · rw [List.prefix_append_right_inj] at h
    cases v with
    | nil => simp
    | cons d v =>
      obtain ⟨u, notInName, -⟩ := hu
      obtain ⟨rfl, -⟩ := List.cons_prefix_cons.1 h
      rw [hname d (by simp)] at notInName
      cases notInName

theorem isSymbolChar_of_mem_namedCharacters {entry : List Char × Char}
    (h : entry ∈ namedCharacters) : ∀ c ∈ entry.1, isSymbolChar c = true := by
  have hall : (namedCharacters.all fun entry => entry.1.all isSymbolChar) = true := by decide
  simpa using List.all_eq_true.1 hall entry h

theorem extends_readCharacter (hu : Breaks u) (s : List Char) :
    Extends u (readCharacter s) (readCharacter (s ++ u)) := by
  cases s with
  | nil => exact .cut rfl _
  | cons c s =>
    cases hfind : namedCharacters.find? (·.1.isPrefixOf (c :: s)) with
    | some entry =>
      obtain ⟨name, d⟩ := entry
      have hmem := List.mem_of_find?_eq_some hfind
      obtain ⟨rest, hrest⟩ : name <+: c :: s := by simpa using List.find?_some hfind
      rw [← hrest, List.append_assoc, readCharacter_named hmem, readCharacter_named hmem]
      exact .datum _
    | none =>
      rw [List.find?_eq_none] at hfind
      have hnone : ∀ entry ∈ namedCharacters, ¬ entry.1 <+: c :: s := by simpa using hfind
      have hnone' : ∀ entry ∈ namedCharacters, ¬ entry.1 <+: c :: (s ++ u) := by
        intro entry hentry h
        have hname := isSymbolChar_of_mem_namedCharacters hentry
        exact hnone entry hentry ((hu.prefix_append_iff hname).1 h)
      rw [List.cons_append, readCharacter_unnamed hnone, readCharacter_unnamed hnone']
      exact .datum _

theorem extends_readHash (hu : Breaks u) (s : List Char) :
    Extends u (readHash s) (readHash (s ++ u)) := by
  fun_cases readHash s with
  | case1 rest => exact extends_readCharacter hu rest
  | case2 rest => exact .datum _
  | case3 rest => exact .datum _
  | case4 c rest hbackslash ht hf =>
    have hunknown : readHash (c :: rest ++ u) = .error ⟨.unknownBoolean c, c :: rest ++ u⟩ := by
      simp [readHash]
    rw [hunknown]
    exact .fault rfl
  | case5 => exact .cut rfl _

theorem extends_readString (u s : List Char) : Extends u (readString s) (readString (s ++ u)) := by
  have happend := List.takeWhile_append_dropWhile (p := (· ≠ '"')) (l := s)
  have hrun := longestRun_takeWhile (· ≠ '"') s
  unfold readString
  cases hdrop : s.dropWhile (· ≠ '"') with
  | nil => exact .cut rfl _
  | cons d rest =>
    rw [hdrop] at happend hrun
    have hrun' : LongestRun (· ≠ '"') (s.takeWhile (· ≠ '"')) (d :: (rest ++ u)) :=
      ⟨hrun.all, fun c hc => hrun.stops c hc⟩
    have happend' : s ++ u = s.takeWhile (· ≠ '"') ++ d :: (rest ++ u) := by
      conv_lhs => rw [← happend, List.append_assoc, List.cons_append]
    rw [happend', hrun'.dropWhile_eq, hrun'.takeWhile_eq]
    exact .datum _

theorem extends_readNumber (hu : Breaks u) (s : List Char) :
    Extends u (readNumber s) (readNumber (s ++ u)) := by
  have hstops := hu.stops fun _ => not_isDigit_of_not_isSymbolChar
  -- A point behind the digits decides for a float, and `u` does not begin with one.
  by_cases hpoint : '.' ∈ (s.dropWhile Char.isDigit).head?
  · obtain ⟨rest, hrest⟩ := List.head?_eq_some_iff.1 hpoint
    simp only [readNumber, takeWhile_append hstops, dropWhile_append hstops, hrest,
      List.cons_append]
    split
    · exact .fault rfl
    · exact .datum _
  · have hpoint' : '.' ∉ (s.dropWhile Char.isDigit ++ u).head? := by
      obtain ⟨u, -, notPoint⟩ := hu
      cases hrest : s.dropWhile Char.isDigit with
      | nil => simpa using notPoint
      | cons d rest => simpa [hrest] using hpoint
    have hrun := longestRun_takeWhile Char.isDigit s
    have hrun' := longestRun_append hstops s
    rw [← List.takeWhile_append_dropWhile (p := Char.isDigit) (l := s), List.append_assoc]
    cases hvalue : Integer.ofInt? (Nat.ofDigitChars 10 (s.takeWhile Char.isDigit) 0) with
    | some n =>
      have hn := Integer.ofInt?_eq_some_iff.1 hvalue
      rw [readNumber_of_run hrun hpoint hn, readNumber_of_run hrun' hpoint' hn]
      exact .datum _
    | none =>
      rw [readNumber_of_tooLarge hrun hpoint hvalue, readNumber_of_tooLarge hrun' hpoint' hvalue]
      exact .fault rfl

theorem extends_readSymbol (hu : Breaks u) (s : List Char) :
    Extends u (readSymbol s) (readSymbol (s ++ u)) := by
  have hstops : ∀ c ∈ u.head?, isSymbolChar c = false := hu.stops fun _ h => h
  simp only [readSymbol, takeWhile_append hstops, dropWhile_append hstops]
  split
  · exact .datum _
  · exact .fault rfl

end Literals

/-! ## Trivia -/

/-- Trivia stays trivia if the text behind it grows. If it ended with the text, it ends before a
line feed now. -/
theorem Trivia.extend {w rest u : List Char} (h : Trivia comments w rest)
    (hu : rest = [] → ∀ c ∈ u.head?, c = '\n') : Trivia comments w (rest ++ u) := by
  induction h with
  | none => exact .none _
  | blank isBlank _ ih => exact .blank isBlank (ih hu)
  | comment enabled inLine ends _ ih =>
    refine .comment enabled inLine (fun c hc => ?_) (ih hu)
    rw [← List.append_assoc, List.head?_append] at hc
    rcases Option.or_eq_some_iff.1 hc with hc | ⟨hnone, hc⟩
    · exact ends c hc
    · rw [List.head?_eq_none_iff, List.append_eq_nil_iff] at hnone
      exact hu hnone.2 c hc

/-- Where skipping has stopped it stops with more text behind. -/
theorem skipTrivia_append_of_cons {c : Char} {s cs : List Char} (u : List Char)
    (hs : skipTrivia comments s = c :: cs) : skipTrivia comments (s ++ u) = c :: (cs ++ u) := by
  obtain ⟨w, hw, trivia⟩ := exists_trivia comments s
  have hstarts := not_starts_skipTrivia comments s
  rw [hs] at hw trivia hstarts
  rw [hw, List.append_assoc, skipTrivia_append (trivia.extend (by simp))]
  exact skipTrivia_of_not_starts hstarts

/-- Behind nothing but trivia, even a comment that the end cut short, a new line begins. -/
theorem skipTrivia_newline {s : List Char} (u : List Char) (hs : skipTrivia comments s = []) :
    skipTrivia comments (s ++ '\n' :: u) = skipTrivia comments u := by
  obtain ⟨w, hw, trivia⟩ := exists_trivia comments s
  rw [hs] at hw trivia
  have htrivia : Trivia comments w ('\n' :: u) := trivia.extend (by simp)
  rw [hw, List.append_nil, skipTrivia_append htrivia]
  exact skipTrivia_blank (by decide)

theorem startsTrivia_append {s : List Char} (hs : s ≠ []) (u : List Char) :
    startsTrivia comments (s ++ u) = startsTrivia comments s := by
  cases s with
  | nil => exact absurd rfl hs
  | cons c cs => rfl

/-! ## Data -/

/-- Reading takes at least one character. -/
def Shortens (item : List Char → Result) : Prop :=
  ∀ s p, item s = .ok p → p.rest.length < s.length

theorem shortens_readDatum (settings : Settings) (n : Nat) : Shortens (readDatum settings n) := by
  intro s p h
  obtain ⟨depth, t, -, hs, hdatum, -⟩ := readsOnly_readDatum settings n s p h
  have hlength := List.length_pos_iff.2 hdatum.ne_nil
  rw [hs, List.length_append]
  omega

/-- The elements of a list, behind those already read, with a budget that is enough. -/
def readList (comments : Bool) (item : List Char → Result) (elements : List Value)
    (closed : Bool) (s : List Char) : Result :=
  readElements comments item ('(' :: s) elements closed s

section Lists

variable {item : List Char → Result} (hshortens : Shortens item) {elements : List Value}
  {closed : Bool} {c : Char} {s cs : List Char}

include hshortens

theorem Shortens.length_lt {p : Parsed} (hs : skipTrivia comments s = c :: cs)
    (hp : item (c :: cs) = .ok p) : p.rest.length < s.length := by
  have hskipped := (skipTrivia_suffix comments s).length_le
  rw [hs] at hskipped
  exact Nat.lt_of_lt_of_le (hshortens _ _ hp) hskipped

/-- Budgets that are enough are alike. -/
theorem Shortens.readElements_eq (budget budget' : List Char) (h : s.length < budget.length)
    (h' : s.length < budget'.length) :
    readElements comments item budget elements closed s =
      readElements comments item budget' elements closed s := by
  induction budget generalizing budget' elements closed s with
  | nil => cases h
  | cons b budget ih =>
    obtain ⟨b', budget', rfl⟩ := List.exists_cons_of_length_pos (Nat.zero_lt_of_lt h')
    cases hs : skipTrivia comments s with
    | nil => rw [readElements_nil hs, readElements_nil hs]
    | cons c cs =>
      rw [readElements_cons hs, readElements_cons hs]
      cases hp : item (c :: cs) with
      | error f => rfl
      | ok p =>
        have hshorter := hshortens.length_lt hs hp
        rw [List.length_cons] at h h'
        simp only [Except.bind, ih (s := p.rest) budget' (by omega) (by omega)]

theorem Shortens.readList_cons (hs : skipTrivia comments s = c :: cs) :
    readList comments item elements closed s =
      if c = ')' then .ok ⟨Value.ofReversed elements .nil, true, cs⟩
      else if elements.isEmpty || startsTrivia comments s || closed || opensItself c then
        if c = '.' && !elements.isEmpty then readTail comments item elements cs
        else (item (c :: cs)).bind fun p =>
          readList comments item (p.value :: elements) p.closes p.rest
      else .error ⟨.noDelimiter, c :: cs⟩ := by
  rw [readList, readElements_cons hs]
  cases hp : item (c :: cs) with
  | error f => rfl
  | ok p =>
    have hshorter := hshortens.length_lt hs hp
    simp only [Except.bind, readList, hshortens.readElements_eq s ('(' :: p.rest) hshorter
      (Nat.lt_succ_self p.rest.length)]

end Lists

theorem readList_close {item : List Char → Result} {elements : List Value} {closed : Bool}
    {s cs : List Char} (hs : skipTrivia comments s = ')' :: cs) :
    readList comments item elements closed s = .ok ⟨Value.ofReversed elements .nil, true, cs⟩ :=
  readElements_close hs

theorem readList_nil {item : List Char → Result} {elements : List Value} {closed : Bool}
    {s : List Char} (hs : skipTrivia comments s = []) :
    readList comments item elements closed s = .error ⟨.openPair, []⟩ :=
  readElements_nil hs

section Extends

variable {u : List Char} {item : List Char → Result}

theorem Extends.bind {R R' : Result} {k k' : Parsed → Result} (h : Extends u R R')
    (hk : ∀ p, R = .ok p → Extends u (k p) (k' { p with rest := p.rest ++ u })) :
    Extends u (R.bind k) (R'.bind k') := by
  cases h with
  | datum p => exact hk p rfl
  | fault same => exact .fault same
  | cut incomplete => exact .cut incomplete _

theorem Extends.map_quote {R R' : Result} (h : Extends u R R') :
    Extends u (R.map Parsed.quote) (R'.map Parsed.quote) := by
  cases h with
  | datum p => exact .datum p.quote
  | fault same => exact .fault same
  | cut incomplete => exact .cut incomplete _

theorem extends_closeTail (u : List Char) (elements : List Value) (tail : Parsed) :
    Extends u (closeTail comments elements tail)
      (closeTail comments elements { tail with rest := tail.rest ++ u }) := by
  cases hrest : skipTrivia comments tail.rest with
  | nil =>
    rw [closeTail_nil hrest]
    exact .cut rfl _
  | cons d ds =>
    have hrest' := skipTrivia_append_of_cons u hrest
    by_cases hd : d = ')'
    · subst hd
      rw [closeTail_close hrest, closeTail_close hrest']
      exact .datum _
    · rw [closeTail_other hrest hd, closeTail_other hrest' hd]
      exact .fault rfl

variable (hitem : ∀ s, Extends u (item s) (item (s ++ u)))

include hitem

theorem extends_readTail (elements : List Value) (s : List Char) :
    Extends u (readTail comments item elements s) (readTail comments item elements (s ++ u)) := by
  cases hs : skipTrivia comments s with
  | nil =>
    rw [readTail_nil hs]
    exact .cut rfl _
  | cons c cs =>
    rw [readTail_cons hs, readTail_cons (skipTrivia_append_of_cons u hs)]
    exact (hitem (c :: cs)).bind fun tail _ => extends_closeTail u elements tail

theorem extends_readList (hshortens : Shortens item) (elements : List Value) (closed : Bool)
    (s : List Char) :
    Extends u (readList comments item elements closed s)
      (readList comments item elements closed (s ++ u)) := by
  induction hlength : s.length using Nat.strong_induction_on generalizing elements closed s with
  | _ length ih =>
    cases hs : skipTrivia comments s with
    | nil =>
      rw [readList_nil hs]
      exact .cut rfl _
    | cons c cs =>
      have hne : s ≠ [] := by
        rintro rfl
        cases hs
      -- Both readings look at `s` only up to the first character that counts, so they agree on
      -- how the list goes on.
      rw [hshortens.readList_cons hs, hshortens.readList_cons (skipTrivia_append_of_cons u hs),
        startsTrivia_append hne]
      split
      · exact .datum _
      · split
        · split
          · exact extends_readTail hitem elements cs
          · refine (hitem (c :: cs)).bind fun p hp => ?_
            exact ih _ (hlength ▸ hshortens.length_lt hs hp) _ _ _ rfl
        · exact .fault rfl

end Extends

/-- Behind trivia. If there is nothing else, the text is cut short, or no level is left and the
depth is what fails, whatever follows. -/
theorem extends_skipped {u : List Char} {n : Nat}
    (h : ∀ s, Extends u (readDatum settings n s) (readDatum settings n (s ++ u))) (s : List Char) :
    Extends u (readDatum settings n (skipTrivia settings.comments s))
      (readDatum settings n (skipTrivia settings.comments (s ++ u))) := by
  cases hs : skipTrivia settings.comments s with
  | nil =>
    cases n with
    | zero => exact .fault rfl
    | succ n => exact .cut rfl _
  | cons c cs =>
    rw [skipTrivia_append_of_cons u hs]
    exact h (c :: cs)

theorem extends_readDatum {u : List Char} (hu : Breaks u) (settings : Settings) (n : Nat)
    (s : List Char) : Extends u (readDatum settings n s) (readDatum settings n (s ++ u)) := by
  induction n generalizing s with
  | zero => exact .fault rfl
  | succ n ih =>
    refine readDatum_cases (motive := fun s R => Extends u R (readDatum settings (n + 1) (s ++ u)))
      ?nil ?quote ?hash ?string ?list ?number ?symbol s
    case nil => exact .cut rfl _
    case quote => exact fun cs => (extends_skipped ih cs).map_quote
    case hash => exact extends_readHash hu
    case string => exact extends_readString u
    case list => exact extends_readList ih (shortens_readDatum settings n) [] false
    case number =>
      intro c cs hc
      rw [List.cons_append, readDatum_digit hc]
      exact extends_readNumber hu (c :: cs)
    case symbol =>
      intro c cs hread
      rw [List.cons_append, hread]
      exact extends_readSymbol hu (c :: cs)

theorem readDatum_append {u s : List Char} {n : Nat} {p : Parsed} (hu : Breaks u)
    (h : readDatum settings n s = .ok p) :
    readDatum settings n (s ++ u) = .ok { p with rest := p.rest ++ u } := by
  have hextends := extends_readDatum hu settings n s
  rw [h] at hextends
  generalize readDatum settings n (s ++ u) = R at hextends
  cases hextends
  rfl

end SlotLisp.Reader
