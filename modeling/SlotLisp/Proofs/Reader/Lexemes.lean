import Mathlib.Data.List.TakeWhile
import Mathlib.Tactic.ByContra
import SlotLisp.Proofs.Reader.Grammar

/-!
# Trivia and atoms as they are read

Skipping passes over the longest trivia there is (`leadingTrivia_iff`), and the readers of literals
accept the atoms of the grammar: what one of them returns is accounted for by an atom in front
(`IsAtomOf`), and each atom is returned by the reader of its literal.
-/

namespace SlotLisp.Reader

/-! ## Trivia -/

section Trivia

variable {comments : Bool}

theorem skipTrivia_blank {c : Char} {s : List Char} (hc : Text.isBlank c = true) :
    skipTrivia comments (c :: s) = skipTrivia comments s := by
  simp only [skipTrivia, skipFrom, hc, if_true]

theorem isBlank_semicolon : Text.isBlank ';' = false := by decide

/-- An open comment is skipped up to the end of its line. -/
theorem skipFrom_line {body s : List Char} (inLine : '\n' ∉ body) (ends : ∀ c ∈ s.head?, c = '\n') :
    skipFrom comments true (body ++ s) = skipTrivia comments s := by
  induction body with
  | nil =>
    cases s with
    | nil => rfl
    | cons c cs =>
      obtain rfl : c = '\n' := ends c rfl
      rw [skipTrivia_blank (by decide)]
      rfl
  | cons c cs ih =>
    rw [List.mem_cons, not_or] at inLine
    have hc : (c ≠ '\n') := fun h => inLine.1 h.symm
    simpa [skipFrom, hc] using ih inLine.2

theorem skipTrivia_append {w rest : List Char} (h : Trivia comments w rest) :
    skipTrivia comments (w ++ rest) = skipTrivia comments rest := by
  induction h with
  | none => rfl
  | blank isBlank _ ih => rw [List.cons_append, skipTrivia_blank isBlank, ih]
  | @comment body w rest enabled inLine ends _ ih =>
    have hskip : skipTrivia comments (';' :: (body ++ (w ++ rest))) =
        skipFrom comments true (body ++ (w ++ rest)) := by
      simp [skipTrivia, skipFrom, isBlank_semicolon, enabled]
    rw [List.cons_append, List.cons_append, List.append_assoc, hskip, skipFrom_line inLine ends, ih]

/-- What skipping passes over is trivia. Inside a comment it is the rest of the comment's line and
then trivia. -/
theorem skipFrom_split (comments isOpen : Bool) (s : List Char) :
    ∃ body w, s = body ++ w ++ skipFrom comments isOpen s ∧
      Trivia comments w (skipFrom comments isOpen s) ∧ '\n' ∉ body ∧ (isOpen = false → body = []) ∧
      ∀ c ∈ (w ++ skipFrom comments isOpen s).head?, isOpen = true → c = '\n' := by
  induction s generalizing isOpen with
  | nil => cases isOpen <;> exact ⟨[], [], rfl, .none _, by simp, by simp, by simp [skipFrom]⟩
  | cons c cs ih =>
    cases isOpen with
    | true =>
      by_cases hc : c = '\n'
      · obtain ⟨body, w, hs, htrivia, -, hbody, -⟩ := ih false
        obtain rfl := hbody rfl
        have hskip : skipFrom comments true (c :: cs) = skipFrom comments false cs := by
          simp [skipFrom, hc]
        rw [hskip]
        refine ⟨[], c :: w, ?_, .blank (by rw [hc]; decide) htrivia, by simp, by simp, ?_⟩
        · rw [List.nil_append, List.cons_append]
          exact congrArg (c :: ·) (by simpa using hs)
        · simp [hc]
      · obtain ⟨body, w, hs, htrivia, hline, -, hends⟩ := ih true
        have hskip : skipFrom comments true (c :: cs) = skipFrom comments true cs := by
          simp [skipFrom, hc]
        rw [hskip]
        refine ⟨c :: body, w, ?_, htrivia, ?_, by simp, hends⟩
        · rw [List.cons_append, List.cons_append]
          exact congrArg (c :: ·) hs
        · simpa [eq_comm] using ⟨hc, hline⟩
    | false =>
      rw [skipFrom]
      split
      · rename_i hblank
        obtain ⟨body, w, hs, htrivia, -, hbody, -⟩ := ih false
        obtain rfl := hbody rfl
        exact ⟨[], c :: w, by simpa using hs, .blank hblank htrivia, by simp, by simp, by simp⟩
      · split
        · rename_i hcomment
          obtain ⟨henabled, rfl⟩ : comments = true ∧ c = ';' := by simpa using hcomment
          obtain ⟨body, w, hs, htrivia, hline, -, hends⟩ := ih true
          refine ⟨[], ';' :: body ++ w, ?_, .comment henabled hline ?_ htrivia, by simp, by simp,
            by simp⟩
          · rw [List.nil_append, List.cons_append, List.cons_append]
            exact congrArg (';' :: ·) hs
          · exact fun c hc => hends c hc rfl
        · exact ⟨[], [], rfl, .none _, by simp, by simp, by simp⟩

/-- Skipping passes over trivia. -/
theorem exists_trivia (comments : Bool) (s : List Char) :
    ∃ w, s = w ++ skipTrivia comments s ∧ Trivia comments w (skipTrivia comments s) := by
  obtain ⟨body, w, hs, htrivia, -, hbody, -⟩ := skipFrom_split comments false s
  obtain rfl := hbody rfl
  exact ⟨w, hs, htrivia⟩

theorem leadingTrivia_iff {w rest : List Char} :
    LeadingTrivia comments w rest ↔
      Trivia comments w rest ∧ skipTrivia comments (w ++ rest) = rest := by
  constructor
  · intro h
    refine ⟨h.trivia, ?_⟩
    obtain ⟨w', hs, htrivia⟩ := exists_trivia comments (w ++ rest)
    have hle := h.longest w' _ hs.symm htrivia
    have hsuffix := skipTrivia_suffix comments rest
    rw [skipTrivia_append h.trivia] at hs ⊢
    apply hsuffix.eq_of_length_le
    have hlength := congrArg List.length hs
    simp only [List.length_append] at hlength
    omega
  · intro h
    obtain ⟨htrivia, hskip⟩ := h
    refine ⟨htrivia, fun w' rest' hs htrivia' => ?_⟩
    rw [← hs, skipTrivia_append htrivia'] at hskip
    have hle := (skipTrivia_suffix comments rest').length_le
    have hlength := congrArg List.length hs
    rw [hskip] at hle
    simp only [List.length_append] at hlength
    omega

end Trivia

/-! ## Runs -/

section Runs

variable {inClass : Char → Bool} {run rest : List Char}

theorem longestRun_takeWhile (inClass : Char → Bool) (s : List Char) :
    LongestRun inClass (s.takeWhile inClass) (s.dropWhile inClass) := by
  refine ⟨fun c hc => List.mem_takeWhile_imp hc, fun c hc => ?_⟩
  have h := List.head?_dropWhile_not inClass s
  rw [Option.mem_def.1 hc] at h
  simpa using h

theorem LongestRun.takeWhile_eq (h : LongestRun inClass run rest) :
    (run ++ rest).takeWhile inClass = run := by
  rw [List.takeWhile_append_of_pos h.all]
  cases rest with
  | nil => simp
  | cons c cs => simp [h.stops c rfl]

theorem LongestRun.dropWhile_eq (h : LongestRun inClass run rest) :
    (run ++ rest).dropWhile inClass = rest := by
  rw [List.dropWhile_append_of_pos h.all]
  cases rest with
  | nil => rfl
  | cons c cs => simp [h.stops c rfl]

end Runs

/-! ## Where a datum begins and ends -/

theorem ne_of_class {inClass : Char → Bool} {c d : Char} (hc : inClass c = true)
    (hd : inClass d = false) : c ≠ d := by
  intro h
  rw [h, hd] at hc
  cases hc

theorem isOperatorChar_iff {c : Char} : isOperatorChar c = true ↔ c ∈ "+-*/<>=".toList :=
  List.contains_iff_mem

/-- The characters that some datum begins with. -/
def startsDatum (c : Char) : Bool :=
  c = '\'' || c = '#' || c = '"' || c = '(' || c.isDigit || c.isAlpha || isOperatorChar c

theorem startsDatum_of_isBlank {c : Char} (h : Text.isBlank c = true) : startsDatum c = false := by
  have hall : (Text.blanks.all fun d => !startsDatum d) = true := by decide
  simpa using List.all_eq_true.1 hall c (Text.isBlank_iff.1 h)

theorem not_startsTrivia_of_startsDatum (comments : Bool) {c : Char} (s : List Char)
    (h : startsDatum c = true) : startsTrivia comments (c :: s) = false := by
  have hblank : Text.isBlank c = false := by
    by_contra hb
    rw [startsDatum_of_isBlank (by simpa using hb)] at h
    cases h
  have hcomment : c ≠ ';' := ne_of_class h (by decide)
  simp [startsTrivia, hblank, hcomment]

theorem startsDatum_of_isSymbolName {c : Char} {name : List Char}
    (h : isSymbolName (c :: name) = true) : startsDatum c = true := by
  simp only [isSymbolName, List.all_cons, Bool.or_eq_true, Bool.and_eq_true] at h
  rcases h with h | ⟨h, -⟩ <;> simp [startsDatum, h]

theorem Atom.startsDatum {t rest : List Char} {v : Value} (h : Atom t rest v) :
    ∃ c cs, t = c :: cs ∧ startsDatum c = true := by
  cases h with
  | @float whole fraction _ hwhole _ wholeRun =>
    obtain ⟨c, cs, rfl⟩ := List.exists_cons_of_ne_nil hwhole
    have hdigit := wholeRun.all c (by simp)
    exact ⟨c, _, List.cons_append, by simp [Reader.startsDatum, hdigit]⟩
  | integer nonempty run =>
    obtain ⟨c, cs, rfl⟩ := List.exists_cons_of_ne_nil nonempty
    have hdigit := run.all c (by simp)
    exact ⟨c, _, rfl, by simp [Reader.startsDatum, hdigit]⟩
  | symbol run isName =>
    cases t with
    | nil => cases isName
    | cons c cs => exact ⟨c, cs, rfl, startsDatum_of_isSymbolName isName⟩
  | _ => exact ⟨_, _, rfl, by decide⟩

@[simp] theorem endsClosed_append_singleton (t : List Char) (c : Char) :
    endsClosed (t ++ [c]) = closesItself c := by
  simp [endsClosed]

theorem endsClosed_append {u : List Char} (t : List Char) (h : u ≠ []) :
    endsClosed (t ++ u) = endsClosed u := by
  rw [endsClosed, endsClosed, List.getLast?_append, List.getLast?_eq_some_getLast h, Option.some_or]

theorem endsClosed_cons {t : List Char} (c : Char) (h : t ≠ []) :
    endsClosed (c :: t) = endsClosed t := endsClosed_append [c] h

theorem endsClosed_of_forall {t : List Char} (h : ∀ c ∈ t, closesItself c = false) :
    endsClosed t = false := by
  cases hlast : t.getLast? with
  | none => simp [endsClosed, hlast]
  | some c => simp [endsClosed, hlast, h c (List.mem_of_getLast? hlast)]

theorem endsClosed_of_run {inClass : Char → Bool} {t rest : List Char}
    (h : LongestRun inClass t rest) (hparen : inClass ')' = false) (hquote : inClass '"' = false) :
    endsClosed t = false := by
  apply endsClosed_of_forall
  intro c hc
  have hp : c ≠ ')' := ne_of_class (h.all c hc) hparen
  have hq : c ≠ '"' := ne_of_class (h.all c hc) hquote
  simp [closesItself, hp, hq]

/-! ## Atoms -/

/-- A result that an atom at the start of `s` accounts for. -/
def IsAtomOf (s : List Char) (p : Parsed) : Prop :=
  ∃ t, s = t ++ p.rest ∧ Atom t p.rest p.value ∧ p.closes = endsClosed t

theorem isAtomOf_of_readCharacter {s : List Char} {p : Parsed} (h : readCharacter s = .ok p) :
    IsAtomOf ('#' :: '\\' :: s) p := by
  unfold readCharacter at h
  cases hfind : namedCharacters.find? (·.1.isPrefixOf s) with
  | some entry =>
    simp only [hfind] at h
    obtain rfl := Except.ok.inj h
    have hmem := List.mem_of_find?_eq_some hfind
    obtain ⟨rest, rfl⟩ : entry.1 <+: s := by simpa using List.find?_some hfind
    have hends : ∀ entry ∈ namedCharacters, endsClosed ('#' :: '\\' :: entry.1) = false := by decide
    rw [List.drop_left]
    exact ⟨_, rfl, .namedCharacter rest hmem, (hends _ hmem).symm⟩
  | none =>
    cases s with
    | nil => simp [hfind] at h
    | cons c rest =>
      simp only [hfind] at h
      obtain rfl := Except.ok.inj h
      rw [List.find?_eq_none] at hfind
      exact ⟨_, rfl, .character (by simpa using hfind),
        (endsClosed_append_singleton ['#', '\\'] c).symm⟩

theorem readCharacter_named {name : List Char} {c : Char} (h : (name, c) ∈ namedCharacters)
    (rest : List Char) : readCharacter (name ++ rest) = .ok ⟨.char c, false, rest⟩ := by
  have hfind : namedCharacters.find? (·.1.isPrefixOf (name ++ rest)) = some (name, c) := by
    simp only [namedCharacters, List.mem_cons, Prod.mk.injEq, List.not_mem_nil, or_false] at h
    rcases h with ⟨rfl, rfl⟩ | ⟨rfl, rfl⟩ | ⟨rfl, rfl⟩ <;> rfl
  simp [readCharacter, hfind]

theorem readCharacter_unnamed {c : Char} {rest : List Char}
    (h : ∀ entry ∈ namedCharacters, ¬ entry.1 <+: c :: rest) :
    readCharacter (c :: rest) = .ok ⟨.char c, closesItself c, rest⟩ := by
  have hfind : namedCharacters.find? (·.1.isPrefixOf (c :: rest)) = none := by
    rw [List.find?_eq_none]
    simpa using h
  simp [readCharacter, hfind]

theorem isAtomOf_of_readHash {s : List Char} {p : Parsed} (h : readHash s = .ok p) :
    IsAtomOf ('#' :: s) p := by
  unfold readHash at h
  split at h
  · exact isAtomOf_of_readCharacter h
  · obtain rfl := Except.ok.inj h
    exact ⟨_, rfl, .boolTrue _, rfl⟩
  · obtain rfl := Except.ok.inj h
    exact ⟨_, rfl, .boolFalse _, rfl⟩
  · cases h
  · cases h

theorem isAtomOf_of_readString {s : List Char} {p : Parsed} (h : readString s = .ok p) :
    IsAtomOf ('"' :: s) p := by
  have hrun := longestRun_takeWhile (· ≠ '"') s
  have happend := List.takeWhile_append_dropWhile (p := (· ≠ '"')) (l := s)
  unfold readString at h
  split at h
  · rename_i c rest hdrop
    obtain rfl := Except.ok.inj h
    rw [hdrop] at hrun happend
    obtain rfl : c = '"' := by simpa using hrun.stops c rfl
    have hunquoted : '"' ∉ s.takeWhile (· ≠ '"') := by
      intro hmem
      simpa using hrun.all _ hmem
    refine ⟨_, ?_, .string rest hunquoted, (endsClosed_append_singleton _ '"').symm⟩
    rw [List.cons_append, List.cons_append, List.append_assoc]
    exact congrArg ('"' :: ·) happend.symm
  · cases h

theorem readString_of_unquoted {body : List Char} (rest : List Char) (h : '"' ∉ body) :
    readString (body ++ '"' :: rest) = .ok ⟨.string (String.ofList body), true, rest⟩ := by
  have hrun : LongestRun (· ≠ '"') body ('"' :: rest) := by
    refine ⟨fun c hc => ?_, by simp⟩
    have hne : c ≠ '"' := fun heq => h (heq ▸ hc)
    simp [hne]
  rw [readString, hrun.dropWhile_eq, hrun.takeWhile_eq]

theorem isAtomOf_of_readSymbol {s : List Char} {p : Parsed} (h : readSymbol s = .ok p) :
    IsAtomOf s p := by
  have hrun := longestRun_takeWhile isSymbolChar s
  simp only [readSymbol] at h
  split at h
  · rename_i hname
    obtain rfl := Except.ok.inj h
    exact ⟨_, List.takeWhile_append_dropWhile.symm, .symbol hrun hname,
      (endsClosed_of_run hrun (by decide) (by decide)).symm⟩
  · cases h

theorem readSymbol_of_run {name rest : List Char} (run : LongestRun isSymbolChar name rest)
    (isName : isSymbolName name = true) :
    readSymbol (name ++ rest) = .ok ⟨.symbol (String.ofList name), false, rest⟩ := by
  simp [readSymbol, run.takeWhile_eq, run.dropWhile_eq, isName]

/-- The two ways in which a run of digits becomes a number. -/
theorem isAtomOf_of_readNumber {c : Char} {s : List Char} {p : Parsed} (hc : c.isDigit = true)
    (h : readNumber (c :: s) = .ok p) : IsAtomOf (c :: s) p := by
  have hrun := longestRun_takeWhile Char.isDigit (c :: s)
  have happend := List.takeWhile_append_dropWhile (p := Char.isDigit) (l := c :: s)
  have hwhole : (c :: s).takeWhile Char.isDigit ≠ [] := by simp [hc]
  simp only [readNumber] at h
  generalize (c :: s).takeWhile Char.isDigit = whole at h hrun happend hwhole
  split at h
  · rename_i rest hdrop
    rw [hdrop] at hrun happend
    have hrun' := longestRun_takeWhile Char.isDigit rest
    have happend' := List.takeWhile_append_dropWhile (p := Char.isDigit) (l := rest)
    split at h
    · cases h
    · rename_i hempty
      obtain rfl := Except.ok.inj h
      have hfraction : rest.takeWhile Char.isDigit ≠ [] := by simpa using hempty
      have hruns : LongestRun Char.isDigit whole
          ('.' :: rest.takeWhile Char.isDigit ++ rest.dropWhile Char.isDigit) := by
        rwa [List.cons_append, happend']
      refine ⟨_, ?_, .float hwhole hfraction hruns hrun', ?_⟩
      · rw [List.append_assoc, List.cons_append, happend', happend]
      · rw [endsClosed_append _ (List.cons_ne_nil _ _), endsClosed_cons _ hfraction,
          endsClosed_of_run hrun' (by decide) (by decide)]
  · rename_i hpoint
    have hnoPoint : '.' ∉ ((c :: s).dropWhile Char.isDigit).head? := by
      intro hhead
      obtain ⟨rest, hrest⟩ := List.head?_eq_some_iff.1 hhead
      exact hpoint rest hrest
    split at h
    · rename_i n hn
      obtain rfl := Except.ok.inj h
      exact ⟨whole, happend.symm, .integer hwhole hrun hnoPoint (Integer.ofInt?_eq_some_iff.1 hn),
        (endsClosed_of_run hrun (by decide) (by decide)).symm⟩
    · cases h

theorem readNumber_of_fraction {whole fraction rest : List Char} (hfraction : fraction ≠ [])
    (wholeRun : LongestRun Char.isDigit whole ('.' :: fraction ++ rest))
    (fractionRun : LongestRun Char.isDigit fraction rest) :
    readNumber (whole ++ '.' :: fraction ++ rest) =
      .ok ⟨.float (Double.ofDecimal false (Nat.ofDigitChars 10 (whole ++ fraction) 0)
        (-fraction.length)), false, rest⟩ := by
  rw [List.append_assoc]
  simp only [readNumber, wholeRun.takeWhile_eq, wholeRun.dropWhile_eq]
  simp [fractionRun.takeWhile_eq, fractionRun.dropWhile_eq, hfraction]

theorem readNumber_of_run {digits rest : List Char} {n : Int64}
    (run : LongestRun Char.isDigit digits rest) (noPoint : '.' ∉ rest.head?)
    (value : n.toInt = Nat.ofDigitChars 10 digits 0) :
    readNumber (digits ++ rest) = .ok ⟨.int n, false, rest⟩ := by
  have hn := Integer.ofInt?_eq_some_iff.2 value
  simp only [readNumber, run.takeWhile_eq, run.dropWhile_eq]
  split
  · exact absurd rfl noPoint
  · simp [hn]

theorem readNumber_of_tooLarge {digits rest : List Char}
    (run : LongestRun Char.isDigit digits rest) (noPoint : '.' ∉ rest.head?)
    (value : Integer.ofInt? (Nat.ofDigitChars 10 digits 0) = none) :
    readNumber (digits ++ rest) = .error ⟨.integerTooLarge digits, digits ++ rest⟩ := by
  simp only [readNumber, run.takeWhile_eq, run.dropWhile_eq]
  split
  · exact absurd rfl noPoint
  · simp [value]

end SlotLisp.Reader
