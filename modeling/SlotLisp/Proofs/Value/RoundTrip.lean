import SlotLisp.Proofs.Double.Printing
import SlotLisp.Proofs.Reader.Acceptance
import SlotLisp.Proofs.Reader.Image

/-!
# Reading back what was written

Reading the text of a value returns an equal value exactly when the value is readable and nests
less deeply than the reader allows (`reads_back_iff`). One induction over the value serves both
directions: whatever the doubles of a legible value are, the reader makes of its text a value that
is equal to it just if it is readable, or fails and it is not (`rereads`). That only a legible value
can come back follows from what data denote.
-/

namespace SlotLisp

open Reader

variable {comments : Bool} {settings : Settings}

/-- What the printer puts behind an atom: nothing, a blank or a closing bracket. -/
def Delimited (rest : List Char) : Prop := ∀ c ∈ rest.head?, c = ' ' ∨ c = ')'

theorem delimited_nil : Delimited [] := fun _ hc => nomatch hc

theorem delimited_paren (s : List Char) : Delimited (')' :: s) := by
  intro c hc
  exact .inr (Option.some.inj hc).symm

theorem delimited_restChars (v : Value) (rest : List Char) : Delimited (v.restChars ++ rest) := by
  intro c hc
  cases v with
  | nil => exact .inr (Option.some.inj hc).symm
  | _ => exact .inl (Option.some.inj hc).symm

theorem Delimited.longestRun {rest run : List Char} (h : Delimited rest) {inClass : Char → Bool}
    (hblank : inClass ' ' = false) (hparen : inClass ')' = false)
    (hall : ∀ c ∈ run, inClass c = true) : LongestRun inClass run rest := by
  refine ⟨hall, fun c hc => ?_⟩
  rcases h c hc with rfl | rfl
  · exact hblank
  · exact hparen

theorem Delimited.noPoint {rest : List Char} (h : Delimited rest) : '.' ∉ rest.head? := by
  intro hc
  rcases h '.' hc with hc | hc <;> exact absurd hc (by decide)

/-! ## Atoms -/

section Atoms

variable {rest : List Char}

theorem chars_int {n : Int64} (hn : 0 ≤ n.toInt) :
    (Value.int n).chars = Nat.toDigits 10 n.toInt.toNat := by
  show (toString n.toInt).toList = _
  rw [Int.toString_eq_repr, Int.repr_eq_if, if_pos hn, Nat.toList_repr]

theorem atom_int {n : Int64} (hn : 0 ≤ n.toInt) (hrest : Delimited rest) :
    Atom (Value.int n).chars rest (.int n) := by
  rw [chars_int hn]
  refine .integer Nat.toDigits_ne_nil (hrest.longestRun (by decide) (by decide) ?_)
    hrest.noPoint ?_
  · exact fun c hc => Nat.isDigit_of_mem_toDigits (by decide) (by decide) hc
  · rw [Nat.ofDigitChars_ten_toDigits, Int.toNat_of_nonneg hn]

theorem chars_float (x : Float) : (Value.float x).chars = Double.text x := String.toList_ofList

theorem atom_float {x : Float} (hx : Double.IsPlain x) (hrest : Delimited rest) :
    Atom (Value.float x).chars rest (.float x) := by
  obtain ⟨hfinite, hlt⟩ := Double.isPlain_iff.1 hx
  obtain ⟨whole, fraction, htext, hwhole, hfraction, hwholeDigits, hfractionDigits, hvalue⟩ :=
    Double.text_of_lt hfinite hlt
  have hrun : LongestRun Char.isDigit whole ('.' :: fraction ++ rest) := by
    refine ⟨hwholeDigits, fun c hc => ?_⟩
    obtain rfl := Option.some.inj hc
    decide
  have hatom := Atom.float hwhole hfraction hrun
    (hrest.longestRun (by decide) (by decide) hfractionDigits)
  rwa [hvalue, ← htext, ← chars_float] at hatom

/-- What the printer puts behind a character does not make a name of it. -/
theorem Delimited.unnamed (hrest : Delimited rest) (c : Char) :
    ∀ entry ∈ namedCharacters, ¬ entry.1 <+: c :: rest := by
  have hall : ∀ entry ∈ namedCharacters,
      (entry.1.tail.head?.any fun d => d ≠ ' ' && d ≠ ')') = true := by decide
  rintro ⟨name, c'⟩ hentry ⟨tail, htail⟩
  have hsecond := hall _ hentry
  rcases name with _ | ⟨x, _ | ⟨d, ds⟩⟩
  · cases hsecond
  · cases hsecond
  · obtain ⟨-, rfl⟩ := List.cons.inj htail
    rcases hrest d rfl with rfl | rfl <;> cases hsecond

theorem atom_char (c : Char) (hrest : Delimited rest) :
    Atom (Value.char c).chars rest (.char c) := by
  show Atom (Value.charText c).toList rest _
  rw [Value.charText, String.toList_append, Value.charName?]
  split
  · rename_i hc
    subst hc
    exact .namedCharacter rest (by decide)
  · split
    · rename_i hc
      subst hc
      exact .namedCharacter rest (by decide)
    · split
      · rename_i hc
        subst hc
        exact .namedCharacter rest (by decide)
      · have hchars : "#\\".toList ++ (String.singleton c).toList = ['#', '\\', c] := by simp
        exact hchars ▸ .character (hrest.unnamed c)

theorem atom_string {t : String} (ht : '"' ∉ t.toList) :
    Atom (Value.string t).chars rest (.string t) := by
  have hchars : (Value.string t).chars = '"' :: t.toList ++ ['"'] := by
    show ("\"" ++ t ++ "\"").toList = _
    simp
  have hatom := Atom.string rest ht
  rwa [String.ofList_toList, ← hchars] at hatom

theorem atom_symbol {name : String} (hname : IsName name.toList) (hrest : Delimited rest) :
    Atom (Value.symbol name).chars rest (.symbol name) := by
  obtain ⟨isName, hall⟩ := isName_iff.1 hname
  have hatom := Atom.symbol (hrest.longestRun (by decide) (by decide) hall) isName
  rwa [String.ofList_toList] at hatom

/-- A readable atom is written as a datum that denotes it, and is equal to itself. -/
theorem datum_of_readable {v : Value} (hatom : v.IsAtom) (hv : v.Readable)
    (hrest : Delimited rest) : Datum comments 0 v.chars rest v ∧ v.equal v = true := by
  cases v with
  | nil => exact ⟨.empty (.none _), rfl⟩
  | bool b =>
    refine ⟨.atom ?_, beq_self_eq_true b⟩
    cases b
    · exact .boolFalse rest
    · exact .boolTrue rest
  | int n => exact ⟨.atom (atom_int hv hrest), beq_self_eq_true n⟩
  | float x => exact ⟨.atom (atom_float hv hrest), Double.beq_self (Double.isPlain_iff.1 hv).1⟩
  | char c => exact ⟨.atom (atom_char c hrest), beq_self_eq_true c⟩
  | string t => exact ⟨.atom (atom_string hv), beq_self_eq_true t⟩
  | symbol name => exact ⟨.atom (atom_symbol hv hrest), beq_self_eq_true name⟩
  | pair => exact hatom.elim
  | closure => exact hatom.elim
  | native => exact hv.elim

end Atoms

/-! ## What the reader makes of a text -/

/-- The outcome `r` of reading the text of `v` in front of `rest`, when the value read is put
`around`: a value that equals `v` just if `v` is readable, or a failure, and `v` is not. -/
def Rereads (v : Value) (around : Value → Value) (rest : List Char) (r : Result) : Prop :=
  (∃ w closes, r = .ok ⟨around w, closes, rest⟩ ∧ (w.equal v = true ↔ v.Readable)) ∨
    ∃ f, r = .error f ∧ ¬ v.Readable

theorem rereads_datum {rest : List Char} {v w : Value}
    (h : Datum settings.comments 0 v.chars rest w) (hw : w.equal v = true ↔ v.Readable) (n : Nat) :
    Rereads v id rest (readDatum settings (n + 1) (v.chars ++ rest)) :=
  .inl ⟨w, _, readsBelow_readDatum settings (n + 1) 0 _ _ _ h (Nat.succ_pos n), hw⟩

section Doubles

variable {rest : List Char} {x : Float} (hx : ¬ Double.IsPlain x) (n : Nat)

include hx

/-- A double that is not plain is written as a name, with digits alone, or with a minus. -/
theorem text_of_not_plain :
    IsName (Double.text x) ∨
      (Double.text x ≠ [] ∧ ∀ c ∈ Double.text x, c.isDigit = true) ∨
      ∃ c s, Double.text x = '-' :: c :: s ∧ c.isAlphanum = true := by
  have hnan : IsName ['N', 'a', 'N'] := by decide
  by_cases hsign : x.toBits.toNat < Double.signBit
  · by_cases hfinite : x.toBits.toNat < Double.infinityBits
    · have hlt : ¬ x < 1e16 := fun hlt => hx (Double.isPlain_iff.2 ⟨hfinite, hlt⟩)
      exact .inr (.inl (Double.text_of_not_lt hfinite hlt))
    · have hinf : IsName ['i', 'n', 'f'] := by decide
      rcases Double.text_of_infinite hsign (by omega) with h | h
      · exact .inl (h ▸ hnan)
      · exact .inl (h ▸ hinf)
  · rcases Double.text_of_sign (x := x) (by omega) with h | hminus
    · exact .inl (h ▸ hnan)
    · exact .inr (.inr hminus)

/-- The text of a double that is not plain may denote a value, but of another kind. -/
theorem rereads_other {w : Value} (h : Atom (Double.text x) rest w)
    (hw : w.equal (.float x) = false) :
    Rereads (.float x) id rest (readDatum settings (n + 1) ((Value.float x).chars ++ rest)) := by
  rw [← chars_float] at h
  refine rereads_datum (.atom h) ?_ n
  rw [hw]
  exact iff_of_false Bool.false_ne_true hx

theorem rereads_name (hrest : Delimited rest) (hname : IsName (Double.text x)) :
    Rereads (.float x) id rest (readDatum settings (n + 1) ((Value.float x).chars ++ rest)) := by
  obtain ⟨isName, hall⟩ := isName_iff.1 hname
  exact rereads_other hx n (.symbol (hrest.longestRun (by decide) (by decide) hall) isName) rfl

theorem rereads_digits (hrest : Delimited rest) (hne : Double.text x ≠ [])
    (hall : ∀ c ∈ Double.text x, c.isDigit = true) :
    Rereads (.float x) id rest (readDatum settings (n + 1) ((Value.float x).chars ++ rest)) := by
  have hrun := hrest.longestRun (by decide) (by decide) hall
  cases hvalue : Integer.ofInt? (Nat.ofDigitChars 10 (Double.text x) 0) with
  | some k =>
    have hk := Integer.ofInt?_eq_some_iff.1 hvalue
    exact rereads_other hx n (.integer hne hrun hrest.noPoint hk) rfl
  | none =>
    have hread := readNumber_of_tooLarge hrun hrest.noPoint hvalue
    obtain ⟨c, cs, hc⟩ := List.exists_cons_of_ne_nil hne
    rw [chars_float]
    rw [hc] at hread hall ⊢
    exact .inr ⟨_, (readDatum_digit (hall c List.mem_cons_self)).trans hread, hx⟩

omit hx in
/-- No literal begins with a minus and a letter or digit. -/
theorem readDatum_minus {c : Char} {s : List Char} (hc : c.isAlphanum = true) :
    readDatum settings (n + 1) ('-' :: c :: s) = .error ⟨.noLiteral, '-' :: c :: s⟩ := by
  have hsign : isSymbolChar '-' = true := by decide
  have hsymbol : isSymbolChar c = true := by simp [isSymbolChar, hc]
  have hoperator : isOperatorChar c = false := by
    apply Bool.eq_false_iff.2
    intro h
    rw [not_isAlphanum_of_isOperatorChar h] at hc
    cases hc
  have hname : isSymbolName ('-' :: c :: s.takeWhile isSymbolChar) = false := by
    simp [isSymbolName, hoperator]
  have hminus : isSymbolName ['-'] = true := by decide
  have hread : readDatum settings (n + 1) ('-' :: c :: s) = readSymbol ('-' :: c :: s) :=
    readDatum_name hminus
  rw [hread, readSymbol]
  simp [hsign, hsymbol, hname]

theorem rereads_float (hrest : Delimited rest) :
    Rereads (.float x) id rest (readDatum settings (n + 1) ((Value.float x).chars ++ rest)) := by
  obtain hname | ⟨hne, hall⟩ | ⟨c, s, htext, hc⟩ := text_of_not_plain hx
  · exact rereads_name hx n hrest hname
  · exact rereads_digits hx n hrest hne hall
  · rw [chars_float, htext]
    exact .inr ⟨_, readDatum_minus n hc, hx⟩

end Doubles

theorem rereads_atom {rest : List Char} {v : Value} (hatom : v.IsAtom) (hv : v.Spelled) (n : Nat)
    (hrest : Delimited rest) :
    Rereads v id rest (readDatum settings (n + 1) (v.chars ++ rest)) := by
  obtain hreadable | ⟨x, rfl, hx⟩ := Value.readable_or_double hatom hv
  · obtain ⟨hdatum, hequal⟩ := datum_of_readable hatom hreadable hrest
    exact rereads_datum hdatum (iff_of_true hequal hreadable) n
  · exact rereads_float hx n hrest

/-! ## Lists -/

theorem startsDatum_text {x : Float} (hx : ¬ Double.IsPlain x) :
    ∃ c cs, Double.text x = c :: cs ∧ startsDatum c = true := by
  obtain hname | ⟨hne, hall⟩ | ⟨c, s, htext, -⟩ := text_of_not_plain hx
  · obtain ⟨isName, -⟩ := isName_iff.1 hname
    cases htext : Double.text x with
    | nil =>
      rw [htext] at isName
      cases isName
    | cons c cs =>
      rw [htext] at isName
      exact ⟨c, cs, rfl, startsDatum_of_isSymbolName isName⟩
  · obtain ⟨c, cs, htext⟩ := List.exists_cons_of_ne_nil hne
    have hdigit := hall c (htext ▸ List.mem_cons_self)
    exact ⟨c, cs, htext, by simp [startsDatum, hdigit]⟩
  · exact ⟨'-', c :: s, htext, by decide⟩

theorem startsDatum_chars {v : Value} (hv : v.Spelled) :
    ∃ c cs, v.chars = c :: cs ∧ startsDatum c = true := by
  by_cases hatom : v.IsAtom
  · obtain hreadable | ⟨x, rfl, hx⟩ := Value.readable_or_double hatom hv
    · have hdatum : Datum true 0 v.chars [] v :=
        (datum_of_readable hatom hreadable delimited_nil).1
      exact hdatum.startsDatum
    · rw [chars_float]
      exact startsDatum_text hx
  · cases v with
    | pair => exact ⟨'(', _, rfl, by decide⟩
    | closure => exact hv.elim
    | _ => exact absurd trivial hatom

theorem startsTrivia_space (s : List Char) : startsTrivia comments (' ' :: s) = true := by
  have hblank : Text.isBlank ' ' = true := by decide
  simp [startsTrivia, hblank]

theorem skipTrivia_space (s : List Char) :
    skipTrivia comments (' ' :: s) = skipTrivia comments s := skipTrivia_blank (by decide)

theorem skipTrivia_chars {v : Value} (hv : v.Spelled) (s : List Char) :
    skipTrivia comments (v.chars ++ s) = v.chars ++ s := by
  obtain ⟨c, cs, hchars, hc⟩ := startsDatum_chars hv
  rw [hchars]
  exact skipTrivia_of_not_starts (not_startsTrivia_of_startsDatum comments _ hc)

section Elements

variable {item : List Char → Result} {b : Char} {budget : List Char} {elements : List Value}
  {closed : Bool} {s rest : List Char}

/-- An element is put in front of what the rest of the list comes to. -/
theorem rereads_element {mark : Option Nat} {a d : Value} (ha : a.Spelled) {t : List Char}
    (hskip : skipTrivia comments t = a.chars ++ s)
    (delimited : elements = [] ∨ startsTrivia comments t = true)
    (hitem : Rereads a id s (item (a.chars ++ s)))
    (hrest : ∀ w closes, Rereads d (Value.ofReversed (w :: elements)) rest
      (readElements comments item budget (w :: elements) closes s)) :
    Rereads (.pair mark a d) (Value.ofReversed elements) rest
      (readElements comments item (b :: budget) elements closed t) := by
  obtain ⟨c, cs, hchars, hc⟩ := startsDatum_chars ha
  have hskip : skipTrivia comments t = c :: (cs ++ s) := by rw [hskip, hchars, List.cons_append]
  rw [readElements_element hskip hc (delimited.imp_right .inl), ← List.cons_append, ← hchars]
  obtain ⟨w, closes, hread, hw⟩ | ⟨f, hread, ha⟩ := hitem
  · rw [hread]
    obtain ⟨w', closes', hread', hw'⟩ | ⟨f, hread', hd⟩ := hrest w closes
    · refine .inl ⟨.cons w w', closes', hread', ?_⟩
      rw [Value.equal_cons, Bool.and_eq_true, hw, hw']
      exact Iff.rfl
    · exact .inr ⟨f, hread', fun h => hd h.2⟩
  · rw [hread]
    exact .inr ⟨f, rfl, fun h => ha h.1⟩

theorem restChars_of_isAtom {v : Value} (hatom : v.IsAtom) (hnil : v ≠ .nil) :
    v.restChars = ' ' :: '.' :: ' ' :: v.chars ++ [')'] := by
  cases v with
  | nil => exact absurd rfl hnil
  | pair => exact hatom.elim
  | _ => rfl

/-- An atom behind the last element closes the list, with a dot in front unless it is the empty
list. -/
theorem rereads_tail {v : Value} (hatom : v.IsAtom) (hv : v.Spelled) (n : Nat)
    (helements : elements ≠ []) :
    Rereads v (Value.ofReversed elements) rest
      (readElements settings.comments (readDatum settings (n + 1)) (b :: budget) elements closed
        (v.restChars ++ rest)) := by
  have hparen : skipTrivia settings.comments (')' :: rest) = ')' :: rest :=
    skipTrivia_of_not_starts (not_startsTrivia_paren rest)
  by_cases hnil : v = .nil
  · subst hnil
    exact .inl ⟨.nil, true, readElements_close hparen, iff_of_true rfl trivial⟩
  · have htext : v.restChars ++ rest = ' ' :: '.' :: ' ' :: (v.chars ++ ')' :: rest) := by
      rw [restChars_of_isAtom hatom hnil]
      simp
    have hskip : skipTrivia settings.comments (v.restChars ++ rest) =
        '.' :: ' ' :: (v.chars ++ ')' :: rest) := by
      rw [htext, skipTrivia_space]
      exact skipTrivia_of_not_starts (not_startsTrivia_point _)
    have hstarts : startsTrivia settings.comments (v.restChars ++ rest) = true := by
      rw [htext]
      exact startsTrivia_space _
    have htail : Rereads v id (')' :: rest)
        (readDatum settings (n + 1) (v.chars ++ ')' :: rest)) :=
      rereads_atom hatom hv n (delimited_paren rest)
    obtain ⟨c, cs, hchars, -⟩ := startsDatum_chars hv
    have hskip' : skipTrivia settings.comments (' ' :: (v.chars ++ ')' :: rest)) =
        c :: (cs ++ ')' :: rest) := by
      rw [skipTrivia_space, skipTrivia_chars hv, hchars, List.cons_append]
    rw [hchars, List.cons_append] at htail
    rw [readElements_dot hskip helements (.inl hstarts), readTail_cons hskip']
    obtain ⟨w, closes, hread, hw⟩ | ⟨f, hread, hunreadable⟩ := htail
    · rw [hread]
      exact .inl ⟨w, true, closeTail_close hparen, hw⟩
    · rw [hread]
      exact .inr ⟨f, rfl, hunreadable⟩

end Elements

/-- The text of `v`, wherever it stands, is read within `n` levels. -/
def RereadsDatum (settings : Settings) (v : Value) : Prop :=
  ∀ (n : Nat) (rest : List Char), v.nesting < n → Delimited rest →
    Rereads v id rest (readDatum settings n (v.chars ++ rest))

/-- The text of `v` as the rest of a list is read behind any elements. -/
def RereadsRest (settings : Settings) (v : Value) : Prop :=
  ∀ (n : Nat) (rest budget : List Char) (elements : List Value) (closed : Bool),
    v.nesting ≤ n → 0 < n → elements ≠ [] → (v.restChars ++ rest).length ≤ budget.length →
      Rereads v (Value.ofReversed elements) rest
        (readElements settings.comments (readDatum settings n) budget elements closed
          (v.restChars ++ rest))

theorem rereadsDatum_of_isAtom {v : Value} (hatom : v.IsAtom) (hv : v.Spelled) :
    RereadsDatum settings v := by
  intro n rest hn hrest
  obtain ⟨m, rfl⟩ := Nat.exists_eq_succ_of_ne_zero (Nat.ne_zero_of_lt hn)
  exact rereads_atom hatom hv m hrest

theorem rereadsRest_of_isAtom {v : Value} (hatom : v.IsAtom) (hv : v.Spelled) :
    RereadsRest settings v := by
  intro n rest budget elements closed _ hn helements hbudget
  obtain ⟨m, rfl⟩ := Nat.exists_eq_succ_of_ne_zero hn.ne'
  have hpos : 0 < (v.restChars ++ rest).length := by
    cases v <;> simp [Value.restChars]
  obtain ⟨b, budget, rfl⟩ := List.exists_cons_of_length_pos (hpos.trans_le hbudget)
  exact rereads_tail hatom hv m helements

section Pairs

variable {mark : Option Nat} {a d : Value} (hv : a.Spelled) (ha : RereadsDatum settings a)
  (hd : RereadsRest settings d)

include hv ha hd

theorem rereadsDatum_pair : RereadsDatum settings (.pair mark a d) := by
  intro n rest hn hrest
  obtain ⟨m, rfl⟩ := Nat.exists_eq_succ_of_ne_zero (Nat.ne_zero_of_lt hn)
  rw [Value.nesting] at hn
  have htext : (Value.pair mark a d).chars ++ rest = '(' :: (a.chars ++ (d.restChars ++ rest)) := by
    rw [Value.chars]
    simp
  have hitem := ha m (d.restChars ++ rest) (by omega) (delimited_restChars d rest)
  rw [htext]
  show Rereads _ (Value.ofReversed []) rest
    (readElements settings.comments (readDatum settings m) ('(' :: _) [] false _)
  refine rereads_element hv (skipTrivia_chars hv _) (.inl rfl) hitem fun w closes => ?_
  apply hd m rest _ [w] closes (by omega) (by omega) (List.cons_ne_nil w [])
  simp only [List.length_append]
  omega

theorem rereadsRest_pair : RereadsRest settings (.pair mark a d) := by
  intro n rest budget elements closed hn hpos helements hbudget
  rw [Value.nesting] at hn
  have htext :
      (Value.pair mark a d).restChars ++ rest = ' ' :: (a.chars ++ (d.restChars ++ rest)) := by
    rw [Value.restChars]
    simp
  rw [htext] at hbudget ⊢
  obtain ⟨b, budget, rfl⟩ := List.exists_cons_of_length_pos ((Nat.succ_pos _).trans_le hbudget)
  have hitem := ha n (d.restChars ++ rest) (by omega) (delimited_restChars d rest)
  have hskip : skipTrivia settings.comments (' ' :: (a.chars ++ (d.restChars ++ rest))) =
      a.chars ++ (d.restChars ++ rest) := by
    rw [skipTrivia_space, skipTrivia_chars hv]
  refine rereads_element hv hskip (.inr (startsTrivia_space _)) hitem fun w closes => ?_
  apply hd n rest budget (w :: elements) closes (by omega) hpos (List.cons_ne_nil w elements)
  simp only [List.length_cons, List.length_append] at hbudget ⊢
  omega

end Pairs

theorem rereads {v : Value} (hv : v.Spelled) :
    RereadsDatum settings v ∧ RereadsRest settings v := by
  -- The second part of a pair is written as the rest of a list, so both parts are needed at once.
  induction v with
  | pair mark a d iha ihd =>
    obtain ⟨ha, -⟩ := iha hv.1
    obtain ⟨-, hd⟩ := ihd hv.2
    exact ⟨rereadsDatum_pair hv.1 ha hd, rereadsRest_pair hv.1 ha hd⟩
  | closure => exact hv.elim
  | _ => exact ⟨rereadsDatum_of_isAtom trivial hv, rereadsRest_of_isAtom trivial hv⟩

/-! ## The round trip -/

/-- The text of a legible value that does not nest too deeply, read from its start. -/
theorem rereads_text {v : Value} (hv : v.Spelled) (hnesting : v.nesting < ({} : Settings).depth) :
    Rereads v id []
      (readDatum {} ({} : Settings).depth (skipTrivia true v.text.toList)) := by
  have hdatum : RereadsDatum {} v := (rereads hv).1
  have hchars : skipTrivia true (v.chars ++ []) = v.chars ++ [] := skipTrivia_chars hv []
  rw [Value.toList_text, ← List.append_nil v.chars, hchars]
  exact hdatum _ [] hnesting delimited_nil

/-- The text of a value is read back as an equal value exactly when the value is readable and nests
less deeply than the reader allows. -/
theorem reads_back_iff (v : Value) :
    (∃ w, readOne v.text = .ok w ∧ w.equal v = true) ↔
      v.Readable ∧ v.nesting < ({} : Settings).depth := by
  constructor
  · intro h
    obtain ⟨w, hread, hequal⟩ := h
    obtain ⟨p, hdatum, rfl, -⟩ := readOne_eq_ok_iff.1 hread
    obtain ⟨depth, t, hdepth, -, hw, -⟩ := readDatum_eq_ok_iff.1 hdatum
    have hdenotable := hw.denotable
    obtain ⟨hspelled, hnesting⟩ :=
      Value.spelled_of_equal hdenotable.unmarked hequal hdenotable.spelled
    have hle := hdenotable.nesting_le
    have hbound : v.nesting < ({} : Settings).depth := by omega
    refine ⟨?_, hbound⟩
    -- Now that `v` is known to be legible, its text cannot be read in two ways.
    obtain ⟨w', closes', hread', hw'⟩ | ⟨f, hread', -⟩ := rereads_text hspelled hbound
    · rw [hdatum] at hread'
      obtain rfl := Except.ok.inj hread'
      exact hw'.1 hequal
    · rw [hdatum] at hread'
      cases hread'
  · intro h
    obtain ⟨hreadable, hbound⟩ := h
    obtain ⟨w, closes, hread, hw⟩ | ⟨f, -, hunreadable⟩ := rereads_text hreadable.spelled hbound
    · exact ⟨w, readOne_eq_ok_iff.2 ⟨_, hread, rfl, rfl⟩, hw.2 hreadable⟩
    · exact absurd hreadable hunreadable

end SlotLisp
