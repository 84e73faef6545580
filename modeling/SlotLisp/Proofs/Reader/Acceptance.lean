import SlotLisp.Proofs.Reader.Steps

/-!
# Reading accepts exactly the grammar

Soundness follows the reader, by induction on the levels of nesting it still allows and, in a list,
on its budget. Completeness follows the derivation. Together they say what `Reader.read` returns
and leaves (`read_eq_ok_iff`).
-/

namespace SlotLisp.Reader

variable {comments : Bool} {settings : Settings}

/-! ## Texts of data -/

theorem Trivia.startsTrivia {w rest : List Char} (h : Trivia comments w rest) (hw : w ≠ []) :
    Reader.startsTrivia comments (w ++ rest) = true := by
  cases h with
  | none => exact absurd rfl hw
  | blank isBlank => simp [Reader.startsTrivia, isBlank]
  | comment enabled => simp [Reader.startsTrivia, enabled]

/-- Skipping trivia stops where a datum begins. -/
theorem Trivia.skip_eq {w s : List Char} {c : Char} (h : Trivia comments w (c :: s))
    (hc : Reader.startsTrivia comments (c :: s) = false) :
    skipTrivia comments (w ++ c :: s) = c :: s := by
  rw [skipTrivia_append h, skipTrivia_of_not_starts hc]

theorem not_startsTrivia_paren (s : List Char) : startsTrivia comments (')' :: s) = false := by
  have hblank : Text.isBlank ')' = false := by decide
  simp [startsTrivia, hblank]

theorem not_startsTrivia_point (s : List Char) : startsTrivia comments ('.' :: s) = false := by
  have hblank : Text.isBlank '.' = false := by decide
  simp [startsTrivia, hblank]

theorem Datum.startsDatum {depth : Nat} {t rest : List Char} {v : Value}
    (h : Datum comments depth t rest v) : ∃ c cs, t = c :: cs ∧ startsDatum c = true := by
  cases h with
  | atom h => exact h.startsDatum
  | _ => exact ⟨_, _, rfl, by decide⟩

theorem Datum.ne_nil {depth : Nat} {t rest : List Char} {v : Value}
    (h : Datum comments depth t rest v) : t ≠ [] := by
  obtain ⟨c, cs, rfl, -⟩ := h.startsDatum
  exact List.cons_ne_nil c cs

/-- Behind trivia a datum is found at once. -/
theorem Trivia.skip_datum {w t rest : List Char} (h : Trivia comments w (t ++ rest))
    (ht : ∃ c cs, t = c :: cs ∧ Reader.startsDatum c = true) :
    skipTrivia comments (w ++ (t ++ rest)) = t ++ rest := by
  obtain ⟨c, cs, rfl, hc⟩ := ht
  exact h.skip_eq (not_startsTrivia_of_startsDatum _ _ hc)

theorem Datum.skip_eq {depth : Nat} {w t rest : List Char} {v : Value}
    (h : Datum comments depth t rest v) (trivia : Trivia comments w (t ++ rest)) :
    skipTrivia comments (w ++ (t ++ rest)) = t ++ rest := trivia.skip_datum h.startsDatum

theorem Following.endsClosed_eq {closed : Bool} {depth : Nat} {u rest : List Char}
    {vs : List Value} {tail : Value} (h : Following comments closed depth u rest vs tail) :
    endsClosed u = true := by
  induction vs generalizing closed depth u with
  | nil => cases h <;> exact endsClosed_append_singleton _ ')'
  | cons v vs ih =>
    cases h with
    | element _ _ _ others =>
      have hu := ih others
      rw [endsClosed_append _ (by rintro rfl; cases hu), hu]

/-! ## Completeness -/

theorem Atom.read_eq {t rest : List Char} {v : Value} (h : Atom t rest v) (n : Nat) :
    readDatum settings (n + 1) (t ++ rest) = .ok ⟨v, endsClosed t, rest⟩ := by
  cases h with
  | namedCharacter _ named =>
    have hends : ∀ entry ∈ namedCharacters, endsClosed ('#' :: '\\' :: entry.1) = false := by decide
    rw [hends _ named]
    exact readCharacter_named named rest
  | @character c _ unnamed =>
    rw [show ['#', '\\', c] = ['#', '\\'] ++ [c] from rfl, endsClosed_append_singleton]
    exact readCharacter_unnamed unnamed
  | boolTrue => rfl
  | boolFalse => rfl
  | @string body _ unquoted =>
    rw [endsClosed_append_singleton, List.append_assoc]
    exact readString_of_unquoted rest unquoted
  | @float whole fraction _ hwhole hfraction wholeRun fractionRun =>
    rw [endsClosed_append _ (List.cons_ne_nil _ _), endsClosed_cons _ hfraction,
      endsClosed_of_run fractionRun (by decide) (by decide),
      ← readNumber_of_fraction hfraction wholeRun fractionRun]
    obtain ⟨c, cs, rfl⟩ := List.exists_cons_of_ne_nil hwhole
    exact readDatum_digit (wholeRun.all c List.mem_cons_self)
  | integer nonempty run noPoint value =>
    rw [endsClosed_of_run run (by decide) (by decide), ← readNumber_of_run run noPoint value]
    obtain ⟨c, cs, rfl⟩ := List.exists_cons_of_ne_nil nonempty
    exact readDatum_digit (run.all c List.mem_cons_self)
  | symbol run isName =>
    rw [endsClosed_of_run run (by decide) (by decide), ← readSymbol_of_run run isName]
    cases t with
    | nil => cases isName
    | cons c cs => exact readDatum_name isName

section Found

variable {w t rest : List Char} (ht : ∃ c cs, t = c :: cs ∧ startsDatum c = true)
  (trivia : Trivia comments w (t ++ rest))

include ht trivia

/-- The datum behind the dot. -/
theorem readTail_found (item : List Char → Result) (elements : List Value) :
    readTail comments item elements (w ++ (t ++ rest)) =
      (item (t ++ rest)).bind (closeTail comments elements) := by
  have hskip := trivia.skip_datum ht
  obtain ⟨c, cs, rfl, -⟩ := ht
  exact readTail_cons hskip

/-- One element more. -/
theorem readElements_found {b : Char} {budget : List Char} {elements : List Value}
    {closed : Bool} (item : List Char → Result)
    (delimited : elements = [] ∨ w ≠ [] ∨ closed = true ∨ startsOpen t = true) :
    readElements comments item (b :: budget) elements closed (w ++ (t ++ rest)) =
      (item (t ++ rest)).bind fun p =>
        readElements comments item budget (p.value :: elements) p.closes p.rest := by
  have hskip := trivia.skip_datum ht
  obtain ⟨c, cs, rfl, hc⟩ := ht
  have hopens : startsOpen (c :: cs) = true → opensItself c = true := fun h => by
    simpa [startsOpen] using h
  exact readElements_element hskip hc
    (delimited.imp_right (Or.imp trivia.startsTrivia (Or.imp_right hopens)))

end Found

theorem Datum.readDatum_quote {depth n : Nat} {w t rest : List Char} {v : Value}
    (h : Datum settings.comments depth t rest v)
    (trivia : Trivia settings.comments w (t ++ rest)) :
    readDatum settings (n + 1) ('\'' :: (w ++ (t ++ rest))) =
      (readDatum settings n (t ++ rest)).map Parsed.quote := by
  rw [readDatum, if_pos rfl, h.skip_eq trivia]

/-- `item` reads every datum that nests less than `n` levels. -/
def ReadsBelow (comments : Bool) (n : Nat) (item : List Char → Result) : Prop :=
  ∀ (depth : Nat) (t rest : List Char) (v : Value), Datum comments depth t rest v → depth < n →
    item (t ++ rest) = .ok ⟨v, endsClosed t, rest⟩

section Completeness

variable {n : Nat} {item : List Char → Result} (hitem : ReadsBelow comments n item)

include hitem

theorem ReadsBelow.readTail_eq {depth : Nat} {w t w' rest : List Char} {tail : Value}
    (trivia : Trivia comments w (t ++ w' ++ ')' :: rest))
    (last : Datum comments depth t (w' ++ ')' :: rest) tail)
    (trivia' : Trivia comments w' (')' :: rest)) (hdepth : depth < n) (elements : List Value) :
    readTail comments item elements (w ++ (t ++ (w' ++ ')' :: rest))) =
      .ok ⟨Value.ofReversed elements tail, true, rest⟩ := by
  have hread := hitem _ _ _ _ last hdepth
  rw [List.append_assoc] at trivia
  rw [readTail_found last.startsDatum trivia, hread]
  exact closeTail_close (trivia'.skip_eq (not_startsTrivia_paren rest))

theorem ReadsBelow.readElements_datum {depth : Nat} {w t rest : List Char} {v : Value}
    (trivia : Trivia comments w (t ++ rest)) (datum : Datum comments depth t rest v)
    (hdepth : depth < n) {b : Char} {budget : List Char} {elements : List Value} {closed : Bool}
    (delimited : elements = [] ∨ w ≠ [] ∨ closed = true ∨ startsOpen t = true) :
    readElements comments item (b :: budget) elements closed (w ++ (t ++ rest)) =
      readElements comments item budget (v :: elements) (endsClosed t) rest := by
  rw [readElements_found datum.startsDatum trivia item delimited, hitem _ _ _ _ datum hdepth]
  rfl

theorem ReadsBelow.readElements_eq {closed : Bool} {depth : Nat} {u rest : List Char}
    {vs : List Value} {tail : Value} (h : Following comments closed depth u rest vs tail)
    (hdepth : depth < n) {budget : List Char} (hbudget : (u ++ rest).length < budget.length)
    {elements : List Value} (helements : elements ≠ []) :
    readElements comments item budget elements closed (u ++ rest) =
      .ok ⟨Value.ofReversed elements (Value.ofListTail vs tail), true, rest⟩ := by
  induction vs generalizing closed depth u budget elements with
  | nil =>
    obtain ⟨b, budget, rfl⟩ := List.exists_cons_of_length_pos (Nat.zero_lt_of_lt hbudget)
    cases h with
    | @close _ w _ trivia =>
      rw [List.append_assoc]
      exact readElements_close (trivia.skip_eq (not_startsTrivia_paren rest))
    | @dotted _ _ w w' t w'' _ _ trivia delimited trivia' last trivia'' =>
      simp only [List.append_assoc, List.cons_append, List.nil_append] at trivia ⊢
      have hskip := trivia.skip_eq (not_startsTrivia_point _)
      rw [readElements_dot hskip helements (delimited.imp_left trivia.startsTrivia)]
      exact hitem.readTail_eq trivia' last trivia'' hdepth elements
  | cons v vs ih =>
    obtain ⟨b, budget, rfl⟩ := List.exists_cons_of_length_pos (Nat.zero_lt_of_lt hbudget)
    cases h with
    | @element _ depth depth' w t u _ _ _ _ trivia delimited next others =>
      have hlength : 0 < t.length := List.length_pos_iff.2 next.ne_nil
      simp only [List.length_append, List.length_cons] at hbudget
      rw [List.append_assoc] at trivia
      rw [List.append_assoc, List.append_assoc,
        hitem.readElements_datum trivia next (by omega) (.inr delimited),
        ih others (by omega) (by simp only [List.length_append]; omega) (List.cons_ne_nil _ _)]
      simp [Value.ofReversed]

end Completeness

theorem readsBelow_readDatum (settings : Settings) (n : Nat) :
    ReadsBelow settings.comments n (readDatum settings n) := by
  induction n with
  | zero => exact fun _ _ _ _ _ hn => absurd hn (Nat.not_lt_zero _)
  | succ n ih =>
    intro depth t rest v h hn
    cases h with
    | atom h => exact h.read_eq n
    | @quote depth w t _ v trivia quoted =>
      have hread := ih _ _ _ _ quoted (by omega)
      rw [endsClosed_append _ quoted.ne_nil, List.append_assoc, List.cons_append,
        quoted.readDatum_quote trivia, hread]
      rfl
    | @empty w _ trivia =>
      rw [endsClosed_append_singleton, List.append_assoc, List.cons_append]
      exact readElements_close (b := '(') (trivia.skip_eq (not_startsTrivia_paren rest))
    | @list depth depth' w t u _ v tail vs trivia first others =>
      have hends := others.endsClosed_eq
      have hlength : 0 < t.length := List.length_pos_iff.2 first.ne_nil
      rw [List.append_assoc] at trivia
      rw [endsClosed_append _ (by rintro rfl; cases hends), hends, List.append_assoc,
        List.append_assoc, List.cons_append, readDatum_list,
        ih.readElements_datum trivia first (by omega) (.inl rfl),
        ih.readElements_eq others (by omega) (by simp only [List.length_append]; omega)
          (List.cons_ne_nil _ _)]
      simp [Value.ofReversed]

/-! ## Soundness -/

/-- A result that a datum at the start of `s`, nesting less than `n` levels, accounts for. -/
def IsDatumOf (comments : Bool) (n : Nat) (s : List Char) (p : Parsed) : Prop :=
  ∃ depth t, depth < n ∧ s = t ++ p.rest ∧ Datum comments depth t p.rest p.value ∧
    p.closes = endsClosed t

/-- All that `item` returns is a datum that nests less than `n` levels. -/
def ReadsOnly (comments : Bool) (n : Nat) (item : List Char → Result) : Prop :=
  ∀ (s : List Char) (p : Parsed), item s = .ok p → IsDatumOf comments n s p

theorem IsAtomOf.isDatumOf {s : List Char} {p : Parsed} (h : IsAtomOf s p) (n : Nat) :
    IsDatumOf comments (n + 1) s p := by
  obtain ⟨t, hs, hatom, hcloses⟩ := h
  exact ⟨0, t, Nat.succ_pos n, hs, .atom hatom, hcloses⟩

/-- What one step of the list reader does when it succeeds: it closes the list, goes on to the
tail, or reads one element more. -/
theorem readElements_cases {item : List Char → Result} {b : Char} {budget : List Char}
    {elements : List Value} {closed : Bool} {s : List Char} {p : Parsed}
    (h : readElements comments item (b :: budget) elements closed s = .ok p) :
    ∃ w c cs, s = w ++ c :: cs ∧ Trivia comments w (c :: cs) ∧
      ((c = ')' ∧ p = ⟨Value.ofReversed elements .nil, true, cs⟩) ∨
       (c = '.' ∧ elements ≠ [] ∧ (w ≠ [] ∨ closed = true) ∧
          readTail comments item elements cs = .ok p) ∨
       ((elements = [] ∨ w ≠ [] ∨ closed = true ∨ opensItself c = true) ∧
          ∃ q, item (c :: cs) = .ok q ∧
            readElements comments item budget (q.value :: elements) q.closes q.rest = .ok p)) := by
  obtain ⟨w, hs, trivia⟩ := exists_trivia comments s
  have hnot := not_starts_skipTrivia comments s
  cases hskip : skipTrivia comments s with
  | nil =>
    rw [readElements_nil hskip] at h
    cases h
  | cons c cs =>
    rw [readElements_cons hskip] at h
    rw [hskip] at hs trivia hnot
    refine ⟨w, c, cs, hs, trivia, ?_⟩
    split at h
    · rename_i hc
      exact .inl ⟨hc, (Except.ok.inj h).symm⟩
    · split at h
      · rename_i hdelimited
        have hw : startsTrivia comments s = true → w ≠ [] := by
          rintro hstarts rfl
          rw [hs, List.nil_append, hnot] at hstarts
          cases hstarts
        have hdelimited : elements = [] ∨ w ≠ [] ∨ closed = true ∨ opensItself c = true := by
          simp only [Bool.or_eq_true, List.isEmpty_iff, or_assoc] at hdelimited
          exact hdelimited.imp_right (Or.imp_left hw)
        split at h
        · rename_i hpoint
          obtain ⟨rfl, helements⟩ : c = '.' ∧ elements ≠ [] := by simpa using hpoint
          have hdelimited := (hdelimited.resolve_left helements).imp_right
            fun hor => hor.resolve_right (by decide)
          exact .inr (.inl ⟨rfl, helements, hdelimited, h⟩)
        · obtain ⟨q, hq, h⟩ := exists_of_bind_eq_ok h
          exact .inr (.inr ⟨hdelimited, q, hq, h⟩)
      · cases h

section Soundness

variable {n : Nat} {item : List Char → Result} (hitem : ReadsOnly comments n item)

include hitem

theorem ReadsOnly.dotted_of_readTail {elements : List Value} {w cs : List Char} {closed : Bool}
    {p : Parsed} (trivia : Trivia comments w ('.' :: cs)) (delimited : w ≠ [] ∨ closed = true)
    (h : readTail comments item elements cs = .ok p) :
    ∃ depth u tail, depth < n ∧ w ++ '.' :: cs = u ++ p.rest ∧
      Following comments closed depth u p.rest [] tail ∧
      p.value = Value.ofReversed elements tail ∧ p.closes = true := by
  obtain ⟨w', hcs, trivia'⟩ := exists_trivia comments cs
  cases hskip : skipTrivia comments cs with
  | nil =>
    rw [readTail_nil hskip] at h
    cases h
  | cons c cs' =>
    rw [readTail_cons hskip] at h
    rw [hskip] at hcs trivia'
    obtain ⟨last, hlast, h⟩ := exists_of_bind_eq_ok h
    obtain ⟨depth, t, hdepth, ht, hdatum, -⟩ := hitem _ _ hlast
    obtain ⟨w'', hrest, trivia''⟩ := exists_trivia comments last.rest
    unfold closeTail at h
    split at h
    · rename_i rest hskip'
      obtain rfl := Except.ok.inj h
      rw [hskip'] at hrest trivia''
      rw [hrest] at ht hdatum
      rw [ht] at hcs trivia'
      rw [hcs] at trivia ⊢
      refine ⟨depth, w ++ '.' :: w' ++ t ++ w'' ++ [')'], last.value, hdepth, by simp,
        .dotted ?_ delimited ?_ hdatum trivia'', rfl, rfl⟩
      · simpa using trivia
      · simpa using trivia'
    · cases h
    · cases h

theorem ReadsOnly.following_of_readElements {budget : List Char} {elements : List Value}
    {closed : Bool} {s : List Char} {p : Parsed} (hn : 0 < n) (helements : elements ≠ [])
    (h : readElements comments item budget elements closed s = .ok p) :
    ∃ depth u vs tail, depth < n ∧ s = u ++ p.rest ∧
      Following comments closed depth u p.rest vs tail ∧
      p.value = Value.ofReversed elements (Value.ofListTail vs tail) ∧ p.closes = true := by
  induction budget generalizing elements closed s with
  | nil => cases h
  | cons b budget ih =>
    obtain ⟨w, c, cs, rfl, trivia, ⟨rfl, rfl⟩ | ⟨rfl, -, hdelimited, htail⟩ |
      ⟨hdelimited, q, hq, hrest⟩⟩ := readElements_cases h
    · exact ⟨0, w ++ [')'], [], .nil, hn, by simp, .close trivia, rfl, rfl⟩
    · obtain ⟨depth, u, tail, hdepth, hu, hfollowing, hvalue, hcloses⟩ :=
        hitem.dotted_of_readTail trivia hdelimited htail
      exact ⟨depth, u, [], tail, hdepth, hu, hfollowing, hvalue, hcloses⟩
    · obtain ⟨depth, t, hdepth, ht, hdatum, hends⟩ := hitem _ _ hq
      rw [hends] at hrest
      obtain ⟨depth', u, vs, tail, hdepth', hu, hothers, hvalue, hcloses⟩ :=
        ih (List.cons_ne_nil _ _) hrest
      have hopens : opensItself c = true → startsOpen t = true := by
        intro hc
        obtain ⟨c', cs', rfl, -⟩ := hdatum.startsDatum
        obtain ⟨rfl, -⟩ := List.cons.inj ht
        simpa [startsOpen] using hc
      rw [hu] at ht hdatum
      rw [ht] at trivia ⊢
      refine ⟨max depth depth', w ++ t ++ u, q.value :: vs, tail, by omega, by simp,
        .element (by simpa using trivia) ?_ hdatum hothers, ?_, hcloses⟩
      · exact (hdelimited.resolve_left helements).imp_right (Or.imp_right hopens)
      · rw [hvalue]
        simp [Value.ofReversed]

theorem ReadsOnly.list_of_readElements {b : Char} {budget cs : List Char} {p : Parsed}
    (h : readElements comments item (b :: budget) [] false cs = .ok p) :
    IsDatumOf comments (n + 1) ('(' :: cs) p := by
  obtain ⟨w, c, cs, rfl, trivia, ⟨rfl, rfl⟩ | ⟨-, hnil, -⟩ | ⟨-, q, hq, hrest⟩⟩ :=
    readElements_cases h
  · exact ⟨0, '(' :: w ++ [')'], Nat.succ_pos n, by simp, .empty trivia,
      (endsClosed_append_singleton _ ')').symm⟩
  · exact absurd rfl hnil
  · obtain ⟨depth, t, hdepth, ht, hdatum, hends⟩ := hitem _ _ hq
    rw [hends] at hrest
    obtain ⟨depth', u, vs, tail, hdepth', hu, hothers, hvalue, hcloses⟩ :=
      hitem.following_of_readElements (Nat.zero_lt_of_lt hdepth) (List.cons_ne_nil _ _) hrest
    have hu' := hothers.endsClosed_eq
    rw [hu] at ht hdatum
    rw [ht] at trivia ⊢
    have hlist := Datum.list (by simpa using trivia) hdatum hothers
    refine ⟨max depth depth' + 1, '(' :: w ++ t ++ u, by omega, by simp, ?_, ?_⟩
    · rw [hvalue]
      simpa [Value.ofReversed] using hlist
    · rw [endsClosed_append _ (by rintro rfl; cases hu'), hu', hcloses]

end Soundness

theorem readsOnly_readDatum (settings : Settings) (n : Nat) :
    ReadsOnly settings.comments n (readDatum settings n) := by
  induction n with
  | zero =>
    intro s p h
    cases h
  | succ n ih =>
    intro s
    refine readDatum_cases (motive := fun s R => ∀ p, R = .ok p →
      IsDatumOf settings.comments (n + 1) s p) ?nil ?quote ?hash ?string ?list ?number ?symbol s
    case nil =>
      intro p h
      cases h
    case quote =>
      intro cs p h
      obtain ⟨w, hcs, trivia⟩ := exists_trivia settings.comments cs
      cases hquoted : readDatum settings n (skipTrivia settings.comments cs) with
      | error e => simp [hquoted, Except.map] at h
      | ok q =>
        simp only [hquoted, Except.map] at h
        obtain rfl := Except.ok.inj h
        obtain ⟨depth, t, hdepth, ht, hdatum, hends⟩ := ih _ _ hquoted
        rw [ht] at hcs trivia
        refine ⟨depth + 1, '\'' :: w ++ t, by omega, ?_, .quote trivia hdatum, ?_⟩
        · rw [List.append_assoc, List.cons_append]
          exact congrArg ('\'' :: ·) hcs
        · rw [endsClosed_append _ hdatum.ne_nil]
          exact hends
    case hash => exact fun cs p h => (isAtomOf_of_readHash h).isDatumOf n
    case string => exact fun cs p h => (isAtomOf_of_readString h).isDatumOf n
    case list => exact fun cs p h => ih.list_of_readElements h
    case number => exact fun c cs hc p h => (isAtomOf_of_readNumber hc h).isDatumOf n
    case symbol => exact fun c cs _ p h => (isAtomOf_of_readSymbol h).isDatumOf n

/-! ## Reading -/

theorem readDatum_eq_ok_iff {n : Nat} {s : List Char} {p : Parsed} :
    readDatum settings n s = .ok p ↔ IsDatumOf settings.comments n s p := by
  constructor
  · exact readsOnly_readDatum settings n s p
  · intro h
    obtain ⟨depth, t, hdepth, hs, hdatum, hcloses⟩ := h
    rw [hs, readsBelow_readDatum settings n depth t p.rest p.value hdatum hdepth, ← hcloses]

/-- Reading returns `v` and leaves `rest` exactly when the unread text is its longest trivia, a
datum that denotes `v` and has its deepest part within the levels allowed, and `rest`. -/
theorem read_eq_ok_iff (r : Reader) (v : Value) (rest : List Char) :
    r.read = (.ok v, { r with rest := rest }) ↔
      ∃ w t depth, r.rest = w ++ t ++ rest ∧
        LeadingTrivia r.settings.comments w (t ++ rest) ∧
        Datum r.settings.comments depth t rest v ∧ depth < r.settings.depth := by
  constructor
  · intro h
    unfold read at h
    split at h
    · rename_i p hp
      obtain ⟨rfl, rfl⟩ : p.value = v ∧ p.rest = rest := by simpa using h
      obtain ⟨depth, t, hdepth, ht, hdatum, -⟩ := readDatum_eq_ok_iff.1 hp
      obtain ⟨w, hw, htrivia⟩ := exists_trivia r.settings.comments r.rest
      have hahead : skipTrivia r.settings.comments r.rest = t ++ p.rest := ht
      rw [hahead] at hw htrivia
      refine ⟨w, t, depth, by rw [hw, List.append_assoc], ?_, hdatum, hdepth⟩
      rw [leadingTrivia_iff, ← hw]
      exact ⟨htrivia, hahead⟩
    · simp at h
  · intro h
    obtain ⟨w, t, depth, hr, hleading, hdatum, hdepth⟩ := h
    have hahead : r.ahead = t ++ rest := by
      rw [ahead, hr, List.append_assoc]
      exact (leadingTrivia_iff.1 hleading).2
    have hread := readsBelow_readDatum r.settings _ depth t rest v hdatum hdepth
    unfold read
    rw [hahead, hread]

/-- A text that holds one datum, and nothing behind it but trivia, is read. -/
theorem readOne_eq_ok_iff {source : String} {v : Value} :
    readOne source = .ok v ↔ ∃ p,
      readDatum {} ({} : Settings).depth (skipTrivia true source.toList) = .ok p ∧ p.value = v ∧
        skipTrivia true p.rest = [] := by
  have hsettings : (ofString source).settings = {} := rfl
  have hahead : (ofString source).ahead = skipTrivia true source.toList := rfl
  have hexhausted : ∀ s rest, isExhausted ⟨s, rest, {}⟩ = true ↔ skipTrivia true rest = [] :=
    fun _ _ => List.isEmpty_iff
  unfold readOne read
  rw [hahead, hsettings]
  cases readDatum {} ({} : Settings).depth (skipTrivia true source.toList) with
  | error f => simp
  | ok p => by_cases h : skipTrivia true p.rest = [] <;> simp [hexhausted, h]

end SlotLisp.Reader
