import SlotLisp.Proofs.Reader.Extension

/-!
# Verdicts

A text that was cut short has a continuation that completes it: every unfinished literal, list and
tail is given one, and what completes a part completes the whole (`completable_readDatum`). With
what more text leaves unchanged this makes every verdict but "incomplete" final.
-/

namespace SlotLisp.Reader

variable {comments : Bool} {settings : Settings}

/-! ## What completes a text -/

/-- The text was cut short. -/
def Cut (R : Result) : Prop := ∃ f, R = .error f ∧ f.fault.kind = .incomplete

/-- A text that is cut short can be completed: with some more text the datum is read, and nothing
is left. -/
def Completable (read : List Char → Result) (s : List Char) : Prop :=
  Cut (read s) → ∃ u p, Breaks u ∧ read (s ++ u) = .ok p ∧ p.rest = []

theorem not_cut_ok (p : Parsed) : ¬ Cut (.ok p) := by
  rintro ⟨f, hf, -⟩
  cases hf

theorem not_cut_error {f : Failure} (h : f.fault.kind ≠ .incomplete) : ¬ Cut (.error f) := by
  rintro ⟨f', hf, hkind⟩
  cases hf
  exact h hkind

theorem completable_readCharacter (s : List Char) : Completable readCharacter s := by
  intro hcut
  unfold readCharacter at hcut
  split at hcut
  · exact absurd hcut (not_cut_ok _)
  · exact absurd hcut (not_cut_ok _)
  · exact ⟨['\n'], _, .intro _ (by decide) (by decide), rfl, rfl⟩

theorem completable_readHash (s : List Char) : Completable readHash s := by
  intro hcut
  unfold readHash at hcut
  split at hcut
  · exact completable_readCharacter _ hcut
  · exact absurd hcut (not_cut_ok _)
  · exact absurd hcut (not_cut_ok _)
  · exact absurd hcut (not_cut_error (by rintro ⟨⟩))
  · exact ⟨['\\', '\n'], _, .intro _ (by decide) (by decide), rfl, rfl⟩

theorem completable_readString (s : List Char) : Completable readString s := by
  intro hcut
  unfold readString at hcut
  split at hcut
  · exact absurd hcut (not_cut_ok _)
  · rename_i hdrop
    have hunquoted : '"' ∉ s := fun hmem => by
      simpa using List.dropWhile_eq_nil_iff.1 hdrop _ hmem
    exact ⟨['"'], _, .intro _ (by decide) (by decide), readString_of_unquoted [] hunquoted, rfl⟩

theorem not_cut_readNumber (s : List Char) : ¬ Cut (readNumber s) := by
  simp only [readNumber]
  split
  · split
    · exact not_cut_error (by rintro ⟨⟩)
    · exact not_cut_ok _
  · split
    · exact not_cut_ok _
    · exact not_cut_error (by rintro ⟨⟩)

theorem not_cut_readSymbol (s : List Char) : ¬ Cut (readSymbol s) := by
  simp only [readSymbol]
  split
  · exact not_cut_ok _
  · exact not_cut_error (by rintro ⟨⟩)

/-- A new line and a closing bracket. -/
def closing : List Char := ['\n', ')']

theorem breaks_closing : Breaks closing := .intro _ (by decide) (by decide)

theorem skipTrivia_closing {s : List Char} (hs : skipTrivia comments s = []) :
    skipTrivia comments (s ++ closing) = [')'] :=
  (skipTrivia_newline _ hs).trans (skipTrivia_of_not_starts (not_startsTrivia_paren _))

theorem skipTrivia_closing_self : skipTrivia comments closing = [')'] :=
  skipTrivia_closing (s := []) rfl

theorem Breaks.append {u : List Char} (hu : Breaks u) (t : List Char) : Breaks (u ++ t) := by
  obtain ⟨u, notInName, notPoint⟩ := hu
  exact .intro _ notInName notPoint

theorem Cut.of_bind {R : Result} {k : Parsed → Result} (h : Cut (R.bind k)) :
    Cut R ∨ ∃ p, R = .ok p ∧ Cut (k p) := by
  cases R with
  | error f => exact .inl h
  | ok p => exact .inr ⟨p, rfl, h⟩

theorem Cut.of_map {R : Result} {k : Parsed → Parsed} (h : Cut (R.map k)) : Cut R := by
  cases R with
  | error f => exact h
  | ok p => exact absurd h (not_cut_ok _)

theorem readDatum_zero (n : Nat) : readDatum settings (n + 1) ['0'] = .ok ⟨.int 0, false, []⟩ :=
  (readDatum_digit (by decide)).trans rfl

/-- A zero on the next line is the first thing behind nothing but trivia. -/
theorem skipTrivia_newline_zero {s : List Char} (u : List Char)
    (hs : skipTrivia comments s = []) :
    skipTrivia comments (s ++ '\n' :: '0' :: u) = '0' :: u :=
  (skipTrivia_newline _ hs).trans
    (skipTrivia_of_not_starts (not_startsTrivia_of_startsDatum _ _ (by decide)))

section Completion

variable {n : Nat}
  (hitem : ∀ s, Completable (fun s => readDatum settings n (skipTrivia settings.comments s)) s)

include hitem

/-- What completes an element of a list completes it in front of the closing bracket too. -/
theorem exists_element {s cs : List Char} {c : Char} (hs : skipTrivia settings.comments s = c :: cs)
    (hcut : Cut (readDatum settings n (c :: cs))) :
    ∃ u p, Breaks u ∧ readDatum settings n (c :: (cs ++ (u ++ closing))) = .ok p ∧
      p.rest = closing := by
  rw [← hs] at hcut
  obtain ⟨u, p, hu, hp, hrest⟩ := hitem s hcut
  simp only [skipTrivia_append_of_cons u hs] at hp
  have hread := readDatum_append breaks_closing hp
  rw [List.cons_append, List.append_assoc, hrest] at hread
  exact ⟨u, _, hu, hread, rfl⟩

theorem completable_readTail (hn : 0 < n) (elements : List Value) (s : List Char) :
    Completable (readTail settings.comments (readDatum settings n) elements) s := by
  intro hcut
  cases hs : skipTrivia settings.comments s with
  | nil =>
    obtain ⟨m, rfl⟩ := Nat.exists_eq_succ_of_ne_zero (Nat.ne_of_gt hn)
    have hzero : readDatum settings (m + 1) ('0' :: closing) = .ok ⟨.int 0, false, closing⟩ :=
      readDatum_append breaks_closing (readDatum_zero m)
    refine ⟨'\n' :: '0' :: closing, ⟨Value.ofReversed elements (.int 0), true, []⟩,
      .intro _ (by decide) (by decide), ?_, rfl⟩
    rw [readTail_cons (skipTrivia_newline_zero closing hs), hzero]
    exact closeTail_close skipTrivia_closing_self
  | cons c cs =>
    rw [readTail_cons hs] at hcut
    rcases hcut.of_bind with hcut | ⟨tail, htail, hcut⟩
    · obtain ⟨u, p, hu, hp, hrest⟩ := exists_element hitem hs hcut
      refine ⟨u ++ closing, ⟨Value.ofReversed elements p.value, true, []⟩, hu.append _, ?_, rfl⟩
      rw [readTail_cons (skipTrivia_append_of_cons _ hs), hp]
      exact closeTail_close (by rw [hrest, skipTrivia_closing_self])
    · have hend : skipTrivia settings.comments tail.rest = [] := by
        unfold closeTail at hcut
        split at hcut
        · exact absurd hcut (not_cut_ok _)
        · assumption
        · exact absurd hcut (not_cut_error (by rintro ⟨⟩))
      have htail' := readDatum_append breaks_closing htail
      rw [List.cons_append] at htail'
      refine ⟨closing, ⟨Value.ofReversed elements tail.value, true, []⟩, breaks_closing, ?_, rfl⟩
      rw [readTail_cons (skipTrivia_append_of_cons _ hs), htail']
      exact closeTail_close (skipTrivia_closing hend)

theorem completable_readList (elements : List Value) (closed : Bool) (s : List Char)
    (hn : elements ≠ [] → 0 < n) :
    Completable (readList settings.comments (readDatum settings n) elements closed) s := by
  intro hcut
  have hshortens := shortens_readDatum settings n
  induction hlength : s.length using Nat.strong_induction_on generalizing elements closed s with
  | _ length ih =>
    cases hs : skipTrivia settings.comments s with
    | nil =>
      exact ⟨closing, _, breaks_closing, readList_close (skipTrivia_closing hs), rfl⟩
    | cons c cs =>
      have hne : s ≠ [] := by
        rintro rfl
        cases hs
      -- What may stand behind `s` has no part in how the list goes on.
      have hgoes : ∀ u, readList settings.comments (readDatum settings n) elements closed (s ++ u) =
          _ := fun u => hshortens.readList_cons (skipTrivia_append_of_cons u hs)
      simp only [startsTrivia_append hne] at hgoes
      rw [hshortens.readList_cons hs] at hcut
      split at hcut
      · exact absurd hcut (not_cut_ok _)
      · rename_i hclose
        split at hcut
        · rename_i hdelimited
          split at hcut
          · rename_i hpoint
            have helements : elements ≠ [] := by simp_all
            obtain ⟨u, p, hu, hp, hrest⟩ :=
              completable_readTail hitem (hn helements) elements cs hcut
            refine ⟨u, p, hu, ?_, hrest⟩
            rw [hgoes, if_neg hclose, if_pos hdelimited, if_pos hpoint, hp]
          · rename_i hpoint
            rcases hcut.of_bind with hcut | ⟨p, hp, hcut⟩
            · obtain ⟨u, p, hu, hp, hrest⟩ := exists_element hitem hs hcut
              refine ⟨u ++ closing, ⟨Value.ofReversed (p.value :: elements) .nil, true, []⟩,
                hu.append _, ?_, rfl⟩
              rw [hgoes, if_neg hclose, if_pos hdelimited, if_neg hpoint, hp]
              exact readList_close (by rw [hrest, skipTrivia_closing_self])
            · have hshorter := hshortens.length_lt hs hp
              have hlevel : 0 < n := Nat.pos_of_ne_zero (by rintro rfl; cases hp)
              obtain ⟨u, q, hu, hq, hrest⟩ :=
                ih _ (hlength ▸ hshorter) _ _ _ (fun _ => hlevel) hcut rfl
              have hp' := readDatum_append hu hp
              rw [List.cons_append] at hp'
              refine ⟨u, q, hu, ?_, hrest⟩
              rw [hgoes, if_neg hclose, if_pos hdelimited, if_neg hpoint, hp']
              exact hq
        · exact absurd hcut (not_cut_error (by rintro ⟨⟩))

end Completion

/-- Behind trivia. If there is nothing else, a zero on the next line is a datum. -/
theorem completable_skipped {n : Nat} (h : ∀ s ≠ [], Completable (readDatum settings n) s)
    (s : List Char) :
    Completable (fun s => readDatum settings n (skipTrivia settings.comments s)) s := by
  intro hcut
  cases hs : skipTrivia settings.comments s with
  | nil =>
    cases n with
    | zero => exact absurd hcut (not_cut_error (by rintro ⟨⟩))
    | succ n =>
      refine ⟨['\n', '0'], ⟨.int 0, false, []⟩, .intro _ (by decide) (by decide), ?_, rfl⟩
      simp only [skipTrivia_newline_zero [] hs]
      exact readDatum_zero n
  | cons c cs =>
    simp only [hs] at hcut
    obtain ⟨u, p, hu, hp, hrest⟩ := h _ (List.cons_ne_nil c cs) hcut
    refine ⟨u, p, hu, ?_, hrest⟩
    simp only [skipTrivia_append_of_cons u hs]
    exact hp

theorem completable_readDatum (settings : Settings) (n : Nat) :
    ∀ s ≠ [], Completable (readDatum settings n) s := by
  induction n with
  | zero => exact fun s _ hcut => absurd hcut (not_cut_error (by rintro ⟨⟩))
  | succ n ih =>
    intro s
    have hskipped := completable_skipped ih
    refine readDatum_cases (motive := fun s R => s ≠ [] → Cut R →
      ∃ u p, Breaks u ∧ readDatum settings (n + 1) (s ++ u) = .ok p ∧ p.rest = [])
      ?nil ?quote ?hash ?string ?list ?number ?symbol s
    case nil => exact fun hnil => absurd rfl hnil
    case quote =>
      intro cs _ hcut
      obtain ⟨u, p, hu, hp, hrest⟩ := hskipped cs hcut.of_map
      exact ⟨u, p.quote, hu, congrArg (Except.map Parsed.quote) hp, hrest⟩
    case hash => exact fun cs _ => completable_readHash cs
    case string => exact fun cs _ => completable_readString cs
    case list => exact fun cs _ => completable_readList hskipped [] false cs (absurd rfl)
    case number => exact fun c cs _ _ hcut => absurd hcut (not_cut_readNumber _)
    case symbol => exact fun c cs _ _ hcut => absurd hcut (not_cut_readSymbol _)

/-! ## Reading -/

/-- What is read next. -/
def next (r : Reader) : Result := readDatum r.settings r.settings.depth r.ahead

theorem read_eq_ok {r : Reader} {p : Parsed} (h : r.next = .ok p) :
    r.read = (.ok p.value, { r with rest := p.rest }) := by
  unfold next at h
  simp only [read, h]

theorem read_eq_error {r : Reader} {f : Failure} (h : r.next = .error f) :
    r.read = (.error (f.locate r.source), r) := by
  unfold next at h
  simp only [read, h]

/-- What more lines do to the datum or failure in front of them, whatever text they are part of. -/
theorem extends_next (r : Reader) (source t : List Char) :
    Extends ('\n' :: t) r.next (next ⟨source, r.rest ++ '\n' :: t, r.settings⟩) :=
  extends_skipped (extends_readDatum (.intro t (by decide) (by decide)) _ _) r.rest

theorem next_lines {r : Reader} {p : Parsed} (h : r.next = .ok p) (source t : List Char) :
    next ⟨source, r.rest ++ '\n' :: t, r.settings⟩ =
      .ok { p with rest := p.rest ++ '\n' :: t } := by
  have hextends := extends_next r source t
  rw [h] at hextends
  generalize next _ = R at hextends
  cases hextends
  rfl

theorem next_lines_error {r : Reader} {f : Failure} (h : r.next = .error f)
    (hkind : f.fault.kind ≠ .incomplete) (source t : List Char) :
    ∃ f' : Failure, f'.fault = f.fault ∧
      next ⟨source, r.rest ++ '\n' :: t, r.settings⟩ = .error f' := by
  have hextends := extends_next r source t
  rw [h] at hextends
  generalize next _ = R at hextends
  cases hextends with
  | fault same => exact ⟨_, same, rfl⟩
  | cut incomplete => exact absurd incomplete hkind

/-- A text whose reading succeeds is read the same with more lines behind it, and one whose reading
fails fails the same way, unless the error says that the text is incomplete: then some more text
makes the reading succeed. -/
theorem verdicts_are_final (settings : Settings) (s : String) :
    (∀ v r, (ofString s settings).read = (.ok v, r) → ∀ t, ∃ r',
      (ofString (s ++ "\n" ++ t) settings).read = (.ok v, r') ∧
        r'.remaining = r.remaining ++ "\n" ++ t) ∧
    (∀ e r, (ofString s settings).read = (.error e, r) → e.kind ≠ .incomplete → ∀ t, ∃ e' r',
      (ofString (s ++ "\n" ++ t) settings).read = (.error e', r') ∧
        e'.kind = e.kind ∧ e'.literal? = e.literal? ∧ e'.message = e.message) ∧
    (∀ e r, (ofString s settings).read = (.error e, r) → e.kind = .incomplete → ∃ t v r',
      (ofString (s ++ t) settings).read = (.ok v, r')) := by
  have hlines (t : String) : ofString (s ++ "\n" ++ t) settings =
      ⟨(s ++ "\n" ++ t).toList, s.toList ++ '\n' :: t.toList, settings⟩ := by
    simp [ofString]
  cases hnext : (ofString s settings).next with
  | ok p =>
    rw [read_eq_ok hnext]
    refine ⟨?_, by rintro e r ⟨⟩, by rintro e r ⟨⟩⟩
    rintro v r ⟨⟩ t
    refine ⟨_, hlines t ▸ read_eq_ok (next_lines hnext (s ++ "\n" ++ t).toList t.toList), ?_⟩
    simp [remaining, String.append_assoc]
  | error f =>
    rw [read_eq_error hnext]
    refine ⟨by rintro v r ⟨⟩, ?_, ?_⟩
    · rintro e r ⟨⟩ hkind t
      obtain ⟨f', same, hnext'⟩ :=
        next_lines_error hnext hkind (s ++ "\n" ++ t).toList t.toList
      refine ⟨_, _, hlines t ▸ read_eq_error hnext', ?_⟩
      exact ⟨congrArg ReadFault.kind same, congrArg ReadFault.literal? same,
        congrArg ReadFault.message same⟩
    · rintro e r ⟨⟩ hkind
      have hcompletable := completable_skipped (completable_readDatum settings settings.depth)
      obtain ⟨u, p, -, hp, -⟩ := hcompletable s.toList ⟨f, hnext, hkind⟩
      refine ⟨String.ofList u, p.value, _, read_eq_ok (r := ofString _ settings) ?_⟩
      simpa [next, ahead, ofString] using hp

/-- A text of each kind: a datum, a fault, and a list that is still open. -/
theorem verdicts_on_three_texts :
    (∃ r, (ofString ("a" ++ "\n" ++ ")")).read = (.ok (.symbol "a"), r) ∧
      r.remaining = "" ++ "\n" ++ ")") ∧
    (∃ e r, (ofString ("#x" ++ "\n" ++ ")")).read = (.error e, r) ∧
      e.kind = .invalidSyntax ∧ e.literal? = some .boolean ∧
        e.message = (ReadFault.unknownBoolean 'x').message) ∧
    ∃ t v r, (ofString ("(a" ++ t)).read = (.ok v, r) := by
  refine ⟨?_, ?_, ?_⟩
  · exact (verdicts_are_final {} "a").1 _ _ rfl ")"
  · exact (verdicts_are_final {} "#x").2.1 _ _ rfl (by decide) ")"
  · exact (verdicts_are_final {} "(a").2.2 _ _ rfl rfl

end SlotLisp.Reader
