import SlotLisp.Proofs.Reader.Cursor
import SlotLisp.Proofs.Reader.Image

/-!
# What the limit of nesting does

It only cuts off: under a lower limit a reading goes as under a higher one up to the first place
that lies too deep, and ends there (`CutsOff`). So what is read does not depend on the limit, and a
datum is read under exactly the limits above the depth of its deepest part (`NestsBelow`). Elements
and the tail of a list stand one level below it, however many they are.
-/

namespace SlotLisp.Reader

variable {comments : Bool} {limit : Nat}

/-! ## Lower and higher limits -/

/-- A result under `limit`, and the result with more levels: they are the same unless the first one
is that no level was left. -/
inductive CutsOff (limit : Nat) : Result → Result → Prop
  | same (result : Result) : CutsOff limit result result
  | tooDeep (s : List Char) (result : Result) :
      CutsOff limit (.error ⟨.tooDeep limit, s⟩) result

theorem CutsOff.bind {R R' : Result} {k k' : Parsed → Result} (h : CutsOff limit R R')
    (hk : ∀ p, CutsOff limit (k p) (k' p)) : CutsOff limit (R.bind k) (R'.bind k') := by
  cases h with
  | same =>
    cases R with
    | ok p => exact hk p
    | error f => exact .same _
  | tooDeep s => exact .tooDeep s _

theorem CutsOff.map {R R' : Result} (f : Parsed → Parsed) (h : CutsOff limit R R') :
    CutsOff limit (R.map f) (R'.map f) := by
  cases h with
  | same => exact .same _
  | tooDeep s => exact .tooDeep s _

section Lists

variable {item item' : List Char → Result} (hitem : ∀ s, CutsOff limit (item s) (item' s))

include hitem

theorem cutsOff_readTail (elements : List Value) (s : List Char) :
    CutsOff limit (readTail comments item elements s) (readTail comments item' elements s) := by
  cases hs : skipTrivia comments s with
  | nil =>
    rw [readTail_nil hs, readTail_nil hs]
    exact .same _
  | cons c cs =>
    rw [readTail_cons hs, readTail_cons hs]
    exact (hitem (c :: cs)).bind fun tail => .same _

theorem cutsOff_readElements (budget : List Char) (elements : List Value) (closed : Bool)
    (s : List Char) :
    CutsOff limit (readElements comments item budget elements closed s)
      (readElements comments item' budget elements closed s) := by
  induction budget generalizing elements closed s with
  | nil => exact .same _
  | cons b budget ih =>
    cases hs : skipTrivia comments s with
    | nil =>
      rw [readElements_nil hs, readElements_nil hs]
      exact .same _
    | cons c cs =>
      rw [readElements_cons hs, readElements_cons hs]
      split
      · exact .same _
      · split
        · split
          · exact cutsOff_readTail hitem elements cs
          · exact (hitem (c :: cs)).bind fun p => ih _ _ _
        · exact .same _

end Lists

theorem cutsOff_readDatum (settings settings' : Settings)
    (hcomments : settings'.comments = settings.comments) {n n' : Nat}
    (hn : n ≤ n') (s : List Char) :
    CutsOff settings.depth (readDatum settings n s) (readDatum settings' n' s) := by
  -- One level goes on both sides at once, so the lower side runs out first or neither does.
  induction n generalizing n' s with
  | zero => exact .tooDeep s _
  | succ n ih =>
    obtain ⟨n', rfl⟩ := Nat.exists_eq_add_one_of_ne_zero (Nat.ne_zero_of_lt hn)
    have hitem := fun s => ih (Nat.le_of_succ_le_succ hn) s
    refine readDatum_cases
      (motive := fun s R => CutsOff settings.depth R (readDatum settings' (n' + 1) s))
      ?nil ?quote ?hash ?string ?list ?number ?symbol s
    case nil => exact .same _
    case quote =>
      intro cs
      rw [← hcomments]
      exact (hitem _).map Parsed.quote
    case hash => exact fun cs => .same _
    case string => exact fun cs => .same _
    case list =>
      intro cs
      rw [← hcomments]
      exact cutsOff_readElements hitem ('(' :: cs) [] false cs
    case number =>
      intro c cs hc
      rw [readDatum_digit hc]
      exact .same _
    case symbol =>
      intro c cs hread
      rw [hread]
      exact .same _

/-! ## The least limit of a datum -/

/-- All data that `item` reads nest less than `n` levels. -/
def NestsBelow (comments : Bool) (n : Nat) (item : List Char → Result) : Prop :=
  ∀ (depth : Nat) (t rest : List Char) (v : Value) (p : Parsed),
    Datum comments depth t rest v → item (t ++ rest) = .ok p → depth < n

section Lists

variable {n : Nat} {item : List Char → Result} (hnests : NestsBelow comments n item)
  (hreads : ReadsBelow comments n item)

include hnests hreads

/-- A datum in front of what is left to do: it nests less than `n` levels, and is what was read. -/
theorem NestsBelow.of_bind {depth : Nat} {t rest : List Char} {v : Value} {p : Parsed}
    {k : Parsed → Result} (h : Datum comments depth t rest v)
    (hok : (item (t ++ rest)).bind k = .ok p) :
    depth < n ∧ k ⟨v, endsClosed t, rest⟩ = .ok p := by
  obtain ⟨q, hq, hk⟩ := exists_of_bind_eq_ok hok
  have hdepth := hnests _ _ _ _ _ h hq
  rw [hreads _ _ _ _ h hdepth] at hq
  cases hq
  exact ⟨hdepth, hk⟩

theorem NestsBelow.following (hn : 0 < n) {closed : Bool} {depth : Nat} {u rest : List Char}
    {vs : List Value} {tail : Value} (h : Following comments closed depth u rest vs tail)
    {budget : List Char} {elements : List Value} {p : Parsed} (helements : elements ≠ [])
    (hok : readElements comments item budget elements closed (u ++ rest) = .ok p) :
    depth < n := by
  induction vs generalizing closed depth u budget elements with
  | nil =>
    cases budget with
    | nil => cases hok
    | cons b budget =>
      cases h with
      | close => exact hn
      | @dotted _ _ w w' t w'' _ _ trivia delimited trivia' last trivia'' =>
        simp only [List.append_assoc, List.cons_append, List.nil_append] at trivia trivia' hok
        have hskip := trivia.skip_eq (not_startsTrivia_point _)
        rw [readElements_dot hskip helements (delimited.imp_left trivia.startsTrivia),
          readTail_found last.startsDatum trivia'] at hok
        exact (hnests.of_bind hreads last hok).1
  | cons v vs ih =>
    cases budget with
    | nil => cases hok
    | cons b budget =>
      cases h with
      | element trivia delimited next others =>
        rw [List.append_assoc] at trivia
        rw [List.append_assoc, List.append_assoc,
          readElements_found next.startsDatum trivia item (.inr delimited)] at hok
        obtain ⟨hdepth, hok⟩ := hnests.of_bind hreads next hok
        have hothers := ih others (List.cons_ne_nil _ _) hok
        exact Nat.max_lt.2 ⟨hdepth, hothers⟩

end Lists

theorem nestsBelow_readDatum (settings : Settings) (n : Nat) :
    NestsBelow settings.comments n (readDatum settings n) := by
  induction n with
  | zero =>
    intro depth t rest v p h hok
    cases hok
  | succ n ih =>
    intro depth t rest v p h hok
    cases h with
    | atom => exact Nat.succ_pos n
    | empty => exact Nat.succ_pos n
    -- Elements, tails and quoted data are all read with `n` levels, one less than the whole.
    | quote trivia quoted =>
      rw [List.append_assoc, List.cons_append, quoted.readDatum_quote trivia] at hok
      cases hquoted : readDatum settings n (_ ++ rest) with
      | error f =>
        rw [hquoted] at hok
        cases hok
      | ok q => exact Nat.succ_lt_succ (ih _ _ _ _ _ quoted hquoted)
    | @list depth depth' w t u _ _ _ _ trivia first others =>
      rw [List.append_assoc] at trivia
      rw [List.append_assoc, List.append_assoc, List.cons_append, readDatum_list,
        readElements_found first.startsDatum trivia _ (.inl rfl)] at hok
      have hreads := readsBelow_readDatum settings n
      obtain ⟨hdepth, hok⟩ := ih.of_bind hreads first hok
      have hpos := Nat.zero_lt_of_lt hdepth
      have hothers := ih.following hreads hpos others (List.cons_ne_nil _ _) hok
      exact Nat.succ_lt_succ (Nat.max_lt.2 ⟨hdepth, hothers⟩)

/-- Of a text there is one datum at most, and one depth of its deepest part. -/
theorem Datum.depth_le {depth depth' : Nat} {t rest : List Char} {v v' : Value}
    (h : Datum comments depth t rest v) (h' : Datum comments depth' t rest v') :
    depth ≤ depth' := by
  have hread := readsBelow_readDatum ⟨comments, 0⟩ _ _ _ _ _ h' (Nat.lt_succ_self depth')
  exact Nat.le_of_lt_succ (nestsBelow_readDatum ⟨comments, 0⟩ _ _ _ _ _ _ h hread)

/-! ## Long lists -/

/-- A datum by itself is that datum in front of text that goes on with no name and no number. -/
theorem Datum.extend {depth : Nat} {t u : List Char} {v : Value} (h : Datum comments depth t [] v)
    (hu : Breaks u) : Datum comments depth t u v := by
  have hread := readsBelow_readDatum ⟨comments, 0⟩ _ _ _ _ _ h (Nat.lt_succ_self depth)
  obtain ⟨depth', t', hdepth, ht, hdatum, -⟩ := readDatum_eq_ok_iff.1 (readDatum_append hu hread)
  simp only [List.append_nil, List.nil_append] at ht hdatum
  obtain rfl := List.append_cancel_right ht
  obtain rfl : depth' = depth :=
    Nat.le_antisymm (Nat.le_of_lt_succ hdepth) (h.depth_le (hdatum.truncate List.nil_prefix))
  exact hdatum

/-- A text that is trivia and a datum that nests less than `n` levels. -/
def Spells (comments : Bool) (n : Nat) (text : List Char) (v : Value) : Prop :=
  ∃ w t depth, text = w ++ t ∧ Trivia comments w t ∧ Datum comments depth t [] v ∧ depth < n

section Items

variable {n : Nat} {items : List (List Char × Value)}

/-- The texts of several data, each behind a blank. -/
def joined (items : List (List Char × Value)) : List Char :=
  items.flatMap fun item => ' ' :: item.1

theorem joined_cons (item : List Char × Value) :
    joined (item :: items) = ' ' :: item.1 ++ joined items := rfl

theorem breaks_joined (items : List (List Char × Value)) (rest : List Char) :
    Breaks (joined items ++ ')' :: rest) := by
  cases items with
  | nil => exact .intro rest (by decide) (by decide)
  | cons item items => exact .intro _ (by decide) (by decide)

/-- One of several data, with the blank in front. -/
theorem Spells.element {text u : List Char} {v : Value} (h : Spells comments n text v)
    (hu : Breaks u) : ∃ w t depth, ' ' :: text = w ++ t ∧ w ≠ [] ∧ Trivia comments w (t ++ u) ∧
      Datum comments depth t u v ∧ depth < n := by
  obtain ⟨w, t, depth, rfl, trivia, hdatum, hdepth⟩ := h
  refine ⟨' ' :: w, t, depth, rfl, List.cons_ne_nil _ _, ?_, hdatum.extend hu, hdepth⟩
  exact .blank (by decide) (trivia.extend fun hnil => absurd hnil hdatum.ne_nil)

theorem following_joined (hn : 0 < n) (hitems : ∀ item ∈ items, Spells comments n item.1 item.2)
    (closed : Bool) (rest : List Char) :
    ∃ depth < n, Following comments closed depth (joined items ++ [')']) rest
      (items.map Prod.snd) .nil := by
  induction items generalizing closed with
  | nil => exact ⟨0, hn, .close (w := []) (.none _)⟩
  | cons item items ih =>
    rw [List.forall_mem_cons] at hitems
    obtain ⟨w, t, depth, htext, hw, trivia, hdatum, hdepth⟩ :=
      hitems.1.element (breaks_joined items rest)
    obtain ⟨depth', hdepth', hothers⟩ := ih hitems.2 (endsClosed t)
    refine ⟨max depth depth', Nat.max_lt.2 ⟨hdepth, hdepth'⟩, ?_⟩
    rw [joined_cons, htext, List.append_assoc _ _ [')']]
    refine .element ?_ (.inl hw) ?_ hothers
    · simpa using trivia
    · simpa using hdatum

/-- A list takes one level more than its elements, however many these are. -/
theorem datum_joined (hitems : ∀ item ∈ items, Spells comments n item.1 item.2)
    (rest : List Char) :
    ∃ depth < n + 1, Datum comments depth ('(' :: joined items ++ [')']) rest
      (Value.ofList (items.map Prod.snd)) := by
  cases items with
  | nil => exact ⟨0, Nat.succ_pos n, .empty (w := []) (.none _)⟩
  | cons item items =>
    rw [List.forall_mem_cons] at hitems
    obtain ⟨w, t, depth, htext, -, trivia, hdatum, hdepth⟩ :=
      hitems.1.element (breaks_joined items rest)
    obtain ⟨depth', hdepth', hothers⟩ :=
      following_joined (Nat.zero_lt_of_lt hdepth) hitems.2 (endsClosed t) rest
    refine ⟨max depth depth' + 1, Nat.succ_lt_succ (Nat.max_lt.2 ⟨hdepth, hdepth'⟩), ?_⟩
    rw [joined_cons, htext, ← List.cons_append, ← List.cons_append, List.append_assoc _ _ [')']]
    refine .list ?_ ?_ hothers
    · simpa using trivia
    · simpa using hdatum

end Items

/-! ## Reading under a limit -/

/-- The same reader with another limit of nesting. -/
def withLimit (r : Reader) (limit : Nat) : Reader :=
  { r with settings := { r.settings with depth := limit } }

/-- The unread text is its longest trivia, the datum `t`, whose deepest part stands at `depth`, and
`rest`. -/
def HoldsDatum (r : Reader) (depth : Nat) (t rest : List Char) (v : Value) : Prop :=
  ∃ w, r.rest = w ++ t ++ rest ∧ LeadingTrivia r.settings.comments w (t ++ rest) ∧
    Datum r.settings.comments depth t rest v

section Readers

variable {r r' : Reader} {d d' depth : Nat} {t rest : List Char} {v : Value}

theorem read_withLimit_iff (r : Reader) (rest : List Char) :
    (r.withLimit d).read = (.ok v, withLimit { r with rest } d) ↔
      ∃ depth t, r.HoldsDatum depth t rest v ∧ depth < d := by
  refine (read_eq_ok_iff (r.withLimit d) v rest).trans ?_
  constructor
  · rintro ⟨w, t, depth, hr, hw, hdatum, hdepth⟩
    exact ⟨depth, t, ⟨w, hr, hw, hdatum⟩, hdepth⟩
  · rintro ⟨depth, t, ⟨w, hr, hw, hdatum⟩, hdepth⟩
    exact ⟨w, t, depth, hr, hw, hdatum, hdepth⟩

theorem HoldsDatum.lt_of_read (h : r.HoldsDatum depth t rest v) {v' : Value}
    (hread : (r.withLimit d).read = (.ok v', r')) : depth < d := by
  obtain ⟨w, hr, hw, hdatum⟩ := h
  obtain ⟨p, hp, -⟩ := next_of_read hread
  have hahead : (r.withLimit d).ahead = t ++ rest := by
    change skipTrivia r.settings.comments r.rest = t ++ rest
    rw [hr, List.append_assoc]
    exact (leadingTrivia_iff.1 hw).2
  rw [next, hahead] at hp
  exact nestsBelow_readDatum (r.withLimit d).settings d _ _ _ _ _ hdatum hp

/-- A lower limit changes nothing, or ends the reading. -/
theorem read_withLimit_of_le (h : d ≤ d') :
    (r.withLimit d').read = ((r.withLimit d).read.1, (r.withLimit d).read.2.withLimit d') ∨
      ∃ e, (r.withLimit d).read = (.error e, r.withLimit d) ∧ e.kind = .tooDeeplyNested := by
  have hcut : CutsOff d (r.withLimit d).next (r.withLimit d').next :=
    cutsOff_readDatum (r.withLimit d).settings (r.withLimit d').settings rfl h r.ahead
  generalize hnext : (r.withLimit d).next = R at hcut
  generalize hnext' : (r.withLimit d').next = R' at hcut
  cases hcut with
  | same =>
    left
    cases R with
    | ok p =>
      rw [read_eq_ok hnext, read_eq_ok hnext']
      rfl
    | error f =>
      rw [read_eq_error hnext, read_eq_error hnext']
      rfl
  | tooDeep s => exact .inr ⟨_, read_eq_error hnext, rfl⟩

theorem HoldsDatum.refused (h : r.HoldsDatum depth t rest v) (hd : d ≤ depth) :
    ∃ e, (r.withLimit d).read = (.error e, r.withLimit d) ∧ e.kind = .tooDeeplyNested := by
  refine (read_withLimit_of_le (Nat.le_succ_of_le hd)).resolve_left fun hsame => ?_
  rw [(read_withLimit_iff r rest).2 ⟨depth, t, h, Nat.lt_succ_self depth⟩, Prod.ext_iff] at hsame
  have hread : (r.withLimit d).read = (.ok v, (r.withLimit d).read.2) :=
    Prod.ext hsame.1.symm rfl
  exact Nat.not_lt.2 hd (h.lt_of_read hread)

theorem read_joined {items : List (List Char × Value)}
    (hitems : ∀ item ∈ items, (withLimit { r with rest := item.1 } d).read =
      (.ok item.2, withLimit { r with rest := [] } d)) (rest : List Char) :
    (withLimit { r with rest := '(' :: joined items ++ ')' :: rest } (d + 1)).read =
      (.ok (Value.ofList (items.map Prod.snd)), withLimit { r with rest } (d + 1)) := by
  have hspells : ∀ item ∈ items, Spells r.settings.comments d item.1 item.2 := by
    intro item hitem
    obtain ⟨depth, t, ⟨w, hr, hw, hdatum⟩, hdepth⟩ :=
      (read_withLimit_iff { r with rest := item.1 } []).1 (hitems item hitem)
    rw [List.append_nil] at hr hw
    exact ⟨w, t, depth, hr, hw.trivia, hdatum, hdepth⟩
  obtain ⟨depth, hdepth, hdatum⟩ := datum_joined hspells rest
  refine (read_withLimit_iff { r with rest := '(' :: joined items ++ ')' :: rest } rest).2
    ⟨depth, '(' :: joined items ++ [')'], ⟨[], ?_, ?_, hdatum⟩, hdepth⟩
  · simp
  · exact leadingTrivia_iff.2 ⟨.none _, hdatum.skip_eq (.none _)⟩

/-- Under a lower limit a reading goes as under a higher one or finds the text too deeply nested.
It finds so of a datum that can be read exactly when the limit is not above the depth of the
deepest part. So no value read nests as deep as the limit, and a list takes one level more than its
elements, however many these are. -/
theorem limit_only_cuts_off (r : Reader) :
    (∀ d d', d ≤ d' →
      (r.withLimit d').read = ((r.withLimit d).read.1, (r.withLimit d).read.2.withLimit d') ∨
      ∃ e, (r.withLimit d).read = (.error e, r.withLimit d) ∧ e.kind = .tooDeeplyNested) ∧
    (∀ d v r', (r.withLimit d).read = (.ok v, r') →
      v.nesting < d ∧ ∃ depth t, r.HoldsDatum depth t r'.rest v) ∧
    (∀ depth t rest v, r.HoldsDatum depth t rest v → ∀ d,
      (depth < d → (r.withLimit d).read = (.ok v, withLimit { r with rest } d)) ∧
      (d ≤ depth →
        ∃ e, (r.withLimit d).read = (.error e, r.withLimit d) ∧ e.kind = .tooDeeplyNested)) ∧
    ∀ (items : List (List Char × Value)) d rest,
      (∀ item ∈ items, (withLimit { r with rest := item.1 } d).read =
        (.ok item.2, withLimit { r with rest := [] } d)) →
      (withLimit { r with rest := '(' :: joined items ++ ')' :: rest } (d + 1)).read =
        (.ok (Value.ofList (items.map Prod.snd)), withLimit { r with rest } (d + 1)) := by
  refine ⟨fun d d' h => read_withLimit_of_le h, fun d v r' hread => ?_,
    fun depth t rest v h d => ⟨fun hd => ?_, h.refused⟩,
    fun items d rest hitems => read_joined hitems rest⟩
  · obtain ⟨p, -, rfl, rfl⟩ := next_of_read hread
    obtain ⟨depth, t, ⟨w, hr, hw, hdatum⟩, hdepth⟩ := (read_withLimit_iff r p.rest).1 hread
    exact ⟨Nat.lt_of_le_of_lt hdatum.denotable.nesting_le hdepth, depth, t, w, hr, hw, hdatum⟩
  · exact (read_withLimit_iff r rest).2 ⟨depth, t, h, hd⟩

end Readers

end SlotLisp.Reader
