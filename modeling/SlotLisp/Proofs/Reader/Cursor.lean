import SlotLisp.Proofs.Reader.Pieces

/-!
# The cursor of a reader

Whatever is asked of a reader, it stands at an end of its source. A successful reading moves it
forward over a text that holds the datum by itself (`next_of_removed`): what stands behind a datum
never has a part in it. Reading all data is reading one after the other until only trivia is left.
-/

namespace SlotLisp.Reader

variable {comments : Bool}

/-! ## Data without the text behind them -/

theorem mem_head?_of_start {s rest : List Char} (hs : s <+: rest) {c : Char} (hc : c ∈ s.head?) :
    c ∈ rest.head? := by
  obtain ⟨u, rfl⟩ := hs
  cases s with
  | nil => cases hc
  | cons d s => exact hc

theorem Trivia.truncate {w rest s : List Char} (h : Trivia comments w rest) (hs : s <+: rest) :
    Trivia comments w s := by
  induction h with
  | none => exact .none s
  | blank isBlank _ ih => exact .blank isBlank (ih hs)
  | @comment body w rest enabled inLine ends _ ih =>
    refine .comment enabled inLine (fun c hc => ends c ?_) (ih hs)
    exact mem_head?_of_start ((List.prefix_append_right_inj w).2 hs) hc

theorem LongestRun.truncate {inClass : Char → Bool} {run rest s : List Char}
    (h : LongestRun inClass run rest) (hs : s <+: rest) : LongestRun inClass run s :=
  ⟨h.all, fun c hc => h.stops c (mem_head?_of_start hs hc)⟩

theorem Atom.truncate {t rest s : List Char} {v : Value} (h : Atom t rest v) (hs : s <+: rest) :
    Atom t s v := by
  cases h with
  | namedCharacter _ named => exact .namedCharacter s named
  | @character c _ unnamed =>
    refine .character fun entry hentry hprefix => unnamed entry hentry ?_
    exact hprefix.trans ((List.prefix_cons_inj c).2 hs)
  | boolTrue => exact .boolTrue s
  | boolFalse => exact .boolFalse s
  | string _ unquoted => exact .string s unquoted
  | @float whole fraction _ hwhole hfraction wholeRun fractionRun =>
    refine .float hwhole hfraction (wholeRun.truncate ?_) (fractionRun.truncate hs)
    exact (List.prefix_append_right_inj ('.' :: fraction)).2 hs
  | integer nonempty run noPoint value =>
    exact .integer nonempty (run.truncate hs) (fun h => noPoint (mem_head?_of_start hs h)) value
  | symbol run isName => exact .symbol (run.truncate hs) isName

/-- A datum is that datum too when the text behind it is cut off at any point. -/
theorem Datum.truncate {depth : Nat} {t rest s : List Char} {v : Value}
    (h : Datum comments depth t rest v) (hs : s <+: rest) : Datum comments depth t s v := by
  have hbehind (u : List Char) {s rest : List Char} (hs : s <+: rest) : u ++ s <+: u ++ rest :=
    (List.prefix_append_right_inj u).2 hs
  revert s
  refine @Datum.rec comments
    (fun depth t rest v _ => ∀ {s}, s <+: rest → Datum comments depth t s v)
    (fun closed depth u rest vs tail _ => ∀ {s}, s <+: rest →
      Following comments closed depth u s vs tail)
    ?atom ?quote ?empty ?list ?close ?dotted ?element depth t rest v h
  case atom => exact fun h _ hs => .atom (h.truncate hs)
  case quote => exact fun trivia _ ih _ hs => .quote (trivia.truncate (hbehind _ hs)) (ih hs)
  case empty => exact fun trivia _ hs => .empty (trivia.truncate (hbehind [')'] hs))
  case list =>
    exact fun trivia _ _ ihFirst ihOthers _ hs =>
      .list (trivia.truncate (hbehind _ hs)) (ihFirst (hbehind _ hs)) (ihOthers hs)
  case close => exact fun trivia _ hs => .close (trivia.truncate (hbehind [')'] hs))
  case dotted =>
    intro _ _ w w' t w'' rest tail trivia delimited trivia' _ trivia'' ihLast s hs
    have hclose : ')' :: s <+: ')' :: rest := hbehind [')'] hs
    exact .dotted (trivia.truncate (hbehind _ hclose)) delimited
      (trivia'.truncate (hbehind _ hclose)) (ihLast (hbehind _ hclose)) (trivia''.truncate hclose)
  case element =>
    exact fun trivia delimited _ _ ihNext ihOthers _ hs =>
      .element (trivia.truncate (hbehind _ hs)) delimited (ihNext (hbehind _ hs)) (ihOthers hs)

/-- The text that a reading passes over holds the datum by itself. -/
theorem next_of_removed {r : Reader} {p : Parsed} (h : r.next = .ok p) :
    ∃ removed, r.rest = removed ++ p.rest ∧ ∀ source,
      next ⟨source, removed, r.settings⟩ = .ok { p with rest := [] } := by
  obtain ⟨depth, t, hdepth, hahead, hdatum, hcloses⟩ := readDatum_eq_ok_iff.1 h
  obtain ⟨w, hrest, trivia⟩ := exists_trivia r.settings.comments r.rest
  change r.rest = w ++ r.ahead at hrest
  change Trivia r.settings.comments w r.ahead at trivia
  rw [hahead] at hrest trivia
  refine ⟨w ++ t, by rw [hrest, List.append_assoc], fun source => ?_⟩
  have halone : Datum r.settings.comments depth t [] p.value := hdatum.truncate List.nil_prefix
  have hskip : ahead ⟨source, w ++ t, r.settings⟩ = t := by
    have trivia' : Trivia r.settings.comments w t :=
      trivia.truncate (List.prefix_append t p.rest)
    obtain ⟨c, cs, rfl, hc⟩ := hdatum.startsDatum
    exact trivia'.skip_eq (not_startsTrivia_of_startsDatum _ _ hc)
  rw [next, hskip]
  exact readDatum_eq_ok_iff.2 ⟨depth, t, hdepth, (List.append_nil t).symm, halone, hcloses⟩

/-! ## One datum after the other -/

/-- Successful readings, one after the other, with their data. -/
inductive Reads : Reader → List Value → Reader → Prop
  | none (r : Reader) : Reads r [] r
  | datum {r r' r'' : Reader} {v : Value} {vs : List Value} (first : r.read = (.ok v, r'))
      (others : Reads r' vs r'') : Reads r (v :: vs) r''

theorem read_cases (r : Reader) :
    (∃ p, r.next = .ok p ∧ r.read = (.ok p.value, { r with rest := p.rest })) ∨
      ∃ f, r.next = .error f ∧ r.read = (.error (f.locate r.source), r) := by
  cases h : r.next with
  | ok p => exact .inl ⟨p, rfl, read_eq_ok h⟩
  | error f => exact .inr ⟨f, rfl, read_eq_error h⟩

theorem next_of_read {r r' : Reader} {v : Value} (h : r.read = (.ok v, r')) :
    ∃ p, r.next = .ok p ∧ v = p.value ∧ r' = { r with rest := p.rest } := by
  obtain ⟨p, hp, hread⟩ | ⟨f, -, hread⟩ := r.read_cases
  · rw [hread] at h
    cases h
    exact ⟨p, hp, rfl, rfl⟩
  · rw [hread] at h
    cases h

theorem isExhausted_of_next {r : Reader} {p : Parsed} (h : r.next = .ok p) :
    r.isExhausted = false := by
  rw [isExhausted_eq_false_iff]
  intro hnil
  have hshorter := shortens_readDatum r.settings _ _ p h
  rw [hnil] at hshorter
  cases hshorter

theorem readAllWithin_of_reads {r r' : Reader} {vs : List Value} (h : Reads r vs r')
    {budget : List Char} (seen : List Value) (hbudget : r.rest.length ≤ budget.length) :
    ∃ budget' : List Char, r'.rest.length ≤ budget'.length ∧
      readAllWithin budget seen r = readAllWithin budget' (vs.reverse ++ seen) r' := by
  induction h generalizing budget seen with
  | none r => exact ⟨budget, hbudget, rfl⟩
  | datum first _ ih =>
    obtain ⟨p, hp, rfl, rfl⟩ := next_of_read first
    have hshorter := length_rest_lt hp
    obtain ⟨b, budget, rfl⟩ := List.exists_cons_of_length_pos (show 0 < budget.length by omega)
    rw [List.length_cons] at hbudget
    have hbudget : ({ r with rest := p.rest } : Reader).rest.length ≤ budget.length := by
      simp only
      omega
    obtain ⟨budget', hbudget', heq⟩ := ih (p.value :: seen) hbudget
    refine ⟨budget', hbudget', ?_⟩
    rw [readAllWithin_of_datum (isExhausted_of_next hp) hp, heq]
    simp

/-- The readings come to an end: only trivia is left, or one of them fails. -/
theorem exists_reads (r : Reader) : ∃ vs r', Reads r vs r' ∧
    (r'.isExhausted = true ∨ r'.isExhausted = false ∧ ∃ e, r'.read = (.error e, r')) := by
  induction r using readLoop_induction with
  | exhausted r h => exact ⟨[], r, .none r, .inl h⟩
  | failure r f h hf => exact ⟨[], r, .none r, .inr ⟨h, _, read_eq_error hf⟩⟩
  | datum r p _ hp ih =>
    obtain ⟨vs, r', hreads, hend⟩ := ih
    exact ⟨p.value :: vs, r', .datum (read_eq_ok hp) hreads, hend⟩

theorem readAll_of_reads {r r' : Reader} {vs : List Value} (h : Reads r vs r') :
    (r'.isExhausted = true → r.readAll = (.ok vs, r')) ∧
    ∀ e, r'.isExhausted = false → r'.read = (.error e, r') → r.readAll = (.error e, r') := by
  obtain ⟨budget, hbudget, heq⟩ := readAllWithin_of_reads h [] (Nat.le_refl _)
  rw [readAll, heq]
  refine ⟨fun hexhausted => ?_, fun e hexhausted hfails => ?_⟩
  · rw [readAllWithin_of_exhausted hexhausted]
    simp
  · obtain ⟨b, budget, rfl⟩ := List.exists_cons_of_length_pos
      (Nat.lt_of_lt_of_le (List.length_pos_iff.2 (rest_ne_nil hexhausted)) hbudget)
    simp only [readAllWithin, hexhausted, hfails]
    rfl

theorem readAll_eq_ok_iff {r r' : Reader} {vs : List Value} :
    r.readAll = (.ok vs, r') ↔ Reads r vs r' ∧ r'.isExhausted = true := by
  refine ⟨fun h => ?_, fun h => (readAll_of_reads h.1).1 h.2⟩
  obtain ⟨ws, r'', hreads, hend | ⟨hmore, e, hfails⟩⟩ := r.exists_reads
  · rw [(readAll_of_reads hreads).1 hend] at h
    cases h
    exact ⟨hreads, hend⟩
  · rw [(readAll_of_reads hreads).2 e hmore hfails] at h
    cases h

theorem readAll_eq_error_iff {r r' : Reader} {e : ReadError} :
    r.readAll = (.error e, r') ↔
      (∃ vs, Reads r vs r') ∧ r'.isExhausted = false ∧ r'.read = (.error e, r') := by
  refine ⟨fun h => ?_, fun ⟨⟨_, hreads⟩, hmore, hfails⟩ =>
    (readAll_of_reads hreads).2 e hmore hfails⟩
  obtain ⟨vs, r'', hreads, hend | ⟨hmore, e', hfails⟩⟩ := r.exists_reads
  · rw [(readAll_of_reads hreads).1 hend] at h
    cases h
  · rw [(readAll_of_reads hreads).2 e' hmore hfails] at h
    cases h
    exact ⟨⟨vs, hreads⟩, hmore, hfails⟩

/-! ## Sequences of calls -/

/-- What may be asked of a reader. -/
inductive Call
  | read
  | readAll
  | isExhausted

/-- The reader that a call leaves. -/
def Call.leaves (r : Reader) : Call → Reader
  | read => r.read.2
  | readAll => r.readAll.2
  | isExhausted => r

def after (r : Reader) (calls : List Call) : Reader := calls.foldl Call.leaves r

/-- The reader walks over this source with these settings, and stands at an end of it. What is left
behind trivia, behind a datum at any level or from a failure on is no longer than the text that it
is left of, so the difference of their lengths is a place in that text. -/
structure StandsIn (source : List Char) (settings : Settings) (r : Reader) : Prop where
  sameSource : r.source = source
  sameSettings : r.settings = settings
  suffix : r.rest <:+ source
  ahead : byteLength r.ahead ≤ byteLength source
  place : ∀ f, r.next = .error f → byteLength f.rest ≤ byteLength source
  parts : ∀ levels s, byteLength (restOf (readDatum settings levels s)) ≤ byteLength s

/-- What the calls of a reader do to it. -/
structure Advances (r : Reader) : Prop where
  success : ∀ v r', r.read = (.ok v, r') → r'.rest.length < r.rest.length ∧
    ∃ p : String, r.remaining = p ++ r'.remaining ∧
      (ofString p r.settings).read = (.ok v, { ofString p r.settings with rest := [] })
  failure : ∀ e r', r.read = (.error e, r') → r' = r
  ends : ∃ vs r', Reads r vs r' ∧
    (r'.isExhausted = true ∨ r'.isExhausted = false ∧ ∃ e, r'.read = (.error e, r'))
  all : ∀ vs r', r.readAll = (.ok vs, r') ↔ Reads r vs r' ∧ r'.isExhausted = true
  allFails : ∀ e r', r.readAll = (.error e, r') ↔
    (∃ vs, Reads r vs r') ∧ r'.isExhausted = false ∧ r'.read = (.error e, r')

theorem byteLength_le_of_suffix {s t : List Char} (h : s <:+ t) : byteLength s ≤ byteLength t := by
  obtain ⟨u, rfl⟩ := h
  rw [byteLength_append]
  exact Nat.le_add_left _ _

theorem standsIn_of_suffix {r : Reader} (h : r.rest <:+ r.source) :
    StandsIn r.source r.settings r := by
  refine ⟨rfl, rfl, h, byteLength_le_of_suffix ((skipTrivia_suffix _ _).trans h), fun f hf => ?_,
    fun levels s => byteLength_le_of_suffix (restOf_readDatum r.settings levels s)⟩
  have hplace := r.restOf_next
  rw [hf] at hplace
  exact byteLength_le_of_suffix (hplace.trans h)

/-- What is left by readings is an end of the same text. -/
theorem Reads.rest_suffix {r r' : Reader} {vs : List Value} (h : Reads r vs r') :
    r'.source = r.source ∧ r'.settings = r.settings ∧ r'.rest <:+ r.rest := by
  induction h with
  | none r => exact ⟨rfl, rfl, List.suffix_refl _⟩
  | @datum r _ _ _ _ first _ ih =>
    obtain ⟨p, hp, rfl, rfl⟩ := next_of_read first
    obtain ⟨hsource, hsettings, hrest⟩ := ih
    have hplace := r.restOf_next
    rw [hp] at hplace
    exact ⟨hsource, hsettings, hrest.trans hplace⟩

/-- Each call leaves what some successful readings leave. -/
theorem Call.exists_reads (r : Reader) (call : Call) : ∃ vs, Reads r vs (call.leaves r) := by
  cases call with
  | read =>
    obtain ⟨p, -, hread⟩ | ⟨f, -, hread⟩ := r.read_cases
    · refine ⟨[p.value], .datum hread ?_⟩
      rw [leaves, hread]
      exact .none _
    · refine ⟨[], ?_⟩
      rw [leaves, hread]
      exact .none r
  | readAll =>
    cases h : r.readAll with
    | mk R r' =>
      rw [leaves, h]
      cases R with
      | ok vs => exact ⟨vs, (readAll_eq_ok_iff.1 h).1⟩
      | error e => exact (readAll_eq_error_iff.1 h).1
  | isExhausted => exact ⟨[], .none r⟩

theorem standsIn_after {source : List Char} {settings : Settings} {r : Reader}
    (h : StandsIn source settings r) (calls : List Call) :
    StandsIn source settings (r.after calls) := by
  induction calls generalizing r with
  | nil => exact h
  | cons call calls ih =>
    obtain ⟨vs, hreads⟩ := call.exists_reads r
    obtain ⟨hsource, hsettings, hrest⟩ := hreads.rest_suffix
    have hsuffix : (call.leaves r).rest <:+ (call.leaves r).source := by
      rw [hsource, h.sameSource]
      exact hrest.trans h.suffix
    have hstands := standsIn_of_suffix hsuffix
    rw [hsource, hsettings, h.sameSource, h.sameSettings] at hstands
    exact ih hstands

theorem advances (r : Reader) : Advances r where
  success v r' h := by
    obtain ⟨p, hp, rfl, rfl⟩ := next_of_read h
    obtain ⟨removed, hrest, hremoved⟩ := next_of_removed hp
    refine ⟨length_rest_lt hp, String.ofList removed, ?_, ?_⟩
    · simp [remaining, hrest]
    · have hstart : ofString (String.ofList removed) r.settings =
          ⟨removed, removed, r.settings⟩ := by simp [ofString]
      rw [hstart]
      exact read_eq_ok (hremoved removed)
  failure e r' h := by
    obtain ⟨p, -, hread⟩ | ⟨f, -, hread⟩ := r.read_cases
    · rw [hread] at h
      cases h
    · rw [hread] at h
      cases h
      rfl
  ends := r.exists_reads
  all _ _ := readAll_eq_ok_iff
  allFails _ _ := readAll_eq_error_iff

/-- After any calls a reader stands at an end of its source, and the calls do what `Advances` says:
a reading that succeeds removes a text that holds its datum, one that fails removes nothing, and
reading all data is reading one after the other. -/
theorem calls_advance (source : String) (settings : Settings) (calls : List Call) :
    StandsIn source.toList settings ((ofString source settings).after calls) ∧
      Advances ((ofString source settings).after calls) :=
  ⟨standsIn_after (standsIn_of_suffix (r := ofString source settings) (List.suffix_refl _)) calls,
    advances _⟩

end SlotLisp.Reader
