import SlotLisp.Proofs.Reader.DepthLimit

/-!
# Gaps between the elements of lists

`Written` is a datum as it stands in a text, with the gaps between its parts. Whether it fits a text
has nothing to do with what separates its neighbours: that is decided in reading, which accepts it
exactly when all neighbours are delimited (`Holds.reads_iff`). Atoms other than strings are
delimited by a gap, or else by an atom in front that ends in a closing bracket or a double quote:
the literals of these two characters do.
-/

namespace SlotLisp.Reader

/-- An atom by itself. -/
structure Lexeme where
  text : List Char
  value : Value
  isAtom : Atom text [] value

mutual

/-- A datum as it is written. -/
inductive Written
  | atom (lexeme : Lexeme)
  | quote (gap : List Char) (quoted : Written)
  | empty (gap : List Char)
  | list (gap : List Char) (first : Written) (others : Others)

/-- What is written behind the first element of a list, up to the closing bracket. -/
inductive Others
  | close (gap : List Char)
  | dotted (gap gap' : List Char) (last : Written) (gap'' : List Char)
  | element (gap : List Char) (next : Written) (others : Others)

end

/-- An element of a list, and what comes next in it but for the closing bracket: an element again,
or the dot in front of the tail. -/
structure Neighbours where
  before : Written
  gap : List Char
  after? : Option Written

mutual

def Written.text : Written → List Char
  | .atom lexeme => lexeme.text
  | .quote gap quoted => '\'' :: (gap ++ quoted.text)
  | .empty gap => '(' :: (gap ++ [')'])
  | .list gap first others => '(' :: (gap ++ (first.text ++ others.text))

def Others.text : Others → List Char
  | .close gap => gap ++ [')']
  | .dotted gap gap' last gap'' => gap ++ '.' :: (gap' ++ (last.text ++ (gap'' ++ [')'])))
  | .element gap next others => gap ++ (next.text ++ others.text)

end

mutual

def Written.value : Written → Value
  | .atom lexeme => lexeme.value
  | .quote _ quoted => Value.ofList [.symbol "quote", quoted.value]
  | .empty _ => .nil
  | .list _ first others => .cons first.value others.value

def Others.value : Others → Value
  | .close _ => .nil
  | .dotted _ _ last _ => last.value
  | .element _ next others => .cons next.value others.value

end

mutual

/-- The depth at which the deepest part stands. -/
def Written.depth : Written → Nat
  | .atom _ | .empty _ => 0
  | .quote _ quoted => quoted.depth + 1
  | .list _ first others => max first.depth others.depth + 1

def Others.depth : Others → Nat
  | .close _ => 0
  | .dotted _ _ last _ => last.depth
  | .element _ next others => max next.depth others.depth

end

mutual

/-- The gaps are trivia, and the atoms end where they do with `rest` behind the datum. -/
def Written.Fits (comments : Bool) : Written → (rest : List Char) → Prop
  | .atom lexeme, rest => Atom lexeme.text rest lexeme.value
  | .quote gap quoted, rest =>
    Trivia comments gap (quoted.text ++ rest) ∧ quoted.Fits comments rest
  | .empty gap, rest => Trivia comments gap (')' :: rest)
  | .list gap first others, rest =>
    Trivia comments gap (first.text ++ (others.text ++ rest)) ∧
      first.Fits comments (others.text ++ rest) ∧ others.Fits comments rest

def Others.Fits (comments : Bool) : Others → (rest : List Char) → Prop
  | .close gap, rest => Trivia comments gap (')' :: rest)
  | .dotted gap gap' last gap'', rest =>
    Trivia comments gap ('.' :: (gap' ++ (last.text ++ (gap'' ++ ')' :: rest)))) ∧
      Trivia comments gap' (last.text ++ (gap'' ++ ')' :: rest)) ∧
      last.Fits comments (gap'' ++ ')' :: rest) ∧ Trivia comments gap'' (')' :: rest)
  | .element gap next others, rest =>
    Trivia comments gap (next.text ++ (others.text ++ rest)) ∧
      next.Fits comments (others.text ++ rest) ∧ others.Fits comments rest

end

mutual

/-- The neighbours in all lists of a datum. -/
def Written.neighbours : Written → List Neighbours
  | .atom _ | .empty _ => []
  | .quote _ quoted => quoted.neighbours
  | .list _ first others => first.neighbours ++ others.neighbours first

def Others.neighbours (before : Written) : Others → List Neighbours
  | .close _ => []
  | .dotted gap _ last _ => ⟨before, gap, none⟩ :: last.neighbours
  | .element gap next others =>
    ⟨before, gap, some next⟩ :: (next.neighbours ++ others.neighbours next)

end

/-- There is a gap, or one of the two needs none. -/
def Neighbours.Delimited (n : Neighbours) : Prop :=
  n.gap ≠ [] ∨ endsClosed n.before.text = true ∨ ∃ w ∈ n.after?, startsOpen w.text = true

variable {comments : Bool} {settings : Settings}

/-! ## Texts -/

theorem Written.startsDatum (w : Written) : ∃ c cs, w.text = c :: cs ∧ startsDatum c = true := by
  cases w with
  | atom lexeme => exact lexeme.isAtom.startsDatum
  | _ => exact ⟨_, _, rfl, by decide⟩

theorem Written.text_ne_nil (w : Written) : w.text ≠ [] := by
  obtain ⟨c, cs, hw, -⟩ := w.startsDatum
  rw [hw]
  exact List.cons_ne_nil c cs

theorem Others.text_ne_nil (o : Others) : o.text ≠ [] := by
  cases o <;> simp [Others.text, Written.text_ne_nil]

theorem Others.endsClosed_text (o : Others) : endsClosed o.text = true := by
  cases o with
  | close gap => exact endsClosed_append_singleton gap ')'
  | dotted gap gap' last gap'' =>
    have htext : (Others.dotted gap gap' last gap'').text =
        (gap ++ '.' :: (gap' ++ (last.text ++ gap''))) ++ [')'] := by simp [Others.text]
    rw [htext, endsClosed_append_singleton]
    rfl
  | element gap next others =>
    rw [Others.text, ← List.append_assoc, endsClosed_append _ others.text_ne_nil,
      others.endsClosed_text]

/-! ## Neighbours -/

theorem delimited_dot_iff {before : Written} {gap : List Char} :
    Neighbours.Delimited ⟨before, gap, none⟩ ↔ gap ≠ [] ∨ endsClosed before.text = true := by
  simp [Neighbours.Delimited]

theorem delimited_element_iff {before next : Written} {gap : List Char} :
    Neighbours.Delimited ⟨before, gap, some next⟩ ↔
      gap ≠ [] ∨ endsClosed before.text = true ∨ startsOpen next.text = true := by
  simp [Neighbours.Delimited]

/-! ## Layouts of data -/

mutual

/-- With all neighbours delimited, what fits is a datum of the grammar. -/
theorem Written.datum (w : Written) {rest : List Char} (hfits : w.Fits comments rest)
    (hdelimited : ∀ n ∈ w.neighbours, n.Delimited) :
    Datum comments w.depth w.text rest w.value := by
  cases w with
  | atom lexeme => exact .atom hfits
  | quote gap quoted => exact .quote hfits.1 (quoted.datum hfits.2 hdelimited)
  | empty gap => exact .empty hfits
  | list gap first others =>
    obtain ⟨trivia, hfirst, hothers⟩ := hfits
    simp only [Written.neighbours, List.forall_mem_append] at hdelimited
    have hdatum := first.datum hfirst hdelimited.1
    obtain ⟨vs, tail, hvalue, hfollowing⟩ := others.following first hothers hdelimited.2
    have hlist := Datum.list (by simpa using trivia) hdatum hfollowing
    simpa [Written.text, Written.value, Written.depth, hvalue] using hlist

theorem Others.following (o : Others) (before : Written) {rest : List Char}
    (hfits : o.Fits comments rest) (hdelimited : ∀ n ∈ o.neighbours before, n.Delimited) :
    ∃ vs tail, o.value = Value.ofListTail vs tail ∧
      Following comments (endsClosed before.text) o.depth o.text rest vs tail := by
  cases o with
  | close gap => exact ⟨[], .nil, rfl, .close hfits⟩
  | dotted gap gap' last gap'' =>
    obtain ⟨trivia, trivia', hlast, trivia''⟩ := hfits
    simp only [Others.neighbours, List.forall_mem_cons, delimited_dot_iff] at hdelimited
    have hdatum := last.datum hlast hdelimited.2
    refine ⟨[], last.value, rfl, ?_⟩
    have hdotted := Following.dotted (by simpa using trivia) hdelimited.1 (by simpa using trivia')
      hdatum trivia''
    simpa [Others.text, Others.depth] using hdotted
  | element gap next others =>
    obtain ⟨trivia, hnext, hothers⟩ := hfits
    simp only [Others.neighbours, List.forall_mem_cons, List.forall_mem_append,
      delimited_element_iff] at hdelimited
    obtain ⟨hgap, hdelimited, hdelimited'⟩ := hdelimited
    have hdatum := next.datum hnext hdelimited
    obtain ⟨vs, tail, hvalue, hfollowing⟩ := others.following next hothers hdelimited'
    refine ⟨next.value :: vs, tail, by simp [Others.value, hvalue], ?_⟩
    have helement := Following.element (by simpa using trivia) hgap hdatum hfollowing
    simpa [Others.text, Others.depth] using helement

end

/-- Every datum of the grammar has a layout. -/
theorem Datum.exists_written {depth : Nat} {t rest : List Char} {v : Value}
    (h : Datum comments depth t rest v) :
    ∃ w : Written, w.text = t ∧ w.value = v ∧ w.Fits comments rest := by
  refine @Datum.rec comments
    (fun _ t rest v _ => ∃ w : Written, w.text = t ∧ w.value = v ∧ w.Fits comments rest)
    (fun _ _ u rest vs tail _ => ∃ o : Others, o.text = u ∧ o.value = Value.ofListTail vs tail ∧
      o.Fits comments rest)
    ?atom ?quote ?empty ?list ?close ?dotted ?element depth t rest v h
  case atom =>
    intro t rest v hatom
    exact ⟨.atom ⟨t, v, hatom.truncate List.nil_prefix⟩, rfl, rfl, hatom⟩
  case quote =>
    rintro _ w _ rest _ trivia _ ⟨quoted, rfl, rfl, hquoted⟩
    exact ⟨.quote w quoted, rfl, rfl, trivia, hquoted⟩
  case empty => exact fun trivia => ⟨.empty _, rfl, rfl, trivia⟩
  case list =>
    rintro _ _ w _ _ rest _ tail vs trivia _ _ ⟨first, rfl, rfl, hfirst⟩
      ⟨others, rfl, hvalue, hothers⟩
    refine ⟨.list w first others, by simp [Written.text], ?_, by simpa using trivia, hfirst,
      hothers⟩
    simp [Written.value, hvalue]
  case close => exact fun trivia => ⟨.close _, rfl, rfl, trivia⟩
  case dotted =>
    rintro _ _ w w' _ w'' rest _ trivia _ trivia' _ trivia'' ⟨last, rfl, rfl, hlast⟩
    exact ⟨.dotted w w' last w'', by simp [Others.text], rfl, by simpa using trivia,
      by simpa using trivia', hlast, trivia''⟩
  case element =>
    rintro _ _ _ w _ _ rest _ tail vs trivia _ _ _ ⟨next, rfl, rfl, hnext⟩
      ⟨others, rfl, hvalue, hothers⟩
    refine ⟨.element w next others, by simp [Others.text], ?_, by simpa using trivia, hnext,
      hothers⟩
    simp [Others.value, hvalue]

/-! ## What is read -/

section Lists

variable {item : List Char → Result} {b : Char} {budget : List Char} {elements : List Value}
  {closed : Bool} {gap s : List Char} {c : Char} {p : Parsed}

/-- A list that is read on past `c` has found it delimited. -/
theorem delimited_of_readElements (trivia : Trivia comments gap (c :: s))
    (hstarts : startsTrivia comments (c :: s) = false) (hc : c ≠ ')')
    (h : readElements comments item (b :: budget) elements closed (gap ++ c :: s) = .ok p) :
    elements = [] ∨ gap ≠ [] ∨ closed = true ∨ opensItself c = true := by
  have hgap : startsTrivia comments (gap ++ c :: s) = true → gap ≠ [] := by
    rintro h rfl
    rw [List.nil_append, hstarts] at h
    cases h
  rw [readElements_cons (trivia.skip_eq hstarts), if_neg hc] at h
  split at h
  · rename_i hdelimited
    simp only [Bool.or_eq_true, List.isEmpty_iff, or_assoc] at hdelimited
    exact hdelimited.imp_right (Or.imp_left hgap)
  · cases h

/-- One element of a list that is read. -/
theorem Written.exists_of_readElements (w : Written) {rest : List Char}
    (trivia : Trivia comments gap (w.text ++ rest))
    (h : readElements comments item (b :: budget) elements closed (gap ++ (w.text ++ rest)) =
      .ok p) :
    (elements = [] ∨ gap ≠ [] ∨ closed = true ∨ startsOpen w.text = true) ∧
      ∃ q, item (w.text ++ rest) = .ok q ∧
        readElements comments item budget (q.value :: elements) q.closes q.rest = .ok p := by
  have hdelimited :
      elements = [] ∨ gap ≠ [] ∨ closed = true ∨ startsOpen w.text = true := by
    obtain ⟨c, cs, hw, hc⟩ := w.startsDatum
    rw [hw, List.cons_append] at trivia h
    rw [hw, startsOpen, List.head?_cons, Option.any_some]
    exact delimited_of_readElements trivia (not_startsTrivia_of_startsDatum _ _ hc)
      (ne_of_class hc (by decide)) h
  rw [readElements_found w.startsDatum trivia item hdelimited] at h
  exact ⟨hdelimited, exists_of_bind_eq_ok h⟩

end Lists

mutual

/-- What is read where a datum fits is that datum, with all its neighbours delimited. -/
theorem Written.of_readDatum (w : Written) {n : Nat} {rest : List Char} {p : Parsed}
    (hfits : w.Fits settings.comments rest)
    (h : readDatum settings n (w.text ++ rest) = .ok p) :
    p = ⟨w.value, endsClosed w.text, rest⟩ ∧ ∀ m ∈ w.neighbours, m.Delimited := by
  cases n with
  | zero => cases h
  | succ n =>
    cases w with
    | atom lexeme =>
      rw [Written.text, Atom.read_eq hfits] at h
      exact ⟨(Except.ok.inj h).symm, by simp [Written.neighbours]⟩
    | quote gap quoted =>
      obtain ⟨trivia, hquoted⟩ := hfits
      rw [Written.text, List.cons_append, List.append_assoc, readDatum, if_pos rfl,
        trivia.skip_datum quoted.startsDatum] at h
      cases hread : readDatum settings n (quoted.text ++ rest) with
      | error f =>
        rw [hread] at h
        cases h
      | ok q =>
        rw [hread] at h
        obtain ⟨rfl, hdelimited⟩ := quoted.of_readDatum hquoted hread
        obtain rfl := Except.ok.inj h
        rw [Written.text, ← List.cons_append, endsClosed_append _ quoted.text_ne_nil]
        exact ⟨rfl, hdelimited⟩
    | empty gap =>
      rw [Written.text, List.cons_append, List.append_assoc, readDatum_list,
        List.cons_append, List.nil_append,
        readElements_close (hfits.skip_eq (not_startsTrivia_paren rest))] at h
      obtain rfl := Except.ok.inj h
      rw [Written.text, ← List.cons_append, endsClosed_append_singleton]
      exact ⟨rfl, by simp [Written.neighbours]⟩
    | list gap first others =>
      obtain ⟨trivia, hfirst, hothers⟩ := hfits
      rw [Written.text, List.cons_append, List.append_assoc, List.append_assoc,
        readDatum_list] at h
      obtain ⟨-, q, hq, h⟩ := first.exists_of_readElements trivia h
      obtain ⟨rfl, hdelimited⟩ := first.of_readDatum hfirst hq
      obtain ⟨rfl, hdelimited'⟩ :=
        others.of_readElements first (List.cons_ne_nil _ _) hothers h
      rw [Written.text, ← List.append_assoc, ← List.cons_append,
        endsClosed_append _ others.text_ne_nil, others.endsClosed_text]
      refine ⟨rfl, ?_⟩
      rw [Written.neighbours, List.forall_mem_append]
      exact ⟨hdelimited, hdelimited'⟩

theorem Others.of_readElements (o : Others) (before : Written) {n : Nat} {rest : List Char}
    {budget : List Char} {elements : List Value} {p : Parsed} (helements : elements ≠ [])
    (hfits : o.Fits settings.comments rest)
    (h : readElements settings.comments (readDatum settings n) budget elements
      (endsClosed before.text) (o.text ++ rest) = .ok p) :
    p = ⟨Value.ofReversed elements o.value, true, rest⟩ ∧
      ∀ m ∈ o.neighbours before, m.Delimited := by
  cases budget with
  | nil => cases h
  | cons b budget =>
    cases o with
    | close gap =>
      rw [Others.text, List.append_assoc, List.cons_append, List.nil_append,
        readElements_close (hfits.skip_eq (not_startsTrivia_paren rest))] at h
      exact ⟨(Except.ok.inj h).symm, by simp [Others.neighbours]⟩
    | dotted gap gap' last gap'' =>
      obtain ⟨trivia, trivia', hlast, trivia''⟩ := hfits
      simp only [Others.text, List.append_assoc, List.cons_append, List.nil_append] at h
      have hstarts : startsTrivia settings.comments
          ('.' :: (gap' ++ (last.text ++ (gap'' ++ ')' :: rest)))) = false :=
        not_startsTrivia_point _
      -- Unlike a bracket or a quote, the dot asks for a delimiter of its own.
      have hdelimited : gap ≠ [] ∨ endsClosed before.text = true :=
        ((delimited_of_readElements trivia hstarts (by decide) h).resolve_left
          helements).imp_right fun hor => hor.resolve_right (by decide)
      rw [readElements_dot (trivia.skip_eq hstarts) helements
        (hdelimited.imp_left trivia.startsTrivia), readTail_found last.startsDatum trivia'] at h
      obtain ⟨q, hq, h⟩ := exists_of_bind_eq_ok h
      obtain ⟨rfl, hlastDelimited⟩ := last.of_readDatum hlast hq
      rw [closeTail_close (trivia''.skip_eq (not_startsTrivia_paren rest))] at h
      obtain rfl := Except.ok.inj h
      refine ⟨rfl, ?_⟩
      rw [Others.neighbours, List.forall_mem_cons, delimited_dot_iff]
      exact ⟨hdelimited, hlastDelimited⟩
    | element gap next others =>
      obtain ⟨trivia, hnext, hothers⟩ := hfits
      rw [Others.text, List.append_assoc, List.append_assoc] at h
      obtain ⟨hdelimited, q, hq, h⟩ := next.exists_of_readElements trivia h
      obtain ⟨rfl, hnextDelimited⟩ := next.of_readDatum hnext hq
      obtain ⟨rfl, hothersDelimited⟩ :=
        others.of_readElements next (List.cons_ne_nil _ _) hothers h
      refine ⟨rfl, ?_⟩
      rw [Others.neighbours, List.forall_mem_cons, List.forall_mem_append, delimited_element_iff]
      exact ⟨hdelimited.resolve_left helements, hnextDelimited, hothersDelimited⟩

end

/-- Where a datum fits, it is read exactly when it nests less than the levels allowed and all its
neighbours are delimited. -/
theorem Written.readDatum_eq_ok_iff (w : Written) {n : Nat} {rest : List Char}
    (hfits : w.Fits settings.comments rest) (p : Parsed) :
    readDatum settings n (w.text ++ rest) = .ok p ↔
      p = ⟨w.value, endsClosed w.text, rest⟩ ∧ w.depth < n ∧ ∀ m ∈ w.neighbours, m.Delimited := by
  constructor
  · intro h
    obtain ⟨hp, hdelimited⟩ := w.of_readDatum hfits h
    exact ⟨hp, nestsBelow_readDatum settings n _ _ _ _ _ (w.datum hfits hdelimited) h, hdelimited⟩
  · rintro ⟨rfl, hdepth, hdelimited⟩
    exact readsBelow_readDatum settings n _ _ _ _ (w.datum hfits hdelimited) hdepth

/-! ## Atoms as neighbours -/

/-- An atom other than a string. -/
def Written.IsBare : Written → Prop
  | .atom lexeme => ∀ s, lexeme.value ≠ .string s
  | _ => False

/-- An atom other than a string, and in front of the dot or of another one. -/
def Neighbours.AreBare (n : Neighbours) : Prop := n.before.IsBare ∧ ∀ w ∈ n.after?, w.IsBare

theorem Atom.endsClosed_iff {t rest : List Char} {v : Value} (h : Atom t rest v)
    (hstring : ∀ s, v ≠ .string s) :
    endsClosed t = true ↔ v = .char ')' ∨ v = .char '"' := by
  cases h with
  | namedCharacter _ named =>
    have hnames : ∀ entry ∈ namedCharacters, endsClosed ('#' :: '\\' :: entry.1) = false ∧
      entry.2 ≠ ')' ∧ entry.2 ≠ '"' := by decide
    obtain ⟨hends, hparen, hquote⟩ := hnames _ named
    simp [hends, hparen, hquote]
  | @character c _ unnamed =>
    have hends : endsClosed ['#', '\\', c] = closesItself c :=
      endsClosed_append_singleton ['#', '\\'] c
    simp [hends, closesItself]
  | boolTrue => simp [endsClosed, closesItself]
  | boolFalse => simp [endsClosed, closesItself]
  | string => exact absurd rfl (hstring _)
  | float hwhole hfraction wholeRun fractionRun =>
    have hends := endsClosed_of_run fractionRun (by decide) (by decide)
    rw [endsClosed_append _ (List.cons_ne_nil _ _), endsClosed_cons _ hfraction, hends]
    simp
  | integer nonempty run => simp [endsClosed_of_run run (by decide) (by decide)]
  | symbol run => simp [endsClosed_of_run run (by decide) (by decide)]

theorem startsOpen_of_run {inClass : Char → Bool} {t rest : List Char}
    (h : LongestRun inClass t rest) (hparen : inClass '(' = false) (hstring : inClass '"' = false)
    (hquote : inClass '\'' = false) : startsOpen t = false := by
  cases t with
  | nil => rfl
  | cons c cs =>
    have hc := h.all c List.mem_cons_self
    simp [startsOpen, opensItself, ne_of_class hc hparen, ne_of_class hc hstring,
      ne_of_class hc hquote]

theorem Atom.startsOpen_eq_false {t rest : List Char} {v : Value} (h : Atom t rest v)
    (hstring : ∀ s, v ≠ .string s) : startsOpen t = false := by
  cases h with
  | string => exact absurd rfl (hstring _)
  | float hwhole _ wholeRun =>
    have hopens := startsOpen_of_run wholeRun (by decide) (by decide) (by decide)
    obtain ⟨c, cs, rfl⟩ := List.exists_cons_of_ne_nil hwhole
    exact hopens
  | integer _ run => exact startsOpen_of_run run (by decide) (by decide) (by decide)
  | symbol run => exact startsOpen_of_run run (by decide) (by decide) (by decide)
  | _ => rfl

theorem Neighbours.AreBare.delimited_iff {n : Neighbours} (h : n.AreBare) :
    n.Delimited ↔ n.gap ≠ [] ∨ n.before.value = .char ')' ∨ n.before.value = .char '"' := by
  obtain ⟨before, gap, after?⟩ := n
  obtain ⟨hbefore, hafter⟩ := h
  have hopens : ¬ ∃ w ∈ after?, startsOpen w.text = true := by
    rintro ⟨w, hw, hopens⟩
    have hbare := hafter w hw
    cases w with
    | atom lexeme =>
      rw [Written.text, lexeme.isAtom.startsOpen_eq_false hbare] at hopens
      cases hopens
    | _ => exact hbare
  cases before with
  | atom lexeme =>
    have hends := lexeme.isAtom.endsClosed_iff hbefore
    simp only [Neighbours.Delimited, hopens, or_false]
    exact or_congr_right hends
  | _ => exact hbefore.elim

/-! ## Reading -/

/-- Behind its leading trivia the unread text is what is written here, and `rest`. -/
structure Holds (r : Reader) (w : Written) (rest : List Char) : Prop where
  ahead : r.ahead = w.text ++ rest
  fits : w.Fits r.settings.comments rest

theorem Holds.reads_iff {r : Reader} {w : Written} {rest : List Char} (h : r.Holds w rest)
    (v : Value) (r' : Reader) :
    r.read = (.ok v, r') ↔ v = w.value ∧ r' = { r with rest } ∧ w.depth < r.settings.depth ∧
      ∀ n ∈ w.neighbours, n.Delimited := by
  have hnext : r.next = readDatum r.settings r.settings.depth (w.text ++ rest) := by
    rw [next, h.ahead]
  constructor
  · intro hread
    obtain ⟨p, hp, rfl, rfl⟩ := next_of_read hread
    rw [hnext, w.readDatum_eq_ok_iff h.fits] at hp
    obtain ⟨rfl, hdepth, hdelimited⟩ := hp
    exact ⟨rfl, rfl, hdepth, hdelimited⟩
  · rintro ⟨rfl, rfl, hdepth, hdelimited⟩
    have hp := (w.readDatum_eq_ok_iff h.fits _).2 ⟨rfl, hdepth, hdelimited⟩
    exact read_eq_ok (hnext.trans hp)

theorem exists_holds_of_read {r r' : Reader} {v : Value} (h : r.read = (.ok v, r')) :
    ∃ w, r.Holds w r'.rest ∧ w.value = v := by
  obtain ⟨p, hp, rfl, rfl⟩ := next_of_read h
  obtain ⟨depth, t, -, hahead, hdatum, -⟩ := readDatum_eq_ok_iff.1 hp
  obtain ⟨w, rfl, hvalue, hfits⟩ := hdatum.exists_written
  exact ⟨w, ⟨hahead, hfits⟩, hvalue⟩

/-- What is read has a layout, and what has a layout is read exactly when it nests less than the
levels allowed and all neighbours in its lists are delimited. For an atom other than a string, in
front of the dot or another such atom, this takes a gap, unless the atom is a closing bracket or a
double quote as a character. -/
theorem bare_neighbours_need_a_gap (r : Reader) :
    (∀ v r', r.read = (.ok v, r') → ∃ w, r.Holds w r'.rest ∧ w.value = v) ∧
    (∀ w rest, r.Holds w rest → ∀ v r', r.read = (.ok v, r') ↔
      v = w.value ∧ r' = { r with rest } ∧ w.depth < r.settings.depth ∧
        ∀ n ∈ w.neighbours, n.Delimited) ∧
    ∀ n : Neighbours, n.AreBare →
      (n.Delimited ↔ n.gap ≠ [] ∨ n.before.value = .char ')' ∨ n.before.value = .char '"') :=
  ⟨fun _ _ => exists_holds_of_read, fun _ _ hholds => hholds.reads_iff,
    fun _ hbare => hbare.delimited_iff⟩

theorem atom_letter {rest : List Char} (hrest : ∀ c ∈ rest.head?, isSymbolChar c = false) :
    Atom ['a'] rest (.symbol (String.ofList ['a'])) := by
  refine .symbol ⟨?_, hrest⟩ (by decide)
  rw [List.forall_mem_singleton]
  decide

/-- A list of the character `)` and a symbol, with nothing between them. -/
def bracketCharacterThenName : Written :=
  .list []
    (.atom ⟨['#', '\\', ')'], .char ')', .character (by decide)⟩)
    (.element [] (.atom ⟨['a'], .symbol (String.ofList ['a']), atom_letter (by simp)⟩) (.close []))

/-- A character that looks like a closing bracket delimits as one does. -/
theorem bracket_character_needs_no_gap :
    ∃ v r' w, (ofString "(#\\)a)").read = (.ok v, r') ∧ (ofString "(#\\)a)").Holds w r'.rest ∧
      ∃ n ∈ w.neighbours, n.AreBare ∧ n.gap = [] := by
  have hparen : ∀ c ∈ [')'].head?, isSymbolChar c = false := by simpa using by decide
  have hholds : (ofString "(#\\)a)").Holds bracketCharacterThenName [] :=
    ⟨rfl, .none _, .character (by decide), .none _, atom_letter hparen, .none _⟩
  have hdelimited : ∀ n ∈ bracketCharacterThenName.neighbours, n.Delimited := by
    simp [bracketCharacterThenName, Written.neighbours, Others.neighbours, delimited_element_iff,
      Written.text, endsClosed, closesItself]
  have hread := (hholds.reads_iff _ _).2 ⟨rfl, rfl, by decide, hdelimited⟩
  refine ⟨_, _, _, hread, hholds, _, List.mem_cons_self, ⟨?_, ?_⟩, rfl⟩
  · simp [Written.IsBare]
  · simp [Written.IsBare]

end SlotLisp.Reader
