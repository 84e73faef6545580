import SlotLisp.Program
import SlotLisp.Proofs.Reader.Places
import SlotLisp.Proofs.Reader.Verdict

/-!
# Programs in pieces

Reading all of a text is reading its lines up to some point and then the others, if nothing is cut
short there: one step of the read loop takes a datum, whatever stands behind it (`data_lines`),
and what is left does not know what it was part of (`data_elsewhere`). Evaluation follows the
data.
-/

namespace SlotLisp

namespace Reader

/-! ## The read loop -/

/-- The data of the unread text. -/
def data (r : Reader) : Except ReadError (List Value) := r.readAll.1

theorem isExhausted_iff {r : Reader} : r.isExhausted = true ↔ r.ahead = [] := List.isEmpty_iff

theorem isExhausted_eq_false_iff {r : Reader} : r.isExhausted = false ↔ r.ahead ≠ [] :=
  List.isEmpty_eq_false_iff

theorem readAllWithin_of_exhausted {r : Reader} (h : r.isExhausted = true) (budget : List Char)
    (seen : List Value) : readAllWithin budget seen r = (.ok seen.reverse, r) := by
  cases budget with
  | nil => rfl
  | cons b budget => rw [readAllWithin, if_pos h]

theorem readAllWithin_of_datum {r : Reader} {p : Parsed} (h : r.isExhausted = false)
    (hp : r.next = .ok p) (b : Char) (budget : List Char) (seen : List Value) :
    readAllWithin (b :: budget) seen r =
      readAllWithin budget (p.value :: seen) { r with rest := p.rest } := by
  simp only [readAllWithin, h, read_eq_ok hp]
  rfl

theorem readAllWithin_of_failure {r : Reader} {f : Failure} (h : r.isExhausted = false)
    (hf : r.next = .error f) (b : Char) (budget : List Char) (seen : List Value) :
    readAllWithin (b :: budget) seen r = (.error (f.locate r.source), r) := by
  simp only [readAllWithin, h, read_eq_error hf]
  rfl

/-- Reading a datum makes the unread text shorter. -/
theorem length_rest_lt {r : Reader} {p : Parsed} (hp : r.next = .ok p) :
    p.rest.length < r.rest.length :=
  Nat.lt_of_lt_of_le (shortens_readDatum _ _ _ _ hp) (skipTrivia_suffix _ _).length_le

theorem rest_ne_nil {r : Reader} (h : r.isExhausted = false) : r.rest ≠ [] := by
  intro hnil
  have hahead : r.ahead = [] := by
    rw [ahead, hnil]
    rfl
  exact isExhausted_eq_false_iff.1 h hahead

/-- The read loop, a step for each datum. -/
theorem readLoop_induction {motive : Reader → Prop}
    (exhausted : ∀ r : Reader, r.isExhausted = true → motive r)
    (datum : ∀ (r : Reader) (p : Parsed), r.isExhausted = false → r.next = .ok p →
      motive { r with rest := p.rest } → motive r)
    (failure : ∀ (r : Reader) (f : Failure), r.isExhausted = false → r.next = .error f → motive r)
    (r : Reader) : motive r := by
  induction hlength : r.rest.length using Nat.strong_induction_on generalizing r with
  | _ length ih =>
    cases h : r.isExhausted with
    | true => exact exhausted r h
    | false =>
      cases hnext : r.next with
      | error f => exact failure r f h hnext
      | ok p => exact datum r p h hnext (ih _ (hlength ▸ length_rest_lt hnext) _ rfl)

theorem data_of_exhausted {r : Reader} (h : r.isExhausted = true) : r.data = .ok [] := by
  rw [data, readAll, readAllWithin_of_exhausted h]
  rfl

theorem data_of_failure {r : Reader} {f : Failure} (h : r.isExhausted = false)
    (hf : r.next = .error f) : r.data = .error (f.locate r.source) := by
  obtain ⟨b, budget, hrest⟩ := List.exists_cons_of_ne_nil (rest_ne_nil h)
  rw [data, readAll, hrest, readAllWithin_of_failure h hf]

/-- Any budget that is enough gives the data of the unread text, behind those already read. -/
theorem readAllWithin_eq (r : Reader) {budget : List Char} (seen : List Value)
    (hbudget : r.rest.length ≤ budget.length) :
    (readAllWithin budget seen r).1 = r.data.map (seen.reverse ++ ·) := by
  induction r using readLoop_induction generalizing budget seen with
  | exhausted r h =>
    rw [readAllWithin_of_exhausted h, data_of_exhausted h]
    simp [Except.map]
  | failure r f h hf =>
    obtain ⟨b, budget, rfl⟩ := List.exists_cons_of_length_pos
      (Nat.lt_of_lt_of_le (List.length_pos_iff.2 (rest_ne_nil h)) hbudget)
    rw [readAllWithin_of_failure h hf, data_of_failure h hf]
    rfl
  | datum r p h hp ih =>
    obtain ⟨b, budget, rfl⟩ := List.exists_cons_of_length_pos
      (Nat.lt_of_lt_of_le (List.length_pos_iff.2 (rest_ne_nil h)) hbudget)
    obtain ⟨c, rest, hrest⟩ := List.exists_cons_of_ne_nil (rest_ne_nil h)
    have hshorter := length_rest_lt hp
    rw [hrest, List.length_cons] at hshorter hbudget
    rw [List.length_cons] at hbudget
    have hdata : r.data = (readAllWithin rest [p.value] { r with rest := p.rest }).1 := by
      rw [Reader.data, readAll, hrest, readAllWithin_of_datum h hp]
    rw [readAllWithin_of_datum h hp, ih _ (by simp only; omega), hdata, ih _ (by simp only; omega)]
    cases (Reader.data _) <;> simp [Except.map]

theorem data_of_datum {r : Reader} {p : Parsed} (h : r.isExhausted = false)
    (hp : r.next = .ok p) : r.data =
      ({ r with rest := p.rest } : Reader).data.map (p.value :: ·) := by
  obtain ⟨c, rest, hrest⟩ := List.exists_cons_of_ne_nil (rest_ne_nil h)
  have hshorter := length_rest_lt hp
  rw [hrest, List.length_cons] at hshorter
  rw [data, readAll, hrest, readAllWithin_of_datum h hp,
    readAllWithin_eq _ _ (Nat.le_of_lt_succ hshorter)]
  rfl

/-- Of the unread text only what stands behind its leading trivia counts. -/
theorem data_eq_of_ahead {r r' : Reader} (hsource : r'.source = r.source)
    (hsettings : r'.settings = r.settings) (hahead : r'.ahead = r.ahead) : r'.data = r.data := by
  have hexhausted : r'.isExhausted = r.isExhausted := congrArg List.isEmpty hahead
  have hnext : r'.next = r.next := by rw [next, hsettings, hahead, next]
  cases h : r.isExhausted with
  | true => rw [data_of_exhausted h, data_of_exhausted (hexhausted.trans h)]
  | false =>
    cases hr : r.next with
    | error f =>
      rw [data_of_failure h hr, data_of_failure (hexhausted.trans h) (hnext.trans hr), hsource]
    | ok p =>
      rw [data_of_datum h hr, data_of_datum (hexhausted.trans h) (hnext.trans hr), hsource,
        hsettings]

/-! ## Pieces -/

/-- The data of some lines stand in front of those of the lines behind them. -/
theorem data_lines (r : Reader) (source b : List Char) {xs : List Value} (h : r.data = .ok xs) :
    data ⟨source, r.rest ++ '\n' :: b, r.settings⟩ =
      (data ⟨source, b, r.settings⟩).map (xs ++ ·) := by
  induction r using readLoop_induction generalizing xs with
  | exhausted r hexhausted =>
    rw [data_of_exhausted hexhausted] at h
    cases h
    have hrest : data ⟨source, r.rest ++ '\n' :: b, r.settings⟩ = data ⟨source, b, r.settings⟩ :=
      data_eq_of_ahead rfl rfl (skipTrivia_newline b (isExhausted_iff.1 hexhausted))
    rw [hrest]
    cases data ⟨source, b, r.settings⟩ <;> rfl
  | failure r f hexhausted hf =>
    rw [data_of_failure hexhausted hf] at h
    cases h
  | datum r p hexhausted hp ih =>
    rw [data_of_datum hexhausted hp] at h
    have hahead : ahead ⟨source, r.rest ++ '\n' :: b, r.settings⟩ ≠ [] := by
      obtain ⟨c, cs, hcs⟩ := List.exists_cons_of_ne_nil (isExhausted_eq_false_iff.1 hexhausted)
      rw [ahead, skipTrivia_append_of_cons _ hcs]
      exact List.cons_ne_nil _ _
    have hstep := data_of_datum (isExhausted_eq_false_iff.2 hahead) (next_lines hp source b)
    cases hxs : data { r with rest := p.rest } with
    | error e =>
      rw [hxs] at h
      cases h
    | ok xs' =>
      rw [hxs] at h
      cases h
      rw [hstep, ih hxs]
      cases data ⟨source, b, r.settings⟩ <;> rfl

/-- The same data, or errors that differ in no more than the snippet of the text they show. -/
inductive Agree : Except ReadError (List Value) → Except ReadError (List Value) → Prop
  | data (vs : List Value) : Agree (.ok vs) (.ok vs)
  | error {e e' : ReadError} (kind : e'.kind = e.kind) (literal : e'.literal? = e.literal?)
      (message : e'.message = e.message) (found : e'.found? = e.found?) :
      Agree (.error e) (.error e')

theorem Agree.map {R R' : Except ReadError (List Value)} (h : Agree R R')
    (f : List Value → List Value) : Agree (R.map f) (R'.map f) := by
  cases h with
  | data vs => exact .data (f vs)
  | error kind literal message found => exact .error kind literal message found

theorem restOf_next (r : Reader) : restOf r.next <:+ r.rest :=
  (restOf_readDatum _ _ r.ahead).trans (skipTrivia_suffix _ r.rest)

/-- Text that ends another source has the same data, and an error in it shows the same character. -/
theorem data_elsewhere (r : Reader) {source : List Char} (hr : r.rest <:+ r.source)
    (hsource : r.rest <:+ source) : Agree r.data (data { r with source := source }) := by
  induction r using readLoop_induction with
  | exhausted r h =>
    rw [data_of_exhausted h, @data_of_exhausted { r with source := source } h]
    exact .data []
  | failure r f h hf =>
    have hrest := restOf_next r
    rw [hf] at hrest
    rw [data_of_failure h hf, @data_of_failure { r with source := source } f h hf]
    refine .error rfl rfl rfl ?_
    exact (found?_locate (hrest.trans hsource)).trans (found?_locate (hrest.trans hr)).symm
  | datum r p h hp ih =>
    have hrest := restOf_next r
    rw [hp] at hrest
    rw [data_of_datum h hp, @data_of_datum { r with source := source } p h hp]
    exact (ih (hrest.trans hr) (hrest.trans hsource)).map _

end Reader

/-- The second piece is read as part of the joined text, behind the data of the first. -/
theorem readProgram_lines {a : String} {xs : List Value} (ha : readProgram a = .ok xs)
    (b : String) : readProgram (a ++ "\n" ++ b) =
      (Reader.data ⟨(a ++ "\n" ++ b).toList, b.toList, {}⟩).map (xs ++ ·) := by
  have hdata := Reader.data_lines (.ofString a) (a ++ "\n" ++ b).toList b.toList ha
  have hsource : Reader.ofString (a ++ "\n" ++ b) =
      ⟨(a ++ "\n" ++ b).toList, (Reader.ofString a).rest ++ '\n' :: b.toList, {}⟩ := by
    simp [Reader.ofString]
  exact (congrArg Reader.data hsource).trans hdata

/-! ## Evaluation -/

theorem evalText_of_readProgram [Host] {source : String} {program : List Value}
    (h : readProgram source = .ok program) (env : ScopeId) :
    evalText source env = evalProgram program ⟨.nil, env⟩ := by
  simp only [evalText, h]

/-- The value that a program starts with counts only if there is no datum. -/
theorem evalProgram_pieces [Host] (xs ys : List Value) (env : ScopeId) :
    evalProgram (xs ++ ys) ⟨.nil, env⟩ = do
      let first ← evalProgram xs ⟨.nil, env⟩
      let last ← evalProgram ys ⟨.nil, first.env⟩
      return if ys.isEmpty then first else last := by
  rw [evalProgram_append]
  cases ys with
  | nil => simp [evalProgram]
  | cons y ys => simp [evalProgram]

theorem evalProgram_last [Host] (xs : List Value) (x : Value) (context : Context) :
    evalProgram (xs ++ [x]) context =
      evalProgram xs context >>= fun before => evalDatum x before.env := by
  simp [evalProgram_append, evalProgram]

/-- A program in two pieces, of which the first can be read, is the data of both, and fails where
the second fails. It is evaluated as the pieces are, one after the other, unless the first ends in
an error; the value is that of the last datum. -/
theorem program_in_pieces [Host] {a b : String} {xs : List Value} (ha : readProgram a = .ok xs) :
    (∀ ys, readProgram b = .ok ys → readProgram (a ++ "\n" ++ b) = .ok (xs ++ ys) ∧
      ∀ env,
        (evalText (a ++ "\n" ++ b) env = do
          let first ← evalText a env
          let last ← evalText b first.env
          return if ys.isEmpty then first else last) ∧
        ∀ zs z, xs ++ ys = zs ++ [z] → evalText (a ++ "\n" ++ b) env =
          evalProgram zs ⟨.nil, env⟩ >>= fun before => evalDatum z before.env) ∧
    (∀ e, readProgram b = .error e → ∃ e', readProgram (a ++ "\n" ++ b) = .error e' ∧
      e'.kind = e.kind ∧ e'.literal? = e.literal? ∧ e'.message = e.message ∧
        e'.found? = e.found?) := by
  have hjoined := readProgram_lines ha b
  have hb : Reader.Agree (readProgram b)
      (Reader.data ⟨(a ++ "\n" ++ b).toList, b.toList, {}⟩) :=
    Reader.data_elsewhere (.ofString b) (List.suffix_refl _)
      ⟨a.toList ++ ['\n'], by simp [Reader.ofString]⟩
  generalize Reader.data ⟨(a ++ "\n" ++ b).toList, b.toList, {}⟩ = R at hjoined hb
  refine ⟨fun ys hys => ?_, fun e he => ?_⟩
  · rw [hys] at hb
    cases hb
    have hread : readProgram (a ++ "\n" ++ b) = .ok (xs ++ ys) := hjoined
    refine ⟨hread, fun env => ⟨?_, fun zs z hlast => ?_⟩⟩
    · simp only [evalText_of_readProgram hread, evalText_of_readProgram ha,
        evalText_of_readProgram hys]
      exact evalProgram_pieces xs ys env
    · rw [evalText_of_readProgram hread, hlast, evalProgram_last]
  · rw [he] at hb
    cases hb with
    | error kind literal message found =>
      exact ⟨_, hjoined, kind, literal, message, found⟩

section

attribute [local instance] Host.empty

/-- A first piece that ends in a comment. -/
theorem pieces_behind_a_comment :
    readProgram "1 ; one" = .ok [.int 1] ∧
      readProgram ("1 ; one" ++ "\n" ++ "(2)") = .ok [.int 1, .cons (.int 2) .nil] := by
  have ha : readProgram "1 ; one" = .ok [.int 1] := by rfl
  have hb : readProgram "(2)" = .ok [.cons (.int 2) .nil] := by rfl
  exact ⟨ha, ((program_in_pieces ha).1 _ hb).1⟩

end

end SlotLisp
