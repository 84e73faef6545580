import SlotLisp.Proofs.Reader.Cursor
import SlotLisp.Proofs.Reader.Faults

/-!
# What an error shows

A place is a byte offset in a text. At a boundary between characters it stands for the character
behind it, anywhere else for the end of the text, and what is shown of the place is that character
and a window of the text (`shows_locate`). The offsets that failures of reading hand over are
boundaries in the unread text (`offset_eq`).
-/

namespace SlotLisp

namespace Snippet

/-! ## The window -/

/-- The text around its character number `place`: from twenty characters before, or the start, up
to a hundred, with an ellipsis on each side where something is left out. Line feeds are rewritten
to their escape and carriage returns removed. -/
def Shows (text : List Char) (place : Nat) (snippet : List Char) : Prop :=
  ∃ left window right shown, text = left ++ window ++ right ∧
    left.length + min 20 place = place ∧ window.length ≤ 100 ∧
    (right ≠ [] → window.length = 100) ∧
    shown = (if left = [] then [] else "[...]".toList) ++ window ++
      (if right = [] then [] else "[...]".toList) ∧
    snippet = (shown.flatMap fun c => if c = '\n' then ['\\', 'n'] else [c]).filter (· ≠ '\r')

/-- A line feed becomes its escape, and then the carriage returns are dropped. -/
theorem oneLine_eq (text : List Char) :
    oneLine text =
      (text.flatMap fun c => if c = '\n' then ['\\', 'n'] else [c]).filter (· ≠ '\r') := by
  induction text with
  | nil => rfl
  | cons c cs ih =>
    rw [oneLine] at ih ⊢
    rw [List.flatMap_cons, List.flatMap_cons, List.filter_append, ih]
    congr 1
    by_cases hfeed : c = '\n'
    · simp [hfeed]
    · by_cases hreturn : c = '\r' <;> simp [hfeed, hreturn]

theorem shows_marked {text : List Char} {place : Nat} (h : place ≤ text.length) :
    Shows text place (oneLine (marked text place)) := by
  have hstart : start place = place - 20 := rfl
  have hleft : (text.take (start place)).length = start place := by
    rw [List.length_take]
    omega
  have htext : text = text.take (start place) ++ window text place ++
      (text.drop (start place)).drop width := by
    rw [List.append_assoc, window, List.take_append_drop, List.take_append_drop]
  have hlength := congrArg List.length htext
  rw [List.length_append, List.length_append, hleft] at hlength
  have hwidth : (window text place).length = min 100 (text.length - start place) := by
    rw [window, List.length_take, List.length_drop]
    rfl
  refine ⟨_, _, _, marked text place, htext, by omega, by omega, fun hright => ?_, ?_,
    oneLine_eq _⟩
  · have hpos := List.length_pos_iff.2 hright
    omega
  · have hleft_iff : text.take (start place) = [] ↔ ¬ 0 < start place := by
      rw [← List.length_eq_zero_iff, hleft]
      omega
    have hright_iff : (text.drop (start place)).drop width = [] ↔
        ¬ start place + (window text place).length < text.length := by
      rw [← List.length_eq_zero_iff]
      omega
    simp only [marked, hleft_iff, hright_iff, ite_not]
    rfl

theorem feed_not_mem_oneLine (text : List Char) : '\n' ∉ oneLine text := by
  rw [oneLine_eq]
  simp only [List.mem_filter, List.mem_flatMap, not_and, forall_exists_index, and_imp]
  intro c _ hmem
  split at hmem
  · simp at hmem
  · rename_i hfeed
    exact absurd (List.mem_singleton.1 hmem).symm hfeed

theorem return_not_mem_oneLine (text : List Char) : '\r' ∉ oneLine text := by
  rw [oneLine_eq]
  simp

end Snippet

/-! ## Places -/

open Reader (byteLength)

/-- The places of a text are the ends of what stands in front of them. -/
theorem exists_of_charIndexFrom? {n m offset : Nat} {text : List Char}
    (h : charIndexFrom? n text offset = some m) :
    ∃ u v, text = u ++ v ∧ offset = byteLength u ∧ m = n + u.length := by
  induction text generalizing n offset with
  | nil =>
    cases offset with
    | zero => exact ⟨[], [], rfl, rfl, (Option.some.inj h).symm⟩
    | succ offset => cases h
  | cons c cs ih =>
    cases offset with
    | zero => exact ⟨[], c :: cs, rfl, rfl, (Option.some.inj h).symm⟩
    | succ offset =>
      rw [charIndexFrom?] at h
      split at h
      · rename_i hfits
        obtain ⟨u, v, rfl, hoffset, rfl⟩ := ih h
        refine ⟨c :: u, v, rfl, ?_, ?_⟩
        · rw [Reader.byteLength_cons]
          omega
        · rw [List.length_cons]
          omega
      · cases h

namespace ReadError

/-- An error shows the character found at its place, and the text around it, on one line. -/
structure Shows (e : ReadError) (text : List Char) (place : Nat) (found? : Option Char) :
    Prop where
  found : e.found? = found?.map String.singleton
  context : ∃ snippet, e.context? = some (String.ofList snippet) ∧
    Snippet.Shows text place snippet ∧ '\n' ∉ snippet ∧ '\r' ∉ snippet

theorem shows_of_charIndex? {e : ReadError} {text : List Char} {offset place : Nat}
    (hplace : (charIndex? text offset).getD text.length = place) (hle : place ≤ text.length) :
    ∃ snippet, (e.locate text offset).context? = some (String.ofList snippet) ∧
      Snippet.Shows text place snippet ∧ '\n' ∉ snippet ∧ '\r' ∉ snippet := by
  refine ⟨Snippet.oneLine (Snippet.marked text place), ?_, Snippet.shows_marked hle,
    Snippet.feed_not_mem_oneLine _, Snippet.return_not_mem_oneLine _⟩
  simp only [locate, hplace]

theorem shows_locate (e : ReadError) (u v : List Char) :
    (e.locate (u ++ v) (byteLength u)).Shows (u ++ v) u.length v.head? := by
  have hplace : charIndex? (u ++ v) (byteLength u) = some u.length := by
    rw [charIndex?, Reader.charIndexFrom?_append, Nat.zero_add]
  constructor
  · simp only [locate, hplace, Option.bind_some]
    rw [List.getElem?_append_right (Nat.le_refl _), Nat.sub_self, List.head?_eq_getElem?]
  · refine shows_of_charIndex? ?_ ?_
    · rw [hplace, Option.getD_some]
    · rw [List.length_append]
      exact Nat.le_add_right _ _

/-- Inside a character and past the end is the end. -/
theorem shows_locate_of_not (e : ReadError) {text : List Char} {offset : Nat}
    (h : ∀ u v, text = u ++ v → offset ≠ byteLength u) :
    (e.locate text offset).Shows text text.length none := by
  have hplace : charIndex? text offset = none := by
    cases hindex : charIndex? text offset with
    | none => rfl
    | some m =>
      obtain ⟨u, v, htext, hoffset, -⟩ := exists_of_charIndexFrom? hindex
      exact absurd hoffset (h u v htext)
  constructor
  · simp only [locate, hplace]
    rfl
  · refine shows_of_charIndex? ?_ (Nat.le_refl _)
    rw [hplace, Option.getD_none]

/-- The second byte of a character is no place, and the byte behind it is. -/
example :
    ((ofFault .trailing).locate ['é', '\n', 'a'] 1).found? = none ∧
      (ofFault .trailing).locate ['é', '\n', 'a'] 3 =
        { ofFault .trailing with context? := some "é\\na", found? := some "a" } := by decide

end ReadError

namespace Reader

/-! ## The place of a failure -/

/-- The byte offset of a failure in the text it came from. -/
def Failure.offset (f : Failure) (source : List Char) : Nat :=
  byteLength source - byteLength f.rest

theorem Failure.locate_eq (f : Failure) (source : List Char) :
    f.locate source = (ReadError.ofFault f.fault).locate source (f.offset source) := rfl

theorem Failure.offset_eq (f : Failure) (passed : List Char) :
    f.offset (passed ++ f.rest) = byteLength passed := by
  rw [offset, byteLength_append, Nat.add_sub_cancel]

/-- A failure points behind the leading trivia. -/
theorem exists_passed {r : Reader} {f : Failure} (h : r.next = .error f) :
    ∃ w passed, r.rest = w ++ passed ++ f.rest ∧
      LeadingTrivia r.settings.comments w (passed ++ f.rest) := by
  have hplace := restOf_readDatum r.settings r.settings.depth r.ahead
  change restOf r.next <:+ r.ahead at hplace
  rw [h] at hplace
  obtain ⟨passed, hpassed⟩ := hplace
  change passed ++ f.rest = r.ahead at hpassed
  obtain ⟨w, hrest, htrivia⟩ := exists_trivia r.settings.comments r.rest
  change r.rest = w ++ r.ahead at hrest
  change Trivia r.settings.comments w r.ahead at htrivia
  rw [← hpassed] at hrest htrivia
  refine ⟨w, passed, by rw [hrest, List.append_assoc], leadingTrivia_iff.2 ⟨htrivia, ?_⟩⟩
  rw [← hrest, hpassed]
  rfl

theorem byteLength_pos {s : List Char} (h : s ≠ []) : 0 < byteLength s := by
  obtain ⟨c, cs, rfl⟩ := List.exists_cons_of_ne_nil h
  have hpos := c.utf8Size_pos
  rw [byteLength_cons]
  omega

theorem Failure.offset_eq_end_iff (f : Failure) (passed : List Char) :
    f.offset (passed ++ f.rest) = byteLength (passed ++ f.rest) ↔ f.rest = [] := by
  rw [f.offset_eq, byteLength_append]
  refine ⟨fun h => ?_, fun h => ?_⟩
  · by_contra hne
    have hpos := byteLength_pos hne
    omega
  · rw [h]
    rfl

/-- Where the failure of a reading lies, of a source that has been read up to `unread`. -/
structure Failure.PointsInto (f : Failure) (comments : Bool) (before unread : List Char) :
    Prop where
  boundary : ∃ w passed, unread = w ++ passed ++ f.rest ∧
    LeadingTrivia comments w (passed ++ f.rest) ∧
    f.offset (before ++ unread) = byteLength (before ++ w ++ passed)
  found : (f.locate (before ++ unread)).found? = f.rest.head?.map String.singleton
  found_eq_none_iff : (f.locate (before ++ unread)).found? = none ↔
    f.offset (before ++ unread) = byteLength (before ++ unread)
  incomplete : f.fault.kind = .incomplete → f.fault ≠ .openString →
    f.offset (before ++ unread) = byteLength (before ++ unread)
  openString : f.fault = .openString → ∃ s, f.rest = '"' :: s ∧ '"' ∉ s

theorem pointsInto_of_next {before unread : List Char} {settings : Settings} {f : Failure}
    (h : next ⟨before ++ unread, unread, settings⟩ = .error f) :
    f.PointsInto settings.comments before unread := by
  obtain ⟨w, passed, hunread, htrivia⟩ := exists_passed h
  change unread = w ++ passed ++ f.rest at hunread
  have hsource : before ++ unread = before ++ w ++ passed ++ f.rest := by
    rw [hunread]
    simp only [List.append_assoc]
  have hfound : (f.locate (before ++ unread)).found? = f.rest.head?.map String.singleton :=
    found?_locate ⟨_, hsource.symm⟩
  have hend := f.offset_eq_end_iff (before ++ w ++ passed)
  rw [← hsource] at hend
  refine ⟨⟨w, passed, hunread, htrivia, ?_⟩, hfound, ?_, fun hkind hfault => ?_,
    rest_of_openString h⟩
  · rw [hsource, f.offset_eq]
  · rw [hfound, hend, Option.map_eq_none_iff, List.head?_eq_none_iff]
  · exact hend.2 (rest_of_incomplete h hkind hfault)

/-- A reading that fails, wherever in its source, points at the failure: at a boundary between
characters behind the leading trivia, at the end if the text is incomplete, or at the quote that
opens its last string. And an error, wherever in any text it points, shows the character found
there and a window around it. -/
theorem errors_show_their_place (before unread : List Char) (settings : Settings) :
    (∀ e r, read ⟨before ++ unread, unread, settings⟩ = (.error e, r) →
      ∃ f, next ⟨before ++ unread, unread, settings⟩ = .error f ∧
        e = (ReadError.ofFault f.fault).locate (before ++ unread) (f.offset (before ++ unread)) ∧
        f.PointsInto settings.comments before unread) ∧
    ∀ (e : ReadError) (text : List Char) (offset : Nat),
      (∀ u v, text = u ++ v → offset = byteLength u →
        (e.locate text offset).Shows text u.length v.head?) ∧
      ((∀ u v, text = u ++ v → offset ≠ byteLength u) →
        (e.locate text offset).Shows text text.length none) := by
  refine ⟨fun e r hread => ?_, fun e text offset => ⟨?_, e.shows_locate_of_not⟩⟩
  · obtain ⟨p, -, hok⟩ | ⟨f, hnext, hfails⟩ := read_cases ⟨before ++ unread, unread, settings⟩
    · rw [hok] at hread
      cases hread
    · rw [hfails] at hread
      cases hread
      exact ⟨f, hnext, f.locate_eq _, pointsInto_of_next hnext⟩
  · rintro u v rfl rfl
    exact e.shows_locate u v

end Reader

end SlotLisp
