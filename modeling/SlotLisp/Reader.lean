import SlotLisp.Reader.Datum

/-!
# Reading texts

A `Reader` walks over a text, one datum at a time. A successful read leaves it right behind the
datum, a failed one leaves it where it was. `readOne` reads a text that is to hold one datum,
`readProgram` one that holds any number.
-/

namespace SlotLisp

structure Reader where
  source : List Char
  rest : List Char
  settings : Reader.Settings := {}

namespace Reader

def ofString (source : String) (settings : Settings := {}) : Reader :=
  ⟨source.toList, source.toList, settings⟩

def byteLength (s : List Char) : Nat := s.foldl (fun n c => n + c.utf8Size) 0

/-- The error that a failure is in the text it came from. -/
def Failure.locate (f : Failure) (source : List Char) : ReadError :=
  (ReadError.ofFault f.fault).locate source (byteLength source - byteLength f.rest)

/-- The text that is still unread. -/
def remaining (r : Reader) : String := String.ofList r.rest

/-- The unread text behind its leading trivia. -/
def ahead (r : Reader) : List Char := skipTrivia r.settings.comments r.rest

/-- Whether nothing but trivia is left. -/
def isExhausted (r : Reader) : Bool := r.ahead.isEmpty

def read (r : Reader) : Except ReadError Value × Reader :=
  match readDatum r.settings r.settings.depth r.ahead with
  | .ok p => (.ok p.value, { r with rest := p.rest })
  | .error f => (.error (f.locate r.source), r)

/-- Reads on until nothing but trivia is left, behind the data already read, last first. Each
datum takes at least one character of the budget. -/
def readAllWithin : (budget : List Char) → List Value → Reader →
    Except ReadError (List Value) × Reader
  | [], data, r => (.ok data.reverse, r)
  | _ :: budget, data, r =>
    if r.isExhausted then (.ok data.reverse, r)
    else
      match r.read with
      | (.ok v, r) => readAllWithin budget (v :: data) r
      | (.error e, r) => (.error e, r)

def readAll (r : Reader) : Except ReadError (List Value) × Reader := readAllWithin r.rest [] r

end Reader

/-- The one datum of a text. -/
def readOne (source : String) : Except ReadError Value :=
  match (Reader.ofString source).read with
  | (.error e, _) => .error e
  | (.ok v, r) =>
    if r.isExhausted then .ok v
    else .error (Reader.Failure.locate ⟨.trailing, r.ahead⟩ r.source)

/-- All data of a text. -/
def readProgram (source : String) : Except ReadError (List Value) :=
  (Reader.ofString source).readAll.1

end SlotLisp
