import SlotLisp.Reader.Literal

/-!
# Data

`readDatum` reads one datum from the start of a text. Its number counts the levels of nesting
that are still allowed: each list, quote mark and dotted tail takes one. Two elements of a list
need trivia between them, unless the first ends in, or the second begins with, a character that
delimits by itself.
-/

namespace SlotLisp.Reader

structure Settings where
  /-- Whether comments count as trivia. -/
  comments : Bool := true
  /-- How many levels of nesting are allowed. -/
  depth : Nat := 64
  deriving DecidableEq, Repr

/-- Whether a datum that begins with this character needs no delimiter in front. -/
def opensItself (c : Char) : Bool := c = '(' || c = '"' || c = '\''

/-- What follows the dot in a list: a datum, and the closing bracket. -/
def readTail (comments : Bool) (item : List Char → Result) (elements : List Value)
    (s : List Char) : Result :=
  match skipTrivia comments s with
  | [] => .error ⟨.noTail, []⟩
  | c :: cs =>
    match item (c :: cs) with
    | .error e => .error e
    | .ok tail =>
      match skipTrivia comments tail.rest with
      | ')' :: rest => .ok ⟨Value.ofReversed elements tail.value, true, rest⟩
      | [] => .error ⟨.openPair, []⟩
      | d :: ds => .error ⟨.afterTail, d :: ds⟩

/-- The elements of a list and its closing bracket, behind those already read, last first.
Each element takes at least one character, so a text no shorter than the one to be read is
budget enough. -/
def readElements (comments : Bool) (item : List Char → Result) :
    (budget : List Char) → (elements : List Value) → (closed : Bool) → List Char → Result
  | [], _, _, s => .error ⟨.openPair, s⟩
  | _ :: budget, elements, closed, s =>
    match skipTrivia comments s with
    | [] => .error ⟨.openPair, []⟩
    | c :: cs =>
      if c = ')' then .ok ⟨Value.ofReversed elements .nil, true, cs⟩
      else if elements.isEmpty || startsTrivia comments s || closed || opensItself c then
        if c = '.' && !elements.isEmpty then readTail comments item elements cs
        else
          match item (c :: cs) with
          | .error e => .error e
          | .ok element =>
            readElements comments item budget (element.value :: elements) element.closes
              element.rest
      else .error ⟨.noDelimiter, c :: cs⟩

/-- The datum that a quote mark stands for. -/
def Parsed.quote (p : Parsed) : Parsed :=
  { p with value := Value.ofList [.symbol "quote", p.value] }

def readDatum (settings : Settings) : Nat → List Char → Result
  | 0, s => .error ⟨.tooDeep settings.depth, s⟩
  | _ + 1, [] => .error ⟨.endOfInput, []⟩
  | n + 1, c :: cs =>
    if c = '\'' then
      (readDatum settings n (skipTrivia settings.comments cs)).map Parsed.quote
    else if c = '#' then readHash cs
    else if c = '"' then readString cs
    else if c = '(' then
      readElements settings.comments (readDatum settings n) (c :: cs) [] false cs
    else if c.isDigit then readNumber (c :: cs)
    else readSymbol (c :: cs)

end SlotLisp.Reader
