/-!
# Why a text cannot be read

`ReadFault` lists the ways in which a text fails to be a datum. `ReadError` is what a caller
sees of one: its kind, the literal it happened in, its message, and the place, shown as the
character found there and a snippet of the text around it.
-/

namespace SlotLisp

inductive ReadErrorKind
  | invalidSyntax
  | incomplete
  | tooDeeplyNested
  | trailingContent
  | implementationLimit
  deriving DecidableEq, Repr

/-- The literal that a reader was in when it failed. -/
inductive Literal
  | character
  | boolean
  | string
  | float
  | integer
  | pair
  | symbol
  deriving DecidableEq, Repr

def Literal.text : Literal → String
  | character => "character"
  | boolean => "boolean"
  | string => "string"
  | float => "float"
  | integer => "integer"
  | pair => "pair"
  | symbol => "symbol"

inductive ReadFault
  | tooDeep (limit : Nat)
  | endOfInput
  | endInCharacter
  | endInBoolean
  | unknownBoolean (c : Char)
  | openString
  | noFraction
  | integerTooLarge (digits : List Char)
  | openPair
  | noTail
  | noDelimiter
  | afterTail
  | noLiteral
  | trailing
  deriving DecidableEq, Repr

namespace ReadFault

def kind : ReadFault → ReadErrorKind
  | tooDeep _ => .tooDeeplyNested
  | endOfInput | endInCharacter | endInBoolean | openString | openPair | noTail => .incomplete
  | unknownBoolean _ | noFraction | noDelimiter | afterTail | noLiteral => .invalidSyntax
  | integerTooLarge _ => .implementationLimit
  | trailing => .trailingContent

def literal? : ReadFault → Option Literal
  | tooDeep _ | endOfInput | noLiteral | trailing => none
  | endInCharacter => some .character
  | endInBoolean | unknownBoolean _ => some .boolean
  | openString => some .string
  | noFraction => some .float
  | integerTooLarge _ => some .integer
  | openPair | noTail | noDelimiter | afterTail => some .pair

def message : ReadFault → String
  | tooDeep limit => "expression too deeply nested (max depth: " ++ toString limit ++ ")"
  | endOfInput => "unexpected end of input"
  | endInCharacter => "end of input in character literal"
  | endInBoolean => "end of input in boolean literal"
  | unknownBoolean c => "invalid boolean literal '#" ++ String.singleton c ++ "'"
  | openString => "unterminated string literal"
  | noFraction => "expected digits after '.' in float literal"
  | integerTooLarge digits =>
    "integer literal '" ++ String.ofList digits ++ "' does not fit in 64 bits"
  | openPair => "missing closing ')' in pair literal"
  | noTail => "missing datum after '.' in pair literal"
  | noDelimiter => "missing delimiter between elements of pair literal"
  | afterTail => "expected ')' after the tail of a dotted pair"
  | noLiteral => "no parseable literal"
  | trailing => "unexpected trailing input after datum"

end ReadFault

/-- The number of characters before a byte offset, added to `n`, if the offset is a boundary of
the text. -/
def charIndexFrom? (n : Nat) : List Char → Nat → Option Nat
  | _, 0 => some n
  | [], _ + 1 => none
  | c :: cs, offset + 1 =>
    if c.utf8Size ≤ offset + 1 then charIndexFrom? (n + 1) cs (offset + 1 - c.utf8Size) else none

/-- The number of characters before a byte offset, if the offset is a boundary of the text. -/
def charIndex? (text : List Char) (offset : Nat) : Option Nat := charIndexFrom? 0 text offset

namespace Snippet

def width : Nat := 100
def lead : Nat := 20
def ellipsis : List Char := ['[', '.', '.', '.', ']']

/-- Where the snippet of a place begins, in characters. -/
def start (place : Nat) : Nat := place - lead

/-- The characters shown. -/
def window (text : List Char) (place : Nat) : List Char := (text.drop (start place)).take width

/-- The window, with an ellipsis on each side where the text goes on. -/
def marked (text : List Char) (place : Nat) : List Char :=
  (if 0 < start place then ellipsis else []) ++ window text place ++
    (if start place + (window text place).length < text.length then ellipsis else [])

/-- On one line: a line feed is shown by its escape, a carriage return not at all. -/
def oneLine (text : List Char) : List Char :=
  text.flatMap fun c => if c = '\n' then ['\\', 'n'] else if c = '\r' then [] else [c]

end Snippet

structure ReadError where
  kind : ReadErrorKind
  message : String
  literal? : Option Literal := none
  context? : Option String := none
  found? : Option String := none
  deriving DecidableEq, Repr

namespace ReadError

/-- The error with its place filled in from a byte offset into the text. An offset that is no
boundary of the text counts as its end. -/
def locate (e : ReadError) (text : List Char) (offset : Nat) : ReadError :=
  let place? := charIndex? text offset
  let place := place?.getD text.length
  { e with
    context? := some (String.ofList (Snippet.oneLine (Snippet.marked text place)))
    found? := (place?.bind (text[·]?)).map String.singleton }

def ofFault (fault : ReadFault) : ReadError :=
  { kind := fault.kind, message := fault.message, literal? := fault.literal? }

/-- The message, followed by the place where it is known. -/
def text (e : ReadError) : String :=
  e.message ++ (match e.found? with
    | some found => "\nFound: " ++ found
    | none => "") ++ (match e.context? with
    | some context => "\nContext: " ++ context
    | none => "")

end ReadError

end SlotLisp
