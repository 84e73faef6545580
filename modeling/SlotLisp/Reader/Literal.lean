import SlotLisp.Double.Rounding
import SlotLisp.Integer
import SlotLisp.Reader.Fault
import SlotLisp.Reader.Trivia
import SlotLisp.Value.Basic

/-!
# Literals

The atoms of the written form. Each reader here is given the text behind the character that
decides for it, and takes the longest run of characters that belongs to its literal.
-/

namespace SlotLisp.Reader

/-- A fault, and the text from its place on. -/
structure Failure where
  fault : ReadFault
  rest : List Char
  deriving DecidableEq, Repr

/-- A datum, and the text behind it. `closes` says that the last character of the datum was a
closing bracket or a double quote, which needs no delimiter behind it. -/
structure Parsed where
  value : Value
  closes : Bool
  rest : List Char

abbrev Result := Except Failure Parsed

def closesItself (c : Char) : Bool := c = ')' || c = '"'

/-- The names of characters, tried in this order. -/
def namedCharacters : List (List Char × Char) :=
  [("newline".toList, '\n'), ("space".toList, ' '), ("tab".toList, '\t')]

/-- A character literal, behind `#\`. A name wins over its first letter. -/
def readCharacter (s : List Char) : Result :=
  match namedCharacters.find? (·.1.isPrefixOf s), s with
  | some (name, c), _ => .ok ⟨.char c, false, s.drop name.length⟩
  | none, c :: rest => .ok ⟨.char c, closesItself c, rest⟩
  | none, [] => .error ⟨.endInCharacter, []⟩

/-- A character or boolean literal, behind `#`. -/
def readHash : List Char → Result
  | '\\' :: rest => readCharacter rest
  | 't' :: rest => .ok ⟨.bool true, false, rest⟩
  | 'f' :: rest => .ok ⟨.bool false, false, rest⟩
  | c :: rest => .error ⟨.unknownBoolean c, c :: rest⟩
  | [] => .error ⟨.endInBoolean, []⟩

/-- A string literal, behind its opening quote. It ends at the next quote; there are no
escapes. -/
def readString (s : List Char) : Result :=
  match s.dropWhile (· ≠ '"') with
  | _ :: rest => .ok ⟨.string (String.ofList (s.takeWhile (· ≠ '"'))), true, rest⟩
  | [] => .error ⟨.openString, '"' :: s⟩

/-- An integer or, with a point and more digits behind them, a float. -/
def readNumber (s : List Char) : Result :=
  let whole := s.takeWhile Char.isDigit
  match s.dropWhile Char.isDigit with
  | '.' :: rest =>
    let fraction := rest.takeWhile Char.isDigit
    if fraction.isEmpty then .error ⟨.noFraction, rest⟩
    else
      let digits := Nat.ofDigitChars 10 (whole ++ fraction) 0
      .ok ⟨.float (Double.ofDecimal false digits (-fraction.length)), false,
        rest.dropWhile Char.isDigit⟩
  | rest =>
    match Integer.ofInt? (Nat.ofDigitChars 10 whole 0) with
    | some n => .ok ⟨.int n, false, rest⟩
    | none => .error ⟨.integerTooLarge whole, s⟩

def isOperatorChar (c : Char) : Bool := "+-*/<>=".toList.contains c

def isSymbolChar (c : Char) : Bool :=
  c.isAlphanum || isOperatorChar c || "!?_".toList.contains c

/-- A name that reads as a symbol: it begins with a letter, or all of it are operator
characters. -/
def isSymbolName (name : List Char) : Bool :=
  match name with
  | [] => false
  | c :: _ => c.isAlpha || name.all isOperatorChar

def readSymbol (s : List Char) : Result :=
  let name := s.takeWhile isSymbolChar
  if isSymbolName name then
    .ok ⟨.symbol (String.ofList name), false, s.dropWhile isSymbolChar⟩
  else .error ⟨.noLiteral, s⟩

end SlotLisp.Reader
