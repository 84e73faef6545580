import SlotLisp.Double.Shortest

/-!
# Doubles as text

Two ways to write a double, both with the digits of its shortest decimal, and the way to read
one. `Double.text` never uses an exponent, and marks a whole number with `.0` as long as it is
below `10 ^ 16`. `Double.inspect` always shows a point or an exponent: positional from `10 ^ -4`
up to `10 ^ 16`, scientific outside.
-/

namespace SlotLisp

/-- Why a text is no double. -/
inductive DoubleFault
  | empty
  | invalid
  deriving DecidableEq, Repr

def DoubleFault.message : DoubleFault → String
  | .empty => "cannot parse float from empty string"
  | .invalid => "invalid float literal"

namespace Double

namespace Decimal

def digitText (x : Decimal) : List Char := Nat.toDigits 10 x.digits

/-- The decimal exponent of the leading digit. -/
def leading (x : Decimal) : Int := (x.digitText.length : Int) + x.exponent - 1

/-- Digits with the point where it belongs, and no point in a whole number. -/
def positional (x : Decimal) : List Char :=
  let ds := x.digitText
  if 0 ≤ x.exponent then ds ++ List.replicate x.exponent.toNat '0'
  else
    let places := (-x.exponent).toNat
    if places < ds.length then
      ds.take (ds.length - places) ++ '.' :: ds.drop (ds.length - places)
    else '0' :: '.' :: List.replicate (places - ds.length) '0' ++ ds

/-- One digit before the point, the others after it, and the exponent without a plus. -/
def scientific (x : Decimal) : List Char :=
  let mantissa := match x.digitText with
    | [] => []
    | [d] => [d]
    | d :: ds => d :: '.' :: ds
  mantissa ++ 'e' :: (toString x.leading).toList

def isWhole (x : Decimal) : Bool := 0 ≤ x.exponent

def text (x : Decimal) : List Char :=
  if x.isWhole && x.leading < 16 then x.positional ++ ['.', '0'] else x.positional

def inspect (x : Decimal) : List Char :=
  if -4 ≤ x.leading && x.leading < 16 then
    if x.isWhole then x.positional ++ ['.', '0'] else x.positional
  else x.scientific

end Decimal

/-- The sign and the special values, which both ways of writing share. Not a number has no
sign, zero has one. -/
def write (layout : Decimal → List Char) (x : Float) : List Char :=
  let bits := x.toBits.toNat
  let magnitude := bits % signBit
  if infinityBits < magnitude then ['N', 'a', 'N']
  else
    let body :=
      if magnitude = infinityBits then ['i', 'n', 'f']
      else if magnitude = 0 then ['0', '.', '0']
      else layout (Binary.ofBits magnitude).shortest
    if signBit ≤ bits then '-' :: body else body

def text (x : Float) : List Char := write Decimal.text x
def inspect (x : Float) : List Char := write Decimal.inspect x

/-- An optional exponent: a mark, an optional sign and at least one digit. -/
def readExponent : List Char → Option Int
  | [] => some 0
  | mark :: rest =>
    if mark = 'e' || mark = 'E' then
      let (negative, ds) := match rest with
        | '+' :: ds => (false, ds)
        | '-' :: ds => (true, ds)
        | ds => (false, ds)
      if ds.isEmpty || !ds.all Char.isDigit then none
      else
        let n : Int := Nat.ofDigitChars 10 ds 0
        some (if negative then -n else n)
    else none

/-- Digits with at most one point and at least one digit, then an optional exponent. -/
def readUnsigned (negative : Bool) (text : List Char) : Except DoubleFault Float :=
  let whole := text.takeWhile Char.isDigit
  let (fraction, rest) := match text.dropWhile Char.isDigit with
    | '.' :: rest => (rest.takeWhile Char.isDigit, rest.dropWhile Char.isDigit)
    | rest => ([], rest)
  if whole.isEmpty && fraction.isEmpty then .error .invalid
  else match readExponent rest with
    | none => .error .invalid
    | some e =>
      .ok (ofDecimal negative (Nat.ofDigitChars 10 (whole ++ fraction) 0) (e - fraction.length))

/-- The names of the special values, in any mixture of cases. -/
def special? (text : List Char) : Option Nat :=
  let name := String.ofList (text.map Char.toLower)
  if name = "inf" || name = "infinity" then some infinityBits
  else if name = "nan" then some (infinityBits + exponentBit / 2)
  else none

def read (text : List Char) : Except DoubleFault Float :=
  match text with
  | [] => .error .empty
  | c :: cs =>
    let body := if c = '+' || c = '-' then cs else c :: cs
    match special? body with
    | some bits => .ok (withSign (c = '-') bits)
    | none => readUnsigned (c = '-') body

end Double

end SlotLisp
