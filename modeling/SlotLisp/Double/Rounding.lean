/-!
# The double nearest to a ratio

`Double.ofDecimal` is the double nearest to a decimal, a half going to the even neighbour,
worked out in exact arithmetic on naturals. A value too large for the format is the infinity,
one too small is zero.
-/

namespace SlotLisp.Double

/-- The natural nearest to `num / den`; a half goes to the even neighbour. -/
def roundHalfEven (num den : Nat) : Nat :=
  let q := num / den
  let r := num % den
  if 2 * r < den then q
  else if den < 2 * r then q + 1
  else q + q % 2

/-- The fraction `num / den` divided by two to the power `e`, as numerator and denominator. -/
def scaleDown (num den : Nat) (e : Int) : Nat × Nat :=
  if 0 ≤ e then (num, den <<< e.toNat) else (num <<< (-e).toNat, den)

/-- The lowest bit of the exponent field, `2 ^ 52`: one more than the largest fraction. -/
def exponentBit : Nat := 0x10000000000000

/-- The highest bit, `2 ^ 63`. -/
def signBit : Nat := 0x8000000000000000

/-- The bits of positive infinity. -/
def infinityBits : Nat := 0x7ff0000000000000

/-- The exponent of the last place of the double nearest to `num / den`: the one that leaves
a significand of fifty-three bits, but none below that of the subnormal numbers. -/
def lastPlace (num den : Nat) : Int :=
  let e := (num.log2 : Int) - den.log2 - 53
  let (n, d) := scaleDown num den e
  max (if n / d < 2 * exponentBit then e else e + 1) (-1074)

/-- The bits of the double nearest to `num / den`. A significand that rounds up to the next
power of two carries into the exponent field, which is the double it should be. -/
def nearestBits (num den : Nat) : Nat :=
  if num = 0 then 0
  else
    let e := lastPlace num den
    let (n, d) := scaleDown num den e
    min ((e + 1074).toNat * exponentBit + roundHalfEven n d) infinityBits

def withSign (negative : Bool) (bits : Nat) : Float :=
  Float.ofBits (UInt64.ofNat (if negative then signBit + bits else bits))

/-- The double nearest to `m * 10 ^ e`. Exponents that are certain to leave the format are
answered without forming the power. -/
def ofDecimal (negative : Bool) (m : Nat) (e : Int) : Float :=
  withSign negative <|
    if m = 0 then 0
    else if 400 < e then infinityBits
    else if e < -400 - (m.log2 + 1 : Int) then 0
    else if 0 ≤ e then nearestBits (m * Nat.pow 10 e.toNat) 1
    else nearestBits m (Nat.pow 10 (-e).toNat)

example : (ofDecimal false 1 0).toBits = 0x3ff0000000000000 := by decide +kernel
example : (ofDecimal false 5 (-324)).toBits = 1 := by decide +kernel
example : (ofDecimal true 17976931348623157 292).toBits = 0xffefffffffffffff := by decide +kernel
example : (ofDecimal false 2 308).toBits = 0x7ff0000000000000 := by decide +kernel

end SlotLisp.Double
