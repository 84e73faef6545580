import SlotLisp.Double.Rounding

/-!
# The shortest decimal of a double

A double stands for every real number that rounds to it, an interval around its value. The
shortest decimal is the coarsest power-of-ten grid's point inside that interval; of two points
of the same grid the nearer one, and of two equally near the upper one.
-/

namespace SlotLisp.Double

/-- A positive finite double, `significand * 2 ^ exponent`. -/
structure Binary where
  significand : Nat
  exponent : Int
  deriving DecidableEq, Repr

/-- The value `digits * 10 ^ exponent`. -/
structure Decimal where
  digits : Nat
  exponent : Int
  deriving DecidableEq, Repr

namespace Binary

/-- The magnitude behind the low sixty-three bits of a finite double. -/
def ofBits (bits : Nat) : Binary :=
  let field : Nat := bits / exponentBit % 2048
  let fraction : Nat := bits % exponentBit
  if field = 0 then ⟨fraction, -1074⟩ else ⟨exponentBit + fraction, (field : Int) - 1075⟩

/-- Just above a power of two the neighbour below is only half as far away, except where the
subnormal numbers begin. -/
def narrowBelow (b : Binary) : Bool :=
  b.significand = exponentBit && -1074 < b.exponent

/-- Quarters of the last place: the value, and the two ends of its interval. -/
def quarters (b : Binary) : Nat := 4 * b.significand
def lowQuarters (b : Binary) : Nat := b.quarters - (if b.narrowBelow then 1 else 2)
def highQuarters (b : Binary) : Nat := b.quarters + 2

/-- The numerator and denominator of a quarter of the last place, measured in `10 ^ grid`. -/
def quarterOn (b : Binary) (grid : Int) : Nat × Nat :=
  let e := b.exponent - 2
  let (n, d) := if 0 ≤ e then (Nat.pow 2 e.toNat, 1) else (1, Nat.pow 2 (-e).toNat)
  if 0 ≤ grid then (n, d * Nat.pow 10 grid.toNat) else (n * Nat.pow 10 (-grid).toNat, d)

/-- Whether the point `c` of a grid lies in the interval; an end belongs to it exactly when the
significand is even. -/
def holds (b : Binary) (quarter : Nat × Nat) (c : Nat) : Bool :=
  let point := c * quarter.2
  let low := b.lowQuarters * quarter.1
  let high := b.highQuarters * quarter.1
  if b.significand % 2 = 0 then low ≤ point && point ≤ high else low < point && point < high

/-- The point of the grid that stands for the double, if the grid has one. -/
def onGrid? (b : Binary) (grid : Int) : Option Nat :=
  let quarter := b.quarterOn grid
  let exact := b.quarters * quarter.1
  let below := exact / quarter.2
  let remainder := exact % quarter.2
  match b.holds quarter below, b.holds quarter (below + 1) with
  | true, true => some (if 2 * remainder < quarter.2 then below else below + 1)
  | true, false => some below
  | false, true => some (below + 1)
  | false, false => none

/-- Whether the value is below `10 ^ k`. -/
def below (b : Binary) (k : Int) : Bool :=
  let quarter := b.quarterOn k
  b.quarters * quarter.1 < quarter.2

/-- The place of the leading decimal digit: `10 ^ k ≤ value < 10 ^ (k + 1)`. The estimate from
the binary exponent is off by at most one. -/
def leadingPlace (b : Binary) : Int :=
  let k := ((b.significand.log2 : Int) + b.exponent) * 30103 / 100000
  if b.below k then k - 1 else if b.below (k + 1) then k else k + 1

/-- Tries the grids from that of the leading digit downwards. -/
def search (b : Binary) (place : Int) : Nat → Option Decimal
  | 0 => none
  | n + 1 =>
    match b.onGrid? place with
    | some c => some ⟨c, place⟩
    | none => b.search (place - 1) n

/-- Moves zeros at the end of the digits into the exponent. -/
def dropZeros : Nat → Decimal → Decimal
  | 0, x => x
  | n + 1, x =>
    if x.digits % 10 = 0 ∧ x.digits ≠ 0 then dropZeros n ⟨x.digits / 10, x.exponent + 1⟩ else x

/-- Seventeen digits always suffice; a value that needed more would be written out in full. -/
def shortest (b : Binary) : Decimal :=
  match b.search b.leadingPlace 17 with
  | some x => dropZeros 17 x
  | none =>
    if 0 ≤ b.exponent then ⟨b.significand * Nat.pow 2 b.exponent.toNat, 0⟩
    else ⟨b.significand * Nat.pow 5 (-b.exponent).toNat, b.exponent⟩

end Binary

theorem search_eq_some {b : Binary} {place : Int} {n : Nat} {x : Decimal}
    (h : b.search place n = some x) : b.onGrid? x.exponent = some x.digits := by
  induction n generalizing place with
  | zero => simp [Binary.search] at h
  | succ n ih =>
    rw [Binary.search] at h
    split at h
    · rename_i c hc
      cases h
      exact hc
    · exact ih h

example : (Binary.ofBits (0.1 : Float).toBits.toNat).shortest = ⟨1, -1⟩ := by decide +kernel
example : (Binary.ofBits (1e23 : Float).toBits.toNat).shortest = ⟨1, 23⟩ := by decide +kernel
example : (Binary.ofBits 1).shortest = ⟨5, -324⟩ := by decide +kernel
example : (Binary.ofBits (2.98023223876953125e-8 : Float).toBits.toNat).shortest
    = ⟨29802322387695313, -24⟩ := by decide +kernel

end SlotLisp.Double
