import Herald.Binary64
/-!
The shortest decimal that reads back as a given double. For one digit, two digits and so on the two
neighbours of the value on that decimal grid are tried; the first grid with a neighbour inside the
interval of reals that round to the double wins, of two neighbours the nearer, of two equally near
the even one.
-/

namespace Herald.Decimal

/-- The decimal `0.d₁d₂… × 10 ^ (exponent + 1)`: `exponent` belongs to the first digit. -/
structure Numeral where
  digits : List Char
  exponent : Int
  deriving DecidableEq, Repr

def digitCount (n : Nat) : Nat :=
  (Nat.toDigits 10 n).length

def leadingExponent (num den : Nat) : Int :=
  if den ≤ num then digitCount (num / den) - 1 else - digitCount ((den - 1) / num)

/-- The reals that round to a double, in quarters of its units, and whether the ends belong to them. -/
structure Interval where
  low : Nat
  value : Nat
  high : Nat
  closed : Bool

def Interval.of (x : Binary64) : Interval where
  low := 4 * x.units - (if x.significand = Binary64.leadingBit ∧ 0 < x.scale then 1 <<< x.scale else 2 <<< x.scale)
  value := 4 * x.units
  high := 4 * x.units + (2 <<< x.scale)
  closed := x.significand % 2 = 0

def Interval.admits (i : Interval) (factor point : Nat) : Bool :=
  if i.closed then i.low * factor ≤ point && point ≤ i.high * factor
  else i.low * factor < point && point < i.high * factor

def Interval.onGrid? (i : Interval) (factor unit : Nat) : Option Nat :=
  let below := i.value * factor / unit
  let rest := 2 * (i.value * factor % unit)
  let admitsBelow := i.admits factor (below * unit)
  let admitsAbove := i.admits factor ((below + 1) * unit)
  if admitsBelow && (!admitsAbove || rest < unit || rest == unit && below % 2 == 0) then some below
  else if admitsAbove then some (below + 1)
  else none

def Numeral.ofMultiple (n : Nat) (exponent : Int) : Numeral :=
  let digits := Nat.toDigits 10 n
  ⟨(digits.reverse.dropWhile (· == '0')).reverse, exponent + digits.length - 1⟩

def search (i : Interval) (leading : Int) : Nat → Nat → Option Numeral
  | 0, _ => none
  | count + 1, places =>
    let exponent := leading - places + 1
    let found := i.onGrid? (Nat.pow 10 (-exponent).toNat) (4 * Binary64.unitsPerOne * Nat.pow 10 exponent.toNat)
    match found with
    | some n => some (.ofMultiple n exponent)
    | none => search i leading count (places + 1)

/-- The shortest decimal of a double other than zero; seventeen digits always suffice. -/
def shortest (x : Binary64) : Option Numeral :=
  search (.of x) (leadingExponent x.units Binary64.unitsPerOne) 17 1

end Herald.Decimal
