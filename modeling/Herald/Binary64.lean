/-!
Double-precision numbers by their bits, with exact arithmetic on their magnitudes.
A magnitude is a whole number of units of `2 ^ -1074`; `round` takes the nearest double of a fraction,
and of two equally near the one with the even significand.
-/

namespace Herald

structure Binary64 where
  bits : UInt64
  deriving DecidableEq, Repr

namespace Binary64

def unitsPerOne : Nat := 1 <<< 1074

def leadingBit : Nat := 1 <<< 52

def negative (x : Binary64) : Bool :=
  1 <<< 63 ≤ x.bits.toNat

def exponentField (x : Binary64) : Nat :=
  x.bits.toNat / leadingBit % 2048

def isFinite (x : Binary64) : Bool :=
  x.exponentField < 2047

def significand (x : Binary64) : Nat :=
  if x.exponentField = 0 then x.bits.toNat % leadingBit else leadingBit + x.bits.toNat % leadingBit

/-- The distance to the next larger magnitude is `2 ^ scale` units. -/
def scale (x : Binary64) : Nat :=
  x.exponentField - 1

def units (x : Binary64) : Nat :=
  x.significand <<< x.scale

def isZero (x : Binary64) : Bool :=
  x.units = 0

def nearest (num den : Nat) : Nat :=
  let q := num / den
  let r := 2 * (num % den)
  if r < den then q else if den < r then q + 1 else q + q % 2

def round (num den : Nat) : Option Binary64 :=
  let exact := num * unitsPerOne
  let scale := (exact / den).log2 - 52
  let bits := scale * leadingBit + nearest exact (den <<< scale)
  if bits < 2047 * leadingBit then some ⟨UInt64.ofNat bits⟩ else none

def ofNat (n : Nat) : Option Binary64 :=
  round n 1

def mul (x y : Binary64) : Option Binary64 :=
  round (x.units * y.units) (unitsPerOne * unitsPerOne)

def div (x y : Binary64) : Option Binary64 :=
  round x.units y.units

def neg (x : Binary64) : Binary64 :=
  ⟨x.bits ^^^ 0x8000000000000000⟩

example : ofNat 1 = some ⟨0x3ff0000000000000⟩ := by decide +kernel
example : ofNat (UInt64.size - 1) = some ⟨0x43f0000000000000⟩ := by decide +kernel
example : round 1 10 = some ⟨0x3fb999999999999a⟩ := by decide +kernel
example : round 1 unitsPerOne = some ⟨1⟩ := by decide +kernel
example : round (Nat.pow 10 309) 1 = none := by decide +kernel

end Binary64

end Herald
