import Herald.Decimal.Shortest

namespace Herald.Decimal

structure Layout where
  lowest : Int
  highest : Int

def pointed (digits : List Char) (places : Nat) : List Char :=
  let padded := digits ++ List.replicate (places + 1 - digits.length) '0'
  padded.take places ++ '.' :: padded.drop places

def positional (n : Numeral) : List Char :=
  if 0 ≤ n.exponent then pointed n.digits (n.exponent.toNat + 1)
  else '0' :: '.' :: (List.replicate ((-n.exponent).toNat - 1) '0' ++ n.digits)

def scientific (n : Numeral) : List Char :=
  let mantissa := match n.digits with
    | [d] => [d]
    | digits => digits.take 1 ++ '.' :: digits.drop 1
  let sign := if 0 ≤ n.exponent then '+' else '-'
  mantissa ++ 'e' :: sign :: Nat.toDigits 10 n.exponent.natAbs

def Layout.numeral (l : Layout) (n : Numeral) : List Char :=
  if l.lowest ≤ n.exponent ∧ n.exponent ≤ l.highest then positional n else scientific n

def Layout.write (l : Layout) (x : Binary64) : List Char :=
  let magnitude := if x.isZero then ['0', '.', '0'] else ((shortest x).map l.numeral).getD []
  if x.negative then '-' :: magnitude else magnitude

end Herald.Decimal
