namespace Herald.Text

def decimal? : List Char → Option Nat
  | [] => none
  | s => if s.all Char.isDigit then some (Nat.ofDigitChars 10 s 0) else none

def signed? : List Char → Option Int
  | '-' :: digits => (decimal? digits).map fun n => -(n : Int)
  | '+' :: digits => (decimal? digits).map Int.ofNat
  | digits => (decimal? digits).map Int.ofNat

def int64? (s : List Char) : Option Int :=
  (signed? s).filter fun i => Int64.minValue.toInt ≤ i ∧ i ≤ Int64.maxValue.toInt

end Herald.Text
