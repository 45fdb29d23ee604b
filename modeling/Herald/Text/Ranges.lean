namespace Herald.Text

/-- Whether `n` lies in one of the ranges, which stand in increasing order. -/
def within : List (Nat × Nat) → Nat → Bool
  | [], _ => false
  | (low, high) :: rest, n => low ≤ n && (n ≤ high || within rest n)

end Herald.Text
