import Herald.Binary64
/-!
Numbers as they are written in JSON, and what they denote. A whole number keeps its value if it fits
into sixty-four bits; every other number is a double. The double is the significand, cut to the digits
that fit into sixty-four bits, times or divided by one power of ten.
-/

namespace Herald.Json

inductive Number
  | int (value : Int)
  | real (value : Binary64)
  deriving DecidableEq, Repr

structure Numeral where
  negative : Bool
  whole : List Char
  fraction : List Char
  exponentNegative : Bool
  exponent : List Char
  deriving DecidableEq, Repr

namespace Numeral

def digits (s : List Char) : List Char × List Char :=
  (s.takeWhile Char.isDigit, s.dropWhile Char.isDigit)

def scanWhole (s : List Char) : Option (List Char × List Char) :=
  match digits s with
  | ([], _) => none
  | ('0' :: _ :: _, _) => none
  | found => some found

def scanFraction : List Char → Option (List Char × List Char)
  | '.' :: r =>
    match digits r with
    | ([], _) => none
    | found => some found
  | s => some ([], s)

def scanSign : List Char → Bool × List Char
  | '-' :: r => (true, r)
  | '+' :: r => (false, r)
  | s => (false, s)

def scanExponent (s : List Char) : Option (Bool × List Char × List Char) :=
  match s with
  | c :: r =>
    if c = 'e' ∨ c = 'E' then
      let (negative, r) := scanSign r
      match digits r with
      | ([], _) => none
      | found => some (negative, found)
    else some (false, [], s)
  | [] => some (false, [], [])

def scanMinus : List Char → Bool × List Char
  | '-' :: r => (true, r)
  | s => (false, s)

def scan (s : List Char) : Option (Numeral × List Char) := do
  let (negative, s) := scanMinus s
  let (whole, s) ← scanWhole s
  let (fraction, s) ← scanFraction s
  let (exponentNegative, exponent, s) ← scanExponent s
  return (⟨negative, whole, fraction, exponentNegative, exponent⟩, s)

def natural (digits : List Char) : Nat :=
  Nat.ofDigitChars 10 digits 0

def absorb : Nat → List Char → Nat × Nat
  | n, [] => (n, 0)
  | n, c :: digits =>
    let longer := Nat.ofDigitChars 10 [c] n
    if longer < UInt64.size then
      let (n, count) := absorb longer digits
      (n, count + 1)
    else (n, 0)

def powerOfTen (n : Nat) : Option Binary64 :=
  Binary64.ofNat (Nat.pow 10 n)

def largestPower : Nat := 308

def shrinkLargest : Nat → Binary64 → Option Binary64
  | 0, x => some x
  | count + 1, x =>
    if x.isZero then some x
    else do shrinkLargest count (← x.div (← powerOfTen largestPower))

def shrink (x : Binary64) (n : Nat) : Option Binary64 := do
  let count := (n - 1) / largestPower
  let x ← shrinkLargest count x
  x.div (← powerOfTen (n - count * largestPower))

def grow (x : Binary64) (n : Nat) : Option Binary64 :=
  if n ≤ largestPower then do x.mul (← powerOfTen n)
  else if x.isZero then some x
  else none

def real (n : Numeral) : Option Binary64 := do
  let (significand, inWhole) := absorb 0 n.whole
  let (significand, inFraction) := absorb significand n.fraction
  let written : Int := natural n.exponent
  let power := (n.whole.length : Int) - inWhole - inFraction +
    (if n.exponentNegative then -written else written)
  let x ← Binary64.ofNat significand
  let magnitude ← if 0 ≤ power then grow x power.toNat else shrink x (-power).toNat
  return if n.negative then magnitude.neg else magnitude

def value (n : Numeral) : Option Number :=
  if n.fraction = [] ∧ n.exponent = [] then
    let magnitude := natural n.whole
    if n.negative then
      if 0 < magnitude ∧ Int64.minValue.toInt ≤ -magnitude then some (.int (-magnitude))
      else n.real.map .real
    else if magnitude < UInt64.size then some (.int magnitude)
    else n.real.map .real
  else n.real.map .real

theorem length_digits_snd (s : List Char) : (digits s).2.length ≤ s.length := by
  have := congrArg List.length (List.takeWhile_append_dropWhile (p := Char.isDigit) (l := s))
  simp only [List.length_append, digits] at this ⊢
  omega

theorem length_scanWhole {s digits rest : List Char} (h : scanWhole s = some (digits, rest)) :
    rest.length < s.length := by
  have hs : s.takeWhile Char.isDigit ++ s.dropWhile Char.isDigit = s := List.takeWhile_append_dropWhile
  simp only [scanWhole, Numeral.digits] at h
  split at h
  · simp at h
  · simp at h
  · next h₁ _ =>
    simp only [Option.some.injEq, Prod.mk.injEq] at h
    rw [← hs, ← h.2, List.length_append]
    cases ht : s.takeWhile Char.isDigit with
    | nil => exact absurd (by rw [ht]) (h₁ (s.dropWhile Char.isDigit))
    | cons c r => simp

theorem length_scanFraction {s digits rest : List Char} (h : scanFraction s = some (digits, rest)) :
    rest.length ≤ s.length := by
  unfold scanFraction at h
  split at h
  · next r =>
    split at h
    · simp at h
    · have := length_digits_snd r
      simp only [Option.some.injEq] at h
      rw [h] at this
      exact Nat.le_succ_of_le this
  · simp only [Option.some.injEq, Prod.mk.injEq] at h
    exact Nat.le_of_eq (congrArg List.length h.2.symm)

theorem length_scanSign (s : List Char) : (scanSign s).2.length ≤ s.length := by
  unfold scanSign
  split <;> simp

theorem length_scanMinus (s : List Char) : (scanMinus s).2.length ≤ s.length := by
  unfold scanMinus
  split <;> simp

theorem length_scanExponent {s digits rest : List Char} {negative : Bool}
    (h : scanExponent s = some (negative, digits, rest)) : rest.length ≤ s.length := by
  unfold scanExponent at h
  split at h
  · next c r =>
    split at h
    · have hr := length_scanSign r
      have hd := length_digits_snd (scanSign r).2
      dsimp only at h
      split at h
      · simp at h
      · simp only [Option.some.injEq, Prod.mk.injEq] at h
        rw [h.2] at hd
        simp only [List.length_cons] at hd ⊢
        omega
    · simp only [Option.some.injEq, Prod.mk.injEq] at h
      exact Nat.le_of_eq (congrArg List.length h.2.2.symm)
  · simp only [Option.some.injEq, Prod.mk.injEq] at h
    simp [← h.2.2]

theorem length_scan {s rest : List Char} {n : Numeral} (h : scan s = some (n, rest)) :
    rest.length < s.length := by
  simp only [scan, Option.bind_eq_bind, Option.bind_eq_some_iff] at h
  obtain ⟨⟨whole, s₁⟩, hw, ⟨fraction, s₂⟩, hf, ⟨e, exponent, s₃⟩, he, h⟩ := h
  simp only [pure, Option.some.injEq, Prod.mk.injEq] at h
  have h₁ := length_scanWhole hw
  have h₂ := length_scanFraction hf
  have h₃ := length_scanExponent he
  have h₀ := length_scanMinus s
  dsimp only at h₁ h₂ h₃
  rw [← h.2]
  omega

end Numeral

end Herald.Json
