namespace Herald

abbrev Delay := Nat

namespace Delay

def perSecond : Nat := 1000000000

def perMillisecond : Nat := 1000000

def longest : Delay :=
  UInt64.size * perSecond - 1

def ofMillis (ms : UInt64) : Delay :=
  ms.toNat * perMillisecond

def times (d : Delay) (factor : UInt32) : Delay :=
  min (d * factor.toNat) longest

def seconds (d : Delay) : Nat :=
  d / perSecond

def nanoseconds (d : Delay) : Nat :=
  d % perSecond

def ofParts (seconds nanoseconds : Nat) : Delay :=
  seconds * perSecond + nanoseconds

end Delay

structure Backoff where
  initial : Delay
  ceiling : Delay
  factor : UInt32
  current : Delay
  deriving DecidableEq, Repr

namespace Backoff

def start (initial ceiling : Delay) (factor : UInt32) : Backoff :=
  ⟨initial, ceiling, factor, initial⟩

def reset (b : Backoff) : Backoff :=
  { b with current := b.initial }

def advance (b : Backoff) : Backoff :=
  { b with current := min (b.current.times b.factor) b.ceiling }

end Backoff

end Herald
