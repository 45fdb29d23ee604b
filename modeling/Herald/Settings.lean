import Herald.Backoff
import Herald.Fault
import Herald.Json.Reading
import Herald.Json.Writing

namespace Herald

namespace Json.Reader

def word32 : Reader UInt32 :=
  fun n => UInt32.ofNat <$> word 32 n

def word64 : Reader UInt64 :=
  fun n => UInt64.ofNat <$> word 64 n

end Json.Reader

/-- Delays are in milliseconds. -/
structure Settings where
  endpoint : String
  initialDelay : UInt64
  maxDelay : UInt64
  factor : UInt32
  deriving DecidableEq, Repr

namespace Settings

def ofEndpoint (endpoint : String) : Settings :=
  ⟨endpoint, 1000, 300000, 2⟩

def endpointLabel (endpoint : String) : String :=
  s!"Endpoint({endpoint})"

inductive Flaw
  | noEndpoint
  | noDelay
  | shrinking (maxDelay initialDelay : UInt64)
  | smallFactor
  deriving DecidableEq, Repr

def Flaw.message : Flaw → String
  | .noEndpoint => "endpoint must not be empty"
  | .noDelay => "initial_retry_delay_ms must be positive"
  | .shrinking maxDelay initialDelay =>
    s!"max_retry_delay_ms ({maxDelay}) is below initial_retry_delay_ms ({initialDelay})"
  | .smallFactor => "backoff_factor must be at least 2"

def flaw? (s : Settings) : Option Flaw :=
  if s.endpoint = "" then some .noEndpoint
  else if s.initialDelay = 0 then some .noDelay
  else if s.maxDelay < s.initialDelay then some (.shrinking s.maxDelay s.initialDelay)
  else if s.factor < 2 then some .smallFactor
  else none

def validate (s : Settings) : Except Fault Unit :=
  match s.flaw? with
  | none => .ok ()
  | some flaw => .error (.invalidSettings flaw.message)

def backoff (s : Settings) : Backoff :=
  .start (.ofMillis s.initialDelay) (.ofMillis s.maxDelay) s.factor

section Json
open Herald.Json

def endpointField : Json.Field String := .required "endpoint" .text
def initialDelayField : Json.Field UInt64 := .preset "initial_retry_delay_ms" .word64 1000
def maxDelayField : Json.Field UInt64 := .preset "max_retry_delay_ms" .word64 300000
def factorField : Json.Field UInt32 := .preset "backoff_factor" .word32 2

def reader : Reader Settings := fun n => do
  let members ← membersOf "ClientConfig"
    [endpointField.slot, initialDelayField.slot, maxDelayField.slot, factorField.slot] n
  return {
    endpoint := ← endpointField.get members
    initialDelay := ← initialDelayField.get members
    maxDelay := ← maxDelayField.get members
    factor := ← factorField.get members }

def toNode (s : Settings) : Node :=
  record [
    (endpointField.name, .ofText s.endpoint),
    (initialDelayField.name, .ofInt s.initialDelay.toNat),
    (maxDelayField.name, .ofInt s.maxDelay.toNat),
    (factorField.name, .ofInt s.factor.toNat)]

def ofJson (text : String) : Except Fault Settings :=
  match readText reader text with
  | .error failure => .error (.unreadable failure.message)
  | .ok s => do
    s.validate
    return s

def ofFile : Option (List UInt8) → Except Fault Settings
  | none => .error .unavailable
  | some bytes =>
    match String.fromUTF8? ⟨bytes.toArray⟩ with
    | none => .error .unavailable
    | some text => ofJson text

end Json

end Settings

end Herald
