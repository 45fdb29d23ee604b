import Herald.Call
import Herald.Settings

namespace Herald

inductive Status
  | neverConnected
  | connected
  | lostConnection
  | reconnectFailed
  | disconnected
  deriving DecidableEq, Repr

def Status.isDown : Status → Bool
  | .connected => false
  | .disconnected => false
  | _ => true

inductive Turn
  | connected
  | reconnected
  | connectFailed (failure : LinkFailure)
  | lost (failure : LinkFailure)
  deriving DecidableEq, Repr

/-- `failureReported` is about the present outage only. -/
structure Connection where
  endpoint : String
  status : Status
  link? : Option LinkId
  backoff : Backoff
  hasConnected : Bool
  failureReported : Bool
  awaited : Option AttemptNo
  nextAttempt : AttemptNo
  deriving DecidableEq, Repr

namespace Connection

def ofSettings (s : Settings) : Connection :=
  ⟨s.endpoint, .neverConnected, none, s.backoff, false, false, none, 1⟩

def dial (c : Connection) : Connection × List Call :=
  if c.status.isDown && c.awaited.isNone then
    ({ c with awaited := some c.nextAttempt, nextAttempt := c.nextAttempt + 1 },
      [.connect c.nextAttempt c.endpoint])
  else (c, [])

def succeed (c : Connection) (link : LinkId) : Connection × Turn :=
  ({ c with
      status := .connected
      link? := some link
      backoff := c.backoff.reset
      hasConnected := true
      failureReported := false
      awaited := none },
    if c.hasConnected then .reconnected else .connected)

def fail (c : Connection) (failure : LinkFailure) : Connection × List Call × Option Turn :=
  ({ c with
      status := if c.hasConnected then .reconnectFailed else .neverConnected
      backoff := c.backoff.advance
      failureReported := true
      awaited := none },
    [.retry c.backoff.current],
    if c.failureReported then none else some (.connectFailed failure))

def connectResult (c : Connection) (attempt : AttemptNo) (result : Except LinkFailure LinkId) :
    Connection × List Call × Option Turn :=
  if c.awaited = some attempt then
    match result with
    | .ok link =>
      let (c, turn) := c.succeed link
      (c, [], some turn)
    | .error failure => c.fail failure
  else
    match result with
    | .ok link => (c, [.disconnect link], none)
    | .error _ => (c, [], none)

def lose (c : Connection) (failure : LinkFailure) : Connection × List Call × Option Turn :=
  if c.status = .connected then
    let (c, calls) := { c with status := .lostConnection, link? := none, failureReported := true }.dial
    (c, calls, some (.lost failure))
  else (c, [], none)

def close (c : Connection) : Connection × List Call :=
  ({ c with status := .disconnected, link? := none, awaited := none }, c.link?.toList.map .disconnect)

end Connection

end Herald
