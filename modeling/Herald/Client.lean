import Herald.Connection
import Herald.Switchboard

namespace Herald

inductive News
  | connection (turn : Turn)
  | rejected (rejection : Rejection)
  deriving DecidableEq, Repr

structure Client (L : Type) where
  check : Expression.Check
  connection : Connection
  board : Switchboard L

inductive Input (L : Type)
  | start
  | disconnect
  | shutdown
  | subscribe (wish : Wish L)
  | unsubscribe (ticket : Ticket)
  | revise (ticket : Ticket) (wish : Wish L)
  | send (notification : Notification) (keyNames : List String)
  | reloadKeys (records : List Key.Record)
  | arrival (arrival : Arrival)

/-- What a caller is answered: nothing for an arrival, `accepted` for an operation that may fail. -/
inductive Reply
  | nothing
  | accepted
  | ticket (ticket : Ticket)
  | sent (sent : Bool)
  | fault (fault : Fault)
  deriving DecidableEq, Repr

def Reply.ofResult {α : Type} (accepted : α → Reply) : Except Fault α → Reply
  | .ok a => accepted a
  | .error f => .fault f

structure Output (L : Type) where
  reply : Reply
  calls : List Call
  news : List News
  audience : List L

namespace Output

variable {L : Type}

def ofCalls (calls : List Call) : Output L :=
  ⟨.nothing, calls, [], []⟩

def ofNews (calls : List Call) (news : Option News) : Output L :=
  ⟨.nothing, calls, news.toList, []⟩

def ofReply (reply : Reply) (calls : List Call) : Output L :=
  ⟨reply, calls, [], []⟩

def ofAudience (audience : List L) : Output L :=
  ⟨.nothing, [], [], audience⟩

end Output

namespace Client

variable {L : Type}

def ofSettings (check : Expression.Check) (s : Settings) : Except Fault (Client L) := do
  s.validate
  return ⟨check, .ofSettings s, .ofTable .empty⟩

def link? (c : Client L) : Option LinkId :=
  c.connection.link?

def start (c : Client L) : Client L × List Call :=
  let (connection, calls) := c.connection.dial
  ({ c with connection }, calls)

def disconnect (c : Client L) : Client L × List Call :=
  let (connection, calls) := c.connection.close
  ({ c with connection, board := c.board.disconnected }, calls)

def shutdown (c : Client L) : Client L × List Call :=
  let (board, released) := c.board.unsubscribeAll c.link?
  let (c, closed) := { c with board }.disconnect
  (c, released ++ closed)

def onBoard {α : Type} (c : Client L) (done : Except Fault α × Switchboard L × List Call) :
    Except Fault α × Client L × List Call :=
  let (result, board, calls) := done
  (result, { c with board }, calls)

def subscribe (c : Client L) (w : Wish L) : Except Fault Ticket × Client L × List Call :=
  c.onBoard (c.board.subscribe c.check c.link? w)

def unsubscribe (c : Client L) (ticket : Ticket) : Except Fault Unit × Client L × List Call :=
  c.onBoard (c.board.unsubscribe c.link? ticket)

def revise (c : Client L) (ticket : Ticket) (w : Wish L) : Except Fault Unit × Client L × List Call :=
  c.onBoard (c.board.revise c.check c.link? ticket w)

def send (c : Client L) (n : Notification) (keyNames : List String) : Option Call :=
  c.link?.map fun link =>
    let keys := Key.Selection.ring ⟨c.board.table, keyNames⟩ .publish
    .notify link n keys keys.isEmpty

def reloadKeys (c : Client L) (records : List Key.Record) : Except Fault Unit × Client L × List Call :=
  match Key.Table.ofRecords records with
  | .error fault => (.error fault, c, [])
  | .ok table =>
    let (board, calls) := c.board.rekey c.link? table
    (.ok (), { c with board }, calls)

def connectResult (c : Client L) (attempt : AttemptNo) (result : Except LinkFailure LinkId) :
    Client L × List Call × Option Turn :=
  let (connection, calls, turn) := c.connection.connectResult attempt result
  match turn with
  | some .connected | some .reconnected =>
    let (board, orders) := c.board.reconnected connection.link?
    ({ c with connection, board }, calls ++ orders, turn)
  | _ => ({ c with connection }, calls, turn)

def connectionLost (c : Client L) (failure : LinkFailure) : Client L × List Call × Option Turn :=
  let (connection, calls, turn) := c.connection.lose failure
  match turn with
  | some _ => ({ c with connection, board := c.board.disconnected }, calls, turn)
  | none => ({ c with connection }, calls, turn)

def arrive (c : Client L) : Arrival → Client L × Output L
  | .connectResult attempt result =>
    let (c, calls, turn) := c.connectResult attempt result
    (c, .ofNews calls (turn.map .connection))
  | .retryDue =>
    let (c, calls) := c.start
    (c, .ofCalls calls)
  | .connectionLost failure =>
    let (c, calls, turn) := c.connectionLost failure
    (c, .ofNews calls (turn.map .connection))
  | .ack request ack =>
    let (board, calls, rejection) := c.board.acknowledge c.link? request ack
    ({ c with board }, .ofNews calls (rejection.map .rejected))
  | .notification id _ => (c, .ofAudience (c.board.audience id))
  | .notifySent _ => (c, .ofCalls [])

def outcome {α : Type} (accepted : α → Reply) (done : Except Fault α × Client L × List Call) :
    Client L × Output L :=
  let (result, c, calls) := done
  (c, .ofReply (.ofResult accepted result) calls)

def step (c : Client L) : Input L → Client L × Output L
  | .start =>
    let (c, calls) := c.start
    (c, .ofCalls calls)
  | .disconnect =>
    let (c, calls) := c.disconnect
    (c, .ofCalls calls)
  | .shutdown =>
    let (c, calls) := c.shutdown
    (c, .ofCalls calls)
  | .subscribe w => outcome .ticket (c.subscribe w)
  | .unsubscribe ticket => outcome (fun _ => .accepted) (c.unsubscribe ticket)
  | .revise ticket w => outcome (fun _ => .accepted) (c.revise ticket w)
  | .send n keyNames =>
    let call := c.send n keyNames
    (c, .ofReply (.sent call.isSome) call.toList)
  | .reloadKeys records => outcome (fun _ => .accepted) (c.reloadKeys records)
  | .arrival a => c.arrive a

end Client

end Herald
