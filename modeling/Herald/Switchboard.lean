import Herald.Expression
import Herald.Operation
import Herald.Topic
import Std.Data.ExtTreeMap
/-!
The switchboard joins callers to topics, one topic for each expression, and keeps the broker in line with
the callers by one order at a time for each topic. Orders go out only over a link; without one the wishes
are kept until the next connection.
-/

namespace Herald

structure Wish (L : Type) where
  expression : String
  keyNames : List String
  listener : L

structure Rejection where
  expression : String
  refusal : Refusal
  deriving DecidableEq, Repr

structure Switchboard (L : Type) where
  topics : Std.ExtTreeMap TopicNo (Topic L)
  byExpression : Std.ExtTreeMap String TopicNo
  byBrokerId : Std.ExtTreeMap BrokerId TopicNo
  byTicket : Std.ExtTreeMap Ticket TopicNo
  byRequest : Std.ExtTreeMap RequestNo TopicNo
  table : Key.Table
  nextTopic : TopicNo
  nextTicket : Ticket
  nextRequest : RequestNo

def Wish.caller {L : Type} (w : Wish L) (ticket : Ticket) : Caller L :=
  ⟨ticket, w.keyNames, w.listener⟩

def Wish.label {L : Type} (w : Wish L) : String :=
  let names := ", ".intercalate (w.keyNames.map Text.quote)
  s!"SubscriptionRequest \x7b expression: {Text.quote w.expression}, key_names: [{names}], listener: Listener(..) \x7d"

namespace Switchboard

variable {L : Type}

def ofTable (table : Key.Table) : Switchboard L :=
  ⟨∅, ∅, ∅, ∅, ∅, table, 1, 1, 1⟩

def put (b : Switchboard L) (n : TopicNo) (t : Topic L) : Switchboard L :=
  { b with topics := b.topics.insert n t }

def drop (b : Switchboard L) (n : TopicNo) (t : Topic L) : Switchboard L :=
  { b with
    topics := b.topics.erase n
    byExpression :=
      if b.byExpression[t.expression]? = some n then b.byExpression.erase t.expression else b.byExpression
    byBrokerId :=
      match t.held with
      | none => b.byBrokerId
      | some holding => b.byBrokerId.erase holding.id }

def send (b : Switchboard L) (link : LinkId) (n : TopicNo) (t : Topic L) (errand : Errand)
    (order : Order) : Switchboard L × List Call :=
  let request := b.nextRequest
  let b := b.put n { t with pending := some ⟨request, errand⟩ }
  ({ b with byRequest := b.byRequest.insert request n, nextRequest := request + 1 },
    [.order link request order])

def settle (link : Option LinkId) (b : Switchboard L) (n : TopicNo) : Switchboard L × List Call :=
  match b.topics[n]? with
  | none => (b, [])
  | some t =>
    match t.need b.table link.isSome, link with
    | .nothing, _ => (b, [])
    | .removal, _ => (b.drop n t, [])
    | .confirmation terms, _ => (b.put n (t.confirm terms), [])
    | .order errand order, some link => b.send link n t errand order
    | .order _ _, none => (b, [])

def settleEach (link : Option LinkId) (b : Switchboard L) : List TopicNo → Switchboard L × List Call
  | [] => (b, [])
  | n :: rest =>
    let (b, first) := b.settle link n
    let (b, others) := b.settleEach link rest
    (b, first ++ others)

def settleAll (link : Option LinkId) (b : Switchboard L) : Switchboard L × List Call :=
  b.settleEach link b.topics.keys

def create (b : Switchboard L) (expression : String) : Switchboard L × TopicNo :=
  ({ b.put b.nextTopic (.ofExpression expression) with
      byExpression := b.byExpression.insert expression b.nextTopic
      nextTopic := b.nextTopic + 1 },
    b.nextTopic)

def join (b : Switchboard L) (n : TopicNo) (caller : Caller L) : Switchboard L :=
  match b.topics[n]? with
  | none => b
  | some t => { b.put n (t.join caller) with byTicket := b.byTicket.insert caller.ticket n }

def leave (b : Switchboard L) (n : TopicNo) (ticket : Ticket) : Switchboard L :=
  let b := { b with byTicket := b.byTicket.erase ticket }
  match b.topics[n]? with
  | none => b
  | some t => b.put n (t.leave ticket)

def replace (b : Switchboard L) (n : TopicNo) (caller : Caller L) : Switchboard L :=
  match b.topics[n]? with
  | none => b
  | some t => b.put n (t.replace caller)

def rename (b : Switchboard L) (n : TopicNo) (t : Topic L) (expression : String) : Switchboard L :=
  { b.put n { t with expression, refused := false } with
    byExpression := (b.byExpression.erase t.expression).insert expression n }

def topicFor (b : Switchboard L) (expression : String) : Switchboard L × TopicNo :=
  match b.byExpression[expression]? with
  | some n => (b, n)
  | none => b.create expression

def drawTicket (b : Switchboard L) : Switchboard L × Ticket :=
  ({ b with nextTicket := b.nextTicket + 1 }, b.nextTicket)

namespace Program

open Operation

variable (check : Expression.Check) (link : Option LinkId)

def checkExpression (expression : String) : Operation (Switchboard L) Unit :=
  match check expression with
  | none => pure ()
  | some reason => throw (.invalidExpression expression reason)

def subscribe (w : Wish L) : Operation (Switchboard L) Ticket := do
  checkExpression check w.expression
  let ticket ← draw drawTicket
  let n ← draw (topicFor · w.expression)
  change (join · n (w.caller ticket))
  perform (settle link · n)
  return ticket

def unsubscribe (ticket : Ticket) : Operation (Switchboard L) Unit := do
  let b ← state
  let n ← orFail (.unknownTicket ticket) b.byTicket[ticket]?
  change (leave · n ticket)
  perform (settle link · n)

/-- Puts a new wish in the place of a caller's old one. The only caller of a topic takes it along to an
expression that has no topic yet; any other caller moves to the topic of the new expression. -/
def revise (ticket : Ticket) (w : Wish L) : Operation (Switchboard L) Unit := do
  let b ← state
  let n ← orFail (.unknownTicket ticket) b.byTicket[ticket]?
  let t ← orFail (.unknownTicket ticket) b.topics[n]?
  unless t.expression = w.expression do
    checkExpression check w.expression
  let caller := w.caller ticket
  if t.expression = w.expression then
    change (replace · n caller)
    perform (settle link · n)
  else
    match b.byExpression[w.expression]? with
    | some other =>
      change (leave · n ticket)
      change (join · other caller)
      perform (settle link · n)
      perform (settle link · other)
    | none =>
      if t.callers.length = 1 then
        change (rename · n t w.expression)
        change (replace · n caller)
        perform (settle link · n)
      else
        change (leave · n ticket)
        let other ← draw (create · w.expression)
        change (join · other caller)
        perform (settle link · n)
        perform (settle link · other)

end Program

def subscribe (b : Switchboard L) (check : Expression.Check) (link : Option LinkId) (w : Wish L) :
    Except Fault Ticket × Switchboard L × List Call :=
  (Program.subscribe check link w).on b

def unsubscribe (b : Switchboard L) (link : Option LinkId) (ticket : Ticket) :
    Except Fault Unit × Switchboard L × List Call :=
  (Program.unsubscribe link ticket).on b

def revise (b : Switchboard L) (check : Expression.Check) (link : Option LinkId) (ticket : Ticket) (w : Wish L) :
    Except Fault Unit × Switchboard L × List Call :=
  (Program.revise check link ticket w).on b

def refuse (b : Switchboard L) (n : TopicNo) (t : Topic L) (terms : Terms) (refusal : Refusal) :
    Switchboard L × Option Rejection :=
  (b.put n { t with refused := true }, if t.isActive then some ⟨terms.expression, refusal⟩ else none)

/-- Takes in the answer to an order; an answer of another kind than the order only ends it. -/
def conclude (b : Switchboard L) (n : TopicNo) (t : Topic L) (errand : Errand) (ack : Ack) :
    Switchboard L × Option Rejection :=
  match errand, ack with
  | .add terms, .added (.ok id) =>
    ({ b.put n { t with held := some ⟨id, terms⟩ } with byBrokerId := b.byBrokerId.insert id n }, none)
  | .modify terms, .modified (.ok ()) => (b.put n (t.confirm terms), none)
  | .add terms, .added (.error refusal) => b.refuse n t terms refusal
  | .modify terms, .modified (.error refusal) => b.refuse n t terms refusal
  | .delete, .deleted _ =>
    ({ b.put n { t with held := none } with
        byBrokerId :=
          match t.held with
          | none => b.byBrokerId
          | some holding => b.byBrokerId.erase holding.id },
      none)
  | _, _ => (b.put n t, none)

def acknowledge (b : Switchboard L) (link : Option LinkId) (request : RequestNo) (ack : Ack) :
    Switchboard L × List Call × Option Rejection :=
  match b.byRequest[request]? with
  | none => (b, [], none)
  | some n =>
    let b := { b with byRequest := b.byRequest.erase request }
    match b.topics[n]? with
    | none => (b, [], none)
    | some t =>
      match t.pending with
      | none => (b, [], none)
      | some pending =>
        if pending.request = request then
          let (b, rejection) := b.conclude n { t with pending := none } pending.errand ack
          let (b, calls) := b.settle link n
          (b, calls, rejection)
        else (b, [], none)

def disconnected (b : Switchboard L) : Switchboard L :=
  let topics := (b.topics.filter fun _ t => t.isActive).map fun _ t => t.forget
  { b with
    topics
    byExpression := b.byExpression.filter fun _ n => topics.contains n
    byBrokerId := ∅
    byRequest := ∅ }

def reconnected (b : Switchboard L) (link : Option LinkId) : Switchboard L × List Call :=
  b.disconnected.settleAll link

def adding (b : Switchboard L) : Nat :=
  b.topics.toList.countP fun (_, t) =>
    match t.pending with
    | some ⟨_, .add _⟩ => true
    | _ => false

def rekey (b : Switchboard L) (link : Option LinkId) (table : Key.Table) : Switchboard L × List Call :=
  { b with table }.settleAll link

def unsubscribeEach (link : Option LinkId) (b : Switchboard L) :
    List Ticket → Switchboard L × List Call
  | [] => (b, [])
  | ticket :: rest =>
    let (_, b, first) := b.unsubscribe link ticket
    let (b, others) := b.unsubscribeEach link rest
    (b, first ++ others)

def unsubscribeAll (b : Switchboard L) (link : Option LinkId) : Switchboard L × List Call :=
  b.unsubscribeEach link b.byTicket.keys

def audience (b : Switchboard L) (id : BrokerId) : List L :=
  match b.byBrokerId[id]? with
  | none => []
  | some n =>
    match b.topics[n]? with
    | none => []
    | some t => if t.isActive then t.callers.map (·.listener) else []

def info? (b : Switchboard L) (ticket : Ticket) : Option TopicInfo := do
  let n ← b.byTicket[ticket]?
  let t ← b.topics[n]?
  return t.info

def infos (b : Switchboard L) : List TopicInfo :=
  (b.topics.toList.map (·.2.info)).mergeSort fun a c => (compare a.expression c.expression).isLE

def size (b : Switchboard L) : Nat :=
  b.topics.size

end Switchboard

end Herald
