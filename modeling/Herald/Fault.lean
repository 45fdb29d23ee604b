import Herald.Text.Quoted

namespace Herald

abbrev LinkId := Nat

abbrev BrokerId := Nat

abbrev Ticket := Nat

abbrev RequestNo := Nat

abbrev AttemptNo := Nat

abbrev TopicNo := Nat

def LinkId.label (id : LinkId) : String :=
  s!"BrokerHandle({id})"

def BrokerId.label (id : BrokerId) : String :=
  s!"BrokerSubId({id})"

def Ticket.label (ticket : Ticket) : String :=
  s!"SubscriptionHandle({ticket})"

def RequestNo.label (request : RequestNo) : String :=
  s!"RequestId({request})"

def AttemptNo.label (attempt : AttemptNo) : String :=
  s!"AttemptId({attempt})"

structure LinkFailure where
  code : Int32
  text : String
  deriving DecidableEq, Repr

def LinkFailure.message (f : LinkFailure) : String :=
  s!"transport error {f.code}: {f.text}"

structure Refusal where
  code : Int32
  text : String
  deriving DecidableEq, Repr

def Refusal.message (r : Refusal) : String :=
  s!"broker rejected request ({r.code}): {r.text}"

inductive Fault
  | unavailable
  | invalidExpression (expression reason : String)
  | keyExists (name : String)
  | keyNotFound (name : String)
  | unknownTicket (ticket : Ticket)
  | invalidSettings (reason : String)
  | unreadable (reason : String)
  | disconnected
  deriving DecidableEq, Repr

def Fault.message : Fault → String
  | .unavailable => "IO error"
  | .invalidExpression expression reason =>
    s!"Invalid subscription expression {Text.quote expression}: {reason}"
  | .keyExists name => s!"Key already exists: {name}"
  | .keyNotFound name => s!"Key not found: {name}"
  | .unknownTicket ticket => s!"Unknown subscription: {ticket.label}"
  | .invalidSettings reason => s!"Invalid configuration: {reason}"
  | .unreadable reason => s!"Serialization error: {reason}"
  | .disconnected => "Client is disconnected"

end Herald
