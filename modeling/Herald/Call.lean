import Herald.Backoff
import Herald.Fault
import Herald.Key.Credential
import Herald.Notification

namespace Herald

/-- A change to a subscription at the broker; what is none stays as it is. -/
structure Amendment where
  expression : Option String
  keys : Key.Change
  insecure : Option Bool

inductive Order
  | add (expression : String) (keys : Key.Ring) (insecure : Bool)
  | modify (id : BrokerId) (amendment : Amendment)
  | delete (id : BrokerId)

inductive Call
  | connect (attempt : AttemptNo) (endpoint : String)
  | retry (delay : Delay)
  | disconnect (link : LinkId)
  | order (link : LinkId) (request : RequestNo) (order : Order)
  | notify (link : LinkId) (notification : Notification) (keys : Key.Ring) (insecure : Bool)

inductive Ack
  | added (result : Except Refusal BrokerId)
  | modified (result : Except Refusal Unit)
  | deleted (result : Except Refusal Unit)

inductive Arrival
  | connectResult (attempt : AttemptNo) (result : Except LinkFailure LinkId)
  | retryDue
  | connectionLost (failure : LinkFailure)
  | ack (request : RequestNo) (ack : Ack)
  | notification (id : BrokerId) (notification : Notification)
  | notifySent (result : Except Refusal Unit)

end Herald
