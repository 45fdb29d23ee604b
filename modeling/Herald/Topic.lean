import Herald.Call
import Herald.Key.Selection

namespace Herald

structure Caller (L : Type) where
  ticket : Ticket
  keyNames : List String
  listener : L

structure Terms where
  expression : String
  keyNames : List String
  table : Key.Table
  insecure : Bool

structure Holding where
  id : BrokerId
  terms : Terms

inductive Errand
  | add (terms : Terms)
  | modify (terms : Terms)
  | delete

structure Pending where
  request : RequestNo
  errand : Errand

/-- A topic that is not active is only waiting to be deleted, and keeps its last key names. A refused topic
waits for the callers to change their wish. -/
structure Topic (L : Type) where
  expression : String
  keyNames : List String
  callers : List (Caller L)
  isActive : Bool
  held : Option Holding
  pending : Option Pending
  refused : Bool

namespace Terms

def selection (t : Terms) : Key.Selection :=
  ⟨t.table, t.keyNames⟩

def ring (t : Terms) : Key.Ring :=
  t.selection.ring .receive

def wanted (expression : String) (keyNames : List String) (table : Key.Table) : Terms :=
  ⟨expression, keyNames, table, (Key.Selection.ring ⟨table, keyNames⟩ .receive).isEmpty⟩

def amendment (old new : Terms) : Amendment where
  expression := if old.expression = new.expression then none else some new.expression
  keys := old.selection.changeTo new.selection .receive
  insecure := if old.insecure = new.insecure then none else some new.insecure

end Terms

namespace Amendment

def isEmpty (a : Amendment) : Bool :=
  a.expression.isNone && a.keys.isEmpty && a.insecure.isNone

end Amendment

inductive Need
  | nothing
  | removal
  | confirmation (terms : Terms)
  | order (errand : Errand) (order : Order)

namespace Topic

variable {L : Type}

def ofExpression (expression : String) : Topic L :=
  ⟨expression, [], [], true, none, none, false⟩

def wantedNames (t : Topic L) : List String :=
  (t.callers.flatMap (·.keyNames)).eraseDups

/-- Takes up the callers' key names; new names are a new wish. -/
def refresh (t : Topic L) : Topic L :=
  if t.wantedNames = t.keyNames then t else { t with keyNames := t.wantedNames, refused := false }

def join (t : Topic L) (caller : Caller L) : Topic L :=
  let t := { t with callers := t.callers ++ [caller], isActive := true, refused := false }
  t.refresh

def leave (t : Topic L) (ticket : Ticket) : Topic L :=
  let t := { t with callers := t.callers.filter (·.ticket ≠ ticket) }
  if t.callers.isEmpty then { t with isActive := false } else t.refresh

def replace (t : Topic L) (caller : Caller L) : Topic L :=
  let callers := t.callers.map fun c => if c.ticket = caller.ticket then caller else c
  let t := { t with callers }
  t.refresh

def forget (t : Topic L) : Topic L :=
  { t with held := none, pending := none, refused := false }

def wish (t : Topic L) (table : Key.Table) : Terms :=
  .wanted t.expression t.keyNames table

def needOfWish (t : Topic L) (wish : Terms) : Need :=
  match t.held with
  | none => .order (.add wish) (.add wish.expression wish.ring wish.insecure)
  | some holding =>
    let amendment := holding.terms.amendment wish
    if amendment.isEmpty then .confirmation wish
    else .order (.modify wish) (.modify holding.id amendment)

def need (t : Topic L) (table : Key.Table) (connected : Bool) : Need :=
  if t.pending.isSome then .nothing
  else if !t.isActive then
    match t.held with
    | none => .removal
    | some holding => if connected then .order .delete (.delete holding.id) else .nothing
  else if !connected || t.refused then .nothing
  else t.needOfWish (t.wish table)

def confirm (t : Topic L) (terms : Terms) : Topic L :=
  { t with held := t.held.map fun holding => { holding with terms } }

end Topic

structure TopicInfo where
  expression : String
  keyNames : List String
  listeners : Nat
  active : Bool
  brokerId : Option BrokerId
  pending : Bool
  refused : Bool
  deriving DecidableEq, Repr

def Topic.info {L : Type} (t : Topic L) : TopicInfo where
  expression := t.expression
  keyNames := t.keyNames
  listeners := t.callers.length
  active := t.isActive
  brokerId := t.held.map (·.id)
  pending := t.pending.isSome
  refused := t.refused

end Herald
