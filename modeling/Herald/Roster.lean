import Herald.Client
import Herald.Message

namespace Herald

structure Member where
  group : Group
  ticket : Ticket
  deriving DecidableEq, Repr

structure Roster where
  members : List Member
  deriving DecidableEq, Repr

structure Report where
  updated : List String
  added : List String
  removed : List String
  errors : List (String × Fault)
  deriving DecidableEq, Repr

structure Delivery where
  message : Message
  autoMime : Bool
  deriving DecidableEq, Repr

def Group.delivery? (g : Group) (n : Notification) : Option Delivery :=
  (Message.ofNotification? n g).map fun message => ⟨message, g.autoMime⟩

/-- A reload under way: the members without a new group yet, and those with one. -/
structure Reload (L : Type) where
  client : Client L
  calls : List Call
  old : List Member
  members : List Member
  report : Report

namespace Reload

variable {L : Type}

def proceed {α : Type} (r : Reload L) (done : Except Fault α × Client L × List Call) : Reload L :=
  { r with client := done.2.1, calls := r.calls ++ done.2.2 }

def keep (r : Reload L) (g : Group) (ticket : Ticket) : Reload L :=
  { r with members := r.members ++ [⟨g, ticket⟩] }

def refuse (r : Reload L) (g : Group) (fault : Fault) : Reload L :=
  { r with report := { r.report with errors := r.report.errors ++ [(g.name, fault)] } }

/-- Takes in a group: the first old member with its expression is revised, or else it is subscribed. -/
def place (listener : Group → L) (r : Reload L) (g : Group) : Reload L :=
  let wish : Wish L := ⟨g.expression, g.keyNames, listener g⟩
  match r.old.find? (·.group.expression = g.expression) with
  | some m =>
    let done := r.client.revise m.ticket wish
    let r := { r.proceed done with old := r.old.eraseP (·.group.expression = g.expression) }
    match done.1 with
    | .ok () => { r.keep g m.ticket with report := { r.report with updated := r.report.updated ++ [g.name] } }
    | .error fault => r.refuse g fault
  | none =>
    let done := r.client.subscribe wish
    let r := r.proceed done
    match done.1 with
    | .ok ticket => { r.keep g ticket with report := { r.report with added := r.report.added ++ [g.name] } }
    | .error fault => r.refuse g fault

/-- Releases a member. A ticket that is not known any more is passed over. -/
def release (r : Reload L) (m : Member) : Reload L :=
  r.proceed (r.client.unsubscribe m.ticket)

def remove (r : Reload L) (m : Member) : Reload L :=
  let r := r.release m
  { r with report := { r.report with removed := r.report.removed ++ [m.group.name] } }

end Reload

namespace Roster

variable {L : Type}

def empty : Roster := ⟨[]⟩

def begin (r : Roster) (c : Client L) : Reload L :=
  ⟨c, [], r.members, [], ⟨[], [], [], []⟩⟩

def reload (r : Roster) (listener : Group → L) (c : Client L) (groups : List Group) :
    Roster × Report × Client L × List Call :=
  let placed := groups.foldl (Reload.place listener) (r.begin c)
  let done := placed.old.foldl Reload.remove placed
  (⟨done.members⟩, done.report, done.client, done.calls)

def clear (r : Roster) (c : Client L) : Roster × Client L × List Call :=
  let done := r.members.foldl Reload.release (r.begin c)
  (empty, done.client, done.calls)

def groups (r : Roster) : List Group :=
  r.members.map (·.group)

def menu (r : Roster) : List String :=
  (r.groups.filter (·.inMenu)).map (·.name)

def ticket? (r : Roster) (name : String) : Option Ticket :=
  (r.members.find? (·.group.name = name)).map (·.ticket)

end Roster

end Herald
