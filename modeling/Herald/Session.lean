import Herald.Roster

namespace Herald

inductive Act (L : Type)
  | input (i : Input L)
  | reload (groups : List Group)
  | clear
  | info (ticket : Ticket)
  | keyNames

inductive Listener
  | group (g : Group)
  | script (label : String) (acts : List (Act Listener))

inductive Answer
  | reply (r : Reply)
  | report (r : Report)
  | info (i : Option TopicInfo)
  | keyNames (names : List String)

inductive Note
  | heard (label : String) (notification : Notification)
  | answered (label : String) (answer : Answer)

inductive Task
  | hear (listener : Listener) (notification : Notification)
  | act (label : String) (act : Act Listener)
  | note (note : Note)

structure Session where
  client : Client Listener
  roster : Roster
  calls : List Call
  notes : List Note
  news : List News
  deliveries : List Delivery

namespace Session

def ofSettings (check : Expression.Check) (s : Settings) : Except Fault Session := do
  let client ← Client.ofSettings check s
  return ⟨client, .empty, [], [], [], []⟩

def forget (s : Session) : Session :=
  { s with calls := [], notes := [], news := [], deliveries := [] }

def reloadGroups (s : Session) (groups : List Group) : Session × Report :=
  let (roster, report, client, calls) := s.roster.reload .group s.client groups
  ({ s with roster, client, calls := s.calls ++ calls }, report)

def clearGroups (s : Session) : Session :=
  let (roster, client, calls) := s.roster.clear s.client
  { s with roster, client, calls := s.calls ++ calls }

def hearing (i : Input Listener) (audience : List Listener) : List Task :=
  match i with
  | .arrival (.notification _ n) => audience.map (.hear · n)
  | _ => []

def perform (s : Session) : Act Listener → Session × Answer × List Task
  | .input i =>
    let (client, output) := s.client.step i
    ({ s with client, calls := s.calls ++ output.calls, news := s.news ++ output.news },
      .reply output.reply, hearing i output.audience)
  | .reload groups =>
    let (s, report) := s.reloadGroups groups
    (s, .report report, [])
  | .clear => (s.clearGroups, .reply .nothing, [])
  | .info ticket => (s, .info (s.client.board.info? ticket), [])
  | .keyNames => (s, .keyNames s.client.board.table.names, [])

/-- Does a task; the tasks it sets off come before the others. -/
def work (s : Session) : Task → Session × List Task
  | .hear (.group g) n => ({ s with deliveries := s.deliveries ++ (g.delivery? n).toList }, [])
  | .hear (.script label acts) n =>
    ({ s with notes := s.notes ++ [.heard label n] }, acts.map (.act label))
  | .act label a =>
    let (s, answer, tasks) := s.perform a
    (s, tasks ++ [.note (.answered label answer)])
  | .note note => ({ s with notes := s.notes ++ [note] }, [])

def workOff : Nat → Session → List Task → Session
  | 0, s, _ => s
  | _ + 1, s, [] => s
  | limit + 1, s, task :: tasks =>
    let (s, first) := s.work task
    workOff limit s (first ++ tasks)

/-- Listeners may set off no more tasks than this after one act. -/
def taskLimit : Nat := 1000000

def act (s : Session) (a : Act Listener) : Session × Answer :=
  let (s, answer, tasks) := s.perform a
  (workOff taskLimit s tasks, answer)

end Session

end Herald
