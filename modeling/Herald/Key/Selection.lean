import Herald.Key.Table
import Herald.Key.Credential

namespace Herald.Key

inductive Usage
  | publish
  | receive
  deriving DecidableEq, Repr

namespace Entry

/-- The broker checks a secret on one side against its hash on the other. -/
def credentials (e : Entry) : Usage → List Credential
  | .publish =>
    (e.secret.map fun s => ⟨.producer, .secret s⟩).toList ++ [⟨.consumer, .hash e.hash⟩]
  | .receive =>
    ⟨.producer, .hash e.hash⟩ :: (e.secret.map fun s => ⟨.consumer, .secret s⟩).toList

/-- The entry to keep of two with the same hash, `kept` having been named first. -/
def prefer (kept : Option Entry) (e : Entry) : Entry :=
  match kept with
  | none => e
  | some k => if !k.isPrivate && e.isPrivate then e else k

end Entry

structure Selection where
  table : Table
  names : List String

namespace Selection

def named (s : Selection) : List Entry :=
  s.names.filterMap s.table.lookup

def byHash (s : Selection) : Std.ExtTreeMap Hash Entry :=
  s.named.foldl (fun kept e => kept.insert e.hash (.prefer kept[e.hash]? e)) ∅

def entries (s : Selection) : List Entry :=
  s.byHash.toList.map (·.2)

def ring (s : Selection) (usage : Usage) : Ring :=
  .ofList (s.entries.flatMap (·.credentials usage))

def matchesEntry (s : Selection) (e : Entry) : Bool :=
  s.byHash[e.hash]?.any (·.isPrivate == e.isPrivate)

def surplus (s other : Selection) (usage : Usage) : Ring :=
  .ofList ((s.entries.filter fun e => !other.matchesEntry e).flatMap (·.credentials usage))

def changeTo (s other : Selection) (usage : Usage) : Change where
  removed := s.surplus other usage
  added := other.surplus s usage

end Selection

end Herald.Key
