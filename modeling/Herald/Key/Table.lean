import Herald.Fault
import Herald.Key.Hash
import Herald.Json.Reading
import Herald.Json.Writing
import Std.Data.ExtTreeMap

namespace Herald.Key

/-- A key as it is written down: a raw secret if private, the hash otherwise. -/
structure Record where
  name : String
  isPrivate : Bool
  data : List UInt8
  deriving DecidableEq, Repr

namespace Record

def label (r : Record) : String :=
  s!"KeyRecord \x7b name: {Text.quote r.name}, is_private: {r.isPrivate}, len: {r.data.length} \x7d"

section Json
open Herald.Json

def nameField : Json.Field String := .required "name" .text
def isPrivateField : Json.Field Bool := .required "is_private" .bool
def dataField : Json.Field (List UInt8) := .required "data" .bytes

def reader : Reader Record := fun n => do
  let members ← membersOf "KeyRecord" [nameField.slot, isPrivateField.slot, dataField.slot] n
  return {
    name := ← nameField.get members
    isPrivate := ← isPrivateField.get members
    data := ← dataField.get members }

def toNode (r : Record) : Node :=
  record [
    (nameField.name, .ofText r.name),
    (isPrivateField.name, .bool r.isPrivate),
    (dataField.name, .ofBytes r.data)]

end Json

end Record

structure Entry where
  name : String
  secret : Option (List UInt8)
  hash : Hash
  hash_of_secret : ∀ s ∈ secret, hash = .ofSecret s

namespace Entry

def ofRecord (r : Record) : Entry :=
  if r.isPrivate then ⟨r.name, some r.data, .ofSecret r.data, by simp⟩
  else ⟨r.name, none, ⟨r.data⟩, by simp⟩

def isPrivate (e : Entry) : Bool :=
  e.secret.isSome

def data (e : Entry) : List UInt8 :=
  e.secret.getD e.hash.bytes

def label (e : Entry) : String :=
  s!"KeyEntry \x7b name: {Text.quote e.name}, private: {e.isPrivate}, hash: {e.hash.label} \x7d"

end Entry

structure Table where
  entries : Std.ExtTreeMap String Entry

namespace Table

def empty : Table := ⟨∅⟩

def lookup (t : Table) (name : String) : Option Entry :=
  t.entries[name]?

def add (t : Table) (r : Record) : Except Fault Table :=
  if r.name ∈ t.entries then .error (.keyExists r.name)
  else .ok ⟨t.entries.insert r.name (.ofRecord r)⟩

def remove (t : Table) (name : String) : Except Fault (Entry × Table) :=
  match t.lookup name with
  | none => .error (.keyNotFound name)
  | some entry => .ok (entry, ⟨t.entries.erase name⟩)

def ofRecords (records : List Record) : Except Fault Table :=
  records.foldlM add empty

def size (t : Table) : Nat :=
  t.entries.size

def names (t : Table) : List String :=
  t.entries.keys

theorem lookup_empty (name : String) : empty.lookup name = none := by
  simp [empty, lookup]

theorem lookup_add {t u : Table} {r : Record} (h : t.add r = .ok u) (name : String) :
    u.lookup name = if r.name = name then some (.ofRecord r) else t.lookup name := by
  unfold add at h
  split at h
  · simp at h
  · simp only [Except.ok.injEq] at h
    rw [← h]
    simp [lookup, Std.ExtTreeMap.getElem?_insert]

end Table

end Herald.Key
