import Herald.Json.Reading
import Herald.Json.Writing
import Std.Data.ExtTreeMap

namespace Herald

inductive Value
  | int32 (n : Int32)
  | int64 (n : Int64)
  | real (x : Binary64)
  | text (s : String)
  | bytes (b : List UInt8)
  deriving DecidableEq, Repr

namespace Value

def text? : Value → Option String
  | .text s => some s
  | _ => none

def int? : Value → Option Int
  | .int32 n => some n.toInt
  | .int64 n => some n.toInt
  | _ => none

section Json
open Herald.Json

def ofInt (i : Int) : Option Value :=
  if Int32.minValue.toInt ≤ i ∧ i ≤ Int32.maxValue.toInt then some (.int32 (.ofInt i))
  else if Int64.minValue.toInt ≤ i ∧ i ≤ Int64.maxValue.toInt then some (.int64 (.ofInt i))
  else (Binary64.ofNat i.toNat).map .real

def byte? : Node → Option UInt8
  | .number (some (.int i)) => if 0 ≤ i ∧ i < 256 then some (UInt8.ofNat i.toNat) else none
  | _ => none

def ofNode? : Node → Option Value
  | .number (some (.int i)) => ofInt i
  | .number (some (.real x)) => some (.real x)
  | .text (some s) => some (.text s)
  | .list items => (items.mapM byte?).map .bytes
  | _ => none

/-- Reads a value with `depth` lists and objects around it. The whole of it is read before its type is
looked at, and no more than 127 lists and objects may stand inside each other. -/
def reader (depth : Nat) : Reader Value := fun n =>
  if n.accepts true ∧ depth + n.nesting < 128 then
    match ofNode? n with
    | some v => .ok v
    | none => .error (.noVariant "Value")
  else .error .malformed

def toNode : Value → Node
  | .int32 n => .ofInt n.toInt
  | .int64 n => .ofInt n.toInt
  | .real x => .number (some (.real x))
  | .text s => .ofText s
  | .bytes b => .ofBytes b

end Json

end Value

structure Notification where
  attributes : Std.ExtTreeMap String Value

namespace Notification

def empty : Notification := ⟨∅⟩

def insert (n : Notification) (name : String) (v : Value) : Notification :=
  ⟨n.attributes.insert name v⟩

def insertText (n : Notification) (name : String) (s : Option String) : Notification :=
  match s with
  | none => n
  | some s => n.insert name (.text s)

def get? (n : Notification) (name : String) : Option Value :=
  n.attributes[name]?

def text? (n : Notification) (name : String) : Option String :=
  (n.get? name).bind Value.text?

def int? (n : Notification) (name : String) : Option Int :=
  (n.get? name).bind Value.int?

def toList (n : Notification) : List (String × Value) :=
  n.attributes.toList

def ofList (attributes : List (String × Value)) : Notification :=
  attributes.foldl (fun n (name, v) => n.insert name v) empty

@[simp] theorem get?_empty (name : String) : empty.get? name = none := by
  simp [empty, get?]

@[simp] theorem get?_insert (n : Notification) (name other : String) (v : Value) :
    (n.insert name v).get? other = if name = other then some v else n.get? other := by
  simp [insert, get?, Std.ExtTreeMap.getElem?_insert]

theorem ext_get? {n m : Notification} (h : ∀ name, n.get? name = m.get? name) : n = m := by
  cases n
  cases m
  simp only [mk.injEq]
  exact Std.ExtTreeMap.ext_getElem? fun {name} => h name

section Json
open Herald.Json

def membersReader (depth : Nat) : Notification → List (Option String × Node) → Except Failure Notification
  | found, [] => .ok found
  | _, (none, _) :: _ => .error .malformed
  | found, (some name, n) :: rest => do
    let v ← Value.reader depth n
    membersReader depth (found.insert name v) rest

def attributesReader : Reader Notification
  | .object members => membersReader 2 empty members
  | n => n.mismatch "a map"

def attributesField : Json.Field Notification := .required "attributes" attributesReader

def reader : Reader Notification := fun n => do
  let members ← membersOf "Notification" [attributesField.slot] n
  attributesField.get members

def toNode (n : Notification) : Node :=
  record [(attributesField.name, record (n.toList.map fun (name, v) => (name, v.toNode)))]

end Json

end Notification

end Herald
