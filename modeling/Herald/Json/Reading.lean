import Herald.Json.Node
import Herald.Json.Failure
/-!
Reading typed values from JSON trees. A record is written as an object or as the list of its fields; its
parts are read in the order of the text, and the first flaw counts. Members that are no fields are
passed over, and nothing in them counts but a broken part.
-/

namespace Herald.Json

abbrev Reader (α : Type) := Node → Except Failure α

def Node.mismatch {α : Type} (expected : String) : Reader α
  | .null => .error (.wrongType .null expected)
  | .bool b => .error (.wrongType (.bool b) expected)
  | .number (some n) => .error (.wrongType (.number n) expected)
  | .text (some s) => .error (.wrongType (.text s) expected)
  | .list _ => .error (.wrongType .list expected)
  | .object _ => .error (.wrongType .object expected)
  | .number none | .text none | .broken => .error .malformed

namespace Reader

def text : Reader String
  | .text (some s) => .ok s
  | n => n.mismatch "a string"

def bool : Reader Bool
  | .bool b => .ok b
  | n => n.mismatch "a boolean"

def word (bits : Nat) : Reader Nat
  | .number (some (.int i)) =>
    if 0 ≤ i ∧ i.toNat < 1 <<< bits then .ok i.toNat else .error (.outOfRange i s!"u{bits}")
  | n => n.mismatch s!"u{bits}"

def list {α : Type} (item : Reader α) : Reader (List α)
  | .list items => items.mapM item
  | n => n.mismatch "a sequence"

def optional {α : Type} (value : Reader α) : Reader (Option α)
  | .null => .ok none
  | n => some <$> value n

def bytes : Reader (List UInt8) :=
  list fun n => UInt8.ofNat <$> word 8 n

end Reader

/-- A field of a record. `absent` is its value if an object does not name it; a list of fields may end
before it if `mayEnd`. -/
structure Field (α : Type) where
  name : String
  read : Reader α
  absent : Option α
  mayEnd : Bool

structure Slot where
  name : String
  check : Reader Unit
  mayEnd : Bool

namespace Field

variable {α : Type}

def required (name : String) (read : Reader α) : Field α :=
  ⟨name, read, none, false⟩

def nullable (name : String) (read : Reader α) : Field (Option α) :=
  ⟨name, read.optional, some none, false⟩

def preset (name : String) (read : Reader α) (value : α) : Field α :=
  ⟨name, read, some value, true⟩

def slot (f : Field α) : Slot where
  name := f.name
  check := fun n => do
    let _ ← f.read n
  mayEnd := f.mayEnd

def get (f : Field α) (members : List (String × Node)) : Except Failure α :=
  match members.lookup f.name, f.absent with
  | some n, _ => f.read n
  | none, some value => .ok value
  | none, none => .error (.missing f.name)

end Field

def membersOfObject (slots : List Slot) :
    List (String × Node) → List (Option String × Node) → Except Failure (List (String × Node))
  | seen, [] => .ok seen
  | _, (none, _) :: _ => .error .malformed
  | seen, (some key, n) :: rest =>
    match slots.find? (·.name = key) with
    | some slot =>
      if (seen.lookup key).isSome then .error (.duplicate key)
      else do
        slot.check n
        membersOfObject slots ((key, n) :: seen) rest
    | none => if n.accepts false then membersOfObject slots seen rest else .error .malformed

def membersOfList (record : String) (fields : Nat) :
    Nat → List Slot → List Node → Except Failure (List (String × Node))
  | _, [], [] => .ok []
  | _, [], _ :: _ => .error .malformed
  | position, slot :: slots, [] =>
    if slot.mayEnd then membersOfList record fields (position + 1) slots []
    else .error (.wrongLength position record fields)
  | position, slot :: slots, n :: rest => do
    slot.check n
    let members ← membersOfList record fields (position + 1) slots rest
    return (slot.name, n) :: members

def membersOf (record : String) (slots : List Slot) : Reader (List (String × Node))
  | .object members => membersOfObject slots [] members
  | .list items => membersOfList record slots.length 0 slots items
  | n => n.mismatch s!"struct {record}"

def readText {α : Type} (reader : Reader α) (s : String) : Except Failure α := do
  let d := Document.ofText s
  let value ← reader d.root
  if d.whole then return value else throw .malformed

end Herald.Json
