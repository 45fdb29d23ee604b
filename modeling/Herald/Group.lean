import Herald.Settings

namespace Herald

/-- Times are in minutes. -/
structure Group where
  name : String
  expression : String
  inMenu : Bool
  autoMime : Bool
  minTime : UInt32
  maxTime : UInt32
  keyNames : List String
  deriving DecidableEq, Repr

namespace Group

def named (name : String) : Group :=
  ⟨name, s!"TICKERTAPE == \"{name}\"", true, false, 1, 60, []⟩

section Json
open Herald.Json

def nameField : Json.Field String := .required "name" .text
def expressionField : Json.Field String := .required "expression" .text
def inMenuField : Json.Field Bool := .required "in_menu" .bool
def autoMimeField : Json.Field Bool := .required "auto_mime" .bool
def minTimeField : Json.Field UInt32 := .required "min_time" .word32
def maxTimeField : Json.Field UInt32 := .required "max_time" .word32
def keyNamesField : Json.Field (List String) := .preset "key_names" (.list .text) []

def reader : Reader Group := fun n => do
  let members ← membersOf "GroupRecord"
    [nameField.slot, expressionField.slot, inMenuField.slot, autoMimeField.slot, minTimeField.slot,
      maxTimeField.slot, keyNamesField.slot] n
  return {
    name := ← nameField.get members
    expression := ← expressionField.get members
    inMenu := ← inMenuField.get members
    autoMime := ← autoMimeField.get members
    minTime := ← minTimeField.get members
    maxTime := ← maxTimeField.get members
    keyNames := ← keyNamesField.get members }

def toNode (g : Group) : Node :=
  record [
    (nameField.name, .ofText g.name),
    (expressionField.name, .ofText g.expression),
    (inMenuField.name, .bool g.inMenu),
    (autoMimeField.name, .bool g.autoMime),
    (minTimeField.name, .ofInt g.minTime.toNat),
    (maxTimeField.name, .ofInt g.maxTime.toNat),
    (keyNamesField.name, .list (g.keyNames.map .ofText))]

end Json

end Group

end Herald
