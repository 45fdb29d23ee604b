import Herald.Decimal.Layout
import Herald.Text.Quoted
import Herald.Json.Numeral

namespace Herald.Json

inductive Found
  | null
  | bool (value : Bool)
  | number (value : Number)
  | text (value : String)
  | list
  | object
  deriving DecidableEq, Repr

inductive Failure
  | malformed
  | wrongType (found : Found) (expected : String)
  | outOfRange (value : Int) (expected : String)
  | missing (field : String)
  | duplicate (field : String)
  | wrongLength (length : Nat) (record : String) (fields : Nat)
  | noVariant (type : String)
  deriving DecidableEq, Repr

def realLayout : Decimal.Layout :=
  ⟨-5, 15⟩

def realText (x : Binary64) : String :=
  String.ofList (realLayout.write x)

def Found.message : Found → String
  | .null => "null"
  | .bool b => s!"boolean `{b}`"
  | .number (.int n) => s!"integer `{n}`"
  | .number (.real x) => s!"floating point `{realText x}`"
  | .text s => s!"string {Text.quote s}"
  | .list => "sequence"
  | .object => "map"

def Failure.message : Failure → String
  | .malformed => "malformed"
  | .wrongType found expected => s!"invalid type: {found.message}, expected {expected}"
  | .outOfRange n expected => s!"invalid value: integer `{n}`, expected {expected}"
  | .missing field => s!"missing field `{field}`"
  | .duplicate field => s!"duplicate field `{field}`"
  | .wrongLength length record fields =>
    let unit := if fields = 1 then "element" else "elements"
    s!"invalid length {length}, expected struct {record} with {fields} {unit}"
  | .noVariant type => s!"data did not match any variant of untagged enum {type}"

end Herald.Json
