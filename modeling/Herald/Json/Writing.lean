import Herald.Json.Node
import Herald.Json.Failure

namespace Herald.Json

def controlUnit (n : Nat) : List Char :=
  ['\\', 'u', '0', '0', Text.Hex.digit (n / 16), Text.Hex.digit (n % 16)]

def escape (c : Char) : List Char :=
  match c with
  | '"' => ['\\', '"']
  | '\\' => ['\\', '\\']
  | '\x08' => ['\\', 'b']
  | '\x0c' => ['\\', 'f']
  | '\n' => ['\\', 'n']
  | '\r' => ['\\', 'r']
  | '\t' => ['\\', 't']
  | c => if c.toNat < 0x20 then controlUnit c.toNat else [c]

def writeString (s : String) : List Char :=
  '"' :: s.toList.flatMap escape ++ ['"']

def writeInt : Int → List Char
  | .ofNat n => Nat.toDigits 10 n
  | .negSucc n => '-' :: Nat.toDigits 10 (n + 1)

def writeNumber : Number → List Char
  | .int n => writeInt n
  | .real x => if x.isFinite then realLayout.write x else ['n', 'u', 'l', 'l']

namespace Node

mutual

def write : Node → List Char
  | .null => ['n', 'u', 'l', 'l']
  | .bool true => ['t', 'r', 'u', 'e']
  | .bool false => ['f', 'a', 'l', 's', 'e']
  | .number n => (n.map writeNumber).getD []
  | .text s => (s.map writeString).getD []
  | .list items => '[' :: writeItems items ++ [']']
  | .object members => '\x7b' :: writeMembers members ++ ['\x7d']
  | .broken => []

def writeItems : List Node → List Char
  | [] => []
  | [n] => n.write
  | n :: rest => n.write ++ ',' :: writeItems rest

def writeMember : Option String × Node → List Char
  | (key, n) => (key.map writeString).getD [] ++ ':' :: n.write

def writeMembers : List (Option String × Node) → List Char
  | [] => []
  | [m] => writeMember m
  | m :: rest => writeMember m ++ ',' :: writeMembers rest

end

def render (n : Node) : String :=
  String.ofList n.write

end Node

def record (fields : List (String × Node)) : Node :=
  .object (fields.map fun (name, n) => (some name, n))

def Node.ofText (s : String) : Node :=
  .text (some s)

def Node.ofInt (n : Int) : Node :=
  .number (some (.int n))

def Node.ofOption {α : Type} (write : α → Node) : Option α → Node
  | none => .null
  | some a => write a

def Node.ofBytes (bytes : List UInt8) : Node :=
  .list (bytes.map fun b => Node.ofInt b.toNat)

end Herald.Json
