import Herald.Json.Token
/-!
JSON documents as trees. Where a text stops being JSON its tree holds a `broken` part, which is the last
one of every list and object around it, so that a reader from left to right meets everything before it.
-/

namespace Herald.Json

inductive Node
  | null
  | bool (value : Bool)
  | number (value : Option Number)
  | text (value : Option String)
  | list (items : List Node)
  | object (members : List (Option String × Node))
  | broken
  deriving Repr

namespace Node

mutual

def accepts (strict : Bool) : Node → Bool
  | .null => true
  | .bool _ => true
  | .number n => !strict || n.isSome
  | .text s => !strict || s.isSome
  | .list items => acceptsItems strict items
  | .object members => acceptsMembers strict members
  | .broken => false

def acceptsItems (strict : Bool) : List Node → Bool
  | [] => true
  | n :: rest => n.accepts strict && acceptsItems strict rest

def acceptsMember (strict : Bool) : Option String × Node → Bool
  | (key, n) => (!strict || key.isSome) && n.accepts strict

def acceptsMembers (strict : Bool) : List (Option String × Node) → Bool
  | [] => true
  | m :: rest => acceptsMember strict m && acceptsMembers strict rest

end

mutual

def nesting : Node → Nat
  | .list items => nestingItems items + 1
  | .object members => nestingMembers members + 1
  | _ => 0

def nestingItems : List Node → Nat
  | [] => 0
  | n :: rest => max n.nesting (nestingItems rest)

def nestingMember : Option String × Node → Nat
  | (_, n) => n.nesting

def nestingMembers : List (Option String × Node) → Nat
  | [] => 0
  | m :: rest => max (nestingMember m) (nestingMembers rest)

end

end Node

/-- A list or an object that is not closed yet, with its parts so far, the last one first. -/
inductive Frame
  | list (items : List Node)
  | object (members : List (Option String × Node)) (key : Option String)

structure Document where
  root : Node
  whole : Bool

def breakOff (n : Node) : List Frame → Document
  | [] => ⟨n, false⟩
  | .list items :: frames => breakOff (.list (n :: items).reverse) frames
  | .object members key :: frames => breakOff (.object ((key, n) :: members).reverse) frames

inductive Progress
  | value (frames : List Frame)
  | member (members : List (Option String × Node)) (frames : List Frame)
  | colon (members : List (Option String × Node)) (key : Option String) (frames : List Frame)
  | complete (n : Node) (frames : List Frame)
  | stopped (d : Document)

namespace Progress

def document : Progress → Document
  | .value frames => breakOff .broken frames
  | .member members frames => breakOff .broken (.object members none :: frames)
  | .colon members key frames => breakOff .broken (.object members key :: frames)
  | .complete n [] => ⟨n, true⟩
  | .complete n (.list items :: frames) => breakOff .broken (.list (n :: items) :: frames)
  | .complete n (.object members key :: frames) =>
    breakOff .broken (.object ((key, n) :: members) none :: frames)
  | .stopped d => d

def next : Progress → Token → Progress
  | .value frames, .null => .complete .null frames
  | .value frames, .bool b => .complete (.bool b) frames
  | .value frames, .number n => .complete (.number n) frames
  | .value frames, .text s => .complete (.text s) frames
  | .value frames, .listOpen => .value (.list [] :: frames)
  | .value frames, .objectOpen => .member [] frames
  | .value (.list [] :: frames), .listClose => .complete (.list []) frames
  | .member members frames, .text s => .colon members s frames
  | .member [] frames, .objectClose => .complete (.object []) frames
  | .colon members key frames, .colon => .value (.object members key :: frames)
  | .complete n (.list items :: frames), .comma => .value (.list (n :: items) :: frames)
  | .complete n (.list items :: frames), .listClose => .complete (.list (n :: items).reverse) frames
  | .complete n (.object members key :: frames), .comma => .member ((key, n) :: members) frames
  | .complete n (.object members key :: frames), .objectClose =>
    .complete (.object ((key, n) :: members).reverse) frames
  | p, _ => .stopped ⟨p.document.root, false⟩

end Progress

def Document.ofTokens (ts : List Token) : Document :=
  (ts.foldl Progress.next (.value [])).document

def Document.ofText (s : String) : Document :=
  .ofTokens (tokens s.toList)

end Herald.Json
