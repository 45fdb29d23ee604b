import Herald.Text.Blank

namespace Herald.Expression

inductive Flaw
  | blank
  | unmatchedClose
  | unfinishedString
  | unmatchedOpen
  deriving DecidableEq, Repr

def Flaw.message : Flaw → String
  | .blank => "empty expression"
  | .unmatchedClose => "unbalanced ')'"
  | .unfinishedString => "unterminated string"
  | .unmatchedOpen => "unbalanced '('"

def scan (inString : Bool) (depth : Nat) : List Char → Option Flaw
  | [] => if inString then some .unfinishedString else if depth = 0 then none else some .unmatchedOpen
  | c :: rest =>
    if c = '"' then scan (!inString) depth rest
    else if inString then scan inString depth rest
    else if c = '(' then scan inString (depth + 1) rest
    else if c = ')' then
      match depth with
      | 0 => some .unmatchedClose
      | depth + 1 => scan inString depth rest
    else scan inString depth rest

def flaw? (expression : String) : Option Flaw :=
  if expression.toList.all Text.isBlank then some .blank else scan false 0 expression.toList

/-- What a transport says of an expression before it is sent: the reason to refuse it, if there is one. -/
abbrev Check := String → Option String

def refusal? (expression : String) : Option String :=
  (flaw? expression).map Flaw.message

end Herald.Expression
