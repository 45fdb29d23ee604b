import Herald.Text.Hidden

namespace Herald.Text

def hexNumeral (n : Nat) : List Char :=
  Nat.toDigits 16 n

def escapeIn (delimiter c : Char) : List Char :=
  match c with
  | '\x00' => ['\\', '0']
  | '\t' => ['\\', 't']
  | '\n' => ['\\', 'n']
  | '\r' => ['\\', 'r']
  | '\\' => ['\\', '\\']
  | c =>
    if c = delimiter then ['\\', c]
    else if isHidden c then ['\\', 'u', '\x7b'] ++ hexNumeral c.toNat ++ ['\x7d']
    else [c]

def quote (s : String) : String :=
  String.ofList ('"' :: s.toList.flatMap (escapeIn '"') ++ ['"'])

def quoteChar (c : Char) : String :=
  String.ofList ('\'' :: escapeIn '\'' c ++ ['\''])

example : quote "a\"b\n\u0301" = "\"a\\\"b\\n\\u\x7b301\x7d\"" := by decide +kernel

end Herald.Text
