import Herald.Json.Numeral
import Herald.Text.Hex
/-!
The tokens of a JSON text. A text that is no row of tokens yields the tokens up to the first flaw and then
`broken`. A string whose escapes hold half a surrogate pair and a number beyond the largest double are
tokens without a value.
-/

namespace Herald.Json

inductive Token
  | objectOpen | objectClose | listOpen | listClose | comma | colon
  | null
  | bool (value : Bool)
  | number (value : Option Number)
  | text (value : Option String)
  | broken
  deriving DecidableEq, Repr

inductive Piece
  | char (c : Char)
  | unit (n : Nat)
  deriving DecidableEq, Repr

def escaped? : Char → Option Char
  | '"' => some '"'
  | '\\' => some '\\'
  | '/' => some '/'
  | 'b' => some '\x08'
  | 'f' => some '\x0c'
  | 'n' => some '\n'
  | 'r' => some '\r'
  | 't' => some '\t'
  | _ => none

def unit? (a b c d : Char) : Option Nat := do
  let a ← Text.Hex.value? a.toNat
  let b ← Text.Hex.value? b.toNat
  let c ← Text.Hex.value? c.toNat
  let d ← Text.Hex.value? d.toNat
  return 4096 * a + 256 * b + 16 * c + d

def pieces : List Char → Option (List Piece × List Char)
  | [] => none
  | '"' :: r => some ([], r)
  | '\\' :: 'u' :: a :: b :: c :: d :: r =>
    match unit? a b c d, pieces r with
    | some n, some (found, rest) => some (.unit n :: found, rest)
    | _, _ => none
  | '\\' :: c :: r =>
    match escaped? c, pieces r with
    | some c, some (found, rest) => some (.char c :: found, rest)
    | _, _ => none
  | c :: r =>
    if c.toNat < 0x20 then none
    else (pieces r).map fun (found, rest) => (.char c :: found, rest)

def assemble : List Piece → Option (List Char)
  | [] => some []
  | .char c :: r => (assemble r).map (c :: ·)
  | .unit n :: r =>
    if n < 0xd800 ∨ 0xdfff < n then (assemble r).map (Char.ofNat n :: ·)
    else if n < 0xdc00 then
      match r with
      | .unit m :: r =>
        if 0xdc00 ≤ m ∧ m ≤ 0xdfff then
          (assemble r).map (Char.ofNat (0x10000 + 0x400 * (n - 0xd800) + (m - 0xdc00)) :: ·)
        else none
      | _ => none
    else none

def isGap (c : Char) : Bool :=
  c == ' ' || c == '\n' || c == '\t' || c == '\r'

def lex (s : List Char) : Option (Token × List Char) :=
  match s with
  | '\x7b' :: r => some (.objectOpen, r)
  | '\x7d' :: r => some (.objectClose, r)
  | '[' :: r => some (.listOpen, r)
  | ']' :: r => some (.listClose, r)
  | ',' :: r => some (.comma, r)
  | ':' :: r => some (.colon, r)
  | 'n' :: 'u' :: 'l' :: 'l' :: r => some (.null, r)
  | 't' :: 'r' :: 'u' :: 'e' :: r => some (.bool true, r)
  | 'f' :: 'a' :: 'l' :: 's' :: 'e' :: r => some (.bool false, r)
  | '"' :: r => (pieces r).map fun (found, rest) => (.text ((assemble found).map String.ofList), rest)
  | s => (Numeral.scan s).map fun (n, rest) => (.number n.value, rest)

theorem length_pieces {s rest : List Char} {found : List Piece} (h : pieces s = some (found, rest)) :
    rest.length < s.length := by
  fun_induction pieces s generalizing found rest with
  | case1 => simp at h
  | case2 r => simp at h; simp [h.2]
  | case3 a b c d r n found' rest' hr _ ih =>
    have := ih hr
    simp at h
    simp [← h.2]
    omega
  | case4 => simp at h
  | case5 c r _ c' found' rest' hr _ ih =>
    have := ih hr
    simp at h
    simp [← h.2]
    omega
  | case6 => simp at h
  | case7 => simp at h
  | case8 c r _ _ _ _ ih =>
    obtain ⟨⟨found', rest'⟩, hr, h⟩ := Option.map_eq_some_iff.1 h
    have := ih hr
    simp at h
    simp [← h.2]
    omega

theorem length_lex {s rest : List Char} {t : Token} (h : lex s = some (t, rest)) :
    rest.length < s.length := by
  unfold lex at h
  split at h
  case h_10 r =>
    obtain ⟨⟨found, rest'⟩, hr, h⟩ := Option.map_eq_some_iff.1 h
    have := length_pieces hr
    simp at h
    simp [← h.2]
    omega
  case h_11 =>
    obtain ⟨⟨n, rest'⟩, hr, h⟩ := Option.map_eq_some_iff.1 h
    have := Numeral.length_scan hr
    simp at h
    simpa [← h.2] using this
  all_goals
    simp at h
    simp [← h.2]
    try omega

def tokens (s : List Char) : List Token :=
  match s with
  | [] => []
  | c :: r =>
    if isGap c then tokens r
    else
      match h : lex (c :: r) with
      | none => [.broken]
      | some (t, rest) =>
        have : rest.length ≤ r.length := Nat.le_of_lt_succ (length_lex h)
        t :: tokens rest
termination_by s.length

end Herald.Json
