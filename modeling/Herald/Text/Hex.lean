import Herald.Text.Quoted

namespace Herald.Text.Hex

def digit (n : Nat) : Char :=
  if n < 10 then Char.ofNat (48 + n) else Char.ofNat (87 + n)

def encodeByte (b : UInt8) : List Char :=
  [digit (b.toNat / 16), digit (b.toNat % 16)]

def encode (bytes : List UInt8) : String :=
  String.ofList (bytes.flatMap encodeByte)

def value? (code : Nat) : Option Nat :=
  if 48 ≤ code ∧ code ≤ 57 then some (code - 48)
  else if 97 ≤ code ∧ code ≤ 102 then some (code - 87)
  else if 65 ≤ code ∧ code ≤ 70 then some (code - 55)
  else none

inductive Flaw
  | oddLength
  | notADigit (byte : UInt8) (position : Nat)
  deriving DecidableEq, Repr

def Flaw.message : Flaw → String
  | .oddLength => "Odd number of digits"
  | .notADigit byte position =>
    s!"Invalid character {quoteChar (Char.ofNat byte.toNat)} at position {position}"

def pairs (position : Nat) : List UInt8 → Except Flaw (List UInt8)
  | [] => .ok []
  | [_] => .error .oddLength
  | high :: low :: rest =>
    match value? high.toNat, value? low.toNat with
    | none, _ => .error (.notADigit high position)
    | _, none => .error (.notADigit low (position + 1))
    | some h, some l => do
      let bytes ← pairs (position + 2) rest
      return UInt8.ofNat (16 * h + l) :: bytes

def utf8 (s : String) : List UInt8 :=
  s.toList.flatMap String.utf8EncodeChar

/-- Reads the UTF-8 bytes of a text as digits. An odd number of them is noticed before any digit is looked at. -/
def decode (s : String) : Except Flaw (List UInt8) :=
  let bytes := utf8 s
  if bytes.length % 2 = 1 then .error .oddLength else pairs 0 bytes

theorem value?_digit : ∀ n < 16, value? (digit n).toNat = some n := by
  decide

theorem utf8EncodeChar_digit :
    ∀ n < 16, String.utf8EncodeChar (digit n) = [UInt8.ofNat (digit n).toNat] := by
  decide

theorem toNat_ofNat_digit : ∀ n < 16, (UInt8.ofNat (digit n).toNat).toNat = (digit n).toNat := by
  decide

theorem utf8_encode (bytes : List UInt8) :
    utf8 (encode bytes) = bytes.flatMap fun b =>
      [UInt8.ofNat (digit (b.toNat / 16)).toNat, UInt8.ofNat (digit (b.toNat % 16)).toNat] := by
  simp only [utf8, encode, String.toList_ofList, List.flatMap_assoc]
  congr 1
  funext b
  have hb := b.toNat_lt
  simp [encodeByte, utf8EncodeChar_digit (b.toNat / 16) (by omega),
    utf8EncodeChar_digit (b.toNat % 16) (by omega)]

theorem pairs_utf8_encode (bytes : List UInt8) (position : Nat) :
    pairs position (utf8 (encode bytes)) = .ok bytes := by
  rw [utf8_encode]
  induction bytes generalizing position with
  | nil => rfl
  | cons b bytes ih =>
    have hb := b.toNat_lt
    have h₁ : b.toNat / 16 < 16 := by omega
    have h₂ : b.toNat % 16 < 16 := by omega
    simp only [List.flatMap_cons, List.cons_append, List.nil_append, pairs,
      toNat_ofNat_digit _ h₁, toNat_ofNat_digit _ h₂, value?_digit _ h₁, value?_digit _ h₂, ih]
    simp [bind, Except.bind, pure, Except.pure, show 16 * (b.toNat / 16) + b.toNat % 16 = b.toNat by omega]

theorem length_utf8_encode (bytes : List UInt8) :
    (utf8 (encode bytes)).length = 2 * bytes.length := by
  rw [utf8_encode]
  induction bytes with
  | nil => rfl
  | cons b bytes ih => simp at ih ⊢; omega

theorem decode_encode (bytes : List UInt8) : decode (encode bytes) = .ok bytes := by
  simp [decode, length_utf8_encode, pairs_utf8_encode]

end Herald.Text.Hex
