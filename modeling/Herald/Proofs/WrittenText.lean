import Herald.Json.Reading
import Herald.Json.Writing
/-!
Written trees. The text of a tree falls back into the tokens it was written from, and these build the tree again, inside
whatever is open around it. It holds of trees whose strings and numbers have values and whose numbers are whole and of
sixty-four bits; such are the trees of all records without doubles.
-/

namespace Herald.Json

section Numerals

variable {rest : List Char} {n : Nat}

def Ends (rest : List Char) : Prop :=
  ∀ c ∈ rest.head?, c = ',' ∨ c = ']' ∨ c = '\x7d'

theorem ends_nil : Ends [] := nofun

theorem ends_comma : Ends (',' :: rest) := fun _ hc => .inl (Option.some.inj hc).symm

theorem ends_listClose : Ends (']' :: rest) := fun _ hc => .inr (.inl (Option.some.inj hc).symm)

theorem ends_objectClose : Ends ('\x7d' :: rest) := fun _ hc => .inr (.inr (Option.some.inj hc).symm)

theorem Ends.takeWhile_isDigit (h : Ends rest) : rest.takeWhile Char.isDigit = [] := by
  cases rest with
  | nil => rfl
  | cons c rest => obtain rfl | rfl | rfl := h c rfl <;> rfl

theorem Ends.dropWhile_isDigit (h : Ends rest) : rest.dropWhile Char.isDigit = rest := by
  cases rest with
  | nil => rfl
  | cons c rest => obtain rfl | rfl | rfl := h c rfl <;> rfl

theorem Ends.scanFraction (h : Ends rest) : Numeral.scanFraction rest = some ([], rest) := by
  cases rest with
  | nil => rfl
  | cons c rest => obtain rfl | rfl | rfl := h c rfl <;> rfl

theorem Ends.scanExponent (h : Ends rest) : Numeral.scanExponent rest = some (false, [], rest) := by
  cases rest with
  | nil => rfl
  | cons c rest => obtain rfl | rfl | rfl := h c rfl <;> rfl

theorem isDigit_toDigits (n : Nat) : ∀ c ∈ Nat.toDigits 10 n, c.isDigit = true :=
  fun _ hc => Nat.isDigit_of_mem_toDigits (by decide) (by decide) hc

theorem head?_toDigits (n : Nat) (h : 0 < n) : (Nat.toDigits 10 n).head? ≠ some '0' := by
  induction n using Nat.strongRecOn with
  | ind n ih =>
    rw [Nat.toDigits_eq_if (by decide)]
    split
    · next hsmall =>
      have hdigit : ∀ k < 10, 0 < k → [Nat.digitChar k].head? ≠ some '0' := by decide
      exact hdigit n hsmall h
    · next hlarge =>
      have hshort := ih (n / 10) (by omega) (by omega)
      obtain ⟨c, digits, hd⟩ := List.exists_cons_of_ne_nil (Nat.toDigits_ne_nil (n := n / 10) (b := 10))
      rw [hd] at hshort ⊢
      exact hshort

theorem digits_toDigits (n : Nat) (h : Ends rest) :
    Numeral.digits (Nat.toDigits 10 n ++ rest) = (Nat.toDigits 10 n, rest) := by
  rw [Numeral.digits, List.takeWhile_append_of_pos (isDigit_toDigits n), h.takeWhile_isDigit, List.append_nil,
    List.dropWhile_append_of_pos (isDigit_toDigits n), h.dropWhile_isDigit]

theorem scanWhole_toDigits (n : Nat) (h : Ends rest) :
    Numeral.scanWhole (Nat.toDigits 10 n ++ rest) = some (Nat.toDigits 10 n, rest) := by
  rw [Numeral.scanWhole, digits_toDigits n h]
  split
  · next hnil => exact absurd (congrArg Prod.fst hnil) Nat.toDigits_ne_nil
  · next hlong =>
    -- Only the number zero starts with a zero, and it has no second digit.
    have hdigits := congrArg Prod.fst hlong
    obtain rfl | hpos := Nat.eq_zero_or_pos n
    · simp at hdigits
    · exact absurd (congrArg List.head? hdigits) (head?_toDigits n hpos)
  · rfl

theorem scanMinus_toDigits (n : Nat) :
    Numeral.scanMinus (Nat.toDigits 10 n ++ rest) = (false, Nat.toDigits 10 n ++ rest) := by
  cases hd : Nat.toDigits 10 n with
  | nil => exact absurd hd Nat.toDigits_ne_nil
  | cons c digits =>
    have hc : c.isDigit = true := isDigit_toDigits n c (hd ▸ List.mem_cons_self)
    have hne : c ≠ '-' := fun heq => absurd (heq ▸ hc) (by decide)
    simp [Numeral.scanMinus, hne]

def Numeral.ofWhole (negative : Bool) (n : Nat) : Numeral :=
  ⟨negative, Nat.toDigits 10 n, [], false, []⟩

theorem scan_toDigits (n : Nat) (h : Ends rest) :
    Numeral.scan (Nat.toDigits 10 n ++ rest) = some (.ofWhole false n, rest) := by
  simp [Numeral.scan, scanMinus_toDigits, scanWhole_toDigits n h, h.scanFraction, h.scanExponent, Numeral.ofWhole]

theorem scan_minus_toDigits (n : Nat) (h : Ends rest) :
    Numeral.scan ('-' :: (Nat.toDigits 10 n ++ rest)) = some (.ofWhole true n, rest) := by
  have hminus : Numeral.scanMinus ('-' :: (Nat.toDigits 10 n ++ rest)) = (true, Nat.toDigits 10 n ++ rest) := rfl
  simp [Numeral.scan, hminus, scanWhole_toDigits n h, h.scanFraction, h.scanExponent, Numeral.ofWhole]

theorem natural_toDigits (n : Nat) : Numeral.natural (Nat.toDigits 10 n) = n :=
  Nat.ofDigitChars_toDigits (by decide) (by decide)

theorem value_ofWhole (h : n < UInt64.size) : (Numeral.ofWhole false n).value = some (.int n) := by
  simp [Numeral.value, Numeral.ofWhole, natural_toDigits, h]

theorem value_ofWhole_negative (h : 0 < n) (hmin : Int64.minValue.toInt ≤ -n) :
    (Numeral.ofWhole true n).value = some (.int (-n)) := by
  rw [Numeral.value, if_pos ⟨rfl, rfl⟩]
  simp only [Numeral.ofWhole, natural_toDigits, if_true]
  rw [if_pos ⟨h, hmin⟩]

def InWord (i : Int) : Prop :=
  Int64.minValue.toInt ≤ i ∧ i < UInt64.size

theorem scan_writeInt {i : Int} (hi : InWord i) (h : Ends rest) :
    ∃ numeral, Numeral.scan (writeInt i ++ rest) = some (numeral, rest) ∧ numeral.value = some (.int i) := by
  cases i with
  | ofNat n => exact ⟨_, scan_toDigits n h, value_ofWhole (Int.ofNat_lt.mp hi.2)⟩
  | negSucc n => exact ⟨_, scan_minus_toDigits (n + 1) h, value_ofWhole_negative (Nat.succ_pos n) hi.1⟩

end Numerals

section Strings

variable {s r rest : List Char} {found : List Piece}

theorem unit?_control {n : Nat} (h : n < 0x20) :
    unit? '0' '0' (Text.Hex.digit (n / 16)) (Text.Hex.digit (n % 16)) = some n := by
  have hzero : Text.Hex.value? 48 = some 0 := rfl
  have hsum : 16 * (n / 16) + n % 16 = n := Nat.div_add_mod n 16
  simp [unit?, hzero, Text.Hex.value?_digit (n / 16) (by omega), Text.Hex.value?_digit (n % 16) (by omega), hsum]

theorem pieces_plain {c : Char} (hquote : c ≠ '"') (hslash : c ≠ '\\') (hplain : ¬c.toNat < 0x20)
    (h : pieces r = some (found, rest)) : pieces (c :: r) = some (.char c :: found, rest) := by
  rw [pieces, if_neg hplain, h]
  · rfl
  · exact hquote
  · exact fun _ _ _ _ _ hc _ => hslash hc
  · exact fun _ _ hc _ => hslash hc

theorem assemble_unit {n : Nat} (h : n < 0xd800) (parts : List Piece) :
    assemble (.unit n :: parts) = (assemble parts).map (Char.ofNat n :: ·) := by
  rw [assemble.eq_def]
  simp [h]

theorem pieces_escape (c : Char) (h : pieces r = some (found, rest)) :
    ∃ piece, pieces (escape c ++ r) = some (piece :: found, rest) ∧
      ∀ parts, assemble (piece :: parts) = (assemble parts).map (c :: ·) := by
  unfold escape
  split
  case h_8 hquote hslash _ _ _ _ _ =>
    split
    · next hcontrol =>
      refine ⟨.unit c.toNat, ?_, fun parts => ?_⟩
      · simp [controlUnit, pieces, unit?_control hcontrol, h]
      · rw [assemble_unit (by omega), Char.ofNat_toNat]
    · next hplain => exact ⟨.char c, pieces_plain hquote hslash hplain h, fun _ => rfl⟩
  all_goals exact ⟨.char _, by simp [pieces, escaped?, h], fun _ => rfl⟩

theorem pieces_flatMap_escape (s rest : List Char) :
    ∃ found, pieces (s.flatMap escape ++ '"' :: rest) = some (found, rest) ∧ assemble found = some s := by
  induction s with
  | nil => exact ⟨[], by simp [pieces], rfl⟩
  | cons c s ih =>
    obtain ⟨found, hfound, hs⟩ := ih
    obtain ⟨piece, hpieces, hpiece⟩ := pieces_escape c hfound
    refine ⟨piece :: found, ?_, ?_⟩
    · rw [List.flatMap_cons, List.append_assoc]
      exact hpieces
    · rw [hpiece, hs]
      rfl

end Strings

section Tokens

variable {c : Char} {r rest : List Char} {t : Token}

theorem tokens_of_lex (hgap : isGap c = false) (h : lex (c :: r) = some (t, rest)) :
    tokens (c :: r) = t :: tokens rest := by
  rw [tokens, hgap, if_neg Bool.false_ne_true]
  split
  · next hnone => simp [hnone] at h
  · next t' rest' hsome =>
    rw [hsome] at h
    cases h
    rfl

theorem tokens_writeString (s : String) (rest : List Char) :
    tokens (writeString s ++ rest) = .text (some s) :: tokens rest := by
  obtain ⟨found, hfound, hs⟩ := pieces_flatMap_escape s.toList rest
  have hlex : lex ('"' :: (s.toList.flatMap escape ++ '"' :: rest)) = some (.text (some s), rest) := by
    simp [lex, hfound, hs]
  have hwritten : writeString s ++ rest = '"' :: (s.toList.flatMap escape ++ '"' :: rest) := by
    simp [writeString]
  rw [hwritten, tokens_of_lex rfl hlex]

theorem lex_numeral (h : c.isDigit = true ∨ c = '-') :
    lex (c :: r) = (Numeral.scan (c :: r)).map fun (n, rest) => (.number n.value, rest) := by
  unfold lex
  split
  case h_11 => rfl
  all_goals
    next heq =>
    obtain ⟨rfl, -⟩ := List.cons.inj heq
    exact absurd h (by decide)

theorem isGap_of_numeral (h : c.isDigit = true ∨ c = '-') : isGap c = false := by
  obtain hdigit | rfl := h
  · rw [Bool.eq_false_iff]
    intro hgap
    simp only [isGap, Bool.or_eq_true, beq_iff_eq] at hgap
    obtain ((rfl | rfl) | rfl) | rfl := hgap <;> exact absurd hdigit (by decide)
  · rfl

theorem exists_writeInt (i : Int) : ∃ c r, writeInt i = c :: r ∧ (c.isDigit = true ∨ c = '-') := by
  cases i with
  | ofNat n =>
    cases hd : Nat.toDigits 10 n with
    | nil => exact absurd hd Nat.toDigits_ne_nil
    | cons c r => exact ⟨c, r, hd, .inl (isDigit_toDigits n c (hd ▸ List.mem_cons_self))⟩
  | negSucc n => exact ⟨'-', _, rfl, .inr rfl⟩

theorem tokens_writeInt {i : Int} (hi : InWord i) (h : Ends rest) :
    tokens (writeInt i ++ rest) = .number (some (.int i)) :: tokens rest := by
  obtain ⟨numeral, hscan, hvalue⟩ := scan_writeInt hi h
  obtain ⟨c, r, hwritten, hc⟩ := exists_writeInt i
  rw [hwritten, List.cons_append] at hscan ⊢
  have hlex : lex (c :: (r ++ rest)) = some (.number (some (.int i)), rest) := by
    rw [lex_numeral hc, hscan, ← hvalue]
    rfl
  exact tokens_of_lex (isGap_of_numeral hc) hlex

end Tokens

section Trees

variable {n : Node} {rest : List Char}

inductive Node.Written : Node → Prop
  | null : Written .null
  | bool (b : Bool) : Written (.bool b)
  | int {i : Int} : InWord i → Written (.ofInt i)
  | text (s : String) : Written (.ofText s)
  | list {items : List Node} : (∀ n ∈ items, Written n) → Written (.list items)
  | record {members : List (String × Node)} : (∀ m ∈ members, Written m.2) → Written (record members)

def Progress.read (p : Progress) (s : List Char) : Progress :=
  (tokens s).foldl next p

theorem Progress.read_of_tokens {p : Progress} {s : List Char} {t : Token} (h : tokens s = t :: tokens rest) :
    p.read s = (p.next t).read rest := by
  rw [read, h, List.foldl_cons]
  rfl

section Lexemes

variable (p : Progress) (rest : List Char)

theorem Progress.read_null : p.read ('n' :: 'u' :: 'l' :: 'l' :: rest) = (p.next .null).read rest :=
  read_of_tokens (tokens_of_lex rfl rfl)

theorem Progress.read_true : p.read ('t' :: 'r' :: 'u' :: 'e' :: rest) = (p.next (.bool true)).read rest :=
  read_of_tokens (tokens_of_lex rfl rfl)

theorem Progress.read_false : p.read ('f' :: 'a' :: 'l' :: 's' :: 'e' :: rest) = (p.next (.bool false)).read rest :=
  read_of_tokens (tokens_of_lex rfl rfl)

theorem Progress.read_listOpen : p.read ('[' :: rest) = (p.next .listOpen).read rest :=
  read_of_tokens (tokens_of_lex rfl rfl)

theorem Progress.read_listClose : p.read (']' :: rest) = (p.next .listClose).read rest :=
  read_of_tokens (tokens_of_lex rfl rfl)

theorem Progress.read_objectOpen : p.read ('\x7b' :: rest) = (p.next .objectOpen).read rest :=
  read_of_tokens (tokens_of_lex rfl rfl)

theorem Progress.read_objectClose : p.read ('\x7d' :: rest) = (p.next .objectClose).read rest :=
  read_of_tokens (tokens_of_lex rfl rfl)

theorem Progress.read_comma : p.read (',' :: rest) = (p.next .comma).read rest :=
  read_of_tokens (tokens_of_lex rfl rfl)

theorem Progress.read_colon : p.read (':' :: rest) = (p.next .colon).read rest :=
  read_of_tokens (tokens_of_lex rfl rfl)

theorem Progress.read_writeString (s : String) : p.read (writeString s ++ rest) = (p.next (.text (some s))).read rest :=
  read_of_tokens (tokens_writeString s rest)

end Lexemes

/-- Where a value is awaited, the text of the tree brings that tree, whatever is open around it. -/
def Node.ReadsBack (n : Node) : Prop :=
  ∀ frames rest, Ends rest →
    (Progress.value frames).read (n.write ++ rest) = (Progress.complete n frames).read rest

theorem writeItems_cons_cons (n m : Node) (items : List Node) :
    Node.writeItems (n :: m :: items) = n.write ++ ',' :: Node.writeItems (m :: items) := by
  rw [Node.writeItems]
  exact List.cons_ne_nil m items

theorem read_writeItems {items : List Node} (h : ∀ n ∈ items, n.ReadsBack) (hne : items ≠ []) (done : List Node)
    (frames : List Frame) (rest : List Char) :
    (Progress.value (.list done :: frames)).read (Node.writeItems items ++ ']' :: rest) =
      (Progress.complete (.list (done.reverse ++ items)) frames).read rest := by
  induction items generalizing done with
  | nil => exact absurd rfl hne
  | cons n items ih =>
    obtain ⟨hn, hitems⟩ := List.forall_mem_cons.mp h
    cases items with
    | nil =>
      rw [Node.writeItems, hn _ _ ends_listClose, Progress.read_listClose]
      simp [Progress.next]
    | cons m items =>
      rw [writeItems_cons_cons, List.append_assoc, List.cons_append, hn _ _ ends_comma, Progress.read_comma]
      have hlater := ih hitems (List.cons_ne_nil m items) (n :: done)
      rw [List.reverse_cons, List.append_assoc] at hlater
      exact hlater

def named (m : String × Node) : Option String × Node :=
  (some m.1, m.2)

theorem record_eq (members : List (String × Node)) : record members = .object (members.map named) :=
  rfl

theorem writeMembers_cons_cons (m next : Option String × Node) (members : List (Option String × Node)) :
    Node.writeMembers (m :: next :: members) = Node.writeMember m ++ ',' :: Node.writeMembers (next :: members) := by
  rw [Node.writeMembers]
  exact List.cons_ne_nil next members

theorem read_writeMembers {members : List (String × Node)} (h : ∀ m ∈ members, m.2.ReadsBack) (hne : members ≠ [])
    (done : List (Option String × Node)) (frames : List Frame) (rest : List Char) :
    (Progress.member done frames).read (Node.writeMembers (members.map named) ++ '\x7d' :: rest) =
      (Progress.complete (.object (done.reverse ++ members.map named)) frames).read rest := by
  induction members generalizing done with
  | nil => exact absurd rfl hne
  | cons m members ih =>
    obtain ⟨hm, hmembers⟩ := List.forall_mem_cons.mp h
    -- The name, the colon and the value are read alike before a comma and before the end.
    have hmember (after : List Char) (hafter : Ends after) :
        (Progress.member done frames).read (Node.writeMember (named m) ++ after) =
          (Progress.complete m.2 (.object done (some m.1) :: frames)).read after := by
      rw [named, Node.writeMember, List.append_assoc, Option.map_some, Option.getD_some, Progress.read_writeString,
        List.cons_append, Progress.next, Progress.read_colon, Progress.next, hm _ _ hafter]
    cases members with
    | nil =>
      rw [List.map_cons, List.map_nil, Node.writeMembers, hmember _ ends_objectClose, Progress.read_objectClose]
      simp [Progress.next, named]
    | cons next members =>
      rw [List.map_cons, List.map_cons, writeMembers_cons_cons, List.append_assoc, List.cons_append,
        hmember _ ends_comma, Progress.read_comma]
      have hlater := ih hmembers (List.cons_ne_nil next members) (named m :: done)
      rw [List.reverse_cons, List.append_assoc] at hlater
      exact hlater

theorem Node.Written.readsBack (h : n.Written) : n.ReadsBack := by
  induction h with
  | null =>
    intro frames rest _
    rw [Node.write]
    exact Progress.read_null _ rest
  | bool b =>
    intro frames rest _
    cases b with
    | false =>
      rw [Node.write]
      exact Progress.read_false _ rest
    | true =>
      rw [Node.write]
      exact Progress.read_true _ rest
  | int hi => exact fun frames rest hrest => Progress.read_of_tokens (tokens_writeInt hi hrest)
  | text s => exact fun frames rest _ => Progress.read_writeString _ rest s
  | @list items _ ih =>
    intro frames rest _
    rw [Node.write, List.append_assoc, List.cons_append, List.singleton_append, Progress.read_listOpen, Progress.next]
    cases items with
    | nil => exact Progress.read_listClose _ rest
    | cons n items => exact read_writeItems ih (List.cons_ne_nil n items) [] frames rest
  | @record members _ ih =>
    intro frames rest _
    rw [record_eq, Node.write, List.append_assoc, List.cons_append, List.singleton_append, Progress.read_objectOpen,
      Progress.next]
    cases members with
    | nil => exact Progress.read_objectClose _ rest
    | cons m members => exact read_writeMembers ih (List.cons_ne_nil m members) [] frames rest

theorem Node.Written.ofText_render (h : n.Written) : Document.ofText n.render = ⟨n, true⟩ := by
  have hread := h.readsBack [] [] ends_nil
  rw [List.append_nil, Progress.read, Progress.read, tokens, List.foldl_nil] at hread
  rw [Document.ofText, Document.ofTokens, Node.render, String.toList_ofList, hread]
  rfl

theorem Node.Written.readText_render {α : Type} {reader : Reader α} {v : α} (h : n.Written) (hv : reader n = .ok v) :
    readText reader n.render = .ok v := by
  rw [readText, h.ofText_render, hv]
  rfl

end Trees

end Herald.Json
