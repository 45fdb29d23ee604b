import Herald.Expression
import Mathlib.Algebra.Ring.Parity

namespace Herald.Expression

variable {e f s rest : List Char} {c : Char} {inString : Bool} {depth : Nat}

def IsPlain (c : Char) : Prop :=
  c ≠ '"' ∧ c ≠ '(' ∧ c ≠ ')'

theorem kinds (c : Char) : c = '"' ∨ c = '(' ∨ c = ')' ∨ IsPlain c := by
  by_cases hquote : c = '"'
  · exact .inl hquote
  by_cases hopen : c = '('
  · exact .inr (.inl hopen)
  by_cases hclose : c = ')'
  · exact .inr (.inr (.inl hclose))
  exact .inr (.inr (.inr ⟨hquote, hopen, hclose⟩))

section Scan

theorem scan_quote : scan inString depth ('"' :: rest) = scan (!inString) depth rest := by
  simp [scan]

theorem scan_string (h : c ≠ '"') : scan true depth (c :: rest) = scan true depth rest := by
  simp [scan, h]

theorem scan_open : scan false depth ('(' :: rest) = scan false (depth + 1) rest := by
  simp [scan]

theorem scan_close_zero : scan false 0 (')' :: rest) = some .unmatchedClose := by
  simp [scan]

theorem scan_close_succ : scan false (depth + 1) (')' :: rest) = scan false depth rest := by
  simp [scan]

theorem scan_plain (h : IsPlain c) : scan false depth (c :: rest) = scan false depth rest := by
  simp [scan, h.1, h.2.1, h.2.2]

end Scan

inductive Derives : List Char → Prop
  | empty : Derives []
  | char {e : List Char} {c : Char} : Derives e → IsPlain c → Derives (e ++ [c])
  | string {e s : List Char} : Derives e → (∀ c ∈ s, c ≠ '"') → Derives (e ++ '"' :: (s ++ ['"']))
  | nested {e f : List Char} : Derives e → Derives f → Derives (e ++ '(' :: (f ++ [')']))

theorem Derives.append (he : Derives e) (hf : Derives f) : Derives (e ++ f) := by
  induction hf with
  | empty => simpa using he
  | char _ hc ih => simpa using ih.char hc
  | string _ hs ih => simpa using ih.string hs
  | nested _ hg ih _ => simpa using ih.nested hg

section Soundness

theorem scan_string_append (h : ∀ c ∈ s, c ≠ '"') (rest : List Char) :
    scan true depth (s ++ rest) = scan true depth rest := by
  induction s with
  | nil => rfl
  | cons c s ih =>
    obtain ⟨hc, hs⟩ := List.forall_mem_cons.mp h
    rw [List.cons_append, scan_string hc, ih hs]

theorem scan_append_of_derives (h : Derives e) (depth : Nat) (rest : List Char) :
    scan false depth (e ++ rest) = scan false depth rest := by
  induction h generalizing depth rest with
  | empty => rfl
  | char _ hc ih => rw [List.append_assoc, ih, List.singleton_append, scan_plain hc]
  | string _ hs ih =>
    rw [List.append_assoc, ih, List.cons_append, scan_quote, List.append_assoc, Bool.not_false, scan_string_append hs,
      List.singleton_append, scan_quote, Bool.not_true]
  | nested _ _ ih ihf =>
    rw [List.append_assoc, ih, List.cons_append, scan_open, List.append_assoc, ihf, List.singleton_append,
      scan_close_succ]

end Soundness

section Completeness

inductive Closes : Nat → List Char → Prop
  | done {e : List Char} : Derives e → Closes 0 e
  | close {depth : Nat} {e rest : List Char} : Derives e → Closes depth rest → Closes (depth + 1) (e ++ ')' :: rest)

theorem Closes.prepend (he : Derives e) (h : Closes depth s) : Closes depth (e ++ s) := by
  cases h with
  | done hf => exact .done (he.append hf)
  | close hf hrest => exact List.append_assoc _ _ _ ▸ .close (he.append hf) hrest

theorem Closes.open (h : Closes (depth + 1) s) : Closes depth ('(' :: s) := by
  cases h with
  | close hf hrest => simpa using Closes.prepend (Derives.empty.nested hf) hrest

def EndsString (depth : Nat) (s : List Char) : Prop :=
  ∃ string rest, s = string ++ '"' :: rest ∧ (∀ c ∈ string, c ≠ '"') ∧ Closes depth rest

theorem EndsString.cons (hc : c ≠ '"') (h : EndsString depth s) : EndsString depth (c :: s) := by
  obtain ⟨string, rest, rfl, hstring, hrest⟩ := h
  exact ⟨c :: string, rest, rfl, List.forall_mem_cons.mpr ⟨hc, hstring⟩, hrest⟩

theorem EndsString.closes (h : EndsString depth s) : Closes depth ('"' :: s) := by
  obtain ⟨string, rest, rfl, hstring, hrest⟩ := h
  simpa using Closes.prepend (Derives.empty.string hstring) hrest

theorem follows_of_scan (h : scan inString depth s = none) :
    if inString then EndsString depth s else Closes depth s := by
  -- A string and what surrounds it lead into each other, so both are shown at once.
  induction s generalizing inString depth with
  | nil =>
    cases inString with
    | true => simp [scan] at h
    | false =>
      obtain rfl : depth = 0 := by simpa [scan] using h
      exact .done .empty
  | cons c s ih =>
    cases inString with
    | true =>
      by_cases hc : c = '"'
      · subst hc
        rw [scan_quote] at h
        exact ⟨[], s, rfl, by simp, ih h⟩
      · rw [scan_string hc] at h
        exact (ih h : EndsString depth s).cons hc
    | false =>
      obtain rfl | rfl | rfl | hc := kinds c
      · rw [scan_quote] at h
        exact (ih h : EndsString depth s).closes
      · rw [scan_open] at h
        exact (ih h : Closes (depth + 1) s).open
      · cases depth with
        | zero => simp [scan_close_zero] at h
        | succ depth =>
          rw [scan_close_succ] at h
          exact .close .empty (ih h : Closes depth s)
      · rw [scan_plain hc] at h
        exact Closes.prepend (Derives.empty.char hc) (ih h : Closes depth s)

theorem scan_eq_none_iff : scan false 0 s = none ↔ Derives s := by
  constructor
  · intro h
    have hcloses : Closes 0 s := follows_of_scan h
    cases hcloses with
    | done hs => exact hs
  · intro h
    have hpassed := scan_append_of_derives h 0 []
    rw [List.append_nil] at hpassed
    rw [hpassed]
    rfl

end Completeness

section Counting

/-- The characters outside strings; `inString` says whether the text starts inside one. -/
def outside : Bool → List Char → List Char
  | _, [] => []
  | inString, c :: rest =>
    if c = '"' then outside (!inString) rest
    else if inString then outside inString rest
    else c :: outside inString rest

theorem outside_quote : outside inString ('"' :: rest) = outside (!inString) rest := by
  simp [outside]

theorem outside_string (h : c ≠ '"') : outside true (c :: rest) = outside true rest := by
  simp [outside, h]

theorem outside_cons (h : c ≠ '"') : outside false (c :: rest) = c :: outside false rest := by
  simp [outside, h]

def opened (inString : Bool) (s : List Char) : Nat :=
  (outside inString s).count '('

def closed (inString : Bool) (s : List Char) : Nat :=
  (outside inString s).count ')'

/-- Some beginning of the text closes more than it opens, with `depth` parentheses open before it. -/
def Overcloses (inString : Bool) (depth : Nat) (s : List Char) : Prop :=
  ∃ p, p <+: s ∧ depth + opened inString p < closed inString p

theorem not_overcloses_nil : ¬Overcloses inString depth [] := by
  rintro ⟨p, hp, h⟩
  rw [List.prefix_nil.mp hp] at h
  simp [opened, closed, outside] at h

theorem overcloses_cons_iff : Overcloses inString depth (c :: s) ↔
    ∃ p, p <+: s ∧ depth + opened inString (c :: p) < closed inString (c :: p) := by
  constructor
  · rintro ⟨p, hp, h⟩
    obtain rfl | ⟨p, rfl, hp⟩ := List.prefix_cons_iff.mp hp
    · have hnil : ¬Overcloses inString depth [] := not_overcloses_nil
      exact absurd ⟨[], List.nil_prefix, h⟩ hnil
    · exact ⟨p, (List.cons_prefix_cons.mp hp).2, h⟩
  · rintro ⟨p, hp, h⟩
    exact ⟨c :: p, List.cons_prefix_cons.mpr ⟨rfl, hp⟩, h⟩

theorem overcloses_quote : Overcloses inString depth ('"' :: s) ↔ Overcloses (!inString) depth s := by
  simp only [overcloses_cons_iff, opened, closed, outside_quote]
  rfl

theorem overcloses_string (h : c ≠ '"') : Overcloses true depth (c :: s) ↔ Overcloses true depth s := by
  simp only [overcloses_cons_iff, opened, closed, outside_string h]
  rfl

theorem overcloses_open : Overcloses false depth ('(' :: s) ↔ Overcloses false (depth + 1) s := by
  have hquote : '(' ≠ '"' := by decide
  have hclose : '(' ≠ ')' := by decide
  simp only [overcloses_cons_iff, opened, closed, outside_cons hquote, List.count_cons_self,
    List.count_cons_of_ne hclose, ← Nat.add_assoc, Nat.add_right_comm depth _ 1]
  rfl

theorem overcloses_close_zero : Overcloses false 0 (')' :: s) := by
  exact overcloses_cons_iff.mpr ⟨[], List.nil_prefix, by simp [opened, closed, outside]⟩

theorem overcloses_close_succ : Overcloses false (depth + 1) (')' :: s) ↔ Overcloses false depth s := by
  have hquote : ')' ≠ '"' := by decide
  have hopen : ')' ≠ '(' := by decide
  simp only [overcloses_cons_iff, opened, closed, outside_cons hquote, List.count_cons_self,
    List.count_cons_of_ne hopen, Nat.add_right_comm depth 1, Nat.add_lt_add_iff_right]
  rfl

theorem overcloses_plain (h : IsPlain c) : Overcloses false depth (c :: s) ↔ Overcloses false depth s := by
  simp only [overcloses_cons_iff, opened, closed, outside_cons h.1, List.count_cons_of_ne h.2.1,
    List.count_cons_of_ne h.2.2]
  rfl

theorem scan_eq_unmatchedClose_iff : scan inString depth s = some .unmatchedClose ↔ Overcloses inString depth s := by
  induction s generalizing inString depth with
  | nil =>
    refine ⟨fun h => ?_, fun h => absurd h not_overcloses_nil⟩
    unfold scan at h
    split at h
    · simp at h
    · split at h <;> simp at h
  | cons c s ih =>
    cases inString with
    | true =>
      by_cases hc : c = '"'
      · rw [hc, scan_quote, overcloses_quote, ih]
      · rw [scan_string hc, overcloses_string hc, ih]
    | false =>
      obtain rfl | rfl | rfl | hc := kinds c
      · rw [scan_quote, overcloses_quote, ih]
      · rw [scan_open, overcloses_open, ih]
      · cases depth with
        | zero => simp [scan_close_zero, overcloses_close_zero]
        | succ depth => rw [scan_close_succ, overcloses_close_succ, ih]
      · rw [scan_plain hc, overcloses_plain hc, ih]

def verdict (quotes opened closed : Nat) : Option Flaw :=
  if quotes % 2 = 1 then some .unfinishedString else if opened = closed then none else some .unmatchedOpen

theorem verdict_succ (quotes opened closed : Nat) :
    verdict quotes (opened + 1) (closed + 1) = verdict quotes opened closed := by
  by_cases h : opened = closed <;> simp [verdict, h]

theorem scan_of_not_overcloses (h : ¬Overcloses inString depth s) : scan inString depth s =
    verdict (s.count '"' + inString.toNat) (depth + opened inString s) (closed inString s) := by
  induction s generalizing inString depth with
  | nil => cases inString <;> simp [scan, verdict, opened, closed, outside]
  | cons c s ih =>
    cases inString with
    | true =>
      by_cases hc : c = '"'
      · subst hc
        rw [overcloses_quote] at h
        rw [scan_quote, ih h]
        simp [verdict, opened, closed, outside_quote, Nat.add_assoc]
      · rw [overcloses_string hc] at h
        rw [scan_string hc, ih h]
        simp [opened, closed, outside_string hc, hc]
    | false =>
      obtain rfl | rfl | rfl | hc := kinds c
      · rw [overcloses_quote] at h
        rw [scan_quote, ih h]
        simp [opened, closed, outside_quote]
      · rw [overcloses_open] at h
        rw [scan_open, ih h]
        simp [opened, closed, outside_cons, Nat.add_assoc, Nat.add_comm 1]
      · cases depth with
        | zero => exact absurd overcloses_close_zero h
        | succ depth =>
          rw [overcloses_close_succ] at h
          rw [scan_close_succ, ih h]
          simp [verdict_succ, opened, closed, outside_cons, Nat.add_right_comm depth 1]
      · rw [overcloses_plain hc] at h
        rw [scan_plain hc, ih h]
        simp [opened, closed, outside_cons hc.1, hc.1, hc.2.1, hc.2.2]

end Counting

section Counter

/-- The check as it counts in thirty-two bits; none where the count leaves them. -/
def counted : Bool → Int32 → List Char → Option (Option Flaw)
  | inString, depth, [] =>
    some (if inString then some .unfinishedString else if depth = 0 then none else some .unmatchedOpen)
  | inString, depth, c :: rest =>
    if c = '"' then counted (!inString) depth rest
    else if inString then counted inString depth rest
    else if c = '(' then if depth = Int32.maxValue then none else counted inString (depth + 1) rest
    else if c = ')' then
      if depth = Int32.minValue then none
      else if depth - 1 < 0 then some (some .unmatchedClose)
      else counted inString (depth - 1) rest
    else counted inString depth rest

theorem toInt_counter (h : depth < 2147483648) : (Int32.ofNat depth).toInt = depth :=
  Int32.toInt_ofNat_of_lt h

theorem counter_eq_iff {n : Int32} (h : depth < 2147483648) : Int32.ofNat depth = n ↔ (depth : Int) = n.toInt := by
  rw [← Int32.toInt_inj, toInt_counter h]

theorem counted_eq_scan (h : depth + s.length < 2147483648) :
    counted inString (.ofNat depth) s = some (scan inString depth s) := by
  -- A parenthesis that adds to the count is a character less to come, so the sum with the length never grows.
  induction s generalizing inString depth with
  | nil =>
    have hzero : Int32.ofNat depth = 0 ↔ depth = 0 := by
      rw [counter_eq_iff (by simpa using h)]
      exact Int.natCast_eq_zero
    simp only [counted, scan, hzero]
  | cons c s ih =>
    rw [List.length_cons] at h
    have hsame (inString : Bool) : counted inString (.ofNat depth) s = some (scan inString depth s) := ih (by omega)
    cases inString with
    | true =>
      by_cases hc : c = '"'
      · simp [counted, scan, hc, hsame]
      · simp [counted, scan, hc, hsame]
    | false =>
      obtain rfl | rfl | rfl | hc := kinds c
      · simp [counted, scan, hsame]
      · have hroom : Int32.ofNat depth ≠ Int32.maxValue := by
          have hmax : Int32.maxValue.toInt = 2147483647 := by decide
          rw [Ne, counter_eq_iff (by omega), hmax]
          omega
        have hnext : counted false (.ofNat (depth + 1)) s = some (scan false (depth + 1) s) := ih (by omega)
        rw [Int32.ofNat_add] at hnext
        simpa [counted, scan, hroom] using hnext
      · have hroom : Int32.ofNat depth ≠ Int32.minValue := by
          have hmin : Int32.minValue.toInt = -2147483648 := by decide
          rw [Ne, counter_eq_iff (by omega), hmin]
          omega
        cases depth with
        | zero => rfl
        | succ depth =>
          have hback : Int32.ofNat (depth + 1) - 1 = Int32.ofNat depth := by
            rw [Int32.ofNat_add]
            exact Int32.add_sub_cancel _ _
          have hnonneg : ¬Int32.ofNat depth < 0 := by
            rw [Int32.lt_iff_toInt_lt, toInt_counter (by omega)]
            exact Int.not_lt.mpr (Int.natCast_nonneg depth)
          have hnext : counted false (.ofNat depth) s = some (scan false depth s) := ih (by omega)
          rw [counted, if_neg (by decide), if_neg Bool.false_ne_true, if_neg (by decide), if_pos rfl, if_neg hroom, hback,
            if_neg hnonneg, hnext, scan_close_succ]
      · simp [counted, scan, hc.1, hc.2.1, hc.2.2, hsame]

end Counter

section Refusals

def HasVisible (s : List Char) : Prop :=
  ∃ c ∈ s, Text.isBlank c = false

theorem Flaw.message_inj {a b : Flaw} : a.message = b.message ↔ a = b := by
  cases a <;> cases b <;> decide

theorem refusal?_eq_some_iff {expression : String} (flaw : Flaw) :
    refusal? expression = some flaw.message ↔ flaw? expression = some flaw := by
  rw [refusal?, Option.map_eq_some_iff]
  constructor
  · rintro ⟨a, ha, hmessage⟩
    exact Flaw.message_inj.mp hmessage ▸ ha
  · exact fun h => ⟨flaw, h, rfl⟩

theorem refusal?_eq_none_iff {expression : String} : refusal? expression = none ↔ flaw? expression = none :=
  Option.map_eq_none_iff

theorem flaw?_of_blank {expression : String} (h : ¬HasVisible expression.toList) :
    flaw? expression = some .blank := by
  have hall : expression.toList.all Text.isBlank = true := by
    rw [List.all_eq_true]
    intro c hc
    by_contra hvisible
    exact h ⟨c, hc, Bool.eq_false_iff.mpr hvisible⟩
  rw [flaw?, if_pos hall]

theorem flaw?_of_visible {expression : String} (h : HasVisible expression.toList) :
    flaw? expression = scan false 0 expression.toList := by
  obtain ⟨c, hc, hvisible⟩ := h
  have hsome : ¬expression.toList.all Text.isBlank = true := by
    intro hall
    exact Bool.noConfusion (hvisible.symm.trans (List.all_eq_true.mp hall c hc))
  rw [flaw?, if_neg hsome]

theorem scan_ne_blank : scan inString depth s ≠ some .blank := by
  by_cases h : Overcloses inString depth s
  · rw [scan_eq_unmatchedClose_iff.mpr h]
    simp
  · rw [scan_of_not_overcloses h, verdict]
    split
    · simp
    · split <;> simp

theorem flaw?_eq_blank_iff {expression : String} :
    flaw? expression = some .blank ↔ ¬HasVisible expression.toList := by
  constructor
  · intro h hvisible
    exact scan_ne_blank (flaw?_of_visible hvisible ▸ h)
  · exact flaw?_of_blank

theorem flaw?_eq_iff {expression : String} {found : Option Flaw} (hfound : found ≠ some .blank) :
    flaw? expression = found ↔ HasVisible expression.toList ∧ scan false 0 expression.toList = found := by
  by_cases h : HasVisible expression.toList
  · rw [flaw?_of_visible h]
    exact ⟨fun hs => ⟨h, hs⟩, And.right⟩
  · rw [flaw?_of_blank h]
    exact ⟨fun hs => absurd hs.symm hfound, fun hs => absurd hs.1 h⟩

theorem scan_eq_unfinishedString_iff :
    scan false 0 s = some .unfinishedString ↔ ¬Overcloses false 0 s ∧ Odd (s.count '"') := by
  by_cases h : Overcloses false 0 s
  · simp [scan_eq_unmatchedClose_iff.mpr h, h]
  · rw [scan_of_not_overcloses h, verdict, Nat.odd_iff, Bool.toNat_false, Nat.add_zero]
    split
    · next hodd => simp [h, hodd]
    · next heven => split <;> simp [heven]

theorem scan_eq_unmatchedOpen_iff : scan false 0 s = some .unmatchedOpen ↔
    ¬Derives s ∧ ¬Overcloses false 0 s ∧ ¬Odd (s.count '"') := by
  rw [← scan_eq_none_iff]
  by_cases h : Overcloses false 0 s
  · simp [scan_eq_unmatchedClose_iff.mpr h, h]
  · rw [scan_of_not_overcloses h, verdict, Nat.odd_iff, Bool.toNat_false, Nat.add_zero]
    split
    · next hodd => simp [hodd]
    · next heven => split <;> simp [h, heven]

/-- An expression passes if it is derived and not blank. Of what is wrong with another one, blankness comes first, then
a parenthesis closed too early, then a string without an end. -/
theorem refusal?_decides {expression : String} (h : expression.length < 2147483648) :
    counted false 0 expression.toList = some (scan false 0 expression.toList) ∧
      (refusal? expression = none ↔ HasVisible expression.toList ∧ Derives expression.toList) ∧
      (refusal? expression = some "empty expression" ↔ ∀ c ∈ expression.toList, Text.isBlank c = true) ∧
      (refusal? expression = some "unbalanced ')'" ↔
        HasVisible expression.toList ∧ Overcloses false 0 expression.toList) ∧
      (refusal? expression = some "unterminated string" ↔
        HasVisible expression.toList ∧ ¬Overcloses false 0 expression.toList ∧ Odd (expression.toList.count '"')) ∧
      (refusal? expression = some "unbalanced '('" ↔ refusal? expression ≠ none ∧
        HasVisible expression.toList ∧ ¬Overcloses false 0 expression.toList ∧ ¬Odd (expression.toList.count '"')) := by
  have hpasses : refusal? expression = none ↔ HasVisible expression.toList ∧ Derives expression.toList := by
    rw [refusal?_eq_none_iff, flaw?_eq_iff (by simp), scan_eq_none_iff]
  refine ⟨?_, hpasses, ?_, ?_, ?_, ?_⟩
  · have hlength : 0 + expression.toList.length < 2147483648 := by rwa [Nat.zero_add, String.length_toList]
    exact counted_eq_scan hlength
  · refine (refusal?_eq_some_iff .blank).trans (flaw?_eq_blank_iff.trans ?_)
    simp [HasVisible]
  · refine (refusal?_eq_some_iff .unmatchedClose).trans ((flaw?_eq_iff (by simp)).trans ?_)
    rw [scan_eq_unmatchedClose_iff]
  · refine (refusal?_eq_some_iff .unfinishedString).trans ((flaw?_eq_iff (by simp)).trans ?_)
    rw [scan_eq_unfinishedString_iff]
  · refine (refusal?_eq_some_iff .unmatchedOpen).trans ((flaw?_eq_iff (by simp)).trans ?_)
    rw [scan_eq_unmatchedOpen_iff, Ne, hpasses]
    constructor
    · rintro ⟨hvisible, hderives, hflaws⟩
      exact ⟨fun hboth => hderives hboth.2, hvisible, hflaws⟩
    · rintro ⟨hrefused, hvisible, hflaws⟩
      exact ⟨hvisible, fun hderives => hrefused ⟨hvisible, hderives⟩, hflaws⟩

theorem refusal?_decides_quotedClose : "(a || b == \")\")".length < 2147483648 ∧
    refusal? "(a || b == \")\")" = none ∧ Derives "(a || b == \")\")".toList ∧
      "(a == \")\"".length < 2147483648 ∧ refusal? "(a == \")\"" = some "unbalanced '('" ∧
        ¬Overcloses false 0 "(a == \")\"".toList ∧ ¬Derives "(a == \")\"".toList := by
  have hlength : "(a || b == \")\")".length < 2147483648 := by decide
  have hlength' : "(a == \")\"".length < 2147483648 := by decide
  have hnone : refusal? "(a || b == \")\")" = none := by decide +kernel
  have hsome : refusal? "(a == \")\"" = some "unbalanced '('" := by decide +kernel
  obtain ⟨-, hpasses, -⟩ := refusal?_decides hlength
  obtain ⟨-, hpasses', -, -, -, hopen⟩ := refusal?_decides hlength'
  obtain ⟨hrefused, hvisible, hflaw, -⟩ := hopen.mp hsome
  exact ⟨hlength, hnone, (hpasses.mp hnone).2, hlength', hsome, hflaw, fun h => hrefused (hpasses'.mpr ⟨hvisible, h⟩)⟩

end Refusals

end Herald.Expression
