import Herald.Proofs.Transit
import Mathlib.Algebra.Order.Ring.Int
import Mathlib.Data.List.TakeWhile

namespace Herald

namespace Text

section Trim

variable {before core after : List Char}

theorem dropWhile_isBlank_of_visible (hcore : ∀ c ∈ core, isBlank c = false) (hne : core ≠ []) :
    (core ++ after).dropWhile isBlank = core ++ after := by
  obtain ⟨c, rest, rfl⟩ := List.exists_cons_of_ne_nil hne
  simp [hcore c List.mem_cons_self]

theorem trim_surrounded (hbefore : ∀ c ∈ before, isBlank c = true) (hafter : ∀ c ∈ after, isBlank c = true)
    (hcore : ∀ c ∈ core, isBlank c = false) (hne : core ≠ []) : trim (before ++ (core ++ after)) = core := by
  have hlast : (core.reverse ++ []).dropWhile isBlank = core.reverse ++ [] :=
    dropWhile_isBlank_of_visible (by simpa using hcore) (by simpa using hne)
  rw [trim, List.dropWhile_append_of_pos hbefore, dropWhile_isBlank_of_visible hcore hne, List.reverse_append,
    List.dropWhile_append_of_pos (by simpa using hafter)]
  simpa using congrArg List.reverse hlast

theorem exists_surrounds (s : List Char) : ∃ before after, s = before ++ (trim s ++ after) ∧
    (∀ c ∈ before, isBlank c = true) ∧ ∀ c ∈ after, isBlank c = true := by
  have hlast : s.dropWhile isBlank = trim s ++ ((s.dropWhile isBlank).reverse.takeWhile isBlank).reverse := by
    rw [trim, ← List.reverse_append, List.takeWhile_append_dropWhile, List.reverse_reverse]
  refine ⟨s.takeWhile isBlank, ((s.dropWhile isBlank).reverse.takeWhile isBlank).reverse, ?_, ?_, ?_⟩
  · rw [← hlast, List.takeWhile_append_dropWhile]
  · exact fun c hc => List.mem_takeWhile_imp hc
  · exact fun c hc => List.mem_takeWhile_imp (List.mem_reverse.mp hc)

end Trim

section Decimal

variable {s digits : List Char} {i : Int} {k : Nat}

def Digits (s : List Char) : Prop :=
  s ≠ [] ∧ ∀ c ∈ s, c.isDigit = true

inductive Denotes : List Char → Int → Prop
  | unsigned {digits : List Char} : Digits digits → Denotes digits (Nat.ofDigitChars 10 digits 0)
  | positive {digits : List Char} : Digits digits → Denotes ('+' :: digits) (Nat.ofDigitChars 10 digits 0)
  | negative {digits : List Char} : Digits digits → Denotes ('-' :: digits) (-Nat.ofDigitChars 10 digits 0)

theorem decimal?_eq_some_iff : decimal? s = some k ↔ Digits s ∧ Nat.ofDigitChars 10 s 0 = k := by
  cases s with
  | nil => simp [decimal?, Digits]
  | cons c rest => simp [decimal?, Digits, and_assoc]

theorem decimal?_of_digits (h : Digits digits) : decimal? digits = some (Nat.ofDigitChars 10 digits 0) :=
  decimal?_eq_some_iff.mpr ⟨h, rfl⟩

theorem signed?_eq_some_iff : signed? s = some i ↔ Denotes s i := by
  constructor
  · intro h
    unfold signed? at h
    split at h
    · obtain ⟨_, hk, rfl⟩ := Option.map_eq_some_iff.mp h
      obtain ⟨k, hk, hcast⟩ := Option.bind_eq_some_iff.mp hk
      obtain ⟨hdigits, rfl⟩ := decimal?_eq_some_iff.mp hk
      exact Option.some.inj hcast ▸ .negative hdigits
    · obtain ⟨k, hk, rfl⟩ := Option.map_eq_some_iff.mp h
      obtain ⟨hdigits, rfl⟩ := decimal?_eq_some_iff.mp hk
      exact .positive hdigits
    · obtain ⟨k, hk, rfl⟩ := Option.map_eq_some_iff.mp h
      obtain ⟨hdigits, rfl⟩ := decimal?_eq_some_iff.mp hk
      exact .unsigned hdigits
  · intro h
    cases h with
    | unsigned hdigits =>
      unfold signed?
      split
      -- A sign is no digit.
      · exact absurd (hdigits.2 _ List.mem_cons_self) (by decide)
      · exact absurd (hdigits.2 _ List.mem_cons_self) (by decide)
      · rw [decimal?_of_digits hdigits]
        rfl
    | positive hdigits => simp [signed?, decimal?_of_digits hdigits]
    | negative hdigits => simp [signed?, decimal?_of_digits hdigits]

theorem isBlank_of_isDigit {c : Char} (h : c.isDigit = true) : isBlank c = false := by
  simp only [Char.isDigit, Bool.and_eq_true, decide_eq_true_eq, ge_iff_le, UInt32.le_iff_toNat_le] at h
  have hlow : 48 ≤ c.toNat := h.1
  have hhigh : c.toNat ≤ 57 := h.2
  simp only [isBlank, within, blankRanges, Bool.and_eq_false_iff, Bool.or_eq_false_iff, decide_eq_false_iff_not]
  omega

theorem Digits.visible (h : Digits s) : ∀ c ∈ s, isBlank c = false :=
  fun c hc => isBlank_of_isDigit (h.2 c hc)

theorem Denotes.visible (h : Denotes s i) : s ≠ [] ∧ ∀ c ∈ s, isBlank c = false := by
  cases h with
  | unsigned hdigits => exact ⟨hdigits.1, hdigits.visible⟩
  | positive hdigits => exact ⟨List.cons_ne_nil _ _, List.forall_mem_cons.mpr ⟨by decide, hdigits.visible⟩⟩
  | negative hdigits => exact ⟨List.cons_ne_nil _ _, List.forall_mem_cons.mpr ⟨by decide, hdigits.visible⟩⟩

end Decimal

end Text

/-- A value asks for a number of minutes: it is that number, or a decimal text of it among blanks. -/
inductive Value.Asks : Value → Int → Prop
  | int32 (n : Int32) : Asks (.int32 n) n.toInt
  | int64 (n : Int64) : Asks (.int64 n) n.toInt
  | text {s : String} {before core after : List Char} {i : Int} : s.toList = before ++ (core ++ after) →
      (∀ c ∈ before, Text.isBlank c = true) → (∀ c ∈ after, Text.isBlank c = true) → Text.Denotes core i →
      Asks (.text s) i

theorem Value.asks_text_iff {s : String} {i : Int} :
    (Value.text s).Asks i ↔ Text.Denotes (Text.trim s.toList) i := by
  constructor
  · intro h
    cases h with
    | text hs hbefore hafter hcore =>
      rw [hs, Text.trim_surrounded hbefore hafter hcore.visible.2 hcore.visible.1]
      exact hcore
  · intro h
    obtain ⟨before, after, hs, hbefore, hafter⟩ := Text.exists_surrounds s.toList
    exact .text hs hbefore hafter h

def Group.clamp (g : Group) (minutes : Int) : Int :=
  max g.minTime.toNat (min minutes (max g.minTime.toNat g.maxTime.toNat : Nat))

theorem Group.clamp_mono (g : Group) {i j : Int} (h : i ≤ j) : g.clamp i ≤ g.clamp j :=
  max_le_max_left _ (min_le_min_right _ h)

namespace Message

variable {n : Notification} {i j : Int}

def Asks (n : Notification) (i : Int) : Prop :=
  ∃ v, n.get? timeoutName = some v ∧ v.Asks i

theorem requestedTime_eq_some_iff : requestedTime n = some i ↔
    Asks n i ∧ Int64.minValue.toInt ≤ i ∧ i ≤ Int64.maxValue.toInt := by
  unfold requestedTime Asks
  cases n.get? timeoutName with
  | none => simp
  | some v =>
    simp only [Option.some.injEq, exists_eq_left']
    cases v with
    | int32 k =>
      have hlow : Int64.minValue.toInt ≤ Int32.minValue.toInt := by decide
      have hhigh : Int32.maxValue.toInt ≤ Int64.maxValue.toInt := by decide
      constructor
      · intro h
        obtain rfl := Option.some.inj h
        exact ⟨.int32 k, Int.le_trans hlow k.minValue_le_toInt, Int.le_trans k.toInt_le hhigh⟩
      · rintro ⟨⟨⟩, -⟩
        rfl
    | int64 k =>
      constructor
      · intro h
        obtain rfl := Option.some.inj h
        exact ⟨.int64 k, k.minValue_le_toInt, k.toInt_le⟩
      · rintro ⟨⟨⟩, -⟩
        rfl
    | text s =>
      rw [Value.asks_text_iff, ← Text.signed?_eq_some_iff]
      simp [Text.int64?, Option.filter_eq_some_iff]
    | real x => exact ⟨fun h => by simp [Value.int?] at h, nofun⟩
    | bytes b => exact ⟨fun h => by simp [Value.int?] at h, nofun⟩

theorem Asks.unique (hi : Asks n i) (hj : Asks n j) : i = j := by
  obtain ⟨v, hv, hi⟩ := hi
  obtain ⟨w, hw, hj⟩ := hj
  obtain rfl := Option.some.inj (hv.symm.trans hw)
  cases v with
  | int32 k => cases hi; cases hj; rfl
  | int64 k => cases hi; cases hj; rfl
  | text s =>
    have hi' := Text.signed?_eq_some_iff.mpr (Value.asks_text_iff.mp hi)
    have hj' := Text.signed?_eq_some_iff.mpr (Value.asks_text_iff.mp hj)
    exact Option.some.inj (hi'.symm.trans hj')
  | real x => nomatch hi
  | bytes b => nomatch hi

theorem toNat_displayTime_of_asks (h : Asks n i) (hi : i ≤ Int64.maxValue.toInt) (g : Group) :
    ((displayTime (requestedTime n) g.minTime g.maxTime).toNat : Int) = g.clamp i := by
  by_cases hlow : Int64.minValue.toInt ≤ i
  · rw [requestedTime_eq_some_iff.mpr ⟨h, hlow, hi⟩, toNat_displayTime]
    rfl
  · have hnone : requestedTime n = none := by
      refine Option.eq_none_iff_forall_not_mem.mpr fun j hj => hlow ?_
      obtain ⟨hasked, hj, -⟩ := requestedTime_eq_some_iff.mp hj
      exact h.unique hasked ▸ hj
    have hzero : Int64.minValue.toInt ≤ 0 := by decide
    have hbelow : min i (max g.minTime.toNat g.maxTime.toNat : Nat) ≤ (g.minTime.toNat : Int) :=
      (min_le_left _ _).trans (by omega)
    rw [hnone, displayTime, Group.clamp, max_eq_left hbelow]

theorem displayTime_eq_minTime (h : ∀ i, Asks n i → Int64.maxValue.toInt < i) (minTime maxTime : UInt32) :
    displayTime (requestedTime n) minTime maxTime = minTime := by
  have hnone : requestedTime n = none := by
    refine Option.eq_none_iff_forall_not_mem.mpr fun i hi => ?_
    obtain ⟨hasked, -, hhigh⟩ := requestedTime_eq_some_iff.mp hi
    exact absurd (h i hasked) (not_lt.mpr hhigh)
  rw [hnone, displayTime]

theorem displayTime_within (requested : Option Int) (minTime maxTime : UInt32) :
    minTime ≤ displayTime requested minTime maxTime ∧ displayTime requested minTime maxTime ≤ max minTime maxTime := by
  rw [UInt32.le_iff_toNat_le, UInt32.le_iff_toNat_le, toNat_max]
  cases requested with
  | none => exact ⟨le_rfl, le_max_left _ _⟩
  | some minutes =>
    have hshown := toNat_displayTime minutes minTime maxTime
    omega

theorem timeout_ofNotification? {g : Group} {m : Message} (h : ofNotification? n g = some m) :
    m.timeout = displayTime (requestedTime n) g.minTime g.maxTime := by
  obtain ⟨text, -, hm⟩ := Option.bind_eq_some_iff.mp h
  exact (congrArg timeout (Option.some.inj hm)).symm

section Clamped

def chat : Group :=
  { Group.named "Chat" with minTime := 2, maxTime := 10 }

def ofTime (v : Value) : Notification :=
  Notification.empty |>.insert textName (.text "hi") |>.insert timeoutName v

theorem asks_ofTime {v : Value} : Asks (ofTime v) i ↔ v.Asks i := by
  simp [Asks, ofTime]

theorem text?_ofTime (v : Value) : (ofTime v).text? textName = some "hi" := by
  have hname : ¬timeoutName = textName := by decide
  simp [Notification.text?, ofTime, hname, Value.text?]

theorem exists_ofTime (v : Value) : ∃ m, ofNotification? (ofTime v) chat = some m :=
  exists_ofNotification? (Option.ne_none_iff_exists'.mpr ⟨_, text?_ofTime v⟩) chat

/-- What a notification asks for, up to the largest number of sixty-four bits, is kept within the limits of the group,
whichever way it is written. Whoever asks for more than that, or for no number, gets the least time. -/
theorem clamped_ofNotification? {text : String} (h : n.text? textName = some text) (g : Group) :
    ∃ m, ofNotification? n g = some m ∧ g.minTime ≤ m.timeout ∧ m.timeout ≤ max g.minTime g.maxTime ∧
      (∀ i, Asks n i → i ≤ Int64.maxValue.toInt → (m.timeout.toNat : Int) = g.clamp i) ∧
      ((∀ i, Asks n i → Int64.maxValue.toInt < i) → m.timeout = g.minTime) ∧
      ∀ n' m', ofNotification? n' g = some m' → ∀ i j, Asks n i → Asks n' j → j ≤ Int64.maxValue.toInt →
        (i = j → m.timeout = m'.timeout) ∧ (i ≤ j → m.timeout ≤ m'.timeout) := by
  obtain ⟨m, hm⟩ := exists_ofNotification? (Option.ne_none_iff_exists'.mpr ⟨text, h⟩) g
  have htime := timeout_ofNotification? hm
  have hclamp (i : Int) (hasks : Asks n i) (hi : i ≤ Int64.maxValue.toInt) : (m.timeout.toNat : Int) = g.clamp i := by
    rw [htime, toNat_displayTime_of_asks hasks hi]
  refine ⟨m, hm, ?_, ?_, hclamp, fun hnone => ?_, fun n' m' hm' i j hi hj hbound => ?_⟩
  · exact htime ▸ (displayTime_within _ _ _).1
  · exact htime ▸ (displayTime_within _ _ _).2
  · exact htime.trans (displayTime_eq_minTime hnone _ _)
  · have hclamp' : (m'.timeout.toNat : Int) = g.clamp j := by
      rw [timeout_ofNotification? hm', toNat_displayTime_of_asks hj hbound]
    constructor
    · rintro rfl
      exact UInt32.toNat_inj.mp (Int.natCast_inj.mp ((hclamp i hi hbound).trans hclamp'.symm))
    · intro hle
      have hmono := g.clamp_mono hle
      rw [← hclamp i hi (Int.le_trans hle hbound), ← hclamp'] at hmono
      exact UInt32.le_iff_toNat_le.mpr (Int.ofNat_le.mp hmono)

theorem clamped_ofNotification?_padded : (ofTime (.text " +0012\n")).text? textName = some "hi" ∧
    Asks (ofTime (.text " +0012\n")) 12 ∧ Asks (ofTime (.int64 12)) 12 ∧
      ∃ m m', ofNotification? (ofTime (.text " +0012\n")) chat = some m ∧
        ofNotification? (ofTime (.int64 12)) chat = some m' ∧ m.timeout.toNat = 10 ∧ m.timeout = m'.timeout := by
  have htext : Asks (ofTime (.text " +0012\n")) 12 :=
    asks_ofTime.mpr (Value.asks_text_iff.mpr (Text.signed?_eq_some_iff.mp (by decide +kernel)))
  have hnumber : Asks (ofTime (.int64 12)) 12 := asks_ofTime.mpr (.int64 12)
  obtain ⟨m, hm, -, -, hclamp, -, hpair⟩ := clamped_ofNotification? (text?_ofTime (.text " +0012\n")) chat
  obtain ⟨m', hm'⟩ := exists_ofTime (.int64 12)
  refine ⟨text?_ofTime _, htext, hnumber, m, m', hm, hm', ?_, ?_⟩
  · exact Int.natCast_inj.mp ((hclamp 12 htext (by decide)).trans (by decide))
  · exact (hpair _ m' hm' 12 12 htext hnumber (by decide)).1 rfl

/-- One more than the largest number of sixty-four bits, written as a text. -/
theorem beyondWord_not_clamped : Asks (ofTime (.text "9223372036854775808")) 9223372036854775808 ∧
    ∃ m, ofNotification? (ofTime (.text "9223372036854775808")) chat = some m ∧
      (m.timeout.toNat : Int) = 2 ∧ chat.clamp 9223372036854775808 = 10 := by
  have hasks : Asks (ofTime (.text "9223372036854775808")) 9223372036854775808 :=
    asks_ofTime.mpr (Value.asks_text_iff.mpr (Text.signed?_eq_some_iff.mp (by decide +kernel)))
  obtain ⟨m, hm⟩ := exists_ofTime (.text "9223372036854775808")
  refine ⟨hasks, m, hm, ?_, by decide⟩
  have hleast : displayTime (requestedTime (ofTime (.text "9223372036854775808"))) chat.minTime chat.maxTime = 2 := by
    refine displayTime_eq_minTime (fun i hi => ?_) _ _
    rw [← hasks.unique hi]
    decide
  rw [timeout_ofNotification? hm, hleast]
  rfl

end Clamped

end Message

end Herald
