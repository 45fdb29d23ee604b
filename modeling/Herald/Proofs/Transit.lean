import Herald.Message

namespace Herald

namespace Notification

def put (n : Notification) (name : String) (v : Option Value) : Notification :=
  v.elim n (n.insert name)

theorem insertText_eq_put (n : Notification) (name : String) (s : Option String) :
    n.insertText name s = n.put name (s.map .text) := by
  cases s <;> rfl

theorem get?_put (n : Notification) (name other : String) (v : Option Value) :
    (n.put name v).get? other = if name = other then v <|> n.get? other else n.get? other := by
  cases v with
  | none => simp [put]
  | some v => simp [put]

theorem get?_foldl_put {fields : List (String × Option Value)} (h : (fields.map (·.1)).Nodup) (n : Notification)
    (name : String) : (fields.foldl (fun n f => n.put f.1 f.2) n).get? name =
      ((fields.find? (·.1 = name)).bind (·.2) <|> n.get? name) := by
  induction fields generalizing n with
  | nil => simp
  | cons f fields ih =>
    obtain ⟨hnew, hd⟩ := List.nodup_cons.mp h
    rw [List.foldl_cons, ih hd, get?_put]
    by_cases hf : f.1 = name
    -- A name that is written here is not written again.
    · have hnone : fields.find? (·.1 = name) = none := by
        apply List.find?_eq_none.mpr
        intro a ha he
        exact hnew (List.mem_map.mpr ⟨a, ha, (of_decide_eq_true he).trans hf.symm⟩)
      simp [hf, hnone]
    · simp [hf]

end Notification

theorem Value.text?_map (s : Option String) : (s.map Value.text).bind Value.text? = s := by
  cases s <;> rfl

section Times

variable (a b : UInt32)

theorem toNat_max : (max a b).toNat = max a.toNat b.toNat := by
  have hmax : max a b = if a ≤ b then b else a := rfl
  rw [hmax]
  split
  · next h => exact (Nat.max_eq_right h).symm
  · next h => exact (Nat.max_eq_left (Nat.le_of_not_le h)).symm

theorem toNat_min : (min a b).toNat = min a.toNat b.toNat := by
  have hmin : min a b = if a ≤ b then a else b := rfl
  rw [hmin]
  split
  · next h => exact (Nat.min_eq_left h).symm
  · next h => exact (Nat.min_eq_right (Nat.le_of_not_le h)).symm

end Times

def Group.kept (g : Group) (timeout : UInt32) : UInt32 :=
  max g.minTime (min (min timeout 0x7fffffff) (max g.minTime g.maxTime))

example : Group.kept ⟨"news", "", true, false, 5, 2, []⟩ 9 = 5 := by decide

namespace Message

section Attributes

variable (m : Message)

def fields : List (String × Option Value) :=
  [(groupName, some (.text m.group)), (userName, some (.text m.user)), (textName, some (.text m.text)),
    (timeoutName, some (.int32 (writtenTime m.timeout))), (mimeTypeName, m.mimeType.map .text),
    (mimeArgsName, m.mimeArgs.map .text), (messageIdName, m.messageId.map .text),
    (inReplyToName, m.inReplyTo.map .text), (threadIdName, m.threadId.map .text)]

theorem nodup_fields : (m.fields.map (·.1)).Nodup := by
  have hnames : m.fields.map (·.1) = [groupName, userName, textName, timeoutName, mimeTypeName, mimeArgsName,
      messageIdName, inReplyToName, threadIdName] := rfl
  rw [hnames]
  decide

theorem toNotification_eq_foldl : m.toNotification = m.fields.foldl (fun n f => n.put f.1 f.2) .empty := by
  simp only [toNotification, Notification.insertText_eq_put]
  rfl

theorem get?_toNotification (name : String) :
    m.toNotification.get? name = (m.fields.find? (·.1 = name)).bind (·.2) := by
  rw [toNotification_eq_foldl, Notification.get?_foldl_put m.nodup_fields]
  simp

theorem get?_of_mem {f : String × Option Value} (h : f ∈ m.fields) : m.toNotification.get? f.1 = f.2 := by
  rw [get?_toNotification]
  have hfind : m.fields.find? (·.1 = f.1) = some f := by
    obtain ⟨before, after, hfields⟩ := List.append_of_mem h
    have hd := hfields ▸ m.nodup_fields
    rw [List.map_append, List.map_cons, List.nodup_append] at hd
    rw [hfields, List.find?_append, List.find?_eq_none.mpr]
    · simp
    · intro a ha he
      exact hd.2.2 a.1 (List.mem_map_of_mem ha) f.1 List.mem_cons_self (of_decide_eq_true he)
  rw [hfind]
  rfl

end Attributes

section Times

theorem toInt_writtenTime (timeout : UInt32) :
    (writtenTime timeout).toInt = (min timeout.toNat 2147483647 : Nat) := by
  have hmax : Int32.maxValue.toInt = 2147483647 := by decide
  have hcast : (min timeout.toNat 2147483647 : Int) = (min timeout.toNat 2147483647 : Nat) := by omega
  rw [writtenTime, hmax, hcast, Int32.toInt_ofInt_of_le] <;> omega

theorem toNat_displayTime (minutes : Int) (minTime maxTime : UInt32) :
    ((displayTime (some minutes) minTime maxTime).toNat : Int) =
      max (minTime.toNat : Int) (min minutes (max minTime.toNat maxTime.toNat : Nat)) := by
  have hhighest : max minTime.toNat maxTime.toNat < 4294967296 :=
    Nat.max_lt.mpr ⟨minTime.toNat_lt, maxTime.toNat_lt⟩
  have hlow : 0 ≤ max (minTime.toNat : Int) (min minutes (max minTime.toNat maxTime.toNat : Nat)) :=
    Int.le_trans (Int.natCast_nonneg _) (Int.le_max_left _ _)
  have hhigh : max (minTime.toNat : Int) (min minutes (max minTime.toNat maxTime.toNat : Nat)) < UInt32.size := by
    refine Int.max_lt.mpr ⟨Int.ofNat_lt.mpr minTime.toNat_lt, ?_⟩
    exact Int.lt_of_le_of_lt (Int.min_le_right _ _) (Int.ofNat_lt.mpr hhighest)
  rw [displayTime, UInt32.toNat_ofNat_of_lt' ((Int.toNat_lt hlow).mpr hhigh), Int.toNat_of_nonneg hlow]

theorem displayTime_writtenTime (timeout : UInt32) (g : Group) :
    displayTime (some (writtenTime timeout).toInt) g.minTime g.maxTime = g.kept timeout := by
  apply UInt32.toNat_inj.mp
  have hshown := toNat_displayTime (writtenTime timeout).toInt g.minTime g.maxTime
  have hkept : (g.kept timeout).toNat = max g.minTime.toNat
      (min (min timeout.toNat 2147483647) (max g.minTime.toNat g.maxTime.toNat)) := by
    simp only [Group.kept, toNat_max, toNat_min]
    rfl
  have hcast (a b c : Nat) : max (a : Int) (min b c : Int) = (max a (min b c) : Nat) := by omega
  rw [toInt_writtenTime, hcast, ← hkept] at hshown
  rw [toInt_writtenTime]
  exact Int.natCast_inj.mp hshown

end Times

theorem ofNotification?_toNotification (m : Message) (g : Group) :
    ofNotification? m.toNotification g = some { m with timeout := g.kept m.timeout } := by
  have htime : requestedTime m.toNotification = some (writtenTime m.timeout).toInt := by
    have hwritten := m.get?_of_mem (f := (timeoutName, some (.int32 (writtenTime m.timeout)))) (by simp [fields])
    rw [requestedTime, hwritten]
    rfl
  have htext {name : String} {s : Option String} (h : (name, s.map .text) ∈ m.fields) :
      m.toNotification.text? name = s := by
    rw [Notification.text?, m.get?_of_mem h, Value.text?_map]
  have hgroup : m.toNotification.text? groupName = some m.group := htext (by simp [fields])
  have huser : m.toNotification.text? userName = some m.user := htext (by simp [fields])
  have hshown : m.toNotification.text? textName = some m.text := htext (by simp [fields])
  have hmimeType : m.toNotification.text? mimeTypeName = m.mimeType := htext (by simp [fields])
  have hmimeArgs : m.toNotification.text? mimeArgsName = m.mimeArgs := htext (by simp [fields])
  have hmessageId : m.toNotification.text? messageIdName = m.messageId := htext (by simp [fields])
  have hinReplyTo : m.toNotification.text? inReplyToName = m.inReplyTo := htext (by simp [fields])
  have hthreadId : m.toNotification.text? threadIdName = m.threadId := htext (by simp [fields])
  simp only [ofNotification?, htime, displayTime_writtenTime, hgroup, huser, hshown, hmimeType, hmimeArgs, hmessageId,
    hinReplyTo, hthreadId, Option.getD_some]
  rfl

/-- A message that was written is read as itself but for its time, in which the limits of the group count and nothing
else of it. -/
theorem readsBack_toNotification (m : Message) (g : Group) :
    ofNotification? m.toNotification g = some { m with timeout := g.kept m.timeout } ∧
      (ofNotification? m.toNotification g = some m ↔ g.kept m.timeout = m.timeout) ∧
      ∀ other : Group, ofNotification? m.toNotification { other with minTime := g.minTime, maxTime := g.maxTime } =
        ofNotification? m.toNotification g := by
  refine ⟨ofNotification?_toNotification m g, ?_, fun other => ?_⟩
  · rw [ofNotification?_toNotification, Option.some.injEq]
    constructor
    · exact congrArg timeout
    · intro hkept
      rw [hkept]
  · rw [ofNotification?_toNotification, ofNotification?_toNotification]
    rfl

end Message

end Herald
