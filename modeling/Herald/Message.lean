import Herald.Digest.Sha256
import Herald.Group
import Herald.Notification
import Herald.Text.Blank
import Herald.Text.Integer

namespace Herald

/-- The time is in minutes. -/
structure Message where
  group : String
  user : String
  text : String
  timeout : UInt32
  mimeType : Option String
  mimeArgs : Option String
  messageId : Option String
  inReplyTo : Option String
  threadId : Option String
  deriving DecidableEq, Repr

namespace Message

def plain (group user text : String) (timeout : UInt32) : Message :=
  ⟨group, user, text, timeout, none, none, none, none, none⟩

def groupName := "TICKERTAPE"
def userName := "USER"
def textName := "TICKERTEXT"
def timeoutName := "TIMEOUT"
def mimeTypeName := "MIME_TYPE"
def mimeArgsName := "MIME_ARGS"
def messageIdName := "Message-Id"
def inReplyToName := "In-Reply-To"
def threadIdName := "Thread-Id"

def anonymous := "anonymous"

def requestedTime (n : Notification) : Option Int :=
  match n.get? timeoutName with
  | some (.text s) => Text.int64? (Text.trim s.toList)
  | some v => v.int?
  | none => none

/-- The requested time kept within the limits; the lower limit counts where they are crossed. -/
def displayTime (requested : Option Int) (minTime maxTime : UInt32) : UInt32 :=
  match requested with
  | none => minTime
  | some minutes =>
    let highest := max minTime.toNat maxTime.toNat
    UInt32.ofNat (max (minTime.toNat : Int) (min minutes highest)).toNat

def ofNotification? (n : Notification) (g : Group) : Option Message := do
  let text ← n.text? textName
  return {
    group := (n.text? groupName).getD g.name
    user := (n.text? userName).getD anonymous
    text
    timeout := displayTime (requestedTime n) g.minTime g.maxTime
    mimeType := n.text? mimeTypeName
    mimeArgs := n.text? mimeArgsName
    messageId := n.text? messageIdName
    inReplyTo := n.text? inReplyToName
    threadId := n.text? threadIdName }

theorem ofNotification?_eq_none {n : Notification} (h : n.text? textName = none) (g : Group) :
    ofNotification? n g = none := by
  simp [ofNotification?, h]

theorem exists_ofNotification? {n : Notification} (h : n.text? textName ≠ none) (g : Group) :
    ∃ m, ofNotification? n g = some m := by
  obtain ⟨text, ht⟩ := Option.ne_none_iff_exists'.mp h
  exact ⟨_, by simp only [ofNotification?, ht]; rfl⟩

def writtenTime (timeout : UInt32) : Int32 :=
  .ofInt (min timeout.toNat Int32.maxValue.toInt)

def toNotification (m : Message) : Notification :=
  Notification.empty
    |>.insert groupName (.text m.group)
    |>.insert userName (.text m.user)
    |>.insert textName (.text m.text)
    |>.insert timeoutName (.int32 (writtenTime m.timeout))
    |>.insertText mimeTypeName m.mimeType
    |>.insertText mimeArgsName m.mimeArgs
    |>.insertText messageIdName m.messageId
    |>.insertText inReplyToName m.inReplyTo
    |>.insertText threadIdName m.threadId

def reply (m : Message) (user text : String) : Message :=
  { plain m.group user text m.timeout with
    inReplyTo := m.messageId
    threadId := m.threadId <|> m.messageId }

structure Turn where
  user : String
  text : String
  messageId : Option String

def conversation (m : Message) : List Turn → List Message
  | [] => []
  | turn :: turns =>
    let answer := m.reply turn.user turn.text
    answer :: conversation { answer with messageId := turn.messageId } turns

def stamped (m : Message) (moment : Nat) : Message :=
  let content := Text.Hex.utf8 m.group ++ 0 :: Text.Hex.utf8 m.user ++ 0 :: Text.Hex.utf8 m.text
  let digest := Digest.sha256 (content ++ Digest.bigEndian 16 moment)
  { m with messageId := some (Text.Hex.encode (digest.take 16)) }

section Json
open Herald.Json

def groupField : Json.Field String := .required "group" .text
def userField : Json.Field String := .required "user" .text
def textField : Json.Field String := .required "text" .text
def timeoutField : Json.Field UInt32 := .required "timeout" .word32
def mimeTypeField : Json.Field (Option String) := .nullable "mime_type" .text
def mimeArgsField : Json.Field (Option String) := .nullable "mime_args" .text
def messageIdField : Json.Field (Option String) := .nullable "message_id" .text
def inReplyToField : Json.Field (Option String) := .nullable "in_reply_to" .text
def threadIdField : Json.Field (Option String) := .nullable "thread_id" .text

def reader : Reader Message := fun n => do
  let members ← membersOf "TickerMessage"
    [groupField.slot, userField.slot, textField.slot, timeoutField.slot, mimeTypeField.slot,
      mimeArgsField.slot, messageIdField.slot, inReplyToField.slot, threadIdField.slot] n
  return {
    group := ← groupField.get members
    user := ← userField.get members
    text := ← textField.get members
    timeout := ← timeoutField.get members
    mimeType := ← mimeTypeField.get members
    mimeArgs := ← mimeArgsField.get members
    messageId := ← messageIdField.get members
    inReplyTo := ← inReplyToField.get members
    threadId := ← threadIdField.get members }

def toNode (m : Message) : Node :=
  record [
    (groupField.name, .ofText m.group),
    (userField.name, .ofText m.user),
    (textField.name, .ofText m.text),
    (timeoutField.name, .ofInt m.timeout.toNat),
    (mimeTypeField.name, .ofOption .ofText m.mimeType),
    (mimeArgsField.name, .ofOption .ofText m.mimeArgs),
    (messageIdField.name, .ofOption .ofText m.messageId),
    (inReplyToField.name, .ofOption .ofText m.inReplyTo),
    (threadIdField.name, .ofOption .ofText m.threadId)]

end Json

end Message

end Herald
