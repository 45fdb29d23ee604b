import Herald.Proofs.Transit

namespace Herald

namespace Message

variable (m : Message)

def follow (turn : Turn) : Message :=
  { m.reply turn.user turn.text with messageId := turn.messageId }

def latest (turns : List Turn) : Message :=
  turns.foldl follow m

def thread : Option String :=
  m.threadId <|> m.messageId

def names (turns : List Turn) : List (Option String) :=
  m.threadId :: m.messageId :: turns.map Turn.messageId

section Chain

theorem conversation_cons (turn : Turn) (turns : List Turn) :
    m.conversation (turn :: turns) = m.reply turn.user turn.text :: (m.follow turn).conversation turns :=
  rfl

theorem conversation_append (before after : List Turn) :
    m.conversation (before ++ after) = m.conversation before ++ (m.latest before).conversation after := by
  induction before generalizing m with
  | nil => rfl
  | cons turn before ih =>
    rw [List.cons_append, conversation_cons, conversation_cons, ih]
    rfl

theorem length_conversation (turns : List Turn) : (m.conversation turns).length = turns.length := by
  induction turns generalizing m with
  | nil => rfl
  | cons turn turns ih => exact congrArg (· + 1) (ih (m.follow turn))

theorem getElem?_conversation (before after : List Turn) (turn : Turn) :
    (m.conversation (before ++ turn :: after))[before.length]? = some ((m.latest before).reply turn.user turn.text) := by
  rw [conversation_append, conversation_cons, List.getElem?_append_right (Nat.le_of_eq (m.length_conversation before)),
    m.length_conversation before, Nat.sub_self]
  rfl

theorem latest_concat (before : List Turn) (turn : Turn) :
    m.latest (before ++ [turn]) = (m.latest before).follow turn := by
  rw [latest, List.foldl_append]
  rfl

theorem group_latest (turns : List Turn) : (m.latest turns).group = m.group := by
  induction turns generalizing m with
  | nil => rfl
  | cons turn turns ih => exact ih (m.follow turn)

theorem timeout_latest (turns : List Turn) : (m.latest turns).timeout = m.timeout := by
  induction turns generalizing m with
  | nil => rfl
  | cons turn turns ih => exact ih (m.follow turn)

end Chain

section Thread

theorem thread_follow (turn : Turn) : (m.follow turn).thread = (m.thread <|> turn.messageId) :=
  rfl

theorem findSome?_names_follow (turn : Turn) (turns : List Turn) :
    ((m.follow turn).names turns).findSome? id = (m.names (turn :: turns)).findSome? id := by
  have hthread : (m.follow turn).threadId = (m.threadId <|> m.messageId) := rfl
  simp only [names, hthread, List.findSome?_cons, List.map_cons]
  -- The thread of the answer stands for the first two names of the chain.
  cases m.threadId with
  | some thread => rfl
  | none => cases m.messageId <;> rfl

theorem thread_latest (turns : List Turn) : (m.latest turns).thread = (m.names turns).findSome? id := by
  induction turns generalizing m with
  | nil =>
    have hends : m.thread = [m.threadId, m.messageId].findSome? id := by
      rw [thread]
      cases m.threadId with
      | some thread => rfl
      | none => cases m.messageId <;> rfl
    exact hends
  | cons turn turns ih => exact (ih (m.follow turn)).trans (m.findSome?_names_follow turn turns)

theorem threadId_of_mem_conversation {m : Message} {thread : String} (h : m.thread = some thread) {turns : List Turn}
    {answer : Message} (ha : answer ∈ m.conversation turns) : answer.threadId = some thread := by
  induction turns generalizing m with
  | nil => exact absurd ha List.not_mem_nil
  | cons turn turns ih =>
    obtain rfl | hlater := List.mem_cons.mp ha
    · exact h
    · have hnext : (m.follow turn).thread = some thread := by
        rw [thread_follow, h]
        rfl
      exact ih hnext hlater

end Thread

theorem get?_toNotification_eq_some_iff {name : String} {v : Value} :
    m.toNotification.get? name = some v ↔ (name, some v) ∈ m.fields := by
  constructor
  · intro h
    rw [get?_toNotification] at h
    obtain ⟨field, hfind, hv⟩ := Option.bind_eq_some_iff.mp h
    have hname : field.1 = name := by simpa using List.find?_some hfind
    exact hname ▸ hv ▸ List.mem_of_find?_eq_some hfind
  · exact m.get?_of_mem

/-- Every answer of a conversation belongs to the group of the first message, is shown for its time and names the
message it answers. Its thread has the first name that there has been, which stays the thread of all later answers. -/
theorem threaded_conversation (before later : List Turn) (turn : Turn) :
    ∃ answer, (m.conversation (before ++ turn :: later))[before.length]? = some answer ∧
      m.latest (before ++ [turn]) = { answer with messageId := turn.messageId } ∧
      answer.group = m.group ∧ answer.timeout = m.timeout ∧ answer.inReplyTo = (m.latest before).messageId ∧
      answer.threadId = (m.names before).findSome? id ∧
      (answer.threadId = none ↔ ∀ name ∈ m.names before, name = none) ∧
      (∀ thread, answer.threadId = some thread →
        ∀ next ∈ (m.latest (before ++ [turn])).conversation later, next.threadId = some thread) ∧
      ∀ number name v, { answer with messageId := number }.toNotification.get? name = some v ↔
        (name, some v) ∈ { answer with messageId := number }.fields := by
  refine ⟨_, m.getElem?_conversation before later turn, m.latest_concat before turn, m.group_latest before,
    m.timeout_latest before, rfl, m.thread_latest before, ?_, fun thread hthread next hnext => ?_, fun number name v => ?_⟩
  · have hnames : ((m.latest before).reply turn.user turn.text).threadId = (m.names before).findSome? id :=
      m.thread_latest before
    rw [hnames, List.findSome?_eq_none_iff]
    rfl
  · have hstays : (m.latest (before ++ [turn])).thread = some thread := by
      rw [latest_concat, thread_follow]
      exact congrArg (· <|> turn.messageId) hthread
    exact threadId_of_mem_conversation hstays hnext
  · exact get?_toNotification_eq_some_iff _

def lunch : List Turn :=
  [⟨"wilma", "yes", none⟩, ⟨"barney", "no", some "b"⟩]

theorem threaded_conversation_lunch : ∃ answer,
    ((plain "Chat" "fred" "lunch?" 5).conversation (lunch ++ ⟨"fred", "ok", some "c"⟩ :: lunch))[2]? = some answer ∧
      answer.inReplyTo = some "b" ∧ answer.threadId = some "b" ∧
      ∀ next ∈ ((plain "Chat" "fred" "lunch?" 5).latest (lunch ++ [⟨"fred", "ok", some "c"⟩])).conversation lunch,
        next.threadId = some "b" := by
  obtain ⟨answer, hanswer, -, -, -, hreply, hthread, -, hlater, -⟩ :=
    threaded_conversation (plain "Chat" "fred" "lunch?" 5) lunch lunch ⟨"fred", "ok", some "c"⟩
  exact ⟨answer, hanswer, hreply, hthread, hlater "b" hthread⟩

end Message

end Herald
