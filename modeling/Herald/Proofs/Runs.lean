import Herald.Client
import Herald.Proofs.Settling
/-!
Runs of the client. `change` says all that one step can do to the switchboard and to the link, and what it
asks of the broker; `Sound` is what every step keeps, whatever the callers do and whatever arrives.
-/

namespace Herald

variable {L : Type}

def Input.closes : Input L → Bool
  | .disconnect => true
  | .shutdown => true
  | .arrival (.connectionLost _) => true
  | _ => false

def Input.isAck : Input L → Bool
  | .arrival (.ack _ _) => true
  | _ => false

def Call.isOrder : Call → Bool
  | .order _ _ _ => true
  | _ => false

namespace Connection

structure Sound (c : Connection) : Prop where
  down_of_awaited : c.awaited ≠ none → c.status.isDown = true
  link_iff : c.link?.isSome = true ↔ c.status = .connected
  never_iff : c.status ≠ .disconnected → (c.status = .neverConnected ↔ c.hasConnected = false)
  reported : c.status.isDown = true → c.hasConnected = true → c.failureReported = true

def cut (c : Connection) : Connection :=
  { c with status := .lostConnection, link? := none, failureReported := true }

section Status

variable {c : Connection}

theorem status_ne_of_isDown (hd : c.status.isDown = true) : c.status ≠ .connected ∧ c.status ≠ .disconnected := by
  constructor <;> rintro hs <;> simp [hs, Status.isDown] at hd

theorem Sound.link?_eq_none (h : c.Sound) (hs : c.status ≠ .connected) : c.link? = none := by
  cases hl : c.link? with
  | none => rfl
  | some link => exact absurd (h.link_iff.mp (by rw [hl]; rfl)) hs

theorem Sound.link?_eq_none_of_isDown (h : c.Sound) (hd : c.status.isDown = true) : c.link? = none :=
  h.link?_eq_none (status_ne_of_isDown hd).1

theorem link?_eq_none_of_sound (h : c.Sound) (ha : c.awaited ≠ none) : c.link? = none :=
  h.link?_eq_none_of_isDown (h.down_of_awaited ha)

theorem sound_ofSettings (s : Settings) : (ofSettings s).Sound := by
  constructor <;> simp [ofSettings]

@[simp] theorem link?_dial (c : Connection) : c.dial.1.link? = c.link? := by
  unfold dial
  split <;> rfl

theorem dial_not_order (c : Connection) : ∀ call ∈ c.dial.2, call.isOrder = false := by
  unfold dial
  split <;> simp [Call.isOrder]

theorem sound_dial (h : c.Sound) : c.dial.1.Sound := by
  unfold dial
  split
  · next hd =>
    simp only [Bool.and_eq_true] at hd
    exact ⟨fun _ => hd.1, h.link_iff, h.never_iff, h.reported⟩
  · exact h

theorem sound_succeed (c : Connection) (link : LinkId) : (c.succeed link).1.Sound := by
  constructor <;> simp [succeed, Status.isDown]

theorem sound_fail (hl : c.link? = none) (failure : LinkFailure) : (c.fail failure).1.Sound := by
  cases hc : c.hasConnected <;> constructor <;> simp [fail, hc, hl]

theorem sound_connectResult (h : c.Sound) (attempt : AttemptNo) (result : Except LinkFailure LinkId) :
    (c.connectResult attempt result).1.Sound := by
  unfold connectResult
  split
  · next ha =>
    cases result with
    | ok link => exact sound_succeed c link
    | error failure => exact sound_fail (link?_eq_none_of_sound h (by simp [ha])) failure
  · cases result with
    | ok link => exact h
    | error failure => exact h

theorem sound_cut (h : c.Sound) (hs : c.status = .connected) : c.cut.Sound where
  down_of_awaited := fun _ => rfl
  link_iff := by simp [cut]
  never_iff := by
    have hmade : c.hasConnected = true := by
      simpa [hs] using h.never_iff (by simp [hs])
    simp [cut, hmade]
  reported := fun _ _ => rfl

theorem sound_close (c : Connection) : c.close.1.Sound := by
  constructor <;> simp [close, Status.isDown]

theorem lose_of_not_connected (hs : c.status ≠ .connected) (failure : LinkFailure) :
    c.lose failure = (c, [], none) :=
  if_neg hs

theorem lose_of_connected (hs : c.status = .connected) (failure : LinkFailure) :
    c.lose failure = (c.cut.dial.1, c.cut.dial.2, some (.lost failure)) :=
  if_pos hs

theorem sound_lose (h : c.Sound) (failure : LinkFailure) : (c.lose failure).1.Sound := by
  by_cases hs : c.status = .connected
  · rw [lose_of_connected hs]
    exact sound_dial (sound_cut h hs)
  · rw [lose_of_not_connected hs]
    exact h

end Status

theorem turn_of_not_made {c : Connection} {attempt : AttemptNo} {result : Except LinkFailure LinkId}
    (h : c.awaited ≠ some attempt ∨ ∃ failure, result = .error failure) (turn : Turn)
    (ht : (c.connectResult attempt result).2.2 = some turn) : turn ≠ .connected ∧ turn ≠ .reconnected := by
  unfold connectResult at ht
  obtain ha | ⟨failure, rfl⟩ := h
  · rw [if_neg ha] at ht
    cases result <;> simp at ht
  · split at ht
    · unfold fail at ht
      dsimp only at ht
      split at ht
      · simp at ht
      · obtain rfl := Option.some.inj ht
        simp
    · simp at ht

theorem Sound.connected_of_link {c : Connection} {link : LinkId} (h : c.Sound) (hl : c.link? = some link) :
    c.status = .connected :=
  h.link_iff.mp (by rw [hl]; rfl)

theorem Sound.not_connected_of_no_link {c : Connection} (h : c.Sound) (hl : c.link? = none) :
    c.status ≠ .connected := by
  intro hs
  simpa [hl] using h.link_iff.mpr hs

end Connection

namespace Client

def run (c : Client L) : List (Input L) → Client L
  | [] => c
  | i :: is => (c.step i).1.run is

theorem run_append (c : Client L) (xs ys : List (Input L)) : c.run (xs ++ ys) = (c.run xs).run ys := by
  induction xs generalizing c with
  | nil => rfl
  | cons i xs ih => exact ih _

theorem check_step (c : Client L) (i : Input L) : (c.step i).1.check = c.check := by
  cases i with
  | reloadKeys records =>
    simp only [step, reloadKeys]
    split <;> rfl
  | arrival a =>
    cases a with
    | connectResult attempt result =>
      simp only [step, arrive, connectResult]
      split <;> rfl
    | connectionLost failure =>
      simp only [step, arrive, connectionLost]
      split <;> rfl
    | _ => rfl
  | _ => rfl

theorem check_run (c : Client L) (inputs : List (Input L)) : (c.run inputs).check = c.check := by
  induction inputs generalizing c with
  | nil => rfl
  | cons i inputs ih => exact (ih _).trans (c.check_step i)

def Along (P : Client L → Input L → Prop) (c : Client L) : List (Input L) → Prop
  | [] => True
  | i :: is => P c i ∧ (c.step i).1.Along P is

instance decidableAlong {P : Client L → Input L → Prop} [∀ c i, Decidable (P c i)] (c : Client L) :
    (inputs : List (Input L)) → Decidable (c.Along P inputs)
  | [] => .isTrue trivial
  | i :: is =>
    have := decidableAlong (P := P) (c.step i).1 is
    inferInstanceAs (Decidable (P c i ∧ (c.step i).1.Along P is))

inductive Change (c c' : Client L) : Input L → List Call → Prop
  | rest {i : Input L} {calls : List Call} : i.isAck = false → (i.closes = true → c.link? = none) →
      (∀ call ∈ calls, call.isOrder = false) → c'.board = c.board → c'.link? = c.link? →
      c'.connection.Sound → Change c c' i calls
  | serve {i : Input L} {calls : List Call} : i.isAck = false → i.closes = false →
      c.board.Moves c.link? c'.board calls →
      (c.board.Calm c.link? → c'.board.Settled c.link?.isSome) → c'.connection = c.connection →
      Change c c' i calls
  | rekey {records : List Key.Record} {table : Key.Table} : Key.Table.ofRecords records = .ok table →
      c'.board = (c.board.rekey c.link? table).1 → c'.connection = c.connection →
      Change c c' (.reloadKeys records) (c.board.rekey c.link? table).2
  | ack {request : RequestNo} {a : Ack} : c'.board = (c.board.acknowledge c.link? request a).1 →
      c'.connection = c.connection →
      Change c c' (.arrival (.ack request a)) (c.board.acknowledge c.link? request a).2.1
  | down {i : Input L} {b : Switchboard L} {released calls : List Call} : i.closes = true →
      c.board.Moves c.link? b released → (∀ call ∈ calls, call.isOrder = false) →
      c'.board = b.disconnected → c'.link? = none → c'.connection.Sound →
      Change c c' i (released ++ calls)
  | up {attempt : AttemptNo} {link : LinkId} : c.link? = none → c'.link? = some link →
      c'.board = (c.board.reconnected (some link)).1 → c'.connection.Sound →
      Change c c' (.arrival (.connectResult attempt (.ok link))) (c.board.reconnected (some link)).2

theorem change_connectResult {c : Client L} (hc : c.connection.Sound) (attempt : AttemptNo)
    (result : Except LinkFailure LinkId) :
    Change c (c.connectResult attempt result).1 (.arrival (.connectResult attempt result))
      (c.connectResult attempt result).2.1 := by
  have hsound := Connection.sound_connectResult hc attempt result
  unfold connectResult
  unfold Connection.connectResult at hsound ⊢
  by_cases ha : c.connection.awaited = some attempt
  · have hnone : c.link? = none := Connection.link?_eq_none_of_sound hc (by simp [ha])
    rw [if_pos ha] at hsound ⊢
    cases result with
    | ok link =>
      simp only [Connection.succeed] at hsound ⊢
      cases c.connection.hasConnected <;> exact .up hnone rfl rfl hsound
    | error failure =>
      simp only [Connection.fail] at hsound ⊢
      cases c.connection.failureReported <;>
        exact .rest rfl (by simp [Input.closes]) (by simp [Call.isOrder]) rfl rfl hsound
  · rw [if_neg ha]
    cases result with
    | ok link => exact .rest rfl (by simp [Input.closes]) (by simp [Call.isOrder]) rfl rfl hc
    | error failure => exact .rest rfl (by simp [Input.closes]) (by simp) rfl rfl hc

theorem connectResult_awaited {c : Client L} {attempt : AttemptNo}
    (ha : c.connection.awaited = some attempt) (link : LinkId) :
    (c.step (.arrival (.connectResult attempt (.ok link)))).1.link? = some link ∧
      (c.step (.arrival (.connectResult attempt (.ok link)))).1.board =
        (c.board.reconnected (some link)).1 ∧
      (c.step (.arrival (.connectResult attempt (.ok link)))).2.calls =
        (c.board.reconnected (some link)).2 := by
  simp only [step, arrive, connectResult, Connection.connectResult, ha, if_true, Connection.succeed]
  cases c.connection.hasConnected <;> exact ⟨rfl, rfl, rfl⟩

theorem connectResult_of_not_made {c : Client L} {attempt : AttemptNo} {result : Except LinkFailure LinkId}
    (h : c.connection.awaited ≠ some attempt ∨ ∃ failure, result = .error failure) :
    (c.step (.arrival (.connectResult attempt result))).1.board = c.board ∧
      (c.step (.arrival (.connectResult attempt result))).2.calls =
        (c.connection.connectResult attempt result).2.1 := by
  have hturn := Connection.turn_of_not_made h
  simp only [step, arrive, connectResult]
  generalize c.connection.connectResult attempt result = r at hturn
  obtain ⟨connection, calls, turn⟩ := r
  cases turn with
  | none => exact ⟨rfl, rfl⟩
  | some turn => cases turn <;> simp_all [Output.ofNews]

theorem connectionLost_calls (c : Client L) (failure : LinkFailure) :
    (c.step (.arrival (.connectionLost failure))).2.calls = (c.connection.lose failure).2.1 := by
  simp only [step, arrive, connectionLost]
  rcases c.connection.lose failure with ⟨connection, calls, _ | turn⟩ <;> rfl

theorem change_connectionLost {c : Client L} (hc : c.connection.Sound) (failure : LinkFailure) :
    Change c (c.connectionLost failure).1 (.arrival (.connectionLost failure))
      (c.connectionLost failure).2.1 := by
  have hsound := Connection.sound_lose hc failure
  unfold connectionLost
  by_cases hs : c.connection.status = .connected
  · rw [Connection.lose_of_connected hs] at hsound ⊢
    exact .down rfl (.refl _) (Connection.dial_not_order _) rfl (Connection.link?_dial _) hsound
  · rw [Connection.lose_of_not_connected hs]
    exact .rest rfl (fun _ => hc.link?_eq_none hs) (by simp) rfl rfl hc

theorem Connection.close_not_order (c : Connection) : ∀ call ∈ c.close.2, call.isOrder = false := by
  simp [Connection.close, Call.isOrder]

theorem change_disconnect (c : Client L) : Change c c.disconnect.1 .disconnect c.disconnect.2 :=
  .down rfl (.refl _) (Connection.close_not_order _) rfl rfl (Connection.sound_close _)

theorem change_shutdown (c : Client L) : Change c c.shutdown.1 .shutdown c.shutdown.2 :=
  .down rfl (Switchboard.unsubscribeAll_moves c.link? c.board) (Connection.close_not_order _) rfl rfl
    (Connection.sound_close _)

theorem change_start {c : Client L} (hc : c.connection.Sound) {i : Input L} (hi : i.isAck = false)
    (hcl : i.closes = false) : Change c c.start.1 i c.start.2 := by
  refine .rest hi (by simp [hcl]) (Connection.dial_not_order c.connection) rfl ?_ (Connection.sound_dial hc)
  exact Connection.link?_dial c.connection

theorem change {c : Client L} (hc : c.connection.Sound) (hb : c.board.Coherent) (i : Input L) :
    Change c (c.step i).1 i (c.step i).2.calls := by
  cases i with
  | start => exact change_start hc rfl rfl
  | disconnect => exact change_disconnect c
  | shutdown => exact change_shutdown c
  | subscribe w =>
    exact .serve rfl rfl (Switchboard.subscribe_moves hb c.check c.link? w)
      (Switchboard.settled_subscribe · c.check w) rfl
  | unsubscribe k =>
    exact .serve rfl rfl (Switchboard.unsubscribe_moves c.link? c.board k) (Switchboard.settled_unsubscribe · k) rfl
  | revise k w =>
    exact .serve rfl rfl (Switchboard.revise_moves hb c.check c.link? k w)
      (Switchboard.settled_revise · hb c.check k w) rfl
  | send n names =>
    refine .rest rfl (by simp [Input.closes]) ?_ rfl rfl hc
    cases hl : c.link? <;> simp [step, send, hl, Output.ofReply, Call.isOrder]
  | reloadKeys records =>
    cases hr : Key.Table.ofRecords records with
    | error fault =>
      simp only [step, reloadKeys, hr, outcome]
      exact .rest rfl (by simp [Input.closes]) (by simp [Output.ofReply]) rfl rfl hc
    | ok table =>
      simp only [step, reloadKeys, hr, outcome]
      exact .rekey hr rfl rfl
  | arrival a =>
    cases a with
    | connectResult attempt result => exact change_connectResult hc attempt result
    | retryDue => exact change_start hc rfl rfl
    | connectionLost failure => exact change_connectionLost hc failure
    | ack request a => exact .ack rfl rfl
    | notification id n =>
      exact .rest rfl (by simp [Input.closes]) (by simp [step, arrive, Output.ofAudience]) rfl rfl hc
    | notifySent result =>
      exact .rest rfl (by simp [Input.closes]) (by simp [step, arrive, Output.ofCalls]) rfl rfl hc

theorem eq_of_ofSettings {c : Client L} {check : Expression.Check} {s : Settings}
    (h : Client.ofSettings check s = .ok c) : c = ⟨check, .ofSettings s, .ofTable .empty⟩ := by
  unfold Client.ofSettings at h
  cases hv : s.validate with
  | error fault => simp [hv, bind, Except.bind] at h
  | ok u => simpa [hv, bind, Except.bind, pure, Except.pure] using h.symm

theorem ofSettings_ofEndpoint (check : Expression.Check) (endpoint : String) (h : endpoint ≠ "") :
    Client.ofSettings check (.ofEndpoint endpoint) =
      .ok (⟨check, .ofSettings (.ofEndpoint endpoint), .ofTable .empty⟩ : Client L) := by
  have hvalid : (Settings.ofEndpoint endpoint).validate = .ok () := by
    simp [Settings.validate, Settings.flaw?, Settings.ofEndpoint, h]
  rw [Client.ofSettings, hvalid]
  rfl

structure Sound (c : Client L) : Prop where
  connection : c.connection.Sound
  coherent : c.board.Coherent
  occupied : c.board.Occupied
  quiet : c.link? = none → c.board.Quiet
  settled : c.board.Settled c.link?.isSome

namespace Sound

variable {c : Client L}

theorem calm (h : c.Sound) : c.board.Calm c.link? :=
  ⟨h.settled, h.quiet⟩

theorem isActive_iff (h : c.Sound) {n : TopicNo} {t : Topic L} (ht : c.board.topics[n]? = some t) :
    t.isActive = true ↔ t.callers ≠ [] :=
  ⟨h.occupied n t ht, (h.coherent.proper ht).isActive⟩

theorem isActive_eq_false_iff (h : c.Sound) {n : TopicNo} {t : Topic L} (ht : c.board.topics[n]? = some t) :
    t.isActive = false ↔ t.callers = [] := by
  rw [← Bool.not_eq_true, h.isActive_iff ht, Classical.not_not]

theorem ofSettings {check : Expression.Check} {s : Settings} (h : Client.ofSettings check s = .ok c) : c.Sound := by
  obtain rfl := eq_of_ofSettings h
  exact {
    connection := Connection.sound_ofSettings s
    coherent := .ofTable _
    occupied := .ofTable _
    quiet := fun _ => .ofTable _
    settled := by
      intro n t ht
      simp [Switchboard.ofTable] at ht }

theorem link?_of_connection {c' : Client L} (h : c'.connection = c.connection) : c'.link? = c.link? :=
  congrArg Connection.link? h

theorem of_change (h : c.Sound) {c' : Client L} {i : Input L} {calls : List Call}
    (hch : Change c c' i calls) : c'.Sound := by
  cases hch with
  | rest _ _ _ hb hl hc =>
    exact ⟨hc, hb ▸ h.coherent, hb ▸ h.occupied, fun hn => hb ▸ h.quiet (hl ▸ hn), hl ▸ hb ▸ h.settled⟩
  | serve _ _ hm hs hc =>
    have hl := link?_of_connection hc
    refine ⟨hc ▸ h.connection, h.coherent.moves hm, h.occupied.moves hm, fun hn => ?_, hl ▸ hs h.calm⟩
    rw [hl] at hn
    exact (h.quiet hn).moves (hn ▸ hm)
  | rekey _ hb hc =>
    have hl := link?_of_connection hc
    refine ⟨hc ▸ h.connection, hb ▸ h.coherent.rekey _ _, hb ▸ h.occupied.rekey _ _, fun hn => ?_, ?_⟩
    · rw [hl] at hn
      rw [hb, hn]
      exact (h.quiet hn).rekey _
    · rw [hb, hl]
      exact Switchboard.settled_rekey h.quiet _
  | ack hb hc =>
    have hl := link?_of_connection hc
    refine ⟨hc ▸ h.connection, hb ▸ h.coherent.acknowledge _ _ _, hb ▸ h.occupied.acknowledge h.coherent _ _ _,
      fun hn => ?_, ?_⟩
    · rw [hl] at hn
      rw [hb, hn]
      exact (h.quiet hn).acknowledge_eq h.coherent none _ _ ▸ h.quiet hn
    · rw [hb, hl]
      exact Switchboard.settled_acknowledge h.calm h.coherent _ _
  | down _ hm _ hb hl hc =>
    refine ⟨hc, hb ▸ (h.coherent.moves hm).disconnected, hb ▸ (h.occupied.moves hm).disconnected,
      fun _ => hb ▸ .disconnected _, ?_⟩
    rw [hb, hl]
    exact Switchboard.settled_disconnected _
  | up _ hl hb hc =>
    refine ⟨hc, hb ▸ h.coherent.reconnected _, hb ▸ h.occupied.reconnected _, fun hn => by simp [hl] at hn, ?_⟩
    rw [hb, hl]
    exact Switchboard.settled_reconnected _ _

theorem change (h : c.Sound) (i : Input L) : Change c (c.step i).1 i (c.step i).2.calls :=
  Client.change h.connection h.coherent i

theorem step (h : c.Sound) (i : Input L) : (c.step i).1.Sound :=
  h.of_change (h.change i)

theorem run (h : c.Sound) (inputs : List (Input L)) : (c.run inputs).Sound := by
  induction inputs generalizing c with
  | nil => exact h
  | cons i inputs ih => exact ih (h.step i)

end Sound

section Faults

variable {c c' : Client L} {calls : List Call} {w : Wish L} {k : Ticket} {records : List Key.Record} {fault : Fault}

theorem of_unchanged {α : Type} {done : Except Fault α × Client L × List Call}
    (h : done.1 = .error fault → done.2 = (c, [])) (hs : done = (.error fault, c', calls)) : c' = c ∧ calls = [] := by
  subst hs
  exact Prod.mk.inj (h rfl)

theorem subscribe_unchanged (h : (c.subscribe w).1 = .error fault) : (c.subscribe w).2 = (c, []) := by
  simp [subscribe, onBoard, Switchboard.subscribe_unchanged h]

theorem unsubscribe_unchanged (h : (c.unsubscribe k).1 = .error fault) : (c.unsubscribe k).2 = (c, []) := by
  simp [unsubscribe, onBoard, Switchboard.unsubscribe_unchanged h]

theorem Sound.revise_unchanged (hc : c.Sound) (h : (c.revise k w).1 = .error fault) :
    (c.revise k w).2 = (c, []) := by
  simp [revise, onBoard, Switchboard.revise_unchanged hc.coherent h]

theorem reloadKeys_unchanged (h : (c.reloadKeys records).1 = .error fault) : (c.reloadKeys records).2 = (c, []) := by
  unfold reloadKeys at h ⊢
  cases hr : Key.Table.ofRecords records with
  | error fault => rfl
  | ok table => simp [hr] at h

end Faults

end Client

end Herald
