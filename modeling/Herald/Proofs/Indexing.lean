import Herald.Proofs.Runs

namespace Herald

variable {L : Type}

namespace Switchboard

def BrokerIds (b : Switchboard L) : Prop :=
  Indexes b.topics b.byBrokerId fun t id => t.brokerId? = some id

namespace BrokerIds

variable {link : Option LinkId} {b b' : Switchboard L} {calls : List Call} {n : TopicNo}
  {t t' : Topic L}

theorem put (h : b.BrokerIds) (ht : b.topics[n]? = some t) (hid : t'.brokerId? = t.brokerId?) :
    Indexes (b.topics.insert n t') b.byBrokerId fun t id => t.brokerId? = some id :=
  h.insert_same fun id => by rw [h.mark_iff ht, hid]

theorem settle (h : b.BrokerIds) (link : Option LinkId) (n : TopicNo) :
    (b.settle link n).1.BrokerIds := by
  have hs := settling link b n
  generalize b.settle link n = r at hs
  cases hs with
  | missing _ => exact h
  | idle _ _ => exact h
  | removal ht _ _ hh =>
    unfold BrokerIds Switchboard.drop
    rw [hh]
    refine h.erase_bare fun id hid => ?_
    have := (h.mark_iff ht).mp hid
    simp [Topic.brokerId?, hh] at this
  | confirmation _ ht _ _ _ hh _ => exact h.put ht (by simp [Topic.brokerId?, Topic.confirm, hh])
  | order _ ht _ _ => exact h.put ht rfl

theorem move (h : b.BrokerIds) (hb : b.Coherent) (m : Move link b b' calls) : b'.BrokerIds := by
  cases m with
  | issue => exact h
  | found _ _ _ =>
    rw [BrokerIds, topics_found, create_join]
    refine h.insert_bare hb.nextTopic_free fun id => ?_
    simp [Topic.brokerId?, Topic.ofExpression]
  | join ht _ _ =>
    rw [Switchboard.join, ht]
    exact h.put ht (by simp [Topic.brokerId?])
  | leave hk =>
    obtain ⟨t, ht, -⟩ := (hb.tickets _ _).mp hk
    simp only [Switchboard.leave, ht]
    exact h.put ht (by simp [Topic.brokerId?])
  | replace c ht =>
    rw [Switchboard.replace, ht]
    exact h.put ht (by simp [Topic.brokerId?])
  | rename ht _ => exact h.put ht rfl
  | settle n => exact h.settle link n

theorem moves (h : b.BrokerIds) (hb : b.Coherent) (m : Moves link b b' calls) : b'.BrokerIds := by
  induction m with
  | refl => exact h
  | step m _ ih => exact ih (h.move hb m) (hb.move m)

theorem disconnected (b : Switchboard L) : b.disconnected.BrokerIds := by
  intro id n
  constructor
  · intro h
    simp [Switchboard.disconnected] at h
  · rintro ⟨t', ht', hid⟩
    obtain ⟨t, -, -, rfl⟩ := topic_disconnected_iff.mp ht'
    simp [Topic.brokerId?, Topic.forget] at hid

theorem conclude (h : b.BrokerIds) (hb : b.Coherent) (ht : b.topics[n]? = some t) {p : Pending}
    (hp : t.pending = some p) {ack : Ack}
    (hfresh : ∀ id, ack = .added (.ok id) → ∀ m, b.byBrokerId[id]? = some m → m = n)
    (request : RequestNo) :
    ((b.answered request).conclude n { t with pending := none } p.errand ack).1.BrokerIds := by
  have hfit := (hb.proper ht).fits p hp
  unfold Switchboard.conclude
  split
  · next terms id herrand =>
    have hh : t.held = none := by simpa [herrand, Errand.Fits] using hfit
    refine h.insert_marked (hfresh id rfl) fun i => ?_
    rw [h.mark_iff ht]
    simp [Topic.brokerId?, hh, eq_comm]
  · exact h.put ht (by cases hh : t.held <;> simp [Topic.brokerId?, Topic.confirm, hh])
  · exact h.put ht rfl
  · exact h.put ht rfl
  · cases hh : t.held with
    | none => exact h.put ht (by simp [Topic.brokerId?, hh])
    | some holding =>
      have hid : b.byBrokerId[holding.id]? = some n :=
        (h.mark_iff ht).mpr (by simp [Topic.brokerId?, hh])
      refine h.insert_unmarked hid fun i => ?_
      rw [h.mark_iff ht]
      simp [Topic.brokerId?, hh, eq_comm]
  · exact h.put ht rfl

end BrokerIds

structure Indexed (b : Switchboard L) : Prop where
  expressions : Indexes b.topics b.byExpression fun t e => t.expression = e
  distinct : ∀ (n m : TopicNo) (t u : Topic L), b.topics[n]? = some t → b.topics[m]? = some u →
    t.expression = u.expression → n = m
  tickets : Indexes b.topics b.byTicket fun t k => ∃ c ∈ t.callers, c.ticket = k
  tickets_once : ∀ (n : TopicNo) (t : Topic L), b.topics[n]? = some t →
    (t.callers.map (·.ticket)).Nodup
  requests : Indexes b.topics b.byRequest fun t r => t.pending.map (·.request) = some r
  brokerIds : Indexes b.topics b.byBrokerId fun t id => t.held.map (·.id) = some id
  active_iff : ∀ (n : TopicNo) (t : Topic L), b.topics[n]? = some t →
    (t.isActive = true ↔ ∃ c, c ∈ t.callers)
  leaving_pending : ∀ (n : TopicNo) (t : Topic L), b.topics[n]? = some t → t.isActive = false →
    t.pending ≠ none
  keyNames : ∀ (n : TopicNo) (t : Topic L), b.topics[n]? = some t → t.isActive = true →
    t.keyNames = (t.callers.flatMap (·.keyNames)).eraseDups
  topic_lt : ∀ (n : TopicNo) (t : Topic L), b.topics[n]? = some t → n < b.nextTopic
  ticket_lt : ∀ (k : Ticket) (n : TopicNo), b.byTicket[k]? = some n → k < b.nextTicket
  request_lt : ∀ (r : RequestNo) (n : TopicNo), b.byRequest[r]? = some n → r < b.nextRequest

theorem Coherent.indexed {b : Switchboard L} {connected : Bool} (h : b.Coherent) (ho : b.Occupied)
    (hids : b.BrokerIds) (hs : b.Settled connected) : b.Indexed where
  expressions := h.expressions
  distinct := fun _ _ _ _ ht hu he => h.expressions.mark_unique ht hu he rfl
  tickets := fun k n => by simpa [Topic.tickets] using h.tickets k n
  tickets_once := fun _ _ ht => (h.proper ht).nodup
  requests := h.requests
  brokerIds := hids
  active_iff := fun n t ht => by
    constructor
    · exact fun ha => List.exists_mem_of_ne_nil _ (ho n t ht ha)
    · rintro ⟨_, hc⟩
      exact (h.proper ht).isActive (List.ne_nil_of_mem hc)
  leaving_pending := by
    intro n t ht ha hp
    have hactive := (hs n t ht (by simp) hp).1
    simp [hactive] at ha
  keyNames := fun n t ht ha => (h.proper ht).keyNames (ho n t ht ha)
  topic_lt := fun _ _ => h.topic_lt
  ticket_lt := fun _ _ => h.ticket_lt
  request_lt := fun _ _ => h.request_lt

end Switchboard

def Input.added? : Input L → Option (RequestNo × BrokerId)
  | .arrival (.ack request (.added (.ok id))) => some (request, id)
  | _ => none

namespace Client

/-- An answer to an add gives no id that another topic than that of the add holds. -/
def FreshId (c : Client L) : Input L → Prop
  | .arrival (.ack request (.added (.ok id))) => ∀ n ∈ c.board.byRequest[request]?,
      ∀ e ∈ c.board.topics.toList, e.2.held.map (·.id) = some id → e.1 = n
  | _ => True

theorem freshId_iff (c : Client L) (i : Input L) : (∀ x ∈ i.added?, ∀ n ∈ c.board.byRequest[x.1]?,
    ∀ e ∈ c.board.topics.toList, e.2.held.map (·.id) = some x.2 → e.1 = n) ↔ c.FreshId i := by
  unfold FreshId Input.added?
  split <;> simp

instance (c : Client L) (i : Input L) : Decidable (c.FreshId i) :=
  decidable_of_iff _ (c.freshId_iff i)

theorem brokerIds_acknowledge {c : Client L} (h : c.Sound) (hids : c.board.BrokerIds)
    {request : RequestNo} {ack : Ack} (hf : c.FreshId (.arrival (.ack request ack))) :
    (c.board.acknowledge c.link? request ack).1.BrokerIds := by
  have ha := Switchboard.acknowledging h.coherent c.link? request ack
  generalize c.board.acknowledge c.link? request ack = r at ha
  cases ha with
  | unknown _ => exact hids
  | @known n t p r hr ht hp hpr hres =>
    refine Switchboard.BrokerIds.settle ?_ _ _
    rw [← hres]
    refine hids.conclude h.coherent ht hp ?_ _
    rintro id rfl m hm
    obtain ⟨u, hu, hid⟩ := (hids id m).mp hm
    exact hf n hr (m, u) (Std.ExtTreeMap.mem_toList_iff_getElem?_eq_some.mpr hu) hid

theorem brokerIds_step {c : Client L} (h : c.Sound) (hids : c.board.BrokerIds) {i : Input L}
    (hf : c.FreshId i) : (c.step i).1.board.BrokerIds := by
  have hch := h.change i
  generalize (c.step i).1 = c', (c.step i).2.calls = calls at hch
  cases hch with
  | rest _ _ _ hb _ _ => exact hb ▸ hids
  | serve _ _ hm _ _ => exact hids.moves h.coherent hm
  | @rekey records table _ hb _ =>
    have hids' : (c.board.withTable table).BrokerIds := hids
    rw [hb]
    exact hids'.moves (h.coherent.withTable table) (Switchboard.rekey_moves _ _ _)
  | ack hb _ => exact hb ▸ brokerIds_acknowledge h hids hf
  | down _ _ _ hb _ _ => exact hb ▸ .disconnected _
  | up _ _ hb _ =>
    rw [hb]
    exact Switchboard.BrokerIds.moves (.disconnected _) h.coherent.disconnected
      (Switchboard.reconnected_moves _ _)

theorem brokerIds_run {c : Client L} (h : c.Sound) (hids : c.board.BrokerIds) {inputs : List (Input L)}
    (hf : c.Along FreshId inputs) : (c.run inputs).board.BrokerIds := by
  induction inputs generalizing c with
  | nil => exact hids
  | cons i inputs ih => exact ih (h.step i) (brokerIds_step h hids hf.1) hf.2

theorem indexed_run {check : Expression.Check} {s : Settings} {c : Client L} (hc : Client.ofSettings check s = .ok c)
    {inputs : List (Input L)} (hf : c.Along FreshId inputs) : (c.run inputs).board.Indexed := by
  have hsound := (Sound.ofSettings hc).run inputs
  have hids : c.board.BrokerIds := by
    rw [eq_of_ofSettings hc]
    exact .empty
  exact hsound.coherent.indexed hsound.occupied (brokerIds_run (.ofSettings hc) hids hf) hsound.settled

def movedCaller : List (Input Nat) :=
  [.start, .arrival (.connectResult 1 (.ok 7)), .subscribe ⟨"require(A)", ["k"], 0⟩,
    .subscribe ⟨"require(B)", ["k"], 1⟩, .arrival (.ack 1 (.added (.ok 5))),
    .arrival (.ack 2 (.added (.ok 6))), .revise 1 ⟨"require(B)", [], 2⟩, .unsubscribe 2]

theorem indexed_run_movedCaller : ∃ c, Client.ofSettings Expression.refusal? (.ofEndpoint "tcp://broker") = .ok c ∧
    c.Along FreshId movedCaller ∧ (c.run movedCaller).board.Indexed :=
  ⟨_, rfl, by decide +kernel, indexed_run (s := .ofEndpoint "tcp://broker") rfl (by decide +kernel)⟩

end Client

end Herald
