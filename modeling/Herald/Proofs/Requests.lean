import Herald.Proofs.Watch

namespace Herald

variable {L : Type}

namespace Switchboard

variable {link : Option LinkId} {b b' : Switchboard L} {calls : List Call}

def Numbers (b b' : Switchboard L) (calls : List Call) : Prop :=
  ∃ k, b'.nextRequest = b.nextRequest + k ∧
    (calls.filterMap Call.order?).map Prod.fst = List.range' b.nextRequest k

theorem Numbers.silent (h : b'.nextRequest = b.nextRequest) : b.Numbers b' [] :=
  ⟨0, h, rfl⟩

theorem Numbers.trans {a : Switchboard L} {first others : List Call} (h : a.Numbers b first)
    (h' : b.Numbers b' others) : a.Numbers b' (first ++ others) := by
  obtain ⟨k, hk, hfirst⟩ := h
  obtain ⟨l, hl, hothers⟩ := h'
  refine ⟨k + l, by rw [hl, hk, Nat.add_assoc], ?_⟩
  rw [List.filterMap_append, List.map_append, hfirst, hothers, hk, List.range'_append_1]

theorem numbers_settling {n : TopicNo} (h : Settling link b n (b', calls)) : b.Numbers b' calls := by
  cases h with
  | order _ _ _ _ => exact ⟨1, rfl, rfl⟩
  | _ => exact .silent rfl

theorem Move.numbers (m : Move link b b' calls) : b.Numbers b' calls := by
  rcases m.requests_eq with ⟨rfl, -, hnext⟩ | ⟨n, hs⟩
  · exact .silent hnext
  · exact numbers_settling hs

theorem Moves.numbers (m : Moves link b b' calls) : b.Numbers b' calls := by
  induction m with
  | refl => exact .silent rfl
  | step m _ ih => exact m.numbers.trans ih

theorem numbers_acknowledge (hb : b.Coherent) (link : Option LinkId) (request : RequestNo) (ack : Ack) :
    b.Numbers (b.acknowledge link request ack).1 (b.acknowledge link request ack).2.1 := by
  have ha := acknowledging hb link request ack
  generalize b.acknowledge link request ack = r at ha
  cases ha with
  | unknown _ => exact .silent rfl
  | @known n t p r _ _ _ _ hres =>
    have hnext : r.1.nextRequest = b.nextRequest := by
      obtain ⟨t', ids, heq, -⟩ :=
        conclude_shape (b.answered request) n { t with pending := none } p.errand ack
      rw [← hres, heq]
      rfl
    exact (Numbers.silent hnext).trans (numbers_settling (settling link r.1 n))

end Switchboard

def Input.answers : Input L → RequestNo → Bool
  | .arrival (.ack request _), r => request == r
  | _, _ => false

namespace Watch

variable {w : Watch} {r : RequestNo}

theorem mem_answer (w : Watch) (request : RequestNo) (ack : Ack) :
    r ∈ (w.answer request ack).orders ↔ r ∈ w.orders ∧ request ≠ r := by
  unfold answer
  split
  · next hnone =>
    refine ⟨fun hr => ⟨hr, ?_⟩, And.left⟩
    rintro rfl
    simp [Std.ExtTreeMap.mem_iff_isSome_getElem?, hnone] at hr
  · simp [Std.ExtTreeMap.mem_erase, and_comm]

theorem mem_hear (w : Watch) (i : Input L) :
    r ∈ (w.hear i).orders ↔ r ∈ w.orders ∧ i.answers r = false := by
  unfold hear
  split
  · simp [mem_answer, Input.answers]
  · next hi =>
    have hnot : i.answers r = false := by
      unfold Input.answers
      split
      · exact absurd rfl (hi _ _)
      · rfl
    simp [hnot]

theorem mem_see {topic : RequestNo → Option TopicNo} {orders : List (RequestNo × Order)}
    (h : w.Orderly topic orders) :
    r ∈ (w.see topic orders).orders ↔ r ∈ w.orders ∨ r ∈ orders.map Prod.fst := by
  induction orders generalizing w with
  | nil => simp [see]
  | cons y orders ih =>
    obtain ⟨n, hn, -, -, h⟩ := h
    simp only [see, hn]
    rw [ih h, issue, Std.ExtTreeMap.mem_insert, Std.LawfulEqOrd.compare_eq_iff_eq, List.map_cons,
      List.mem_cons, or_left_comm, or_assoc, eq_comm]

end Watch

namespace Client

variable {c c' : Client L} {i : Input L} {calls : List Call} {r : RequestNo}

def requestsOf (c : Client L) : List (Input L) → List RequestNo
  | [] => []
  | i :: is => (c.ordersOf i).map Prod.fst ++ (c.step i).1.requestsOf is

theorem Change.numbers (hch : Change c c' i calls) (hb : c.board.Coherent) :
    c.board.Numbers c'.board calls := by
  have hnone {others : List Call} (hno : ∀ call ∈ others, call.isOrder = false) {b : Switchboard L}
      {b' : Switchboard L} (h : b'.nextRequest = b.nextRequest) : b.Numbers b' others :=
    ⟨0, h, by rw [Call.orders_eq_nil hno]; rfl⟩
  cases hch with
  | rest _ _ hno hboard _ _ => exact hnone hno (by rw [hboard])
  | serve _ _ hm _ _ => exact hm.numbers
  | rekey _ hboard _ =>
    rw [hboard]
    exact (Switchboard.rekey_moves _ _ _).numbers
  | ack hboard _ =>
    rw [hboard]
    exact Switchboard.numbers_acknowledge hb _ _ _
  | down _ hm hno hboard _ _ => exact hm.numbers.trans (hnone hno (by rw [hboard]; rfl))
  | up _ _ hboard _ =>
    rw [hboard]
    exact (Switchboard.reconnected_moves _ _).numbers

theorem Sound.requestsOf_eq (h : c.Sound) (inputs : List (Input L)) :
    ∃ k, (c.run inputs).board.nextRequest = c.board.nextRequest + k ∧
      c.requestsOf inputs = List.range' c.board.nextRequest k := by
  induction inputs generalizing c with
  | nil => exact ⟨0, rfl, rfl⟩
  | cons i inputs ih =>
    obtain ⟨k, hk, hfirst⟩ := (h.change i).numbers h.coherent
    obtain ⟨l, hl, hrest⟩ := ih (h.step i)
    refine ⟨k + l, by rw [Client.run, hl, hk, Nat.add_assoc], ?_⟩
    rw [requestsOf, ordersOf, hfirst, hrest, hk, List.range'_append_1]

/-- The requests outstanding on the connection after a run, from those that are before it: those that went out
over it and have not been answered. -/
def outstanding (c : Client L) (rs : List RequestNo) : List (Input L) → List RequestNo
  | [] => rs
  | i :: is =>
    let left := rs.filter fun r => !i.answers r
    (c.step i).1.outstanding (if i.closes then [] else left ++ (c.ordersOf i).map Prod.fst) is

theorem Sound.mem_outstanding (h : c.Sound) {w : Watch} (hw : c.board.Watched w) {rs : List RequestNo}
    (hrs : ∀ r, r ∈ w.orders ↔ r ∈ rs) (inputs : List (Input L)) (r : RequestNo) :
    r ∈ (w.after c inputs).orders ↔ r ∈ c.outstanding rs inputs := by
  induction inputs generalizing c w rs with
  | nil => exact hrs r
  | cons i inputs ih =>
    refine ih (h.step i) (h.watched_step hw i) fun r => ?_
    unfold Watch.step
    split
    · simp [Watch.fresh]
    · rw [Watch.mem_see (h.orderly hw i), Watch.mem_hear, hrs, List.mem_append, List.mem_filter]
      simp

structure Accountable (c : Client L) (outstanding : List RequestNo) : Prop where
  stale : ∀ {r : RequestNo}, r ∉ outstanding → ∀ ack : Ack,
    c.step (.arrival (.ack r ack)) = (c, ⟨.nothing, [], [], []⟩)
  owned : ∀ {r : RequestNo}, r ∈ outstanding → ∃ n, c.board.byRequest[r]? = some n ∧
    ∀ m, (∃ t, c.board.topics[m]? = some t ∧ t.request? = some r) ↔ m = n
  found : ∀ {r : RequestNo} {n : TopicNo}, c.board.byRequest[r]? = some n →
    ∃ t p, c.board.topics[n]? = some t ∧ t.pending = some p ∧ p.request = r

theorem step_ack_unknown (h : c.board.byRequest[r]? = none) (ack : Ack) :
    c.step (.arrival (.ack r ack)) = (c, ⟨.nothing, [], [], []⟩) := by
  simp [step, arrive, Switchboard.acknowledge, h, Output.ofNews]

theorem Sound.accountable (h : c.Sound) {outstanding : List RequestNo}
    (hmem : ∀ r, r ∈ outstanding ↔ r ∈ c.board.byRequest) : c.Accountable outstanding where
  stale := fun hr ack => step_ack_unknown (by simpa [hmem] using hr) ack
  owned := by
    intro r hr
    obtain ⟨n, hn⟩ := Option.isSome_iff_exists.mp
      (Std.ExtTreeMap.mem_iff_isSome_getElem?.mp ((hmem r).mp hr))
    refine ⟨n, hn, fun m => ?_⟩
    rw [← h.coherent.requests r m, hn, Option.some.injEq, eq_comm]
  found := by
    intro r n hr
    obtain ⟨t, ht, hrequest⟩ := (h.coherent.requests r n).mp hr
    obtain ⟨p, hp, hpr⟩ := Option.map_eq_some_iff.mp hrequest
    exact ⟨t, p, ht, hp, hpr⟩

theorem accountable_run {check : Expression.Check} {s : Settings} (hc : Client.ofSettings check s = .ok c)
    (inputs : List (Input L)) : (c.run inputs).Accountable (c.outstanding [] inputs) ∧ (c.requestsOf inputs).Nodup := by
  have h := Sound.ofSettings hc
  have hw := watched_ofSettings hc
  have hmem (r : RequestNo) : r ∈ (Watch.fresh.after c inputs).orders ↔ r ∈ c.outstanding [] inputs :=
    h.mem_outstanding hw (by simp [Watch.fresh]) inputs r
  obtain ⟨k, -, hrequests⟩ := h.requestsOf_eq inputs
  refine ⟨(h.run inputs).accountable fun r => ?_, ?_⟩
  · rw [← hmem, (h.watched_run hw inputs).mem_iff (h.run inputs).coherent]
  · rw [hrequests]
    exact List.nodup_range'

def belated : List (Input Nat) :=
  [.start, .arrival (.connectResult 1 (.ok 7)), .subscribe ⟨"require(A)", [], 0⟩,
    .arrival (.connectionLost ⟨1, "gone"⟩), .arrival (.connectResult 2 (.ok 8)),
    .arrival (.ack 1 (.added (.ok 4))), .arrival (.ack 2 (.added (.ok 5))),
    .arrival (.ack 2 (.added (.ok 6))), .subscribe ⟨"require(B)", [], 0⟩]

theorem accountable_run_belated : ∃ c, Client.ofSettings Expression.refusal? (.ofEndpoint "tcp://broker") = .ok c ∧
    (c.run belated).Accountable (c.outstanding [] belated) ∧ (c.requestsOf belated).Nodup :=
  ⟨_, rfl, accountable_run (s := .ofEndpoint "tcp://broker") rfl belated⟩

end Client

end Herald
