import Herald.Proofs.Mirror
/-!
An onlooker of one connection, who sees the orders that go out and the answers that come back. What the
onlooker concludes from them is what the switchboard believes, so no order goes out for a topic whose last order
is unanswered, and none names an id other than the one that the topic was given.
-/

namespace Herald

variable {L : Type}

def Order.id? : Order → Option BrokerId
  | .add _ _ _ => none
  | .modify id _ => some id
  | .delete id => some id

def Call.order? : Call → Option (RequestNo × Order)
  | .order _ request o => some (request, o)
  | _ => none

structure Watch where
  orders : Std.ExtTreeMap RequestNo (TopicNo × Order)
  ids : Std.ExtTreeMap TopicNo BrokerId

namespace Client

def ordersOf (c : Client L) (i : Input L) : List (RequestNo × Order) :=
  (c.step i).2.calls.filterMap Call.order?

/-- The topic that an order of the step is for. A shutdown forgets its orders once they are out. -/
def topicOf (c : Client L) : Input L → RequestNo → Option TopicNo
  | .shutdown, request => (c.board.unsubscribeAll c.link?).1.byRequest[request]?
  | i, request => (c.step i).1.board.byRequest[request]?

end Client

namespace Watch

def fresh : Watch :=
  ⟨∅, ∅⟩

def issue (w : Watch) (request : RequestNo) (n : TopicNo) (order : Order) : Watch :=
  { w with orders := w.orders.insert request (n, order) }

/-- An added topic has the id it was given until its deletion is answered. -/
def note (ids : Std.ExtTreeMap TopicNo BrokerId) (n : TopicNo) : Order → Ack → Std.ExtTreeMap TopicNo BrokerId
  | .add _ _ _, .added (.ok id) => ids.insert n id
  | .delete _, .deleted _ => ids.erase n
  | _, _ => ids

/-- An answer of whatever kind ends its order, and an answer to no outstanding order means nothing. -/
def answer (w : Watch) (request : RequestNo) (ack : Ack) : Watch :=
  match w.orders[request]? with
  | none => w
  | some (n, order) => ⟨w.orders.erase request, note w.ids n order ack⟩

def hear (w : Watch) : Input L → Watch
  | .arrival (.ack request ack) => w.answer request ack
  | _ => w

def see (topic : RequestNo → Option TopicNo) (w : Watch) : List (RequestNo × Order) → Watch
  | [] => w
  | (request, order) :: rest =>
    match topic request with
    | none => w.see topic rest
    | some n => (w.issue request n order).see topic rest

def step (w : Watch) (c : Client L) (i : Input L) : Watch :=
  if i.closes then fresh else (w.hear i).see (c.topicOf i) (c.ordersOf i)

def after (w : Watch) (c : Client L) : List (Input L) → Watch
  | [] => w
  | i :: is => (w.step c i).after (c.step i).1 is

structure Permits (w : Watch) (n : TopicNo) (order : Order) : Prop where
  answered : ∀ (request : RequestNo) (o : Order), w.orders[request]? ≠ some (n, o)
  named : w.ids[n]? = order.id?

def Orderly (topic : RequestNo → Option TopicNo) (w : Watch) : List (RequestNo × Order) → Prop
  | [] => True
  | (request, order) :: rest =>
    ∃ n, topic request = some n ∧ w.orders[request]? = none ∧ w.Permits n order ∧
      (w.issue request n order).Orderly topic rest

section Orders

variable {topic : RequestNo → Option TopicNo} {w : Watch} {first rest : List (RequestNo × Order)}
  {request : RequestNo}

theorem issue_orders (w : Watch) {request r : RequestNo} {n : TopicNo} {order : Order}
    (hne : request ≠ r) : (w.issue request n order).orders[r]? = w.orders[r]? := by
  simp [issue, Std.ExtTreeMap.getElem?_insert, hne]

theorem orderly_append (h : w.Orderly topic first) (h' : (w.see topic first).Orderly topic rest) :
    w.Orderly topic (first ++ rest) ∧ w.see topic (first ++ rest) = (w.see topic first).see topic rest := by
  induction first generalizing w with
  | nil => exact ⟨h', rfl⟩
  | cons x first ih =>
    obtain ⟨n, hn, hfree, hp, h⟩ := h
    simp only [see, hn, List.cons_append] at h' ⊢
    obtain ⟨hall, hsee⟩ := ih h h'
    exact ⟨⟨n, hn, hfree, hp, hall⟩, hsee⟩

theorem Orderly.ne (h : w.Orderly topic first) {x : TopicNo × Order} (hx : w.orders[request]? = some x)
    {y : RequestNo × Order} (hy : y ∈ first) : y.1 ≠ request := by
  induction first generalizing w with
  | nil => simp at hy
  | cons z first ih =>
    obtain ⟨n, -, hfree, -, h⟩ := h
    have hne : z.1 ≠ request := by
      rintro rfl
      simp [hx] at hfree
    rcases List.mem_cons.mp hy with rfl | hy
    · exact hne
    · exact ih h ((w.issue_orders hne).trans hx) hy

theorem Orderly.kept (h : w.Orderly topic first) {x : TopicNo × Order} (hx : w.orders[request]? = some x) :
    (w.see topic first).orders[request]? = some x := by
  induction first generalizing w with
  | nil => exact hx
  | cons y first ih =>
    have hne := h.ne hx (.head _)
    obtain ⟨n, hn, -, -, h⟩ := h
    simp only [see, hn]
    exact ih h ((w.issue_orders hne).trans hx)

end Orders

end Watch

theorem Errand.id?_of_order? {errand : Errand} {held : Option Holding} {order : Order}
    (hfit : errand.Fits held) (ho : errand.order? held = some order) : order.id? = held.map Holding.id := by
  cases errand with
  | add terms =>
    obtain rfl : held = none := hfit
    obtain rfl := Option.some.inj ho
    rfl
  | modify terms =>
    obtain ⟨i, rfl, rfl⟩ := Option.map_eq_some_iff.mp ho
    rfl
  | delete =>
    obtain ⟨i, rfl, rfl⟩ := Option.map_eq_some_iff.mp ho
    rfl

theorem Errand.note_eq {errand : Errand} {held : Option Holding} {order : Order}
    (ho : errand.order? held = some order) {ids : Std.ExtTreeMap TopicNo BrokerId} {n : TopicNo}
    (hn : ids[n]? = held.map Holding.id) (ack : Ack) (m : TopicNo) :
    (Watch.note ids n order ack)[m]? =
      if m = n then (errand.result held ack).map Holding.id else ids[m]? := by
  have hkept {after : Option Holding} (h : after.map Holding.id = held.map Holding.id) :
      ids[m]? = if m = n then after.map Holding.id else ids[m]? := by
    split
    · next e => rw [e, hn, h]
    · rfl
  cases errand with
  | add terms =>
    obtain rfl := Option.some.inj ho
    rcases ack with (refusal | id) | result | result
    · exact hkept rfl
    · by_cases e : m = n
      · simp [Watch.note, Errand.result, e]
      · simp [Watch.note, Std.ExtTreeMap.getElem?_insert, e, Ne.symm e]
    · exact hkept rfl
    · exact hkept rfl
  | modify terms =>
    obtain ⟨i, rfl, rfl⟩ := Option.map_eq_some_iff.mp ho
    rcases ack with result | (refusal | _) | result <;> exact hkept rfl
  | delete =>
    obtain ⟨i, rfl, rfl⟩ := Option.map_eq_some_iff.mp ho
    rcases ack with result | result | result
    · exact hkept rfl
    · exact hkept rfl
    · by_cases e : m = n
      · simp [Watch.note, Errand.result, e]
      · simp [Watch.note, Std.ExtTreeMap.getElem?_erase, e, Ne.symm e]

namespace Switchboard

def awaited (b : Switchboard L) (n : TopicNo) : Option (RequestNo × TopicNo × Order) :=
  (b.view Topic.order? n).map fun x => (x.1, n, x.2)

structure Watched (b : Switchboard L) (w : Watch) : Prop where
  orders : Tabulates b.awaited w.orders
  ids : ∀ n, w.ids[n]? = (b.view Topic.held n).map Holding.id

def Attributes (b : Switchboard L) (topic : RequestNo → Option TopicNo) : Prop :=
  ∀ {r : RequestNo} {n : TopicNo}, b.byRequest[r]? = some n → topic r = some n

structure Shows (b : Switchboard L) (topic : RequestNo → Option TopicNo) (w : Watch) (calls : List Call) :
    Prop where
  orderly : w.Orderly topic (calls.filterMap Call.order?)
  watched : b.Watched (w.see topic (calls.filterMap Call.order?))

section Watched

variable {link : Option LinkId} {b b' : Switchboard L} {calls others : List Call} {w : Watch}
  {n : TopicNo} {request : RequestNo} {order : Order} {topic : RequestNo → Option TopicNo}

theorem Shows.silent (h : b.Watched w) : b.Shows topic w [] :=
  ⟨trivial, h⟩

theorem Shows.append (h : b.Shows topic w calls)
    (h' : b'.Shows topic (w.see topic (calls.filterMap Call.order?)) others) :
    b'.Shows topic w (calls ++ others) := by
  obtain ⟨hall, hsee⟩ := Watch.orderly_append h.orderly h'.orderly
  rw [← List.filterMap_append] at hall hsee
  exact ⟨hall, hsee ▸ h'.watched⟩

theorem awaited_eq_some {x : RequestNo × TopicNo × Order} :
    b.awaited n = some x ↔ x.2.1 = n ∧ b.view Topic.order? n = some (x.1, x.2.2) := by
  constructor
  · intro h
    obtain ⟨y, hy, rfl⟩ := Option.map_eq_some_iff.mp h
    exact ⟨rfl, hy⟩
  · rintro ⟨rfl, h⟩
    simp [awaited, h]

theorem Watched.order_iff (h : b.Watched w) :
    w.orders[request]? = some (n, order) ↔ b.view Topic.order? n = some (request, order) := by
  rw [h.orders.exact]
  constructor
  · rintro ⟨m, hm⟩
    obtain ⟨rfl, hview⟩ := awaited_eq_some.mp hm
    exact hview
  · exact fun hview => ⟨n, awaited_eq_some.mpr ⟨rfl, hview⟩⟩

theorem Watched.byRequest (h : b.Watched w) (hb : b.Coherent) {x : TopicNo × Order}
    (hx : w.orders[request]? = some x) : b.byRequest[request]? = some x.1 :=
  byRequest_of_order hb (h.order_iff.mp hx)

theorem Watched.mem_iff (h : b.Watched w) (hb : b.Coherent) :
    request ∈ w.orders ↔ request ∈ b.byRequest := by
  simp only [Std.ExtTreeMap.mem_iff_isSome_getElem?, Option.isSome_iff_exists]
  constructor
  · rintro ⟨x, hx⟩
    exact ⟨x.1, h.byRequest hb hx⟩
  · rintro ⟨n, hn⟩
    obtain ⟨t, ht, hrequest⟩ := (hb.requests request n).mp hn
    obtain ⟨p, hp, rfl⟩ := Option.map_eq_some_iff.mp hrequest
    obtain ⟨o, -, horder⟩ := order_of_pending hb ht hp
    exact ⟨(n, o), h.order_iff.mpr horder⟩

theorem Watched.congr (h : b.Watched w)
    (horders : ∀ m, b'.view Topic.order? m = b.view Topic.order? m)
    (hids : ∀ m, (b'.view Topic.held m).map Holding.id = (b.view Topic.held m).map Holding.id) :
    b'.Watched w :=
  ⟨h.orders.congr fun m => by rw [awaited, awaited, horders], fun m => by rw [h.ids, hids]⟩

theorem Move.byRequest (m : Move link b b' calls) (hb : b.Coherent)
    (hr : b.byRequest[request]? = some n) : b'.byRequest[request]? = some n := by
  rcases m.requests_eq with ⟨-, hsame, -⟩ | ⟨m, hs⟩
  · rwa [hsame]
  · cases hs with
    | order _ _ _ _ =>
      have hne : b.nextRequest ≠ request := (Nat.ne_of_lt (hb.request_lt hr)).symm
      simpa [send, put, Std.ExtTreeMap.getElem?_insert, hne] using hr
    | _ => exact hr

theorem Moves.byRequest (m : Moves link b b' calls) (hb : b.Coherent)
    (hr : b.byRequest[request]? = some n) : b'.byRequest[request]? = some n := by
  induction m with
  | refl => exact hr
  | step m _ ih => exact ih (hb.move m) (m.byRequest hb hr)

theorem Watched.nextRequest_free (h : b.Watched w) (hb : b.Coherent) : b.nextRequest ∉ w.orders := by
  rw [h.mem_iff hb, Std.ExtTreeMap.mem_iff_isSome_getElem?, hb.nextRequest_free]
  simp

theorem Watched.permits (h : b.Watched w) (hnone : b.view Topic.pending n = none)
    (hid : order.id? = (b.view Topic.held n).map Holding.id) : w.Permits n order where
  answered := by
    intro r o hx
    have hview := h.order_iff.mp hx
    simp [view_order?, hnone] at hview
  named := by rw [h.ids, hid]

theorem Watched.ordered (h : b.Watched w) (hb : b.Coherent) (hb' : b'.Coherent) {link : LinkId}
    {errand : Errand} (hnone : b.view Topic.pending n = none)
    (ho : errand.order? (b.view Topic.held n) = some order)
    (hh : ∀ m, b'.view Topic.held m = b.view Topic.held m)
    (hp : ∀ m, b'.view Topic.pending m =
      if m = n then some ⟨b.nextRequest, errand⟩ else b.view Topic.pending m)
    (htopic : b'.Attributes topic) : b'.Shows topic w [.order link b.nextRequest order] := by
  have hnow : b'.view Topic.order? n = some (b.nextRequest, order) := by
    simp [view_order?, hh, hp, ho]
  -- That the errand fits what is held is what coherence says of the topic once the order is out.
  have hfit : errand.Fits (b.view Topic.held n) := by
    have hpending : b'.view Topic.pending n = some ⟨b.nextRequest, errand⟩ := by simp [hp]
    obtain ⟨t, ht, hpt⟩ := view_eq_some.mp hpending
    rw [← hh, view_of_topic ht]
    exact (hb'.proper ht).fits _ hpt
  have hfree := h.nextRequest_free hb
  have hn : topic b.nextRequest = some n := htopic (byRequest_of_order hb' hnow)
  have hpermits := h.permits hnone (Errand.id?_of_order? hfit ho)
  refine ⟨⟨n, hn, Std.ExtTreeMap.getElem?_eq_none hfree, hpermits, trivial⟩, ?_⟩
  simp only [List.filterMap_cons, Call.order?, List.filterMap_nil, Watch.see, hn]
  refine ⟨h.orders.insert (n := n) ?_ hfree fun m => ?_, fun m => ?_⟩
  · simp [awaited, view_order?, hnone]
  · simp only [awaited, view_order?, hp, hh]
    by_cases e : m = n
    · simp [e, ho]
    · simp [e]
  · rw [hh]
    exact h.ids m

theorem Watched.effect (h : b.Watched w) (hb : b.Coherent) (hb' : b'.Coherent) (he : Effect b b' calls)
    (htopic : b'.Attributes topic) : b'.Shows topic w calls := by
  cases he with
  | still hh hp =>
    refine .silent (h.congr (fun m => ?_) fun m => ?_)
    · simp only [view_order?, hh, hp]
    · simp only [hh]
  | @confirmed n i terms hnone hi _ _ hh hp =>
    refine .silent (h.congr (fun m => ?_) fun m => ?_)
    · rw [view_order?, view_order?, hp]
      by_cases e : m = n
      · simp [e, hnone]
      · rw [hh, if_neg e]
    · rw [hh]
      by_cases e : m = n
      · simp [e, hi]
      · rw [if_neg e]
  | ordered hnone ho _ hh hp => exact h.ordered hb hb' hnone ho hh hp htopic

theorem Watched.moves (h : b.Watched w) (hb : b.Coherent) (m : Moves link b b' calls)
    (htopic : b'.Attributes topic) : b'.Shows topic w calls := by
  induction m generalizing w with
  | refl => exact .silent h
  | step m ms ih =>
    have hc := hb.move m
    have hfirst := h.effect hb hc (m.effect hb) fun hr => htopic (ms.byRequest hc hr)
    exact hfirst.append (ih hfirst.watched hc htopic)

theorem Watched.conclude (h : b.Watched w) (hb : b.Coherent) {t : Topic L} (ht : b.topics[n]? = some t)
    {p : Pending} (hp : t.pending = some p) (ack : Ack) :
    ((b.answered p.request).conclude n { t with pending := none } p.errand ack).1.Watched
      (w.answer p.request ack) := by
  obtain ⟨o, ho, horder⟩ := order_of_pending hb ht hp
  rw [Watch.answer, h.order_iff.mpr horder]
  have hline : b.awaited n = some (p.request, n, o) := awaited_eq_some.mpr ⟨rfl, horder⟩
  refine ⟨h.orders.erase hline fun m => ?_, fun m => ?_⟩
  · rw [awaited, awaited, view_order?, view_order?, pending_conclude, held_conclude]
    split <;> rfl
  · have hid : w.ids[n]? = t.held.map Holding.id := (h.ids n).trans (by rw [view_of_topic ht])
    rw [held_conclude, Errand.note_eq ho hid]
    split
    · rfl
    · exact h.ids m

theorem Watched.answer_unknown (h : b.Watched w) (hb : b.Coherent) (hr : b.byRequest[request]? = none)
    (ack : Ack) : w.answer request ack = w := by
  have hnone : w.orders[request]? = none := by
    simpa [← Std.ExtTreeMap.mem_iff_isSome_getElem?, h.mem_iff hb] using hr
  rw [Watch.answer, hnone]

theorem Watched.acknowledge (h : b.Watched w) (hb : b.Coherent) (link : Option LinkId) (ack : Ack)
    (htopic : (b.acknowledge link request ack).1.Attributes topic) :
    (b.acknowledge link request ack).1.Shows topic (w.answer request ack)
      (b.acknowledge link request ack).2.1 := by
  have ha := acknowledging hb link request ack
  generalize b.acknowledge link request ack = r at ha htopic
  cases ha with
  | unknown hr =>
    rw [h.answer_unknown hb hr]
    exact .silent h
  | @known n t p r hr ht hp hpr hres =>
    subst hpr
    have hconcluded := hres ▸ h.conclude hb ht hp ack
    have hcoherent : r.1.Coherent := hres ▸ hb.conclude ht hp ack
    exact hconcluded.effect hcoherent (hcoherent.settle link n) (effect_settle link r.1 n) htopic

theorem Watched.of_quiet (h : b.Watched w) (hq : b.Quiet) (hq' : b'.Quiet) : b'.Watched w := by
  refine h.congr (fun m => by rw [hq.order?, hq'.order?]) fun m => ?_
  rw [hq.view (fun _ ht => ht.1), hq'.view (fun _ ht => ht.1)]

theorem Quiet.watched (h : b.Quiet) : b.Watched .fresh where
  orders := .empty fun n => by rw [awaited, h.order?, Option.map_none]
  ids := fun n => by
    rw [h.view fun _ ht => ht.1]
    exact Std.ExtTreeMap.getElem?_empty

end Watched

end Switchboard

theorem Call.order?_eq_none_iff {call : Call} : call.order? = none ↔ call.isOrder = false := by
  cases call <;> simp [order?, isOrder]

theorem Call.orders_eq_nil {calls : List Call} (h : ∀ call ∈ calls, call.isOrder = false) :
    calls.filterMap order? = [] :=
  List.filterMap_eq_nil_iff.mpr fun call hmem => order?_eq_none_iff.mpr (h call hmem)

theorem Connection.lose_not_order (c : Connection) (failure : LinkFailure) :
    ∀ call ∈ (c.lose failure).2.1, call.isOrder = false := by
  unfold lose
  split
  · exact dial_not_order _
  · simp

theorem Watch.hear_of_not_ack {i : Input L} (h : i.isAck = false) (w : Watch) : w.hear i = w := by
  unfold hear
  split
  · simp [Input.isAck] at h
  · rfl

namespace Client

variable {c c' : Client L} {i : Input L} {w : Watch} {calls : List Call}

theorem topicOf_eq (c : Client L) {i : Input L} (h : i.closes = false) (request : RequestNo) :
    c.topicOf i request = (c.step i).1.board.byRequest[request]? := by
  unfold topicOf
  split
  · simp [Input.closes] at h
  · rfl

theorem ordersOf_of_closes (h : i.closes = true) : i = .shutdown ∨ c.ordersOf i = [] := by
  cases i with
  | disconnect => exact .inr (Call.orders_eq_nil (Connection.close_not_order _))
  | shutdown => exact .inl rfl
  | arrival a =>
    cases a with
    | connectionLost failure =>
      refine .inr (Call.orders_eq_nil ?_)
      rw [connectionLost_calls]
      exact Connection.lose_not_order _ _
    | _ => simp [Input.closes] at h
  | _ => simp [Input.closes] at h

theorem ordersOf_shutdown (c : Client L) :
    c.ordersOf .shutdown = (c.board.unsubscribeAll c.link?).2.filterMap Call.order? := by
  have hclosed : c.connection.close.2.filterMap Call.order? = [] :=
    Call.orders_eq_nil (Connection.close_not_order _)
  unfold ordersOf step shutdown disconnect Output.ofCalls
  rw [List.filterMap_append, hclosed, List.append_nil]

namespace Sound

theorem link?_of_closes (h : c.Sound) (hcl : i.closes = true) : (c.step i).1.link? = none := by
  have hch := h.change i
  generalize (c.step i).1 = c', (c.step i).2.calls = calls at hch
  cases hch with
  | rest _ hnone _ _ hl _ => exact hl.trans (hnone hcl)
  | serve _ hserve _ _ _ => simp [hserve] at hcl
  | rekey _ _ _ => simp [Input.closes] at hcl
  | ack _ _ => simp [Input.closes] at hcl
  | down _ _ _ _ hl _ => exact hl
  | up _ _ _ _ => simp [Input.closes] at hcl

theorem shows_change (h : c.Sound) (hw : c.board.Watched w) (hch : Change c c' i calls)
    (hcl : i.closes = false) {topic : RequestNo → Option TopicNo} (htopic : c'.board.Attributes topic) :
    c'.board.Shows topic (w.hear i) calls := by
  cases hch with
  | rest hack _ hno hb _ _ =>
    rw [Watch.hear_of_not_ack hack]
    constructor
    · rw [Call.orders_eq_nil hno]
      trivial
    · rw [Call.orders_eq_nil hno, hb]
      exact hw
  | serve hack _ hm _ _ =>
    rw [Watch.hear_of_not_ack hack]
    exact hw.moves h.coherent hm htopic
  | @rekey records table _ hb _ =>
    have hw' : (c.board.withTable table).Watched w := ⟨hw.orders, hw.ids⟩
    rw [hb] at htopic ⊢
    exact hw'.moves (h.coherent.withTable table) (Switchboard.rekey_moves _ _ _) htopic
  | ack hb _ =>
    rw [hb] at htopic ⊢
    exact hw.acknowledge h.coherent _ _ htopic
  | down hdown _ _ _ _ _ => simp [hdown] at hcl
  | up hnone _ hb _ =>
    have hw' : c.board.disconnected.Watched w := hw.of_quiet (h.quiet hnone) (.disconnected _)
    rw [hb] at htopic ⊢
    exact hw'.moves h.coherent.disconnected (Switchboard.reconnected_moves _ _) htopic

theorem shows_step (h : c.Sound) (hw : c.board.Watched w) (hcl : i.closes = false) :
    (c.step i).1.board.Shows (c.topicOf i) (w.hear i) (c.step i).2.calls :=
  h.shows_change hw (h.change i) hcl fun hr => (c.topicOf_eq hcl _).trans hr

theorem orderly (h : c.Sound) (hw : c.board.Watched w) (i : Input L) :
    (w.hear i).Orderly (c.topicOf i) (c.ordersOf i) := by
  cases hcl : i.closes with
  | false => exact (h.shows_step hw hcl).orderly
  | true =>
    obtain rfl | hnone := ordersOf_of_closes hcl (c := c)
    · rw [ordersOf_shutdown]
      exact (hw.moves h.coherent (Switchboard.unsubscribeAll_moves _ _) fun hr => hr).orderly
    · rw [hnone]
      exact trivial

theorem watched_step (h : c.Sound) (hw : c.board.Watched w) (i : Input L) :
    (c.step i).1.board.Watched (w.step c i) := by
  unfold Watch.step
  cases hcl : i.closes with
  | false => exact (h.shows_step hw hcl).watched
  | true => exact ((h.step i).quiet (h.link?_of_closes hcl)).watched

theorem watched_run (h : c.Sound) (hw : c.board.Watched w) (inputs : List (Input L)) :
    (c.run inputs).board.Watched (w.after c inputs) := by
  induction inputs generalizing c w with
  | nil => exact hw
  | cons i inputs ih => exact ih (h.step i) (h.watched_step hw i)

end Sound

theorem watched_ofSettings {check : Expression.Check} {s : Settings} (hc : Client.ofSettings check s = .ok c) :
    c.board.Watched .fresh := by
  obtain rfl := eq_of_ofSettings hc
  exact Switchboard.Quiet.watched (.ofTable _)

end Client

end Herald
