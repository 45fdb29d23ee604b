import Herald.Proofs.Chronicle
import Herald.Proofs.Convergence
import Herald.Proofs.Rounds
import Herald.Proofs.Terminal

namespace Herald

variable {L : Type}

def Order.refusal? : Order → Ack → Option Refusal
  | .add _ _ _, .added (.error refusal) => some refusal
  | .modify _ _, .modified (.error refusal) => some refusal
  | _, _ => none

/-- The expression that an order asks for. An amendment that leaves it out keeps the one that is held. -/
def Order.expression? (held : Option Holding) : Order → Option String
  | .add e _ _ => some e
  | .modify _ a => a.expression.or (held.map (·.terms.expression))
  | .delete _ => none

namespace Errand

variable {errand : Errand} {held : Option Holding} {order : Order} {ack : Ack}

def rejection? : Errand → Ack → Option Rejection
  | .add terms, .added (.error refusal) => some ⟨terms.expression, refusal⟩
  | .modify terms, .modified (.error refusal) => some ⟨terms.expression, refusal⟩
  | _, _ => none

theorem expression_of_amendment (old new : Terms) :
    (old.amendment new).expression.or (some old.expression) = some new.expression := by
  by_cases h : old.expression = new.expression <;> simp [Terms.amendment, h]

theorem refused_or_not (ho : errand.order? held = some order) (ack : Ack) :
    (∃ terms refusal, order.refusal? ack = some refusal ∧ errand.refused? ack = some terms ∧
      order.expression? held = some terms.expression ∧
      errand.rejection? ack = some ⟨terms.expression, refusal⟩) ∨
    order.refusal? ack = none ∧ errand.rejection? ack = none := by
  cases errand with
  | add terms =>
    obtain rfl := Option.some.inj ho
    rcases ack with (refusal | id) | result | result
    · exact .inl ⟨terms, refusal, rfl, rfl, rfl, rfl⟩
    all_goals exact .inr ⟨rfl, rfl⟩
  | modify terms =>
    obtain ⟨i, rfl, rfl⟩ := Option.map_eq_some_iff.mp ho
    rcases ack with result | (refusal | u) | result
    · exact .inr ⟨rfl, rfl⟩
    · exact .inl ⟨terms, refusal, rfl, rfl, expression_of_amendment i.terms terms, rfl⟩
    all_goals exact .inr ⟨rfl, rfl⟩
  | delete =>
    obtain ⟨i, rfl, rfl⟩ := Option.map_eq_some_iff.mp ho
    exact .inr ⟨rfl, by cases ack <;> rfl⟩

end Errand

namespace Topic

structure Dormant (t : Topic L) (connected : Bool) : Prop where
  isActive : t.isActive = true
  idle : t.pending = none
  refused : connected = true → t.refused = true

theorem Dormant.need_eq {t : Topic L} {connected : Bool} (h : t.Dormant connected) (table : Key.Table) :
    t.need table connected = .nothing := by
  cases connected with
  | false => simp [need, h.idle, h.isActive]
  | true => simp [need, h.idle, h.isActive, h.refused rfl]

theorem Dormant.mono {t : Topic L} {connected connected' : Bool} (h : t.Dormant connected)
    (hle : connected' = true → connected = true) : t.Dormant connected' :=
  ⟨h.isActive, h.idle, fun hc => h.refused (hle hc)⟩

end Topic

namespace Switchboard

variable {check : Expression.Check} {link : Option LinkId} {b : Switchboard L} {k : Ticket} {w : Wish L}
  {n m : TopicNo} {t : Topic L}

section Others

theorem join_others (b : Switchboard L) (c : Caller L) (hm : m ≠ n) : (b.join n c).topics[m]? = b.topics[m]? := by
  unfold join
  split
  · rfl
  · exact topic_insert_ne m hm

theorem leave_others (b : Switchboard L) (k : Ticket) (hm : m ≠ n) : (b.leave n k).topics[m]? = b.topics[m]? := by
  unfold leave
  dsimp only
  split
  · rfl
  · exact topic_insert_ne m hm

theorem replace_others (b : Switchboard L) (c : Caller L) (hm : m ≠ n) :
    (b.replace n c).topics[m]? = b.topics[m]? := by
  unfold replace
  split
  · rfl
  · exact topic_insert_ne m hm

theorem topicFor_others (b : Switchboard L) (e : String) (hm : m < b.nextTopic) :
    (b.topicFor e).1.topics[m]? = b.topics[m]? := by
  unfold topicFor
  split
  · rfl
  · exact topic_insert_ne m (Nat.ne_of_lt hm)

theorem subscribe_others (hm : m < b.nextTopic) (he : b.byExpression[w.expression]? ≠ some m) :
    (b.subscribe check link w).2.1.topics[m]? = b.topics[m]? := by
  rw [subscribe_eq]
  cases check w.expression with
  | some reason => rfl
  | none =>
    have hne : m ≠ (b.issued.topicFor w.expression).2 := by
      unfold topicFor
      split
      · next n hn => exact fun e => he (e ▸ hn)
      · exact Nat.ne_of_lt hm
    rw [settle_others link _ hne, join_others _ _ hne]
    exact topicFor_others b.issued w.expression hm

theorem unsubscribe_others (hk : b.byTicket[k]? ≠ some m) :
    (b.unsubscribe link k).2.1.topics[m]? = b.topics[m]? := by
  rw [unsubscribe_eq]
  cases hn : b.byTicket[k]? with
  | none => rfl
  | some n =>
    have hne : m ≠ n := fun e => hk (e ▸ hn)
    rw [settle_others link _ hne, leave_others b k hne]

theorem revise_others (hb : b.Coherent) (hm : m < b.nextTopic) (hk : b.byTicket[k]? ≠ some m)
    (he : b.byTicket[k]?.isSome = true → b.byExpression[w.expression]? ≠ some m) :
    (b.revise check link k w).2.1.topics[m]? = b.topics[m]? := by
  have hr := revising hb check link k w
  generalize b.revise check link k w = r at hr
  have hne {n : TopicNo} (hn : b.byTicket[k]? = some n) : m ≠ n := fun e => hk (e ▸ hn)
  cases hr with
  | unknown _ => rfl
  | invalid _ _ _ _ => rfl
  | kept hn _ _ => rw [settle_others link _ (hne hn), replace_others b _ (hne hn)]
  | renamed hn _ _ _ _ _ =>
    rw [settle_others link _ (hne hn), replace_others _ _ (hne hn)]
    exact topic_insert_ne m (hne hn)
  | @founded n t hn _ _ _ _ _ =>
    have hnext : (b.leave n k).nextTopic = b.nextTopic := by
      unfold leave
      dsimp only
      split <;> rfl
    have hnew : m ≠ (b.leave n k).nextTopic := hnext ▸ Nat.ne_of_lt hm
    rw [settleEach_others link (by simp [hne hn, hnew]), join_others _ _ hnew]
    exact (topic_insert_ne m hnew).trans (leave_others b k (hne hn))
  | @moved n other t hn _ _ _ hother =>
    have hnot : m ≠ other := fun e => he (Option.isSome_of_eq_some hn) (e ▸ hother)
    rw [settleEach_others link (by simp [hne hn, hnot]), join_others _ _ hnot, leave_others b k (hne hn)]

end Others

section Idle

theorem settle_dormant (ht : b.topics[n]? = some t) (h : t.Dormant link.isSome) (m : TopicNo) :
    (b.settle link m).1.topics[n]? = some t := by
  by_cases hm : n = m
  · subst hm
    rw [settle_of_nothing ht (h.need_eq _)]
    exact ht
  · exact (settle_others link b hm).trans ht

theorem settleEach_dormant (ht : b.topics[n]? = some t) (h : t.Dormant link.isSome) (ns : List TopicNo) :
    (b.settleEach link ns).1.topics[n]? = some t := by
  induction ns generalizing b with
  | nil => exact ht
  | cons m ns ih => exact ih (settle_dormant ht h m)

theorem acknowledge_dormant (hb : b.Coherent) (link : Option LinkId) (ht : b.topics[n]? = some t)
    (hp : t.pending = none) (request : RequestNo) (ack : Ack) :
    (b.acknowledge link request ack).1.topics[n]? = some t := by
  have ha := acknowledging hb link request ack
  generalize b.acknowledge link request ack = r at ha
  cases ha with
  | unknown _ => exact ht
  | @known m u p r hr hu hup hpr hres =>
    have hne : n ≠ m := by
      rintro rfl
      obtain rfl := Option.some.inj (ht.symm.trans hu)
      simp [hp] at hup
    obtain ⟨t', ids, heq, -⟩ :=
      conclude_shape (b.answered request) m { u with pending := none } p.errand ack
    rw [settle_others link r.1 hne, ← hres, heq]
    exact (topic_insert_ne n hne).trans ht

end Idle

section Answers

variable {p : Pending} {ack : Ack} {order : Order} {refusal : Refusal}

theorem conclude_rejection (b : Switchboard L) (n : TopicNo) (t : Topic L) (errand : Errand) (ack : Ack) :
    (b.conclude n t errand ack).2 = if t.isActive then errand.rejection? ack else none := by
  rcases ack with (_ | _) | (_ | _) | _ <;> cases errand <;>
    simp [conclude, refuse, Errand.rejection?]

theorem acknowledge_rejection (hb : b.Coherent) (link : Option LinkId) (ht : b.topics[n]? = some t)
    (hp : t.pending = some p) (ack : Ack) : (b.acknowledge link p.request ack).2.2 =
      if t.isActive then p.errand.rejection? ack else none := by
  rw [acknowledge_pending hb link ht hp rfl]
  exact conclude_rejection _ _ _ _ _

theorem acknowledge_forgotten (hb : b.Coherent) (link : Option LinkId) (ht : b.topics[n]? = some t)
    (ha : t.isActive = false) (hp : t.pending = some p) (hh : t.held = none) {terms : Terms}
    (hr : p.errand.refused? ack = some terms) :
    (b.acknowledge link p.request ack).1.topics[n]? = none ∧ (b.acknowledge link p.request ack).2.1 = [] := by
  obtain ⟨b', hnow, -, hboard, hcalls⟩ := exists_acknowledge_refused hb link ht hp hr
  have hneed : ({ t with pending := none, refused := true } : Topic L).need b'.table link.isSome = .removal := by
    simp [Topic.need, ha, hh]
  simp [hboard, hcalls, settle, hnow, hneed, drop]

theorem acknowledge_relinquished (hb : b.Coherent) (l : LinkId) (ht : b.topics[n]? = some t)
    (ha : t.isActive = false) (hp : t.pending = some p) {i : Holding} (hh : t.held = some i) {terms : Terms}
    (hr : p.errand.refused? ack = some terms) :
    (b.acknowledge (some l) p.request ack).2.1 = [.order l b.nextRequest (.delete i.id)] ∧
      (b.acknowledge (some l) p.request ack).1.byRequest[b.nextRequest]? = some n := by
  obtain ⟨b', hnow, hnext, hboard, hcalls⟩ := exists_acknowledge_refused hb (some l) ht hp hr
  have hneed : ({ t with pending := none, refused := true } : Topic L).need b'.table true =
      .order .delete (.delete i.id) := by
    simp [Topic.need, ha, hh]
  rw [hboard, hcalls, settle_of_order hnow hneed, ← hnext]
  exact ⟨rfl, Std.ExtTreeMap.getElem?_insert_self⟩

end Answers

end Switchboard

namespace Client

variable {c : Client L} {i : Input L} {n : TopicNo} {t : Topic L} {w : Watch} {r : RequestNo} {order : Order}
  {ack : Ack} {refusal : Refusal} {later : List (Input L)}

/-- A caller has to do with a topic: joins it, leaves it, or changes a wish for it. A shutdown makes all callers
leave. -/
def stirs (c : Client L) (n : TopicNo) : Input L → Bool
  | .subscribe w => c.board.byExpression[w.expression]? = some n
  | .unsubscribe k => c.board.byTicket[k]? = some n
  | .revise k w =>
    c.board.byTicket[k]? = some n || c.board.byTicket[k]?.isSome && c.board.byExpression[w.expression]? = some n
  | .shutdown => true
  | _ => false

def LeavesAlone (c : Client L) (n : TopicNo) (inputs : List (Input L)) : Prop :=
  c.Along (fun c i => c.stirs n i = false ∧ c.succeeds i = false) inputs

instance (c : Client L) (n : TopicNo) (inputs : List (Input L)) : Decidable (c.LeavesAlone n inputs) :=
  inferInstanceAs (Decidable (c.Along (fun c i => c.stirs n i = false ∧ c.succeeds i = false) inputs))

section Dormant

theorem Sound.link?_of_not_succeeds (h : c.Sound) (hs : c.succeeds i = false)
    (hl : ((c.step i).1.link?).isSome = true) : c.link?.isSome = true := by
  have hp := passage h.connection i
  have hup : (c.step i).1.connection.standing.status = .connected := (h.step i).connection.link_iff.mp hl
  generalize (c.step i).1.connection.standing = standing, c.turns i = turns at hp hup
  cases hp with
  | rest _ _ _ => exact h.connection.link_iff.mpr hup
  | closed _ _ _ => cases hup
  | made hmade _ _ => simp [hs] at hmade
  | missed _ _ _ _ => split at hup <;> cases hup
  | lost _ _ _ _ _ => cases hup

section Unstirred

variable {k : Ticket} {w : Wish L}

theorem Sound.subscribe_others (h : c.Sound) (ht : c.board.topics[n]? = some t)
    (hs : c.stirs n (.subscribe w) = false) : (c.step (.subscribe w)).1.board.topics[n]? = some t := by
  exact (Switchboard.subscribe_others (h.coherent.topic_lt ht) (by simpa [stirs] using hs)).trans ht

theorem unsubscribe_others (ht : c.board.topics[n]? = some t) (hs : c.stirs n (.unsubscribe k) = false) :
    (c.step (.unsubscribe k)).1.board.topics[n]? = some t := by
  exact (Switchboard.unsubscribe_others (by simpa [stirs] using hs)).trans ht

theorem Sound.revise_others (h : c.Sound) (ht : c.board.topics[n]? = some t) (hs : c.stirs n (.revise k w) = false) :
    (c.step (.revise k w)).1.board.topics[n]? = some t := by
  simp only [stirs, Bool.or_eq_false_iff, Bool.and_eq_false_imp, decide_eq_false_iff_not] at hs
  exact (Switchboard.revise_others h.coherent (h.coherent.topic_lt ht) hs.1 hs.2).trans ht

theorem Sound.topic_connectionLost (h : c.Sound) (ht : c.board.topics[n]? = some t) (ha : t.isActive = true)
    (failure : LinkFailure) : (c.step (.arrival (.connectionLost failure))).1.board.topics[n]? = some t ∨
      (c.step (.arrival (.connectionLost failure))).1.board.topics[n]? = some t.forget ∧
        (c.step (.arrival (.connectionLost failure))).1.link? = none := by
  cases hl : c.link? with
  | none =>
    simp only [Client.step, arrive, connectionLost,
      Connection.lose_of_not_connected (h.connection.not_connected_of_no_link hl)]
    exact .inl ht
  | some link =>
    refine .inr ⟨?_, h.link?_of_closes rfl⟩
    simp only [Client.step, arrive, connectionLost, Connection.lose_of_connected (h.connection.connected_of_link hl)]
    exact Switchboard.topic_disconnected_iff.mpr ⟨t, ht, ha, rfl⟩

end Unstirred

theorem Sound.topic_dormant (h : c.Sound) (ht : c.board.topics[n]? = some t) (hd : t.Dormant c.link?.isSome)
    (hs : c.stirs n i = false) (hu : c.succeeds i = false) :
    (c.step i).1.board.topics[n]? = some t ∨
      (c.step i).1.board.topics[n]? = some t.forget ∧ (c.step i).1.link? = none := by
  cases i with
  | disconnect =>
    exact .inr ⟨Switchboard.topic_disconnected_iff.mpr ⟨t, ht, hd.isActive, rfl⟩, h.link?_of_closes rfl⟩
  | shutdown => simp [stirs] at hs
  | subscribe w => exact .inl (h.subscribe_others ht hs)
  | unsubscribe k => exact .inl (unsubscribe_others ht hs)
  | revise k w => exact .inl (h.revise_others ht hs)
  | reloadKeys records =>
    left
    simp only [Client.step, reloadKeys]
    cases Key.Table.ofRecords records with
    | error fault => exact ht
    | ok table => exact Switchboard.settleEach_dormant (b := c.board.withTable table) ht hd _
  | arrival a =>
    cases a with
    | connectResult attempt result =>
      have hnot : c.connection.awaited ≠ some attempt ∨ ∃ failure, result = .error failure := by
        cases result with
        | error failure => exact .inr ⟨failure, rfl⟩
        | ok link => exact .inl (by simpa [succeeds] using hu)
      rw [(connectResult_of_not_made hnot).1]
      exact .inl ht
    | connectionLost failure => exact h.topic_connectionLost ht hd.isActive failure
    | ack request a => exact .inl (Switchboard.acknowledge_dormant h.coherent c.link? ht hd.idle request a)
    | _ => exact .inl ht
  | _ => exact .inl ht

theorem Sound.dormant_step (h : c.Sound) (ht : c.board.topics[n]? = some t) (hd : t.Dormant c.link?.isSome)
    (hs : c.stirs n i = false) (hu : c.succeeds i = false) :
    ∃ t', (c.step i).1.board.topics[n]? = some t' ∧ t'.Dormant (c.step i).1.link?.isSome := by
  obtain hsame | ⟨hforgot, hnone⟩ := h.topic_dormant ht hd hs hu
  · exact ⟨t, hsame, hd.mono (h.link?_of_not_succeeds hu)⟩
  · exact ⟨t.forget, hforgot, hd.isActive, rfl, by simp [hnone]⟩

theorem Sound.not_mem_asks (h : c.Sound) (ht : (c.step i).1.board.topics[n]? = some t) (hp : t.pending = none)
    (hi : c.stirs n i = false) : some n ∉ c.asks i := by
  intro hmem
  obtain ⟨y, hmem, hy⟩ := List.mem_map.mp hmem
  cases hcl : i.closes with
  | true =>
    obtain rfl | hnone := ordersOf_of_closes hcl (c := c)
    · simp [stirs] at hi
    · simp [hnone] at hmem
  | false =>
    have hmark := ((h.step i).coherent.requests.mark_iff ht).mp ((c.topicOf_eq hcl y.1).symm.trans hy)
    simp [Topic.request?, hp] at hmark

theorem Sound.dormant_run (h : c.Sound) (ht : c.board.topics[n]? = some t) (hd : t.Dormant c.link?.isSome)
    (hlater : c.LeavesAlone n later) : some n ∉ c.asked later := by
  induction later generalizing c t with
  | nil => exact List.not_mem_nil
  | cons i later ih =>
    obtain ⟨⟨hs, hu⟩, hrest⟩ := hlater
    obtain ⟨t', ht', hd'⟩ := h.dormant_step ht hd hs hu
    rw [asked, List.mem_append, not_or]
    exact ⟨h.not_mem_asks ht' hd'.idle hs, ih (h.step i) ht' hd' hrest⟩

end Dormant

structure Refused (c : Client L) (r : RequestNo) (ack : Ack) (n : TopicNo) (order : Order) (refusal : Refusal)
    (t : Topic L) : Prop where
  topic : c.board.topics[n]? = some t
  reported : t.callers ≠ [] → ∃ e, order.expression? t.held = some e ∧
    (c.step (.arrival (.ack r ack))).2.news = [.rejected ⟨e, refusal⟩]
  dormant : t.callers ≠ [] → (c.step (.arrival (.ack r ack))).2.calls = [] ∧
    ∀ later, (c.step (.arrival (.ack r ack))).1.LeavesAlone n later →
      some n ∉ (c.step (.arrival (.ack r ack))).1.asked later
  unreported : t.callers = [] → (c.step (.arrival (.ack r ack))).2.news = []
  forgotten : t.callers = [] → (∃ e keys insecure, order = .add e keys insecure) →
    (c.step (.arrival (.ack r ack))).1.board.topics[n]? = none ∧ (c.step (.arrival (.ack r ack))).2.calls = []
  deleted : ∀ id a, t.callers = [] → order = .modify id a → ∃ link request,
    (c.step (.arrival (.ack r ack))).2.calls = [.order link request (.delete id)] ∧
    c.topicOf (.arrival (.ack r ack)) request = some n

/-- Every refusal of an outstanding order has these consequences, and nothing else is reported as refused. -/
structure Refusals (c : Client L) (w : Watch) : Prop where
  refused : ∀ {r n order ack refusal}, w.orders[r]? = some (n, order) → order.refusal? ack = some refusal →
    ∃ t, c.Refused r ack n order refusal t
  reported : ∀ {i rejection}, .rejected rejection ∈ (c.step i).2.news → ∃ r ack n order,
    i = .arrival (.ack r ack) ∧ w.orders[r]? = some (n, order) ∧ order.refusal? ack = some rejection.refusal

section Refusals

theorem exists_pending (hw : c.board.Watched w) (hx : w.orders[r]? = some (n, order)) :
    ∃ t p, c.board.topics[n]? = some t ∧ t.pending = some p ∧ p.request = r ∧
      p.errand.order? t.held = some order := by
  obtain ⟨t, ht, hview⟩ := Switchboard.view_eq_some.mp (hw.order_iff.mp hx)
  obtain ⟨p, hp, hview⟩ := Option.bind_eq_some_iff.mp hview
  obtain ⟨o, ho, hpair⟩ := Option.map_eq_some_iff.mp hview
  obtain ⟨hrequest, rfl⟩ := Prod.mk.inj hpair
  exact ⟨t, p, ht, hp, hrequest, ho⟩

theorem Sound.exists_link (h : c.Sound) (ht : c.board.topics[n]? = some t) {p : Pending}
    (hp : t.pending = some p) : ∃ link, c.link? = some link := by
  cases hl : c.link? with
  | none => simp [(h.quiet hl n t ht).2.1] at hp
  | some link => exact ⟨link, rfl⟩

theorem Sound.news_ack (h : c.Sound) (ht : c.board.topics[n]? = some t) {p : Pending} (hp : t.pending = some p)
    (ack : Ack) : (c.step (.arrival (.ack p.request ack))).2.news =
      ((if t.isActive then p.errand.rejection? ack else none).map News.rejected).toList := by
  rw [← Switchboard.acknowledge_rejection h.coherent c.link? ht hp ack]
  rfl

theorem Sound.refused (h : c.Sound) (hw : c.board.Watched w) (hx : w.orders[r]? = some (n, order))
    (hr : order.refusal? ack = some refusal) : ∃ t, c.Refused r ack n order refusal t := by
  obtain ⟨t, p, ht, hp, rfl, ho⟩ := exists_pending hw hx
  have hnews := h.news_ack ht hp ack
  obtain ⟨terms, refusal', hr', hterms, hexpression, hrejection⟩ | ⟨hnone, -⟩ :=
    Errand.refused_or_not ho ack
  · obtain rfl := Option.some.inj (hr.symm.trans hr')
    have hid := Errand.id?_of_order? ((h.coherent.proper ht).fits p hp) ho
    refine ⟨t, ht, fun hc => ⟨_, hexpression, ?_⟩, fun hc => ?_, fun hc => ?_, ?_, ?_⟩
    · rw [hnews, if_pos ((h.isActive_iff ht).mpr hc), hrejection]
      rfl
    · obtain ⟨hnow, hcalls⟩ := Switchboard.acknowledge_refused h.coherent c.link? ht hc hp hterms
      have ha := (h.isActive_iff ht).mpr hc
      exact ⟨hcalls, fun later hlater => (h.step _).dormant_run hnow ⟨ha, rfl, fun _ => rfl⟩ hlater⟩
    · rw [hnews, (h.isActive_eq_false_iff ht).mpr hc]
      rfl
    · rintro hc ⟨e, keys, insecure, rfl⟩
      have hheld : t.held = none := Option.map_eq_none_iff.mp hid.symm
      have ha := (h.isActive_eq_false_iff ht).mpr hc
      exact Switchboard.acknowledge_forgotten h.coherent c.link? ht ha hp hheld hterms
    · rintro id a hc rfl
      obtain ⟨i, hheld, rfl⟩ := Option.map_eq_some_iff.mp hid.symm
      obtain ⟨link, hl⟩ := h.exists_link ht hp
      have ha := (h.isActive_eq_false_iff ht).mpr hc
      have hdeleted := Switchboard.acknowledge_relinquished h.coherent link ht ha hp hheld hterms
      rw [← hl] at hdeleted
      exact ⟨link, c.board.nextRequest, hdeleted⟩
  · simp [hr] at hnone

theorem Sound.reported (h : c.Sound) (hw : c.board.Watched w) {rejection : Rejection}
    (hmem : .rejected rejection ∈ (c.step i).2.news) : ∃ r ack n order, i = .arrival (.ack r ack) ∧
      w.orders[r]? = some (n, order) ∧ order.refusal? ack = some rejection.refusal := by
  cases i with
  | arrival a =>
    cases a with
    | connectResult attempt result => simp [Client.step, arrive, Output.ofNews] at hmem
    | connectionLost failure => simp [Client.step, arrive, Output.ofNews] at hmem
    | ack r ack =>
      cases hr : c.board.byRequest[r]? with
      | none => simp [step_ack_unknown hr] at hmem
      | some n =>
        obtain ⟨t, ht, hrequest⟩ := (h.coherent.requests r n).mp hr
        obtain ⟨p, hp, rfl⟩ := Option.map_eq_some_iff.mp hrequest
        obtain ⟨order, ho, hview⟩ := Switchboard.order_of_pending h.coherent ht hp
        refine ⟨p.request, ack, n, order, rfl, hw.order_iff.mpr hview, ?_⟩
        rw [h.news_ack ht hp ack] at hmem
        obtain ⟨terms, refusal, hrefusal, -, -, hrejection⟩ | ⟨-, hnone⟩ := Errand.refused_or_not ho ack
        · split at hmem <;> simp_all
        · simp [hnone] at hmem
    | _ => simp [Client.step, arrive, Output.ofCalls, Output.ofAudience] at hmem
  | _ => simp [Client.step, outcome, Output.ofCalls, Output.ofReply] at hmem

end Refusals

theorem refusals_run {check : Expression.Check} {s : Settings} (hc : Client.ofSettings check s = .ok c)
    (inputs : List (Input L)) : (c.run inputs).Refusals (Watch.fresh.after c inputs) := by
  have h := (Sound.ofSettings hc).run inputs
  have hw := (Sound.ofSettings hc).watched_run (watched_ofSettings hc) inputs
  exact ⟨h.refused hw, h.reported hw⟩

def sharedKeys : List (Input Nat) :=
  [.reloadKeys [⟨"k", false, [1]⟩, ⟨"j", false, [2]⟩], .start, .arrival (.connectResult 1 (.ok 7)),
    .subscribe ⟨"require(A)", ["k"], 0⟩, .arrival (.ack 1 (.added (.ok 5))), .subscribe ⟨"require(A)", ["j"], 1⟩,
    .subscribe ⟨"require(B)", [], 2⟩]

def elsewhere : List (Input Nat) :=
  [.arrival (.ack 3 (.added (.ok 6))), .subscribe ⟨"require(B)", ["k"], 3⟩, .reloadKeys [⟨"j", false, [2]⟩],
    .arrival (.ack 4 (.modified (.ok ()))), .revise 4 ⟨"require(C)", ["j"], 3⟩,
    .arrival (.connectionLost ⟨104, "reset"⟩), .arrival (.connectResult 2 (.error ⟨111, "refused"⟩)), .arrival .retryDue,
    .unsubscribe 3]

def amendmentRefused : Ack :=
  .modified (.error ⟨3, "no"⟩)

theorem refusals_run_sharedKeys : ∃ (c : Client Nat) (a : Amendment) (t : Topic Nat),
    Client.ofSettings Expression.refusal? (.ofEndpoint "tcp://broker") = .ok c ∧
    (Watch.fresh.after c sharedKeys).orders[2]? = some (1, .modify 5 a) ∧ a.expression = none ∧ t.tickets = [1, 2] ∧
    (c.run sharedKeys).Refused 2 amendmentRefused 1 (.modify 5 a) ⟨3, "no"⟩ t ∧
    ((c.run sharedKeys).step (.arrival (.ack 2 amendmentRefused))).1.LeavesAlone 1 elsewhere := by
  have hc := ofSettings_ofEndpoint (L := Nat) Expression.refusal? "tcp://broker" (by decide)
  have hall := refusals_run hc sharedKeys
  have hrefusal (a : Amendment) : (Order.modify 5 a).refusal? amendmentRefused = some ⟨3, "no"⟩ := rfl
  obtain ⟨t, ht⟩ := hall.refused (r := 2) rfl (hrefusal _)
  obtain rfl := Option.some.inj (ht.topic.symm.trans rfl)
  exact ⟨_, _, _, rfl, rfl, rfl, rfl, ht, by decide +kernel⟩

end Client

end Herald
