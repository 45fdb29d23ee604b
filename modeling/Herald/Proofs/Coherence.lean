import Herald.Proofs.Index
import Herald.Proofs.TopicLaws

namespace Herald

variable {L : Type}

theorem Topic.Wants.fits {t : Topic L} {table : Key.Table} {errand : Errand} {order : Order}
    (h : t.Wants table errand order) : errand.Fits t.held := by
  cases h with
  | add _ _ hh => exact hh
  | modify _ _ hh _ => simp [Errand.Fits, hh]
  | delete _ hh => simp [Errand.Fits, hh]

section Lookup

variable {topics : Std.ExtTreeMap TopicNo (Topic L)} {P : TopicNo → Topic L → Prop} {n m : TopicNo}
  {t u : Topic L}

theorem forall_insert (h : ∀ {m : TopicNo} {u : Topic L}, topics[m]? = some u → P m u) (hn : P n t)
    (hu : (topics.insert n t)[m]? = some u) : P m u := by
  rw [Std.ExtTreeMap.getElem?_insert] at hu
  by_cases hm : n = m
  · subst hm
    simp only [Std.compare_self, if_true, Option.some.injEq] at hu
    exact hu ▸ hn
  · simp only [Std.LawfulEqOrd.compare_eq_iff_eq, hm, if_false] at hu
    exact h hu

theorem forall_erase (h : ∀ {m : TopicNo} {u : Topic L}, topics[m]? = some u → P m u)
    (hu : (topics.erase n)[m]? = some u) : P m u := by
  rw [Std.ExtTreeMap.getElem?_erase] at hu
  split at hu
  · simp at hu
  · exact h hu

end Lookup

namespace Switchboard

structure Coherent (b : Switchboard L) : Prop where
  expressions : Indexes b.topics b.byExpression fun t e => t.expression = e
  tickets : Indexes b.topics b.byTicket fun t k => k ∈ t.tickets
  requests : Indexes b.topics b.byRequest fun t r => t.request? = some r
  proper : ∀ {n : TopicNo} {t : Topic L}, b.topics[n]? = some t → t.Proper
  topic_lt : ∀ {n : TopicNo} {t : Topic L}, b.topics[n]? = some t → n < b.nextTopic
  ticket_lt : ∀ {k : Ticket} {n : TopicNo}, b.byTicket[k]? = some n → k < b.nextTicket
  request_lt : ∀ {r : RequestNo} {n : TopicNo}, b.byRequest[r]? = some n → r < b.nextRequest

def withTable (b : Switchboard L) (table : Key.Table) : Switchboard L :=
  { b with table }

def issued (b : Switchboard L) : Switchboard L :=
  { b with nextTicket := b.nextTicket + 1 }

def answered (b : Switchboard L) (request : RequestNo) : Switchboard L :=
  { b with byRequest := b.byRequest.erase request }

inductive Settling (link : Option LinkId) (b : Switchboard L) (n : TopicNo) :
    Switchboard L × List Call → Prop
  | missing : b.topics[n]? = none → Settling link b n (b, [])
  | idle {t : Topic L} : b.topics[n]? = some t → t.Needs b.table link.isSome .nothing →
      Settling link b n (b, [])
  | removal {t : Topic L} : b.topics[n]? = some t → t.pending = none → t.isActive = false → t.held = none →
      Settling link b n (b.drop n t, [])
  | confirmation {t : Topic L} {h : Holding} : link.isSome = true → b.topics[n]? = some t →
      t.pending = none → t.isActive = true → t.refused = false → t.held = some h →
      (h.terms.amendment (t.wish b.table)).isEmpty = true →
      Settling link b n (b.put n (t.confirm (t.wish b.table)), [])
  | order {l : LinkId} {t : Topic L} {errand : Errand} {order : Order} : link = some l →
      b.topics[n]? = some t → t.pending = none → t.Wants b.table errand order →
      Settling link b n (b.send l n t errand order)

theorem settling (link : Option LinkId) (b : Switchboard L) (n : TopicNo) :
    Settling link b n (b.settle link n) := by
  unfold settle
  cases ht : b.topics[n]? with
  | none => exact .missing ht
  | some t =>
    have hneed := t.needs b.table link.isSome
    dsimp only
    generalize hl : link.isSome = connected at hneed
    generalize t.need b.table connected = need at hneed
    cases hneed with
    | busy hp => exact .idle ht (.busy hp)
    | removal hp hc hh => exact .removal ht hp hc hh
    | stranded hc hh => exact .idle ht (hl ▸ .stranded hc hh)
    | offline hc => exact .idle ht (hl ▸ .offline hc)
    | refused hc hr => exact .idle ht (hl ▸ .refused hc hr)
    | confirmation hp hc hr hh he => exact .confirmation hl ht hp hc hr hh he
    | order hp hw =>
      obtain ⟨l, rfl⟩ := Option.isSome_iff_exists.mp hl
      exact .order rfl ht hp hw

namespace Coherent

variable {b : Switchboard L} {n : TopicNo} {t t' : Topic L}

theorem ofTable (table : Key.Table) : (ofTable table : Switchboard L).Coherent where
  expressions := .empty
  tickets := .empty
  requests := .empty
  proper := by simp [Switchboard.ofTable]
  topic_lt := by simp [Switchboard.ofTable]
  ticket_lt := by simp [Switchboard.ofTable]
  request_lt := by simp [Switchboard.ofTable]

theorem exists_topic (h : b.Coherent) {e : String} (he : b.byExpression[e]? = some n) :
    ∃ t, b.topics[n]? = some t ∧ t.expression = e :=
  (h.expressions e n).mp he

theorem nextTopic_free (h : b.Coherent) : b.topics[b.nextTopic]? = none := by
  cases ht : b.topics[b.nextTopic]? with
  | none => rfl
  | some t => exact absurd (h.topic_lt ht) (Nat.lt_irrefl _)

theorem nextTicket_free (h : b.Coherent) : b.byTicket[b.nextTicket]? = none := by
  cases hk : b.byTicket[b.nextTicket]? with
  | none => rfl
  | some n => exact absurd (h.ticket_lt hk) (Nat.lt_irrefl _)

theorem nextRequest_free (h : b.Coherent) : b.byRequest[b.nextRequest]? = none := by
  cases hr : b.byRequest[b.nextRequest]? with
  | none => rfl
  | some n => exact absurd (h.request_lt hr) (Nat.lt_irrefl _)

theorem withTable (h : b.Coherent) (table : Key.Table) : (b.withTable table).Coherent :=
  ⟨h.expressions, h.tickets, h.requests, h.proper, h.topic_lt, h.ticket_lt, h.request_lt⟩

theorem issued (h : b.Coherent) : b.issued.Coherent :=
  { h with ticket_lt := fun hk => Nat.lt_succ_of_lt (h.ticket_lt hk) }

theorem put (h : b.Coherent) (ht : b.topics[n]? = some t) (he : t'.expression = t.expression)
    (hk : t'.tickets = t.tickets) (hr : t'.request? = t.request?) (hp : t'.Proper) :
    (b.put n t').Coherent where
  expressions := h.expressions.insert_same fun e => by rw [h.expressions.mark_iff ht, he]
  tickets := h.tickets.insert_same fun k => by rw [h.tickets.mark_iff ht, hk]
  requests := h.requests.insert_same fun r => by rw [h.requests.mark_iff ht, hr]
  proper := forall_insert h.proper hp
  topic_lt := forall_insert h.topic_lt (h.topic_lt ht)
  ticket_lt := h.ticket_lt
  request_lt := h.request_lt

theorem create (h : b.Coherent) {e : String} (he : b.byExpression[e]? = none) :
    (b.create e).1.Coherent where
  expressions := by
    refine h.expressions.insert_marked (fun m hm => by simp [he] at hm) fun k => ?_
    have hk := h.expressions.not_mark (k := k) h.nextTopic_free
    simp [Topic.ofExpression, hk, eq_comm]
  tickets := h.tickets.insert_bare h.nextTopic_free fun k => by simp [Topic.tickets, Topic.ofExpression]
  requests := h.requests.insert_bare h.nextTopic_free fun r => by simp [Topic.request?, Topic.ofExpression]
  proper := forall_insert h.proper (.ofExpression e)
  topic_lt := by
    intro m u hu
    exact forall_insert (P := fun m _ => m < b.nextTopic + 1)
      (fun hu => Nat.lt_succ_of_lt (h.topic_lt hu)) (Nat.lt_succ_self _) hu
  ticket_lt := h.ticket_lt
  request_lt := h.request_lt

theorem join (h : b.Coherent) (ht : b.topics[n]? = some t) {c : Caller L}
    (hc : b.byTicket[c.ticket]? = none) (hlt : c.ticket < b.nextTicket) : (b.join n c).Coherent := by
  have hnot : c.ticket ∉ t.tickets := by
    intro hmem
    have := (h.tickets.mark_iff ht).mpr hmem
    simp [hc] at this
  rw [Switchboard.join, ht]
  exact {
    expressions := h.expressions.insert_same fun e => by rw [h.expressions.mark_iff ht, t.join_expression]
    tickets := by
      refine h.tickets.insert_marked (fun m hm => by simp [hc] at hm) fun k => ?_
      rw [t.tickets_join, h.tickets.mark_iff ht, List.mem_append, List.mem_singleton, or_comm]
    requests := h.requests.insert_same fun r => by
      rw [h.requests.mark_iff ht, Topic.request?, Topic.request?, t.join_pending]
    proper := forall_insert h.proper ((h.proper ht).join hnot)
    topic_lt := forall_insert h.topic_lt (h.topic_lt ht)
    ticket_lt := by
      intro k m hk
      dsimp only at hk
      rw [Std.ExtTreeMap.getElem?_insert] at hk
      split at hk
      · next heq => exact (Std.LawfulEqOrd.compare_eq_iff_eq.mp heq) ▸ hlt
      · exact h.ticket_lt hk
    request_lt := h.request_lt }

theorem leave (h : b.Coherent) {k : Ticket} (hk : b.byTicket[k]? = some n) :
    (b.leave n k).Coherent := by
  obtain ⟨t, ht, hmem⟩ := (h.tickets k n).mp hk
  simp only [Switchboard.leave, ht]
  exact {
    expressions := h.expressions.insert_same fun e => by rw [h.expressions.mark_iff ht, t.leave_expression]
    tickets := by
      refine h.tickets.insert_unmarked hk fun j => ?_
      rw [t.tickets_leave, h.tickets.mark_iff ht, List.mem_filter, and_comm, decide_eq_true_iff]
    requests := h.requests.insert_same fun r => by
      rw [h.requests.mark_iff ht, Topic.request?, Topic.request?, t.leave_pending]
    proper := forall_insert h.proper ((h.proper ht).leave k)
    topic_lt := forall_insert h.topic_lt (h.topic_lt ht)
    ticket_lt := by
      intro j m hj
      dsimp only [Switchboard.put] at hj
      rw [Std.ExtTreeMap.getElem?_erase] at hj
      split at hj
      · simp at hj
      · exact h.ticket_lt hj
    request_lt := h.request_lt }

theorem replace (h : b.Coherent) (ht : b.topics[n]? = some t) (c : Caller L) :
    (b.replace n c).Coherent := by
  rw [Switchboard.replace, ht]
  exact h.put ht (t.replace_expression c) (t.tickets_replace c)
    (by rw [Topic.request?, Topic.request?, t.replace_pending]) ((h.proper ht).replace c)

theorem rename (h : b.Coherent) (ht : b.topics[n]? = some t) {e : String}
    (he : b.byExpression[e]? = none) : (b.rename n t e).Coherent where
  expressions := by
    refine h.expressions.insert_moved (fun k => ?_) he fun k => eq_comm
    rw [h.expressions.mark_iff ht, eq_comm]
  tickets := h.tickets.insert_same fun k => h.tickets.mark_iff ht |>.symm
  requests := h.requests.insert_same fun r => h.requests.mark_iff ht |>.symm
  proper := forall_insert h.proper ((h.proper ht).congr rfl rfl rfl (h.proper ht).fits)
  topic_lt := forall_insert h.topic_lt (h.topic_lt ht)
  ticket_lt := h.ticket_lt
  request_lt := h.request_lt

theorem drop (h : b.Coherent) (ht : b.topics[n]? = some t) (hp : t.pending = none)
    (hc : t.callers = []) : (b.drop n t).Coherent where
  expressions := by
    have he : b.byExpression[t.expression]? = some n := (h.expressions.mark_iff ht).mpr rfl
    dsimp only [Switchboard.drop]
    rw [if_pos he]
    exact h.expressions.erase_marked fun k => by rw [h.expressions.mark_iff ht, eq_comm]
  tickets := h.tickets.erase_bare fun k hk => by
    have := (h.tickets.mark_iff ht).mp hk
    simp [Topic.tickets, hc] at this
  requests := h.requests.erase_bare fun r hr => by
    have := (h.requests.mark_iff ht).mp hr
    simp [Topic.request?, hp] at this
  proper := forall_erase h.proper
  topic_lt := forall_erase h.topic_lt
  ticket_lt := h.ticket_lt
  request_lt := h.request_lt

theorem send (h : b.Coherent) (ht : b.topics[n]? = some t) (hp : t.pending = none) {errand : Errand}
    (hfit : errand.Fits t.held) (link : LinkId) (order : Order) :
    (b.send link n t errand order).1.Coherent where
  expressions := h.expressions.insert_same fun e => (h.expressions.mark_iff ht).symm
  tickets := h.tickets.insert_same fun k => (h.tickets.mark_iff ht).symm
  requests := by
    refine h.requests.insert_marked (fun m hm => by simp [h.nextRequest_free] at hm) fun r => ?_
    rw [h.requests.mark_iff ht]
    simp [Topic.request?, hp, eq_comm]
  proper := forall_insert h.proper ((h.proper ht).congr rfl rfl rfl fun p hp' => by
    obtain rfl := Option.some.inj hp'
    exact hfit)
  topic_lt := forall_insert h.topic_lt (h.topic_lt ht)
  ticket_lt := h.ticket_lt
  request_lt := by
    intro r m hr
    dsimp only [Switchboard.send] at hr ⊢
    rw [Std.ExtTreeMap.getElem?_insert] at hr
    split at hr
    · next heq => exact (Std.LawfulEqOrd.compare_eq_iff_eq.mp heq) ▸ Nat.lt_succ_self _
    · exact Nat.lt_succ_of_lt (h.request_lt hr)

theorem confirm (h : b.Coherent) (ht : b.topics[n]? = some t) (hp : t.pending = none) (terms : Terms) :
    (b.put n (t.confirm terms)).Coherent :=
  h.put ht rfl rfl rfl ((h.proper ht).congr rfl rfl rfl (by simp [Topic.confirm, hp]))

theorem settle (h : b.Coherent) (link : Option LinkId) (n : TopicNo) : (b.settle link n).1.Coherent := by
  have hs := settling link b n
  generalize b.settle link n = r at hs
  cases hs with
  | missing _ => exact h
  | idle _ _ => exact h
  | removal ht hp ha _ => exact h.drop ht hp ((h.proper ht).idle ha)
  | confirmation _ ht hp _ _ _ _ => exact h.confirm ht hp _
  | order _ ht hp hw => exact h.send ht hp hw.fits _ _

theorem answer (h : b.Coherent) (ht : b.topics[n]? = some t) {p : Pending} (hp : t.pending = some p)
    (he : t'.expression = t.expression) (hc : t'.callers = t.callers) (hk : t'.keyNames = t.keyNames)
    (ha : t'.isActive = t.isActive) (hp' : t'.pending = none) (ids : Std.ExtTreeMap BrokerId TopicNo) :
    ({ b.put n t' with byRequest := b.byRequest.erase p.request, byBrokerId := ids } :
      Switchboard L).Coherent where
  expressions := h.expressions.insert_same fun e => by rw [h.expressions.mark_iff ht, he]
  tickets := h.tickets.insert_same fun k => by
    rw [h.tickets.mark_iff ht, Topic.tickets, Topic.tickets, hc]
  requests := by
    have hr : b.byRequest[p.request]? = some n :=
      (h.requests.mark_iff ht).mpr (by simp [Topic.request?, hp])
    refine h.requests.insert_unmarked hr fun r => ?_
    rw [h.requests.mark_iff ht]
    simp [Topic.request?, hp, hp', eq_comm]
  proper := forall_insert h.proper ((h.proper ht).congr hc hk ha (by simp [hp']))
  topic_lt := forall_insert h.topic_lt (h.topic_lt ht)
  ticket_lt := h.ticket_lt
  request_lt := by
    intro r m hr
    dsimp only at hr
    rw [Std.ExtTreeMap.getElem?_erase] at hr
    split at hr
    · simp at hr
    · exact h.request_lt hr

end Coherent

theorem topic_disconnected_iff {b : Switchboard L} {n : TopicNo} {t : Topic L} :
    b.disconnected.topics[n]? = some t ↔ ∃ u, b.topics[n]? = some u ∧ u.isActive = true ∧ u.forget = t := by
  simp [disconnected, Std.ExtTreeMap.getElem?_map, and_assoc]

theorem Coherent.disconnected {b : Switchboard L} (h : b.Coherent) : b.disconnected.Coherent where
  expressions := by
    intro e n
    have hindex : b.disconnected.byExpression[e]? = some n ↔
        b.byExpression[e]? = some n ∧ (b.disconnected.topics[n]?).isSome = true := by
      simp only [Switchboard.disconnected, Std.ExtTreeMap.getElem?_filter', Option.filter_eq_some_iff,
        Std.ExtTreeMap.contains_eq_isSome_getElem?]
    rw [hindex, h.expressions e n, Option.isSome_iff_exists]
    constructor
    · rintro ⟨⟨t, ht, he⟩, t', ht'⟩
      obtain ⟨u, hu, hc, rfl⟩ := topic_disconnected_iff.mp ht'
      rw [ht] at hu
      obtain rfl := Option.some.inj hu
      exact ⟨t.forget, ht', he⟩
    · rintro ⟨t', ht', he⟩
      obtain ⟨t, ht, hc, rfl⟩ := topic_disconnected_iff.mp ht'
      exact ⟨⟨t, ht, he⟩, t.forget, ht'⟩
  tickets := by
    intro k n
    rw [show b.disconnected.byTicket = b.byTicket from rfl, h.tickets k n]
    constructor
    · rintro ⟨t, ht, hk⟩
      refine ⟨t.forget, topic_disconnected_iff.mpr ⟨t, ht, (h.proper ht).isActive fun hc => ?_, rfl⟩, hk⟩
      simp [Topic.tickets, hc] at hk
    · rintro ⟨t', ht', hk⟩
      obtain ⟨t, ht, -, rfl⟩ := topic_disconnected_iff.mp ht'
      exact ⟨t, ht, hk⟩
  requests := by
    intro r n
    constructor
    · intro hr
      simp [Switchboard.disconnected] at hr
    · rintro ⟨t', ht', hr⟩
      obtain ⟨t, -, -, rfl⟩ := topic_disconnected_iff.mp ht'
      simp [Topic.request?, Topic.forget] at hr
  proper := by
    intro n t' ht'
    obtain ⟨t, ht, -, rfl⟩ := topic_disconnected_iff.mp ht'
    exact (h.proper ht).congr rfl rfl rfl (by simp [Topic.forget])
  topic_lt := by
    intro n t' ht'
    obtain ⟨t, ht, -, -⟩ := topic_disconnected_iff.mp ht'
    exact h.topic_lt ht
  ticket_lt := h.ticket_lt
  request_lt := by simp [Switchboard.disconnected]

end Switchboard

end Herald
