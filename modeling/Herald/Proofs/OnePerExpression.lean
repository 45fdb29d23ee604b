import Herald.Proofs.Convergence
import Herald.Proofs.Mirror

namespace Herald

variable {L : Type}

namespace Subscription

variable {subscriptions : Std.ExtTreeMap BrokerId Subscription} {id : BrokerId}

def titles (subscriptions : Std.ExtTreeMap BrokerId Subscription) : Std.ExtTreeMap BrokerId String :=
  subscriptions.map fun _ s => s.expression

theorem getElem?_titles : (titles subscriptions)[id]? = subscriptions[id]?.map expression :=
  Std.ExtTreeMap.getElem?_map

theorem mem_titles : id ∈ titles subscriptions ↔ id ∈ subscriptions :=
  Std.ExtTreeMap.mem_map

theorem titles_insert (s : Subscription) :
    titles (subscriptions.insert id s) = (titles subscriptions).insert id s.expression := by
  refine Std.ExtTreeMap.ext_getElem? fun k => ?_
  simp only [getElem?_titles, Std.ExtTreeMap.getElem?_insert]
  split <;> rfl

theorem titles_amend (a : Amendment) :
    titles (subscriptions.modify id (·.amend a)) = (titles subscriptions).modify id a.expression.getD := by
  refine Std.ExtTreeMap.ext_getElem? fun k => ?_
  simp only [getElem?_titles, Std.ExtTreeMap.getElem?_modify]
  split
  · rw [Option.map_map, Option.map_map]
    rfl
  · rfl

theorem titles_erase : titles (subscriptions.erase id) = (titles subscriptions).erase id := by
  refine Std.ExtTreeMap.ext_getElem? fun k => ?_
  simp only [getElem?_titles, Std.ExtTreeMap.getElem?_erase]
  split <;> rfl

end Subscription

namespace Terms

theorem expression_amendment (old new : Terms) :
    (old.amendment new).expression.getD old.expression = new.expression := by
  by_cases h : old.expression = new.expression <;> simp [amendment, h]

theorem expression_eq_of_isEmpty {old new : Terms} (h : (old.amendment new).isEmpty = true) :
    new.expression = old.expression := by
  simp only [Amendment.isEmpty, Bool.and_eq_true, Option.isNone_iff_eq_none] at h
  rw [← expression_amendment old new, h.1.1, Option.getD_none]

end Terms

def Holding.title (h : Holding) : BrokerId × String :=
  (h.id, h.terms.expression)

def Topic.title? (t : Topic L) : Option (BrokerId × String) :=
  t.held.map Holding.title

theorem Tabulates.entitle {line line' : TopicNo → Option (BrokerId × String)} {n : TopicNo}
    {subscriptions : Std.ExtTreeMap BrokerId Subscription} (h : Tabulates line (Subscription.titles subscriptions))
    {errand : Errand} {held : Option Holding} {order : Order} {ack : Ack} (hfit : errand.Fits held)
    (ho : errand.order? held = some order) (hfresh : ∀ id, ack = .added (.ok id) → id ∉ subscriptions)
    (hn : line n = held.map Holding.title)
    (heq : ∀ m, line' m = if m = n then (errand.result held ack).map Holding.title else line m) :
    Tabulates line' (Subscription.titles (Broker.perform order ack subscriptions)) := by
  have hp := performing hfit ho ack subscriptions
  generalize errand.result held ack = held', Broker.perform order ack subscriptions = after at hp heq
  cases hp with
  | added hh =>
    rw [Subscription.titles_insert]
    exact h.insert (hn.trans (by rw [hh]; rfl)) (mt Subscription.mem_titles.mp (hfresh _ rfl)) heq
  | modified hh =>
    rw [Subscription.titles_amend]
    refine h.modify (hn.trans (by rw [hh]; rfl)) fun m => ?_
    rw [heq, Terms.expression_amendment]
    rfl
  | deleted hh =>
    rw [Subscription.titles_erase]
    exact h.erase (hn.trans (by rw [hh]; rfl)) heq
  | ignored => exact h.keep fun m => by rw [heq, hn]

namespace Switchboard

structure Titled (b : Switchboard L) (k : Broker) : Prop where
  titles : Tabulates (b.view Topic.title?) (Subscription.titles k.subscriptions)
  orders : Tabulates (b.view Topic.order?) k.orders

section Titled

variable {link : Option LinkId} {b b' : Switchboard L} {k : Broker} {calls : List Call} {n : TopicNo}
  {t : Topic L}

theorem Coherent.pending_eq_none (hb : b.Coherent) (hidle : b.byRequest = ∅) (ht : b.topics[n]? = some t) :
    t.pending = none := by
  cases hp : t.pending with
  | none => rfl
  | some p =>
    have hr : b.byRequest[p.request]? = some n := (hb.requests.mark_iff ht).mpr (by simp [Topic.request?, hp])
    simp [hidle] at hr

theorem view_title? (b : Switchboard L) (n : TopicNo) :
    b.view Topic.title? n = (b.view Topic.held n).map Holding.title := by
  unfold view
  cases b.topics[n]? <;> rfl

theorem Titled.effect (h : b.Titled k) (hb : b.Coherent) (he : Effect b b' calls) :
    b'.Titled (k.receive calls) := by
  refine ⟨?_, orders_effect h.orders hb he⟩
  rw [Broker.receive_subscriptions]
  refine h.titles.congr fun m => ?_
  rw [view_title?, view_title?]
  cases he with
  | still hh _ => rw [hh]
  | @confirmed n i terms _ hi _ hempty hh _ =>
    rw [hh]
    split
    · next e => simp [e, hi, Holding.title, Terms.expression_eq_of_isEmpty hempty]
    · rfl
  | ordered _ _ _ hh _ => rw [hh]

theorem Titled.moves (h : b.Titled k) (hb : b.Coherent) (m : Moves link b b' calls) :
    b'.Titled (k.receive calls) := by
  induction m generalizing k with
  | refl => exact h
  | step m _ ih =>
    rw [Broker.receive_append]
    exact ih (h.effect hb (m.effect hb)) (hb.move m)

theorem Titled.conclude (h : b.Titled k) (hb : b.Coherent) (ht : b.topics[n]? = some t) {p : Pending}
    (hp : t.pending = some p) {ack : Ack} (hfresh : ∀ id, ack = .added (.ok id) → id ∉ k.subscriptions) :
    ((b.answered p.request).conclude n { t with pending := none } p.errand ack).1.Titled
      (k.answer p.request ack) := by
  obtain ⟨o, ho, horder⟩ := order_of_pending hb ht hp
  rw [Broker.answer, h.orders.lookup horder]
  refine ⟨?_, orders_conclude h.orders horder ack⟩
  refine h.titles.entitle ((hb.proper ht).fits p hp) ho hfresh (view_of_topic ht) fun m => ?_
  rw [view_title?, held_conclude, view_title?]
  split <;> rfl

theorem Titled.acknowledge (h : b.Titled k) (hb : b.Coherent) (link : Option LinkId) {request : RequestNo}
    {ack : Ack} (hadm : k.Admits (.arrival (.ack request ack) : Input L)) :
    (b.acknowledge link request ack).1.Titled
      ((k.answer request ack).receive (b.acknowledge link request ack).2.1) := by
  have ha := acknowledging hb link request ack
  generalize b.acknowledge link request ack = r at ha
  cases ha with
  | unknown hr =>
    rw [answer_unknown h.orders hb hr]
    exact h
  | @known n t p r hr ht hp hpr hres =>
    subst hpr
    have hconcluded := hres ▸ h.conclude hb ht hp (fresh_of_admits h.orders hb ht hp hadm)
    exact hconcluded.effect (hres ▸ hb.conclude ht hp ack) (effect_settle link r.1 n)

theorem Quiet.title? (h : b.Quiet) : ∀ n, b.view Topic.title? n = none :=
  h.view fun t ht => by simp [Topic.title?, ht.1]

theorem Quiet.titled (h : b.Quiet) : b.Titled .empty where
  titles := by
    have hnone : Subscription.titles Broker.empty.subscriptions = ∅ := by
      refine Std.ExtTreeMap.ext_getElem? fun k => ?_
      simp [Subscription.getElem?_titles, Broker.empty]
    rw [hnone]
    exact .empty h.title?
  orders := .empty h.order?

theorem Titled.of_quiet (h : b.Titled k) (hq : b.Quiet) (hq' : b'.Quiet) : b'.Titled k :=
  ⟨h.titles.congr fun n => by rw [hq.title?, hq'.title?],
    h.orders.congr fun n => by rw [hq.order?, hq'.order?]⟩

end Titled

end Switchboard

namespace Client

variable {c : Client L} {k : Broker}

theorem Sound.titled_step (h : c.Sound) (hk : c.board.Titled k) {i : Input L} (hadm : k.Admits i) :
    (c.step i).1.board.Titled (k.step i (c.step i).2.calls) := by
  have hch := h.change i
  generalize (c.step i).1 = c', (c.step i).2.calls = calls at hch
  cases hch with
  | rest hack hnone hno hb _ _ =>
    rw [hb]
    cases hcl : i.closes with
    | false =>
      rw [Broker.step_eq_receive hack hcl, Broker.receive_of_no_order k hno]
      exact hk
    | true =>
      rw [Broker.step_of_closes hcl]
      exact (h.quiet (hnone hcl)).titled
  | serve hack hcl hm _ _ =>
    rw [Broker.step_eq_receive hack hcl]
    exact hk.moves h.coherent hm
  | @rekey records table _ hb _ =>
    have hk' : (c.board.withTable table).Titled k := ⟨hk.titles, hk.orders⟩
    rw [hb, Broker.step_eq_receive rfl rfl]
    exact hk'.moves (h.coherent.withTable table) (Switchboard.rekey_moves _ _ _)
  | ack hb _ =>
    rw [hb]
    exact hk.acknowledge h.coherent _ hadm
  | @down i b _ _ hcl _ _ hb _ _ =>
    rw [hb, Broker.step_of_closes hcl]
    exact Switchboard.Quiet.titled (.disconnected b)
  | up hnone _ hb _ =>
    rw [hb, Broker.step_eq_receive rfl rfl]
    exact (hk.of_quiet (h.quiet hnone) (.disconnected _)).moves h.coherent.disconnected
      (Switchboard.reconnected_moves _ _)

theorem Sound.titled_run (h : c.Sound) (hk : c.board.Titled k) {inputs : List (Input L)}
    (hadm : k.AdmitsAll c inputs) : (c.run inputs).board.Titled (k.after c inputs) := by
  induction inputs generalizing c k with
  | nil => exact hk
  | cons i inputs ih => exact ih (h.step i) (h.titled_step hk hadm.1) hadm.2

theorem titled_ofSettings {check : Expression.Check} {s : Settings} (hc : Client.ofSettings check s = .ok c) :
    c.board.Titled .empty := by
  obtain rfl := eq_of_ofSettings hc
  exact Switchboard.Quiet.titled (.ofTable _)

/-- The broker has an expression under an id whose topic it refused to bring to another one. -/
def Retained (b : Switchboard L) (id : BrokerId) (e : String) : Prop :=
  ∃ (n : TopicNo) (t : Topic L) (h : Holding), b.topics[n]? = some t ∧ t.held = some h ∧
    h.title = (id, e) ∧ t.refused = true ∧ t.expression ≠ e

theorem Sound.retained_or_eq (h : c.Sound) (hk : c.board.Titled k) {link : LinkId} (hl : c.link? = some link)
    (hidle : c.board.byRequest = ∅) {id : BrokerId} {s : Subscription}
    (hs : k.subscriptions[id]? = some s) : Retained c.board id s.expression ∨
      ∃ (n : TopicNo) (t : Topic L), c.board.topics[n]? = some t ∧ t.expression = s.expression ∧
        c.board.view Topic.title? n = some (id, s.expression) := by
  have htitle : (Subscription.titles k.subscriptions)[id]? = some s.expression := by
    rw [Subscription.getElem?_titles, hs, Option.map_some]
  obtain ⟨n, hn⟩ := (hk.titles.exact _ _).mp htitle
  obtain ⟨t, ht, hheld⟩ := Switchboard.view_eq_some.mp hn
  obtain ⟨i, hi, htitle⟩ := Option.map_eq_some_iff.mp hheld
  by_cases heq : t.expression = s.expression
  · exact .inr ⟨n, t, ht, heq, hn⟩
  · refine .inl ⟨n, t, i, ht, hi, htitle, ?_, heq⟩
    have hpending : t.pending = none := h.coherent.pending_eq_none hidle ht
    have hsettled : c.board.Settled true := by simpa [hl] using h.settled
    obtain ⟨-, hr | ⟨j, hj, hterms⟩⟩ := h.coherent.idle h.occupied hsettled ht hpending
    · exact hr
    · obtain rfl := Option.some.inj (hi.symm.trans hj)
      have he : i.terms.expression = s.expression := congrArg Prod.snd htitle
      rw [hterms] at he
      exact absurd he heq

/-- Where no answer is awaited, two subscriptions of one expression come from a refusal. -/
theorem onePerExpression_run {check : Expression.Check} {s : Settings} (hc : Client.ofSettings check s = .ok c)
    {inputs : List (Input L)} (hadm : Broker.empty.AdmitsAll c inputs)
    (hconn : (c.run inputs).connection.status = .connected) (hidle : (c.run inputs).board.byRequest = ∅)
    {id id' : BrokerId} {r r' : Subscription}
    (hr : (Broker.empty.after c inputs).subscriptions[id]? = some r)
    (hr' : (Broker.empty.after c inputs).subscriptions[id']? = some r') (hne : id ≠ id')
    (he : r.expression = r'.expression) :
    Retained (c.run inputs).board id r.expression ∨ Retained (c.run inputs).board id' r.expression := by
  have h := (Sound.ofSettings hc).run inputs
  have hk := (Sound.ofSettings hc).titled_run (titled_ofSettings hc) hadm
  obtain ⟨link, hl⟩ := Option.isSome_iff_exists.mp (h.connection.link_iff.mpr hconn)
  obtain hret | ⟨n, t, ht, hte, hn⟩ := h.retained_or_eq hk hl hidle hr
  · exact .inl hret
  obtain hret | ⟨m, u, hu, hue, hm⟩ := h.retained_or_eq hk hl hidle hr'
  · exact .inr (he ▸ hret)
  obtain rfl : n = m := h.coherent.expressions.mark_unique ht hu (hte.trans (he.trans hue.symm)) rfl
  rw [hn] at hm
  exact absurd (congrArg Prod.fst (Option.some.inj hm)) hne

/-- The broker refuses to bring a topic to another expression, and somebody else wants the old one. -/
def refusedMove : List (Input Nat) :=
  [.start, .arrival (.connectResult 1 (.ok 7)), .subscribe ⟨"require(A)", [], 0⟩,
    .arrival (.ack 1 (.added (.ok 5))), .revise 1 ⟨"require(B)", [], 0⟩,
    .arrival (.ack 2 (.modified (.error ⟨3, "no"⟩))), .subscribe ⟨"require(A)", [], 1⟩,
    .arrival (.ack 3 (.added (.ok 6)))]

theorem onePerExpression_run_refusedMove : ∃ (c : Client Nat) (r r' : Subscription),
    Client.ofSettings Expression.refusal? (.ofEndpoint "tcp://broker") = .ok c ∧
    Broker.empty.AdmitsAll c refusedMove ∧ (c.run refusedMove).connection.status = .connected ∧
    (c.run refusedMove).board.byRequest = ∅ ∧
    (Broker.empty.after c refusedMove).subscriptions[5]? = some r ∧
    (Broker.empty.after c refusedMove).subscriptions[6]? = some r' ∧ r.expression = r'.expression ∧
    (Retained (c.run refusedMove).board 5 r.expression ∨ Retained (c.run refusedMove).board 6 r.expression) :=
  ⟨_, _, _, rfl, by decide +kernel, by decide +kernel, by decide +kernel, rfl, rfl, rfl,
    onePerExpression_run (s := .ofEndpoint "tcp://broker") rfl (by decide +kernel) (by decide +kernel)
      (by decide +kernel) rfl rfl (by decide) rfl⟩

/-- Two ids carry one expression, though every answer is of the kind of its order and every id given is new. -/
theorem shared_expression_refusedMove : ∃ (c : Client Nat) (r r' : Subscription),
    Client.ofSettings Expression.refusal? (.ofEndpoint "tcp://broker") = .ok c ∧
    c.Along (fun c i => i.isAck = true → c.awaits i = true) refusedMove ∧
    Broker.empty.AdmitsAll c refusedMove ∧ (c.run refusedMove).connection.status = .connected ∧
    (c.run refusedMove).board.byRequest = ∅ ∧
    (Broker.empty.after c refusedMove).subscriptions[5]? = some r ∧
    (Broker.empty.after c refusedMove).subscriptions[6]? = some r' ∧ r.expression = r'.expression :=
  ⟨_, _, _, rfl, by decide +kernel, by decide +kernel, by decide +kernel, by decide +kernel, rfl, rfl, rfl⟩

end Client

end Herald
