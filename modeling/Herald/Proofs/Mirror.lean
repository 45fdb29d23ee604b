import Herald.Proofs.Broker

namespace Herald

variable {L : Type}

def Holding.entry (h : Holding) : BrokerId × Subscription :=
  (h.id, h.terms.subscription)

inductive Performing (held : Option Holding) (subscriptions : Std.ExtTreeMap BrokerId Subscription) :
    Errand → Ack → Option Holding → Std.ExtTreeMap BrokerId Subscription → Prop
  | added {terms : Terms} {id : BrokerId} : held = none → Performing held subscriptions (.add terms)
      (.added (.ok id)) (some ⟨id, terms⟩) (subscriptions.insert id terms.subscription)
  | modified {terms : Terms} {i : Holding} : held = some i → Performing held subscriptions (.modify terms)
      (.modified (.ok ())) (some { i with terms })
      (subscriptions.modify i.id (·.amend (i.terms.amendment terms)))
  | deleted {i : Holding} {result : Except Refusal Unit} : held = some i → Performing held subscriptions
      .delete (.deleted result) none (subscriptions.erase i.id)
  | ignored {errand : Errand} {ack : Ack} : Performing held subscriptions errand ack held subscriptions

theorem performing {held : Option Holding} {errand : Errand} {order : Order} (hfit : errand.Fits held)
    (ho : errand.order? held = some order) (ack : Ack)
    (subscriptions : Std.ExtTreeMap BrokerId Subscription) :
    Performing held subscriptions errand ack (errand.result held ack)
      (Broker.perform order ack subscriptions) := by
  cases errand with
  | add terms =>
    obtain rfl : held = none := hfit
    obtain rfl := Option.some.inj ho
    rcases ack with (refusal | id) | result | result
    · exact .ignored
    · exact .added rfl
    · exact .ignored
    · exact .ignored
  | modify terms =>
    obtain ⟨i, rfl⟩ := Option.ne_none_iff_exists'.mp hfit
    obtain rfl := Option.some.inj ho
    rcases ack with result | (refusal | u) | result
    · exact .ignored
    · exact .ignored
    · exact .modified rfl
    · exact .ignored
  | delete =>
    obtain ⟨i, rfl⟩ := Option.ne_none_iff_exists'.mp hfit
    obtain rfl := Option.some.inj ho
    rcases ack with result | result | result
    · exact .ignored
    · exact .ignored
    · exact .deleted rfl

theorem Tabulates.perform {line line' : TopicNo → Option (BrokerId × Subscription)} {n : TopicNo}
    {subscriptions : Std.ExtTreeMap BrokerId Subscription} (h : Tabulates line subscriptions)
    {errand : Errand} {held : Option Holding} {order : Order} {ack : Ack} (hfit : errand.Fits held)
    (ho : errand.order? held = some order) (hfresh : ∀ id, ack = .added (.ok id) → id ∉ subscriptions)
    (hc : ∀ i, held = some i → ∀ terms ∈ errand.terms?,
      Key.NoCollision (i.terms.table.secrets ++ terms.table.secrets))
    (hn : line n = held.map Holding.entry)
    (heq : ∀ m, line' m = if m = n then (errand.result held ack).map Holding.entry else line m) :
    Tabulates line' (Broker.perform order ack subscriptions) := by
  have hp := performing hfit ho ack subscriptions
  generalize errand.result held ack = held', Broker.perform order ack subscriptions = after at hp heq
  cases hp with
  | added hh => exact h.insert (hn.trans (by rw [hh]; rfl)) (hfresh _ rfl) heq
  | @modified terms i hh =>
    refine h.modify (hn.trans (by rw [hh]; rfl)) fun m => ?_
    rw [heq, Terms.subscription_amend (hc i hh terms rfl)]
    rfl
  | deleted hh => exact h.erase (hn.trans (by rw [hh]; rfl)) heq
  | ignored => exact h.keep fun m => by rw [heq, hn]

namespace Topic

def subscription? (t : Topic L) : Option (BrokerId × Subscription) :=
  t.held.map Holding.entry

def order? (t : Topic L) : Option (RequestNo × Order) :=
  t.pending.bind fun p => (p.errand.order? t.held).map fun o => (p.request, o)

end Topic

namespace Switchboard

structure Mirrored (b : Switchboard L) (k : Broker) : Prop where
  subscriptions : Tabulates (b.view Topic.subscription?) k.subscriptions
  orders : Tabulates (b.view Topic.order?) k.orders

structure Within (b : Switchboard L) (secrets : List (List UInt8)) : Prop where
  table : b.table.secrets ⊆ secrets
  held : ∀ {n : TopicNo} {h : Holding}, b.view Topic.held n = some h → h.terms.table.secrets ⊆ secrets
  pending : ∀ {n : TopicNo} {p : Pending}, b.view Topic.pending n = some p →
    ∀ terms ∈ p.errand.terms?, terms.table.secrets ⊆ secrets

section Views

variable {b b' : Switchboard L} {n : TopicNo}

theorem view_subscription? (b : Switchboard L) (n : TopicNo) :
    b.view Topic.subscription? n = (b.view Topic.held n).map Holding.entry := by
  unfold view
  cases b.topics[n]? <;> rfl

theorem view_order? (b : Switchboard L) (n : TopicNo) : b.view Topic.order? n =
    (b.view Topic.pending n).bind fun p =>
      (p.errand.order? (b.view Topic.held n)).map fun o => (p.request, o) := by
  unfold view
  cases b.topics[n]? <;> rfl

theorem byRequest_of_order (hb : b.Coherent) {r : RequestNo} {o : Order}
    (h : b.view Topic.order? n = some (r, o)) : b.byRequest[r]? = some n := by
  obtain ⟨t, ht, ho⟩ := view_eq_some.mp h
  obtain ⟨p, hp, ho⟩ := Option.bind_eq_some_iff.mp ho
  obtain ⟨o', -, ho⟩ := Option.map_eq_some_iff.mp ho
  obtain rfl : p.request = r := congrArg Prod.fst ho
  exact (hb.requests.mark_iff ht).mpr (by simp [Topic.request?, hp])

theorem order_of_pending (hb : b.Coherent) {t : Topic L} (ht : b.topics[n]? = some t) {p : Pending}
    (hp : t.pending = some p) :
    ∃ o, p.errand.order? t.held = some o ∧ b.view Topic.order? n = some (p.request, o) := by
  obtain ⟨o, ho⟩ := ((hb.proper ht).fits p hp).exists_order
  refine ⟨o, ho, ?_⟩
  rw [view_of_topic ht]
  simp [Topic.order?, hp, ho]

end Views

section Effects

variable {b b' : Switchboard L} {k : Broker} {calls : List Call} {secrets : List (List UInt8)}

theorem Within.effect (h : b.Within secrets) (he : Effect b b' calls) (htable : b'.table = b.table) :
    b'.Within secrets := by
  cases he with
  | still hh hp => exact ⟨htable ▸ h.table, fun hn => h.held (hh _ ▸ hn), fun hn => h.pending (hp _ ▸ hn)⟩
  | @confirmed n i terms _ _ ht _ hh hp =>
    refine ⟨htable ▸ h.table, fun {m j} hm => ?_, fun hn => h.pending (hp _ ▸ hn)⟩
    rw [hh] at hm
    split at hm
    · obtain rfl := Option.some.inj hm
      exact ht ▸ h.table
    · exact h.held hm
  | @ordered n link errand order _ _ ht hh hp =>
    refine ⟨htable ▸ h.table, fun hn => h.held (hh _ ▸ hn), fun {m p} hm => ?_⟩
    rw [hp] at hm
    split at hm
    · obtain rfl := Option.some.inj hm
      intro terms hterms
      exact ht terms hterms ▸ h.table
    · exact h.pending hm

theorem Within.noCollision (h : b.Within secrets) (hc : Key.NoCollision secrets) {n : TopicNo}
    {i : Holding} (hi : b.view Topic.held n = some i) {terms : Terms} (ht : terms.table.secrets ⊆ secrets) :
    Key.NoCollision (i.terms.table.secrets ++ terms.table.secrets) :=
  hc.mono fun _ hs => (List.mem_append.mp hs).elim (fun hs => h.held hi hs) (fun hs => ht hs)

theorem orders_effect (h : Tabulates (b.view Topic.order?) k.orders) (hb : b.Coherent)
    (he : Effect b b' calls) : Tabulates (b'.view Topic.order?) (k.receive calls).orders := by
  cases he with
  | still hh hp => exact h.congr fun m => by simp only [view_order?, hh, hp]
  | @confirmed n i terms hnone _ _ _ hh hp =>
    refine h.congr fun m => ?_
    rw [view_order?, view_order?, hp]
    by_cases e : m = n
    · simp [e, hnone]
    · rw [hh, if_neg e]
  | @ordered n link errand order hnone ho _ hh hp =>
    have hfree : b.nextRequest ∉ k.orders := by
      intro hmem
      obtain ⟨o, ho⟩ := Option.isSome_iff_exists.mp (Std.ExtTreeMap.mem_iff_isSome_getElem?.mp hmem)
      obtain ⟨m, hm⟩ := (h.exact _ _).mp ho
      exact Nat.lt_irrefl _ (hb.request_lt (byRequest_of_order hb hm))
    refine h.insert (n := n) ?_ hfree fun m => ?_
    · simp [view_order?, hnone]
    · rw [view_order?, view_order?, hp, hh]
      split
      · next e => simp [e, ho]
      · rfl

theorem Mirrored.effect (hm : b.Mirrored k) (hb : b.Coherent) (hw : b.Within secrets)
    (hc : Key.NoCollision secrets) (he : Effect b b' calls) : b'.Mirrored (k.receive calls) := by
  refine ⟨?_, orders_effect hm.orders hb he⟩
  rw [Broker.receive_subscriptions]
  cases he with
  | still hh _ => exact hm.subscriptions.congr fun m => by simp only [view_subscription?, hh]
  | @confirmed n i terms _ hi ht hempty hh _ =>
    -- The broker is told nothing here, so the new terms must mean the same subscription as the old.
    have hsame : terms.subscription = i.terms.subscription :=
      Terms.subscription_eq_of_isEmpty (hw.noCollision hc hi (ht ▸ hw.table)) hempty
    refine hm.subscriptions.congr fun m => ?_
    rw [view_subscription?, view_subscription?, hh]
    split
    · next e => simp [e, hi, hsame, Holding.entry]
    · rfl
  | ordered _ _ _ hh _ => exact hm.subscriptions.congr fun m => by simp only [view_subscription?, hh]

theorem Mirrored.moves (hm : b.Mirrored k) (hb : b.Coherent) (hw : b.Within secrets)
    (hc : Key.NoCollision secrets) {link : Option LinkId} (m : Moves link b b' calls) :
    b'.Mirrored (k.receive calls) ∧ b'.Within secrets := by
  induction m generalizing k with
  | refl => exact ⟨hm, hw⟩
  | step m _ ih =>
    have he := m.effect hb
    rw [Broker.receive_append]
    exact ih (hm.effect hb hw hc he) (hb.move m) (hw.effect he m.table_eq)

end Effects

section Answers

variable {b : Switchboard L} {k : Broker} {secrets : List (List UInt8)} {n : TopicNo} {t : Topic L}
  {p : Pending} {order : Order}

theorem Within.conclude (h : b.Within secrets) (ht : b.topics[n]? = some t) (hp : t.pending = some p)
    (ack : Ack) : ((b.answered p.request).conclude n { t with pending := none } p.errand ack).1.Within
      secrets := by
  have hbears : b.Bears fun terms => terms.table.secrets ⊆ secrets := ⟨h.held, h.pending⟩
  obtain ⟨hheld, hpending⟩ := hbears.conclude ht hp ack
  refine ⟨?_, hheld, hpending⟩
  rw [table_conclude]
  exact h.table

theorem orders_conclude (h : Tabulates (b.view Topic.order?) k.orders)
    (horder : b.view Topic.order? n = some (p.request, order)) (ack : Ack) :
    Tabulates (((b.answered p.request).conclude n { t with pending := none } p.errand ack).1.view
      Topic.order?) (k.orders.erase p.request) := by
  refine h.erase horder fun m => ?_
  rw [view_order?, view_order?, pending_conclude, held_conclude]
  split <;> rfl

theorem Mirrored.conclude (hm : b.Mirrored k) (hb : b.Coherent) (hw : b.Within secrets)
    (hc : Key.NoCollision secrets) (ht : b.topics[n]? = some t) (hp : t.pending = some p) {ack : Ack}
    (hfresh : ∀ id, ack = .added (.ok id) → id ∉ k.subscriptions) :
    ((b.answered p.request).conclude n { t with pending := none } p.errand ack).1.Mirrored
      (k.answer p.request ack) := by
  have hfit := (hb.proper ht).fits p hp
  obtain ⟨o, ho, horder⟩ := order_of_pending hb ht hp
  rw [Broker.answer, hm.orders.lookup horder]
  refine ⟨?_, orders_conclude hm.orders horder ack⟩
  -- What is held has not changed since the order went out, so its amendment still starts from there.
  refine hm.subscriptions.perform hfit ho hfresh (fun i hi terms hterms => ?_) (view_of_topic ht) fun m => ?_
  · exact hw.noCollision hc ((view_of_topic ht).trans hi)
      (hw.pending ((view_of_topic ht).trans hp) terms hterms)
  · rw [view_subscription?, held_conclude, view_subscription?]
    split <;> rfl

theorem answer_unknown (h : Tabulates (b.view Topic.order?) k.orders) {request : RequestNo} (hb : b.Coherent)
    (hr : b.byRequest[request]? = none) (ack : Ack) : k.answer request ack = k := by
  have hnone : k.orders[request]? = none := by
    cases ho : k.orders[request]? with
    | none => rfl
    | some o =>
      obtain ⟨m, hm⟩ := (h.exact _ _).mp ho
      rw [byRequest_of_order hb hm] at hr
      simp at hr
  rw [Broker.answer, hnone]

theorem fresh_of_admits (h : Tabulates (b.view Topic.order?) k.orders) (hb : b.Coherent)
    (ht : b.topics[n]? = some t) (hp : t.pending = some p) {ack : Ack}
    (hadm : k.Admits (.arrival (.ack p.request ack) : Input L)) (id : BrokerId) (ha : ack = .added (.ok id)) :
    id ∉ k.subscriptions := by
  subst ha
  obtain ⟨o, -, horder⟩ := order_of_pending hb ht hp
  exact hadm (Std.ExtTreeMap.mem_iff_isSome_getElem?.mpr (by simp [h.lookup horder]))

theorem Mirrored.acknowledge (hm : b.Mirrored k) (hb : b.Coherent) (hw : b.Within secrets)
    (hc : Key.NoCollision secrets) (link : Option LinkId) {request : RequestNo} {ack : Ack}
    (hadm : k.Admits (.arrival (.ack request ack) : Input L)) :
    (b.acknowledge link request ack).1.Mirrored
        ((k.answer request ack).receive (b.acknowledge link request ack).2.1) ∧
      (b.acknowledge link request ack).1.Within secrets := by
  have ha := acknowledging hb link request ack
  generalize b.acknowledge link request ack = r at ha
  cases ha with
  | unknown hr =>
    rw [answer_unknown hm.orders hb hr]
    exact ⟨hm, hw⟩
  | @known n t p r hr ht hp hpr hres =>
    subst hpr
    have hfresh := fresh_of_admits hm.orders hb ht hp hadm
    have hm' := hres ▸ hm.conclude hb hw hc ht hp hfresh
    have hw' := hres ▸ hw.conclude ht hp ack
    have he := effect_settle link r.1 n
    exact ⟨hm'.effect (hres ▸ hb.conclude ht hp ack) hw' hc he, hw'.effect he (Move.settle n).table_eq⟩

end Answers

section Quiet

variable {b b' : Switchboard L} {k : Broker} {secrets : List (List UInt8)}

theorem Quiet.view {α : Type} {field : Topic L → Option α} (h : b.Quiet)
    (hf : ∀ t : Topic L, t.Quiet → field t = none) (n : TopicNo) : b.view field n = none := by
  cases hv : b.view field n with
  | none => rfl
  | some x =>
    obtain ⟨t, ht, hx⟩ := view_eq_some.mp hv
    simp [hf t (h n t ht)] at hx

theorem Quiet.subscription? (h : b.Quiet) : ∀ n, b.view Topic.subscription? n = none :=
  h.view fun t ht => by simp [Topic.subscription?, ht.1]

theorem Quiet.order? (h : b.Quiet) : ∀ n, b.view Topic.order? n = none :=
  h.view fun t ht => by simp [Topic.order?, ht.2.1]

theorem Quiet.mirrored (h : b.Quiet) : b.Mirrored .empty :=
  ⟨.empty h.subscription?, .empty h.order?⟩

theorem Mirrored.of_quiet (hm : b.Mirrored k) (h : b.Quiet) (h' : b'.Quiet) : b'.Mirrored k :=
  ⟨hm.subscriptions.congr fun n => by rw [h.subscription?, h'.subscription?],
    hm.orders.congr fun n => by rw [h.order?, h'.order?]⟩

theorem Quiet.within (h : b.Quiet) (htable : b.table.secrets ⊆ secrets) : b.Within secrets where
  table := htable
  held := fun {n i} hi => by
    have hnone : b.view Topic.held n = none := h.view (fun _ ht => ht.1) n
    simp [hnone] at hi
  pending := fun {n p} hp => by
    have hnone : b.view Topic.pending n = none := h.view (fun _ ht => ht.2.1) n
    simp [hnone] at hp

end Quiet

end Switchboard

theorem Broker.step_eq_receive {i : Input L} (hack : i.isAck = false) (hcl : i.closes = false) (k : Broker)
    (calls : List Call) : k.step i calls = k.receive calls := by
  unfold step
  rw [hcl, if_neg Bool.false_ne_true]
  split
  · simp [Input.isAck] at hack
  · rfl

theorem Broker.step_of_closes {i : Input L} (hcl : i.closes = true) (k : Broker) (calls : List Call) :
    k.step i calls = .empty := by
  unfold step
  rw [if_pos hcl]

namespace Client

structure Agrees (c : Client L) (k : Broker) (secrets : List (List UInt8)) : Prop where
  sound : c.Sound
  mirrored : c.board.Mirrored k
  within : c.board.Within secrets

theorem Agrees.step {c : Client L} {k : Broker} {secrets : List (List UInt8)} (h : c.Agrees k secrets)
    (hc : Key.NoCollision secrets) {i : Input L} (hadm : k.Admits i) (hsub : i.secrets ⊆ secrets) :
    (c.step i).1.Agrees (k.step i (c.step i).2.calls) secrets := by
  have hsound := h.sound.step i
  have hch := h.sound.change i
  suffices hboth : (c.step i).1.board.Mirrored (k.step i (c.step i).2.calls) ∧
      (c.step i).1.board.Within secrets from ⟨hsound, hboth.1, hboth.2⟩
  generalize (c.step i).1 = c', (c.step i).2.calls = calls at hch
  cases hch with
  | rest hack hnone hno hb _ _ =>
    rw [hb]
    cases hcl : i.closes with
    | false =>
      rw [Broker.step_eq_receive hack hcl, Broker.receive_of_no_order k hno]
      exact ⟨h.mirrored, h.within⟩
    | true =>
      rw [Broker.step_of_closes hcl]
      exact ⟨(h.sound.quiet (hnone hcl)).mirrored, h.within⟩
  | serve hack hcl hm _ _ =>
    rw [Broker.step_eq_receive hack hcl]
    exact h.mirrored.moves h.sound.coherent h.within hc hm
  | @rekey records table hr hb _ =>
    have hm : (c.board.withTable table).Mirrored k := ⟨h.mirrored.subscriptions, h.mirrored.orders⟩
    have hw : (c.board.withTable table).Within secrets := by
      have htable : table.secrets ⊆ secrets := by simpa [Input.secrets, hr] using hsub
      exact ⟨htable, h.within.held, h.within.pending⟩
    rw [hb, Broker.step_eq_receive rfl rfl]
    exact hm.moves (h.sound.coherent.withTable table) hw hc (Switchboard.rekey_moves _ _ _)
  | ack hb _ =>
    rw [hb]
    exact h.mirrored.acknowledge h.sound.coherent h.within hc _ hadm
  | @down i b released calls hcl hm _ hb _ _ =>
    have hquiet : b.disconnected.Quiet := .disconnected b
    have htable : b.disconnected.table.secrets ⊆ secrets := hm.table_eq ▸ h.within.table
    rw [hb, Broker.step_of_closes hcl]
    exact ⟨hquiet.mirrored, hquiet.within htable⟩
  | up hnone _ hb _ =>
    have hquiet : c.board.disconnected.Quiet := .disconnected _
    rw [hb, Broker.step_eq_receive rfl rfl]
    exact (h.mirrored.of_quiet (h.sound.quiet hnone) hquiet).moves h.sound.coherent.disconnected
      (hquiet.within h.within.table) hc (Switchboard.reconnected_moves _ _)

theorem Agrees.run {c : Client L} {k : Broker} {secrets : List (List UInt8)} (h : c.Agrees k secrets)
    (hc : Key.NoCollision secrets) {inputs : List (Input L)} (hadm : k.AdmitsAll c inputs)
    (hsub : ∀ i ∈ inputs, i.secrets ⊆ secrets) : (c.run inputs).Agrees (k.after c inputs) secrets := by
  induction inputs generalizing c k with
  | nil => exact h
  | cons i inputs ih =>
    exact ih (h.step hc hadm.1 (hsub i (.head _))) hadm.2 fun j hj => hsub j (.tail _ hj)

theorem agrees_ofSettings {check : Expression.Check} {s : Settings} {c : Client L}
    (hc : Client.ofSettings check s = .ok c) (secrets : List (List UInt8)) : c.Agrees .empty secrets := by
  have hsound := Sound.ofSettings hc
  obtain rfl := eq_of_ofSettings hc
  have hquiet : (Switchboard.ofTable .empty : Switchboard L).Quiet := .ofTable _
  have hempty : Key.Table.empty.secrets ⊆ secrets := by
    intro secret hmem
    obtain ⟨name, e, he, -⟩ := Key.Table.mem_secrets.mp hmem
    simp [Key.Table.lookup_empty] at he
  exact ⟨hsound, hquiet.mirrored, hquiet.within hempty⟩

/-- After every run the broker's subscriptions are those that the client holds, each on the terms that the
client recorded with it. A change of keys goes by their hashes, so two secrets with one hash would spoil it. -/
theorem broker_run {check : Expression.Check} {s : Settings} {c : Client L} (hc : Client.ofSettings check s = .ok c)
    {inputs : List (Input L)} (hadm : Broker.empty.AdmitsAll c inputs)
    (hsecrets : Key.NoCollision (inputs.flatMap Input.secrets)) (id : BrokerId) (r : Subscription) :
    (Broker.empty.after c inputs).subscriptions[id]? = some r ↔
      ∃ (n : TopicNo) (t : Topic L) (h : Holding), (c.run inputs).board.topics[n]? = some t ∧
        t.held = some h ∧ h.id = id ∧ r = ⟨h.terms.expression,
          Key.Selection.ring ⟨h.terms.table, h.terms.keyNames⟩ .receive, h.terms.insecure⟩ := by
  have hsub (i : Input L) (hi : i ∈ inputs) : i.secrets ⊆ inputs.flatMap Input.secrets :=
    fun _ hs => List.mem_flatMap.mpr ⟨i, hi, hs⟩
  have hagree := (agrees_ofSettings hc _).run hsecrets hadm hsub
  rw [hagree.mirrored.subscriptions.exact]
  constructor
  · rintro ⟨n, hn⟩
    obtain ⟨t, ht, hs⟩ := Switchboard.view_eq_some.mp hn
    obtain ⟨h, hh, hentry⟩ := Option.map_eq_some_iff.mp hs
    obtain ⟨rfl, rfl⟩ := Prod.mk.inj hentry
    exact ⟨n, t, h, ht, hh, rfl, rfl⟩
  · rintro ⟨n, t, h, ht, hh, rfl, rfl⟩
    refine ⟨n, Switchboard.view_eq_some.mpr ⟨t, ht, ?_⟩⟩
    rw [Topic.subscription?, hh]
    rfl

def rekeyedTopic : List (Input Nat) :=
  [.start, .arrival (.connectResult 1 (.ok 7)), .reloadKeys [⟨"k", true, [1]⟩],
    .subscribe ⟨"require(A)", ["k"], 0⟩, .reloadKeys [⟨"k", true, [1]⟩, ⟨"j", false, [2]⟩],
    .arrival (.ack 1 (.added (.ok 5))), .reloadKeys [⟨"k", true, [3]⟩],
    .arrival (.ack 2 (.modified (.ok ())))]

theorem broker_run_rekeyedTopic : ∃ c, Client.ofSettings Expression.refusal? (.ofEndpoint "tcp://broker") = .ok c ∧
    Broker.empty.AdmitsAll c rekeyedTopic ∧ Key.NoCollision (rekeyedTopic.flatMap Input.secrets) ∧
    ∀ id r, (Broker.empty.after c rekeyedTopic).subscriptions[id]? = some r ↔
      ∃ (n : TopicNo) (t : Topic Nat) (h : Holding), (c.run rekeyedTopic).board.topics[n]? = some t ∧
        t.held = some h ∧ h.id = id ∧ r = ⟨h.terms.expression,
          Key.Selection.ring ⟨h.terms.table, h.terms.keyNames⟩ .receive, h.terms.insecure⟩ :=
  ⟨_, rfl, by decide +kernel, by decide +kernel,
    broker_run (s := .ofEndpoint "tcp://broker") rfl (by decide +kernel) (by decide +kernel)⟩

end Client

end Herald
