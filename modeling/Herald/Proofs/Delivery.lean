import Herald.Proofs.Agreement
import Herald.Proofs.Indexing
import Herald.Proofs.Ledger

namespace Herald

variable {L : Type}

namespace Switchboard

variable {b : Switchboard L} {n : TopicNo} {t : Topic L} {id : BrokerId}

theorem mem_audience {x : L} (h : x ∈ b.audience id) :
    ∃ (n : TopicNo) (t : Topic L), b.topics[n]? = some t ∧ ∃ d ∈ t.callers, d.listener = x := by
  unfold audience at h
  split at h
  · simp at h
  · split at h
    · simp at h
    · next t ht =>
      split at h
      · exact ⟨_, t, ht, List.mem_map.mp h⟩
      · simp at h

theorem audience_of_held (hb : b.Coherent) (hids : b.BrokerIds) (ht : b.topics[n]? = some t)
    (hid : t.brokerId? = some id) : b.audience id = t.callers.map (·.listener) := by
  have hn : b.byBrokerId[id]? = some n := (hids.mark_iff ht).mpr hid
  simpa [audience, hn, ht] using (hb.proper ht).idle

theorem audience_of_unheld (hids : b.BrokerIds)
    (h : ∀ (n : TopicNo) (t : Topic L), b.topics[n]? = some t → t.brokerId? = some id → t.callers = []) :
    b.audience id = [] := by
  refine List.eq_nil_iff_forall_not_mem.mpr fun x hx => ?_
  unfold audience at hx
  cases hn : b.byBrokerId[id]? with
  | none => simp [hn] at hx
  | some n =>
    obtain ⟨t, ht, hid⟩ := (hids id n).mp hn
    simp [hn, ht, h n t ht hid] at hx

theorem audience_of_empty (h : b.byBrokerId = ∅) (id : BrokerId) : b.audience id = [] := by
  simp [audience, h]

theorem mem_callersOf_iff_info (hb : b.Coherent) {e : String} {k : Ticket} :
    k ∈ (b.callersOf e).map (·.ticket) ↔ ∃ i, b.info? k = some i ∧ i.expression = e := by
  rw [List.mem_map, mem_callersOf_iff hb]
  constructor
  · rintro ⟨n, t, hk, ht, rfl⟩
    exact ⟨t.info, by simp [info?, hk, ht], rfl⟩
  · rintro ⟨i, hi, rfl⟩
    obtain ⟨n, hk, hi⟩ := Option.bind_eq_some_iff.mp hi
    obtain ⟨t, ht, hi⟩ := Option.bind_eq_some_iff.mp hi
    obtain rfl := Option.some.inj hi
    exact ⟨n, t, hk, ht, rfl⟩

theorem nodup_callersOf (hb : b.Coherent) (e : String) : ((b.callersOf e).map (·.ticket)).Nodup := by
  by_cases hne : b.callersOf e = []
  · simp [hne]
  · obtain ⟨n, t, ht, -, hc⟩ := serves_callersOf hb hne
    exact hc ▸ (hb.proper ht).nodup

end Switchboard

def Input.gives : Input L → Reply → Option (Ticket × L)
  | .subscribe w, .ticket k => some (k, w.listener)
  | .revise k w, .accepted => some (k, w.listener)
  | _, _ => none

namespace Ledger

variable {check : Expression.Check} {l : Ledger L} {i : Input L} {k : Ticket} {e e' : String} {c d : Caller L}

structure Released (l : Ledger L) (k : Ticket) : Prop where
  absent : ∀ e, ∀ d ∈ l.callersOf e, d.ticket ≠ k
  used : k < l.nextTicket

theorem mem_join (h : d ∈ (l.join e c).callersOf e') : d = c ∨ d ∈ l.callersOf e' := by
  rw [join, callersOf_put] at h
  split at h
  · next he => simpa [he, or_comm] using h
  · exact .inr h

theorem mem_leave (h : d ∈ (l.leave e k).callersOf e') : d ∈ l.callersOf e' := by
  rw [leave, callersOf_put] at h
  split at h
  · next he => exact he ▸ (List.mem_filter.mp h).1
  · exact h

theorem mem_replace (h : d ∈ (l.replace e c).callersOf e') : d = c ∨ d ∈ l.callersOf e' := by
  rw [replace, callersOf_put] at h
  split at h
  · next he =>
    obtain ⟨old, hold, rfl⟩ := List.mem_map.mp h
    split
    · exact .inl rfl
    · exact .inr (he ▸ hold)
  · exact .inr h

theorem exists_of_find? {entry : String × List (Caller L)} (h : l.find? k = some entry) :
    ∃ d ∈ l.callersOf entry.1, d.ticket = k := by
  have hany := List.find?_some (p := fun entry : String × List (Caller L) => entry.2.any (·.ticket == k)) h
  obtain ⟨d, hd, hk⟩ := List.any_eq_true.mp hany
  exact ⟨d, (mem_entries (List.mem_of_find?_eq_some h)).symm ▸ hd, eq_of_beq hk⟩

inductive Stepped (l : Ledger L) : Input L → Ledger L × Reply → Prop
  | idle {i : Input L} {reply : Reply} : i.gives reply = none → Stepped l i (l, reply)
  | subscribed (w : Wish L) : Stepped l (.subscribe w)
      ({ l.join w.expression (w.caller l.nextTicket) with nextTicket := l.nextTicket + 1 },
        .ticket l.nextTicket)
  | left {k : Ticket} {entry : String × List (Caller L)} : l.find? k = some entry →
      Stepped l (.unsubscribe k) (l.leave entry.1 k, .accepted)
  | replaced {k : Ticket} {w : Wish L} {entry : String × List (Caller L)} : l.find? k = some entry →
      Stepped l (.revise k w) (l.replace entry.1 (w.caller k), .accepted)
  | moved {k : Ticket} {w : Wish L} {entry : String × List (Caller L)} : l.find? k = some entry →
      Stepped l (.revise k w) ((l.leave entry.1 k).join w.expression (w.caller k), .accepted)
  | cleared : Stepped l .shutdown ({ l with callers := ∅ }, .nothing)

theorem stepped (l : Ledger L) (check : Expression.Check) (i : Input L) : l.Stepped i (l.step check i) := by
  cases i with
  | subscribe w =>
    simp only [step, subscribe]
    cases checkExpression check w.expression with
    | error fault => exact .idle rfl
    | ok u => exact .subscribed w
  | unsubscribe k =>
    simp only [step, unsubscribe]
    cases hk : l.find? k with
    | none => exact .idle rfl
    | some entry => exact .left hk
  | revise k w =>
    simp only [step, revise]
    cases hk : l.find? k with
    | none => exact .idle rfl
    | some entry =>
      dsimp only
      split
      · exact .replaced hk
      · cases checkExpression check w.expression with
        | error fault => exact .idle rfl
        | ok u => exact .moved hk
  | reloadKeys records =>
    simp only [step]
    cases Key.Table.ofRecords records <;> exact .idle rfl
  | shutdown => exact .cleared
  | _ => exact .idle rfl

theorem mem_step (h : d ∈ (l.step check i).1.callersOf e) :
    d ∈ l.callersOf e ∨ i.gives (l.step check i).2 = some (d.ticket, d.listener) := by
  have hs := l.stepped check i
  generalize l.step check i = r at hs h
  cases hs with
  | idle _ => exact .inl h
  | subscribed w =>
    obtain rfl | hold := mem_join h
    · exact .inr rfl
    · exact .inl hold
  | left _ => exact .inl (mem_leave h)
  | replaced _ =>
    obtain rfl | hold := mem_replace h
    · exact .inr rfl
    · exact .inl hold
  | moved _ =>
    obtain rfl | hold := mem_join h
    · exact .inr rfl
    · exact .inl (mem_leave hold)
  | cleared => simp [callersOf] at h

theorem ticket_of_gives {x : L} (h : i.gives (l.step check i).2 = some (k, x)) :
    k = l.nextTicket ∨ ∃ e, ∃ d ∈ l.callersOf e, d.ticket = k := by
  have hs := l.stepped check i
  generalize l.step check i = r at hs h
  cases hs with
  | idle hnone => simp [hnone] at h
  | subscribed w => exact .inl (Prod.mk.inj (Option.some.inj h)).1.symm
  | left _ => cases h
  | replaced hf =>
    obtain ⟨rfl, -⟩ := Prod.mk.inj (Option.some.inj h)
    exact .inr ⟨_, exists_of_find? hf⟩
  | moved hf =>
    obtain ⟨rfl, -⟩ := Prod.mk.inj (Option.some.inj h)
    exact .inr ⟨_, exists_of_find? hf⟩
  | cleared => cases h

theorem nextTicket_le_step (l : Ledger L) (check : Expression.Check) (i : Input L) :
    l.nextTicket ≤ (l.step check i).1.nextTicket := by
  have hs := l.stepped check i
  generalize l.step check i = r at hs
  cases hs with
  | subscribed w => exact Nat.le_succ _
  | _ => exact Nat.le_refl _

theorem Released.step (h : l.Released k) (check : Expression.Check) (i : Input L) : (l.step check i).1.Released k where
  absent := by
    intro e d hd hk
    obtain hold | hgiven := mem_step hd
    · exact h.absent e d hold hk
    · obtain hnew | ⟨e', d', hd', hk'⟩ := ticket_of_gives hgiven
      · exact absurd h.used (by rw [← hk, hnew]; exact Nat.lt_irrefl _)
      · exact h.absent e' d' hd' (hk'.trans hk)
  used := Nat.lt_of_lt_of_le h.used (nextTicket_le_step l check i)

theorem run_append (l : Ledger L) (check : Expression.Check) (xs ys : List (Input L)) :
    l.run check (xs ++ ys) = (l.run check xs).run check ys := by
  induction xs generalizing l with
  | nil => rfl
  | cons i xs ih => exact ih _

theorem Released.run (h : l.Released k) (check : Expression.Check) (inputs : List (Input L)) :
    (l.run check inputs).Released k := by
  induction inputs generalizing l with
  | nil => exact h
  | cons i inputs ih => exact ih (h.step check i)

end Ledger

namespace Client

open Switchboard

variable {c : Client L} {l : Ledger L} {i : Input L} {k : Ticket} {x : L}

theorem heard (h : x ∈ (c.step i).2.audience) :
    ∃ id n, i = .arrival (.notification id n) ∧ x ∈ c.board.audience id := by
  cases i with
  | arrival a =>
    cases a with
    | notification id n => exact ⟨id, n, rfl, h⟩
    | _ => simp [step, arrive, Output.ofNews, Output.ofCalls] at h
  | _ => simp [step, outcome, Output.ofCalls, Output.ofReply] at h

theorem heard_caller (h : l.Tracks c.board) (hs : c.Sound) (hx : x ∈ (c.step i).2.audience) :
    ∃ e, ∃ d ∈ l.callersOf e, d.listener = x := by
  obtain ⟨id, n, rfl, hx⟩ := heard hx
  obtain ⟨m, t, hm, d, hd, rfl⟩ := mem_audience hx
  rw [← callersOf_of_topic hs.coherent hm, ← h.callers] at hd
  exact ⟨_, d, hd, rfl⟩

theorem unheard_of_empty (hids : c.board.byBrokerId = ∅) (i : Input L) : (c.step i).2.audience = [] := by
  refine List.eq_nil_iff_forall_not_mem.mpr fun x hx => ?_
  obtain ⟨id, n, rfl, hmem⟩ := heard hx
  simp [audience_of_empty hids] at hmem

def given (c : Client L) : List (Input L) → List (Ticket × L)
  | [] => []
  | i :: is => (i.gives (c.step i).2.reply).toList ++ (c.step i).1.given is

theorem gives_reply (h : l.Tracks c.board) (hs : c.Sound) (i : Input L) :
    i.gives (c.step i).2.reply = i.gives (l.step c.check i).2 := by
  cases hi : i.isCaller with
  | true => rw [(tracks_step h hs i).2 hi]
  | false => cases i <;> first | rfl | simp [Input.isCaller] at hi

theorem mem_given (h : l.Tracks c.board) (hs : c.Sound) {inputs : List (Input L)} {e : String} {d : Caller L}
    (hd : d ∈ (l.run c.check inputs).callersOf e) :
    (∃ e', d ∈ l.callersOf e') ∨ (d.ticket, d.listener) ∈ c.given inputs := by
  induction inputs generalizing c l with
  | nil => exact .inl ⟨e, hd⟩
  | cons i inputs ih =>
    obtain ⟨e', hold⟩ | hgiven := ih (tracks_step h hs i).1 (hs.step i) (by rwa [check_step])
    · obtain hold | hgives := Ledger.mem_step hold
      · exact .inl ⟨e', hold⟩
      · rw [← gives_reply h hs i] at hgives
        exact .inr (List.mem_append_left _ (by simp [hgives]))
    · exact .inr (List.mem_append_right _ hgiven)

theorem released_unsubscribe (h : l.Tracks c.board) (hs : c.Sound)
    (hr : (c.step (.unsubscribe k)).2.reply = .accepted) : (l.step c.check (.unsubscribe k)).1.Released k := by
  have htracks := (tracks_step h hs (.unsubscribe k)).1
  have hs' := hs.step (.unsubscribe k)
  cases hk : c.board.byTicket[k]? with
  | none =>
    simp [Client.step, unsubscribe, Switchboard.unsubscribe_unknown hk, onBoard, outcome, Reply.ofResult,
      Output.ofReply] at hr
  | some n =>
    obtain ⟨herase, hnext⟩ := tickets_unsubscribe hs.coherent hk c.link?
    refine ⟨fun e d hd hdk => ?_, ?_⟩
    · rw [htracks.callers] at hd
      obtain ⟨m, t, hm, -, -⟩ := (mem_callersOf_iff hs'.coherent).mp ⟨d, hd, hdk⟩
      have herase' : (c.step (.unsubscribe k)).1.board.byTicket = c.board.byTicket.erase k := herase
      simp [herase'] at hm
    · rw [htracks.nextTicket]
      exact hnext ▸ hs.coherent.ticket_lt hk

theorem Sound.unlearned_run (h : c.Sound) (hids : c.board.byBrokerId = ∅) {inputs : List (Input L)}
    (ha : c.Along (fun c i => c.adds i = false) inputs) : (c.run inputs).board.byBrokerId = ∅ := by
  induction inputs generalizing c with
  | nil => exact hids
  | cons i inputs ih => exact ih (h.step i) ((h.learnsNoId ha.1).empty hids) ha.2

structure Delivers (c : Client L) (l : Ledger L) (id : BrokerId) (n : Notification) : Prop where
  unchanged : (c.step (.arrival (.notification id n))).1 = c
  silent : (c.step (.arrival (.notification id n))).2.calls = []
  heard : ∀ (m : TopicNo) (t : Topic L), c.board.topics[m]? = some t → t.held.map (·.id) = some id →
    (c.step (.arrival (.notification id n))).2.audience = (l.callersOf t.expression).map (·.listener)
  once : ∀ e, ((l.callersOf e).map (·.ticket)).Nodup
  subscribed : ∀ e k, k ∈ (l.callersOf e).map (·.ticket) ↔ ∃ i, c.board.info? k = some i ∧ i.expression = e
  unheard : (∀ (m : TopicNo) (t : Topic L), c.board.topics[m]? = some t →
    t.held.map (·.id) = some id → t.callers = []) →
      (c.step (.arrival (.notification id n))).2.audience = []

theorem Sound.delivers (h : c.Sound) (hids : c.board.BrokerIds) (ht : l.Tracks c.board) (id : BrokerId)
    (n : Notification) : c.Delivers l id n where
  unchanged := rfl
  silent := rfl
  heard := by
    intro m t hm hid
    rw [ht.callers, callersOf_of_topic h.coherent hm]
    exact audience_of_held h.coherent hids hm hid
  once := fun e => ht.callers e ▸ nodup_callersOf h.coherent e
  subscribed := fun e k => ht.callers e ▸ mem_callersOf_iff_info h.coherent
  unheard := audience_of_unheld hids

/-- Who is heard at the end of a run. A released caller is not, whose listener is called only if somebody else
holds it too, and nobody is between the end of a connection and the first answer to an add. -/
structure Delivery (c : Client L) (inputs : List (Input L)) : Prop where
  delivers : c.Along FreshId inputs → ∀ id n, (c.run inputs).Delivers (Ledger.empty.run c.check inputs) id n
  released : ∀ xs k ys, inputs = xs ++ .unsubscribe k :: ys →
    ((c.run xs).step (.unsubscribe k)).2.reply = .accepted →
    ∀ i, ∀ x ∈ ((c.run inputs).step i).2.audience, ∃ e, ∃ d ∈ (Ledger.empty.run c.check inputs).callersOf e,
      d.listener = x ∧ d.ticket ≠ k ∧ (d.ticket, x) ∈ c.given inputs
  closed : ∀ xs i ys, inputs = xs ++ i :: ys → i.closes = true →
    ((c.run xs).step i).1.Along (fun c i => c.adds i = false) ys →
    ∀ i, ((c.run inputs).step i).2.audience = []

theorem delivery_run {check : Expression.Check} {s : Settings} (hc : Client.ofSettings check s = .ok c)
    (inputs : List (Input L)) : c.Delivery inputs := by
  have hsound := Sound.ofSettings hc
  have h := hsound.run inputs
  have htracks := tracks_ofSettings hc
  have ht := (tracks_run htracks hsound inputs).1
  have hempty : c.board.byBrokerId = ∅ := by
    rw [eq_of_ofSettings hc]
    rfl
  refine ⟨fun hf id n => ?_, fun xs k ys heq hr i x hx => ?_, fun xs i ys heq hcl ha j => ?_⟩
  · have hids : c.board.BrokerIds := by
      rw [eq_of_ofSettings hc]
      exact .empty
    exact h.delivers (brokerIds_run hsound hids hf) ht id n
  -- Whoever is heard is a caller in the ledger, where the released ticket is not.
  · obtain ⟨e, d, hd, rfl⟩ := heard_caller ht h hx
    have hreleased : (Ledger.empty.run c.check inputs).Released k := by
      have hstep := released_unsubscribe (tracks_run htracks hsound xs).1 (hsound.run xs) hr
      rw [check_run] at hstep
      rw [heq, Ledger.run_append]
      exact hstep.run c.check ys
    have hgiven : (d.ticket, d.listener) ∈ c.given inputs := by
      obtain ⟨e', hold⟩ | hgiven := mem_given htracks hsound hd
      · simp [Ledger.callersOf, Ledger.empty] at hold
      · exact hgiven
    exact ⟨e, d, hd, rfl, hreleased.absent e d hd, hgiven⟩
  -- No id is known when the connection ends, and only the answer to an add tells one.
  · have hclosed := (hsound.run xs).link?_of_closes hcl
    have hnone := (hsound.run xs).ids_step (hsound.ids_run (fun _ => hempty) xs) hclosed
    rw [heq, run_append]
    exact unheard_of_empty (((hsound.run xs).step i).unlearned_run hnone ha) j

def replacedListener : List (Input Nat) :=
  [.start, .subscribe ⟨"require(A)", [], 0⟩, .arrival (.connectResult 1 (.ok 7)),
    .subscribe ⟨"require(A)", [], 1⟩, .arrival (.ack 1 (.added (.ok 5))), .revise 1 ⟨"require(A)", [], 2⟩,
    .unsubscribe 2]

def unansweredTopic : List (Input Nat) :=
  replacedListener ++ .arrival (.connectionLost ⟨1, "gone"⟩) ::
    [.arrival (.connectResult 2 (.ok 8)), .arrival (.ack 1 (.added (.ok 5)))]

theorem delivery_run_replacedListener :
    ∃ c, Client.ofSettings Expression.refusal? (.ofEndpoint "tcp://broker") = .ok c ∧
    c.Along FreshId replacedListener ∧
    (∀ n, (c.run replacedListener).Delivers (Ledger.empty.run c.check replacedListener) 5 n) ∧
    ((c.run replacedListener).step (.arrival (.notification 5 ⟨∅⟩))).2.audience = [2] ∧
    ((c.run (replacedListener.take 6)).step (.unsubscribe 2)).2.reply = .accepted ∧
    (∀ i, ∀ x ∈ ((c.run replacedListener).step i).2.audience, ∃ e,
      ∃ d ∈ (Ledger.empty.run c.check replacedListener).callersOf e,
        d.listener = x ∧ d.ticket ≠ 2 ∧ (d.ticket, x) ∈ c.given replacedListener) ∧
    ∀ i, ((c.run unansweredTopic).step i).2.audience = [] :=
  have h := delivery_run (s := .ofEndpoint "tcp://broker") rfl replacedListener
  have h' := delivery_run (s := .ofEndpoint "tcp://broker") rfl unansweredTopic
  ⟨_, rfl, by decide +kernel, h.delivers (by decide +kernel) 5, by decide +kernel, by decide +kernel,
    h.released (replacedListener.take 6) 2 [] rfl (by decide +kernel),
    h'.closed replacedListener _ _ rfl rfl (by decide +kernel)⟩

end Client

end Herald
