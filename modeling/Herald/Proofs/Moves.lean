import Herald.Proofs.Coherence
/-!
Every operation on the switchboard that serves callers is a sequence of moves: a change to one topic's
callers, or the settling of one topic. What each move keeps, each operation keeps. An operation that fails makes
no move.
-/

namespace Herald.Switchboard

variable {L : Type}

inductive Move (link : Option LinkId) (b : Switchboard L) : Switchboard L → List Call → Prop
  | issue : Move link b b.issued []
  | found {e : String} {c : Caller L} : b.byExpression[e]? = none → b.byTicket[c.ticket]? = none →
      c.ticket < b.nextTicket → Move link b ((b.create e).1.join b.nextTopic c) []
  | join {n : TopicNo} {t : Topic L} {c : Caller L} : b.topics[n]? = some t →
      b.byTicket[c.ticket]? = none → c.ticket < b.nextTicket → Move link b (b.join n c) []
  | leave {n : TopicNo} {k : Ticket} : b.byTicket[k]? = some n → Move link b (b.leave n k) []
  | replace {n : TopicNo} {t : Topic L} (c : Caller L) : b.topics[n]? = some t →
      Move link b (b.replace n c) []
  | rename {n : TopicNo} {t : Topic L} {e : String} : b.topics[n]? = some t →
      b.byExpression[e]? = none → Move link b (b.rename n t e) []
  | settle (n : TopicNo) : Move link b (b.settle link n).1 (b.settle link n).2

inductive Moves (link : Option LinkId) : Switchboard L → Switchboard L → List Call → Prop
  | refl (b : Switchboard L) : Moves link b b []
  | step {a b c : Switchboard L} {first others : List Call} : Move link a b first →
      Moves link b c others → Moves link a c (first ++ others)

theorem topic_create {b : Switchboard L} {e : String} :
    (b.create e).1.topics[b.nextTopic]? = some (.ofExpression e) :=
  Std.ExtTreeMap.getElem?_insert_self

theorem create_join {b : Switchboard L} {e : String} {c : Caller L} : (b.create e).1.join b.nextTopic c =
    { (b.create e).1.put b.nextTopic ((Topic.ofExpression e).join c) with
      byTicket := b.byTicket.insert c.ticket b.nextTopic } := by
  rw [join, topic_create]
  rfl

theorem topics_found {b : Switchboard L} {e : String} {c : Caller L} :
    ((b.create e).1.join b.nextTopic c).topics =
      b.topics.insert b.nextTopic ((Topic.ofExpression e).join c) := by
  rw [create_join]
  refine Std.ExtTreeMap.ext_getElem? fun n => ?_
  simp only [put, create, Std.ExtTreeMap.getElem?_insert]
  split <;> rfl

theorem Coherent.found {b : Switchboard L} (h : b.Coherent) {e : String} {c : Caller L}
    (he : b.byExpression[e]? = none) (hk : b.byTicket[c.ticket]? = none) (hlt : c.ticket < b.nextTicket) :
    ((b.create e).1.join b.nextTopic c).Coherent :=
  (h.create he).join topic_create hk hlt

theorem Coherent.move {link : Option LinkId} {b b' : Switchboard L} {calls : List Call}
    (h : b.Coherent) (m : Move link b b' calls) : b'.Coherent := by
  cases m with
  | issue => exact h.issued
  | found he hk hlt => exact h.found he hk hlt
  | join ht hk hlt => exact h.join ht hk hlt
  | leave hk => exact h.leave hk
  | replace c ht => exact h.replace ht c
  | rename ht he => exact h.rename ht he
  | settle n => exact h.settle link n

theorem Coherent.moves {link : Option LinkId} {b b' : Switchboard L} {calls : List Call}
    (h : b.Coherent) (m : Moves link b b' calls) : b'.Coherent := by
  induction m with
  | refl => exact h
  | step m _ ih => exact ih (h.move m)

theorem Move.table_eq {link : Option LinkId} {b b' : Switchboard L} {calls : List Call}
    (m : Move link b b' calls) : b'.table = b.table := by
  cases m with
  | issue => rfl
  | found _ _ _ => rw [create_join]; rfl
  | join ht _ _ => rw [Switchboard.join, ht]; rfl
  | leave hk =>
    unfold Switchboard.leave
    dsimp only
    split <;> rfl
  | replace c ht => rw [Switchboard.replace, ht]; rfl
  | rename _ _ => rfl
  | settle n =>
    have hs := settling link b n
    generalize b.settle link n = r at hs
    cases hs <;> rfl

theorem Move.requests_eq {link : Option LinkId} {b b' : Switchboard L} {calls : List Call}
    (m : Move link b b' calls) :
    (calls = [] ∧ b'.byRequest = b.byRequest ∧ b'.nextRequest = b.nextRequest) ∨
      ∃ n, Settling link b n (b', calls) := by
  cases m with
  | issue => exact .inl ⟨rfl, rfl, rfl⟩
  | found _ _ _ =>
    rw [create_join]
    exact .inl ⟨rfl, rfl, rfl⟩
  | join ht _ _ =>
    rw [Switchboard.join, ht]
    exact .inl ⟨rfl, rfl, rfl⟩
  | leave _ =>
    unfold Switchboard.leave
    dsimp only
    split <;> exact .inl ⟨rfl, rfl, rfl⟩
  | replace c ht =>
    rw [Switchboard.replace, ht]
    exact .inl ⟨rfl, rfl, rfl⟩
  | rename _ _ => exact .inl ⟨rfl, rfl, rfl⟩
  | settle n => exact .inr ⟨n, settling link b n⟩

namespace Moves

variable {link : Option LinkId} {a b c : Switchboard L} {first others : List Call}

theorem of_move (m : Move link a b first) : Moves link a b first :=
  List.append_nil first ▸ .step m (.refl b)

theorem trans (h : Moves link a b first) (h' : Moves link b c others) :
    Moves link a c (first ++ others) := by
  induction h with
  | refl => exact h'
  | step m _ ih =>
    rw [List.append_assoc]
    exact .step m (ih h')

theorem silent (m : Move link a b []) (h : Moves link b c others) : Moves link a c others :=
  .step m h

theorem settle (link : Option LinkId) (b : Switchboard L) (n : TopicNo) :
    Moves link b (b.settle link n).1 (b.settle link n).2 :=
  of_move (.settle n)

theorem settleEach (link : Option LinkId) (b : Switchboard L) (ns : List TopicNo) :
    Moves link b (b.settleEach link ns).1 (b.settleEach link ns).2 := by
  induction ns generalizing b with
  | nil => exact .refl b
  | cons n ns ih => exact (Moves.settle link b n).trans (ih _)

theorem settleAll (link : Option LinkId) (b : Switchboard L) :
    Moves link b (b.settleAll link).1 (b.settleAll link).2 :=
  Moves.settleEach link b _

theorem table_eq (h : Moves link a b first) : b.table = a.table := by
  induction h with
  | refl => rfl
  | step m _ ih => rw [ih, m.table_eq]

end Moves

section Operations

variable {check : Expression.Check} {link : Option LinkId} {b b' : Switchboard L} {calls : List Call}

theorem topicFor_spec (h : b.Coherent) (e : String) :
    (b.topicFor e).1.Coherent ∧ (b.topicFor e).1.byTicket = b.byTicket ∧
      (b.topicFor e).1.nextTicket = b.nextTicket ∧
      ∃ t, (b.topicFor e).1.topics[(b.topicFor e).2]? = some t ∧ t.expression = e := by
  unfold topicFor
  cases he : b.byExpression[e]? with
  | none => exact ⟨h.create he, rfl, rfl, .ofExpression e, topic_create, rfl⟩
  | some n =>
    obtain ⟨t, ht, hexp⟩ := h.exists_topic he
    exact ⟨h, rfl, rfl, t, ht, hexp⟩

theorem Coherent.joinFor (h : b.Coherent) (e : String) {c : Caller L} (hk : b.byTicket[c.ticket]? = none)
    (hlt : c.ticket < b.nextTicket) : Move link b ((b.topicFor e).1.join (b.topicFor e).2 c) [] := by
  unfold topicFor
  cases he : b.byExpression[e]? with
  | none => exact .found he hk hlt
  | some n =>
    obtain ⟨t, ht, -⟩ := h.exists_topic he
    exact .join ht hk hlt

theorem exec_checkExpression (check : Expression.Check) (e : String) (b : Switchboard L) (calls : List Call) :
    (Program.checkExpression check e).exec b calls = match check e with
      | none => (.ok (), b, calls)
      | some reason => (.error (.invalidExpression e reason), b, calls) := by
  unfold Program.checkExpression
  cases check e <;> rfl

theorem subscribe_eq (b : Switchboard L) (check : Expression.Check) (link : Option LinkId) (w : Wish L) :
    b.subscribe check link w = match check w.expression with
      | some reason => (.error (.invalidExpression w.expression reason), b, [])
      | none => (.ok b.nextTicket, ((b.issued.topicFor w.expression).1.join (b.issued.topicFor w.expression).2
        (w.caller b.nextTicket)).settle link (b.issued.topicFor w.expression).2) := by
  cases hw : check w.expression <;>
    simp [subscribe, Program.subscribe, Operation.on, exec_checkExpression, hw, drawTicket, issued, Except.map]

theorem subscribe_unchanged {w : Wish L} {fault : Fault} (h : (b.subscribe check link w).1 = .error fault) :
    (b.subscribe check link w).2 = (b, []) := by
  rw [subscribe_eq] at h ⊢
  cases hw : check w.expression with
  | some reason => rfl
  | none => simp [hw] at h

theorem eq_of_subscribe {w : Wish L} {k : Ticket} {r : Switchboard L × List Call}
    (hs : b.subscribe check link w = (.ok k, r)) : k = b.nextTicket ∧
      r = ((b.issued.topicFor w.expression).1.join (b.issued.topicFor w.expression).2
        (w.caller b.nextTicket)).settle link (b.issued.topicFor w.expression).2 := by
  rw [subscribe_eq] at hs
  cases hw : check w.expression with
  | some reason => simp [hw] at hs
  | none =>
    simp only [hw, Prod.mk.injEq, Except.ok.injEq] at hs
    exact hs.imp Eq.symm Eq.symm

theorem subscribe_moves (h : b.Coherent) (check : Expression.Check) (link : Option LinkId) (w : Wish L) :
    Moves link b (b.subscribe check link w).2.1 (b.subscribe check link w).2.2 := by
  rw [subscribe_eq]
  cases check w.expression with
  | some reason => exact .refl b
  | none =>
    have hjoin : Move link b.issued _ [] :=
      h.issued.joinFor w.expression (c := w.caller b.nextTicket) h.nextTicket_free (Nat.lt_succ_self _)
    exact .silent .issue (.silent hjoin (.settle link _ (b.issued.topicFor w.expression).2))

theorem unsubscribe_eq (b : Switchboard L) (link : Option LinkId) (k : Ticket) :
    b.unsubscribe link k = match b.byTicket[k]? with
      | none => (.error (.unknownTicket k), b, [])
      | some n => (.ok (), (b.leave n k).settle link n) := by
  cases hk : b.byTicket[k]? <;> simp [unsubscribe, Program.unsubscribe, Operation.on, hk]

theorem unsubscribe_unknown {k : Ticket} (hk : b.byTicket[k]? = none) (link : Option LinkId) :
    b.unsubscribe link k = (.error (.unknownTicket k), b, []) := by
  rw [unsubscribe_eq, hk]

theorem unsubscribe_known {k : Ticket} {n : TopicNo} (hk : b.byTicket[k]? = some n) (link : Option LinkId) :
    b.unsubscribe link k = (.ok (), (b.leave n k).settle link n) := by
  rw [unsubscribe_eq, hk]

theorem unsubscribe_unchanged {k : Ticket} {fault : Fault} (h : (b.unsubscribe link k).1 = .error fault) :
    (b.unsubscribe link k).2 = (b, []) := by
  rw [unsubscribe_eq] at h ⊢
  cases hk : b.byTicket[k]? with
  | none => rfl
  | some n => simp [hk] at h

theorem eq_of_unsubscribe {k : Ticket} {r : Switchboard L × List Call} (hs : b.unsubscribe link k = (.ok (), r)) :
    ∃ n, b.byTicket[k]? = some n ∧ r = (b.leave n k).settle link n := by
  rw [unsubscribe_eq] at hs
  cases hk : b.byTicket[k]? with
  | none => simp [hk] at hs
  | some n =>
    simp only [hk, Prod.mk.injEq, true_and] at hs
    exact ⟨n, rfl, hs.symm⟩

theorem unsubscribe_moves (link : Option LinkId) (b : Switchboard L) (k : Ticket) :
    Moves link b (b.unsubscribe link k).2.1 (b.unsubscribe link k).2.2 := by
  rw [unsubscribe_eq]
  cases hk : b.byTicket[k]? with
  | none => exact .refl b
  | some n => exact .silent (.leave hk) (.settle link _ n)

inductive Revising (check : Expression.Check) (link : Option LinkId) (b : Switchboard L) (k : Ticket) (w : Wish L) :
    Except Fault Unit × Switchboard L × List Call → Prop
  | unknown : b.byTicket[k]? = none → Revising check link b k w (.error (.unknownTicket k), b, [])
  | kept {n : TopicNo} {t : Topic L} : b.byTicket[k]? = some n → b.topics[n]? = some t →
      t.expression = w.expression →
      Revising check link b k w (.ok (), (b.replace n (w.caller k)).settle link n)
  | invalid {n : TopicNo} {t : Topic L} {reason : String} : b.byTicket[k]? = some n →
      b.topics[n]? = some t → t.expression ≠ w.expression → check w.expression = some reason →
      Revising check link b k w (.error (.invalidExpression w.expression reason), b, [])
  | renamed {n : TopicNo} {t : Topic L} : b.byTicket[k]? = some n → b.topics[n]? = some t →
      t.expression ≠ w.expression → check w.expression = none →
      b.byExpression[w.expression]? = none → t.callers.length = 1 →
      Revising check link b k w (.ok (), ((b.rename n t w.expression).replace n (w.caller k)).settle link n)
  | founded {n : TopicNo} {t : Topic L} : b.byTicket[k]? = some n → b.topics[n]? = some t →
      t.expression ≠ w.expression → check w.expression = none →
      b.byExpression[w.expression]? = none → t.callers.length ≠ 1 →
      Revising check link b k w (.ok (), (((b.leave n k).create w.expression).1.join (b.leave n k).nextTopic
        (w.caller k)).settleEach link [n, (b.leave n k).nextTopic])
  | moved {n other : TopicNo} {t : Topic L} : b.byTicket[k]? = some n → b.topics[n]? = some t →
      t.expression ≠ w.expression → check w.expression = none →
      b.byExpression[w.expression]? = some other →
      Revising check link b k w (.ok (), ((b.leave n k).join other (w.caller k)).settleEach link [n, other])

theorem settleEach_pair (link : Option LinkId) (b : Switchboard L) (n m : TopicNo) :
    b.settleEach link [n, m] = (((b.settle link n).1.settle link m).1,
      (b.settle link n).2 ++ ((b.settle link n).1.settle link m).2) := by
  simp [settleEach]

theorem revise_unknown {k : Ticket} (hk : b.byTicket[k]? = none) (check : Expression.Check) (link : Option LinkId)
    (w : Wish L) : b.revise check link k w = (.error (.unknownTicket k), b, []) := by
  simp [revise, Program.revise, Operation.on, hk]

theorem revise_kept {k : Ticket} {n : TopicNo} {t : Topic L} {w : Wish L} (hk : b.byTicket[k]? = some n)
    (ht : b.topics[n]? = some t) (he : t.expression = w.expression) (check : Expression.Check)
    (link : Option LinkId) :
    b.revise check link k w = (.ok (), (b.replace n (w.caller k)).settle link n) := by
  simp [revise, Program.revise, Operation.on, hk, ht, he]

theorem revise_invalid {k : Ticket} {n : TopicNo} {t : Topic L} {w : Wish L} {reason : String}
    (hk : b.byTicket[k]? = some n) (ht : b.topics[n]? = some t) (he : t.expression ≠ w.expression)
    (hw : check w.expression = some reason) (link : Option LinkId) :
    b.revise check link k w = (.error (.invalidExpression w.expression reason), b, []) := by
  simp [revise, Program.revise, Operation.on, exec_checkExpression, hk, ht, he, hw]

theorem revise_valid {k : Ticket} {n : TopicNo} {t : Topic L} {w : Wish L}
    (hk : b.byTicket[k]? = some n) (ht : b.topics[n]? = some t) (he : t.expression ≠ w.expression)
    (hw : check w.expression = none) (link : Option LinkId) : b.revise check link k w = (.ok (),
      match b.byExpression[w.expression]? with
      | some other => ((b.leave n k).join other (w.caller k)).settleEach link [n, other]
      | none =>
        if t.callers.length = 1 then ((b.rename n t w.expression).replace n (w.caller k)).settle link n
        else (((b.leave n k).create w.expression).1.join (b.leave n k).nextTopic (w.caller k)).settleEach link
          [n, (b.leave n k).nextTopic]) := by
  cases hn : b.byExpression[w.expression]? with
  | some other =>
    simp [revise, Program.revise, Operation.on, exec_checkExpression, hk, ht, he, hw, hn, settleEach_pair]
  | none =>
    by_cases hlen : t.callers.length = 1
    · simp [revise, Program.revise, Operation.on, exec_checkExpression, hk, ht, he, hw, hn, hlen]
    · simp [revise, Program.revise, Operation.on, exec_checkExpression, hk, ht, he, hw, hn, hlen, settleEach_pair,
        create]

theorem revising (h : b.Coherent) (check : Expression.Check) (link : Option LinkId) (k : Ticket) (w : Wish L) :
    Revising check link b k w (b.revise check link k w) := by
  cases hk : b.byTicket[k]? with
  | none =>
    rw [revise_unknown hk]
    exact .unknown hk
  | some n =>
    obtain ⟨t, ht, -⟩ := (h.tickets k n).mp hk
    by_cases he : t.expression = w.expression
    · rw [revise_kept hk ht he]
      exact .kept hk ht he
    · cases hw : check w.expression with
      | some reason =>
        rw [revise_invalid hk ht he hw]
        exact .invalid hk ht he hw
      | none =>
        rw [revise_valid hk ht he hw]
        cases hn : b.byExpression[w.expression]? with
        | some other => exact .moved hk ht he hw hn
        | none =>
          dsimp only
          split
          · next hlen => exact .renamed hk ht he hw hn hlen
          · next hlen => exact .founded hk ht he hw hn hlen

theorem revise_unchanged (hb : b.Coherent) {k : Ticket} {w : Wish L} {fault : Fault}
    (h : (b.revise check link k w).1 = .error fault) : (b.revise check link k w).2 = (b, []) := by
  have hr := revising hb check link k w
  generalize b.revise check link k w = r at hr h
  cases hr with
  | unknown _ => rfl
  | invalid _ _ _ _ => rfl
  | _ => cases h

@[simp] theorem leave_byTicket {n : TopicNo} {k : Ticket} :
    (b.leave n k).byTicket = b.byTicket.erase k := by
  unfold leave
  dsimp only
  split <;> rfl

@[simp] theorem leave_nextTicket {n : TopicNo} {k : Ticket} :
    (b.leave n k).nextTicket = b.nextTicket := by
  unfold leave
  dsimp only
  split <;> rfl

@[simp] theorem leave_byExpression {n : TopicNo} {k : Ticket} :
    (b.leave n k).byExpression = b.byExpression := by
  unfold leave
  dsimp only
  split <;> rfl

theorem Coherent.free_of_leave (h : b.Coherent) {n : TopicNo} {k : Ticket} (hk : b.byTicket[k]? = some n) :
    (b.leave n k).byTicket[k]? = none ∧ k < (b.leave n k).nextTicket := by
  rw [leave_byTicket, leave_nextTicket]
  exact ⟨Std.ExtTreeMap.getElem?_erase_self, h.ticket_lt hk⟩

theorem revise_moves (h : b.Coherent) (check : Expression.Check) (link : Option LinkId) (k : Ticket) (w : Wish L) :
    Moves link b (b.revise check link k w).2.1 (b.revise check link k w).2.2 := by
  have hr := revising h check link k w
  generalize b.revise check link k w = r at hr
  cases hr with
  | unknown _ => exact .refl b
  | invalid _ _ _ _ => exact .refl b
  | kept hk ht he => exact .silent (.replace _ ht) (.settle link _ _)
  | renamed hk ht he hw hn hlen =>
    exact .silent (.rename ht hn) (.silent (.replace _ Std.ExtTreeMap.getElem?_insert_self)
      (.settle link _ _))
  | founded hk ht he hw hn hlen =>
    obtain ⟨hfree, hlt⟩ := h.free_of_leave hk
    exact .silent (.leave hk) (.silent (.found (c := w.caller k) (by rwa [leave_byExpression]) hfree hlt)
      (.settleEach link _ _))
  | moved hk ht he hw hn =>
    obtain ⟨hfree, hlt⟩ := h.free_of_leave hk
    obtain ⟨u, hu, -⟩ := (h.leave hk).exists_topic (by rwa [leave_byExpression])
    exact .silent (.leave hk) (.silent (.join (c := w.caller k) hu hfree hlt) (.settleEach link _ _))

theorem unsubscribeEach_cons (link : Option LinkId) (b : Switchboard L) (k : Ticket) (ks : List Ticket) :
    b.unsubscribeEach link (k :: ks) = (((b.unsubscribe link k).2.1.unsubscribeEach link ks).1,
      (b.unsubscribe link k).2.2 ++ ((b.unsubscribe link k).2.1.unsubscribeEach link ks).2) :=
  rfl

theorem unsubscribeEach_moves (link : Option LinkId) (b : Switchboard L) (ks : List Ticket) :
    Moves link b (b.unsubscribeEach link ks).1 (b.unsubscribeEach link ks).2 := by
  induction ks generalizing b with
  | nil => exact .refl b
  | cons k ks ih =>
    rw [unsubscribeEach_cons]
    exact (unsubscribe_moves link b k).trans (ih _)

theorem unsubscribeAll_moves (link : Option LinkId) (b : Switchboard L) :
    Moves link b (b.unsubscribeAll link).1 (b.unsubscribeAll link).2 :=
  unsubscribeEach_moves link b _

theorem rekey_moves (link : Option LinkId) (b : Switchboard L) (table : Key.Table) :
    Moves link (b.withTable table) (b.rekey link table).1 (b.rekey link table).2 :=
  .settleAll link _

theorem reconnected_moves (link : Option LinkId) (b : Switchboard L) :
    Moves link b.disconnected (b.reconnected link).1 (b.reconnected link).2 :=
  .settleAll link _

theorem Coherent.rekey (h : b.Coherent) (link : Option LinkId) (table : Key.Table) :
    (b.rekey link table).1.Coherent :=
  (h.withTable table).moves (rekey_moves link b table)

theorem Coherent.reconnected (h : b.Coherent) (link : Option LinkId) :
    (b.reconnected link).1.Coherent :=
  h.disconnected.moves (reconnected_moves link b)

end Operations

section Answers

variable {link : Option LinkId} {b : Switchboard L}

inductive Acknowledging (link : Option LinkId) (b : Switchboard L) (request : RequestNo) (ack : Ack) :
    Switchboard L × List Call × Option Rejection → Prop
  | unknown : b.byRequest[request]? = none → Acknowledging link b request ack (b, [], none)
  | known {n : TopicNo} {t : Topic L} {p : Pending} {r : Switchboard L × Option Rejection} :
      b.byRequest[request]? = some n → b.topics[n]? = some t → t.pending = some p → p.request = request →
      (b.answered request).conclude n { t with pending := none } p.errand ack = r →
      Acknowledging link b request ack ((r.1.settle link n).1, (r.1.settle link n).2, r.2)

theorem acknowledging (h : b.Coherent) (link : Option LinkId) (request : RequestNo) (ack : Ack) :
    Acknowledging link b request ack (b.acknowledge link request ack) := by
  unfold acknowledge
  cases hr : b.byRequest[request]? with
  | none => exact .unknown hr
  | some n =>
    obtain ⟨t, ht, hp⟩ := (h.requests request n).mp hr
    obtain ⟨p, hp, hpr⟩ := Option.map_eq_some_iff.mp hp
    simp only [ht, hp, hpr, if_true]
    exact .known hr ht hp hpr rfl

theorem acknowledge_pending (h : b.Coherent) (link : Option LinkId) {n : TopicNo} {t : Topic L}
    (ht : b.topics[n]? = some t) {p : Pending} (hp : t.pending = some p) {ack : Ack}
    {r : Switchboard L × Option Rejection}
    (hres : (b.answered p.request).conclude n { t with pending := none } p.errand ack = r) :
    b.acknowledge link p.request ack = ((r.1.settle link n).1, (r.1.settle link n).2, r.2) := by
  have hr : b.byRequest[p.request]? = some n :=
    (h.requests.mark_iff ht).mpr (by simp [Topic.request?, hp])
  subst hres
  simp [acknowledge, hr, ht, hp, answered]

theorem conclude_shape (b : Switchboard L) (n : TopicNo) (t : Topic L) (errand : Errand) (ack : Ack) :
    ∃ t' ids, (b.conclude n t errand ack).1 = { b.put n t' with byBrokerId := ids } ∧
      t'.expression = t.expression ∧ t'.callers = t.callers ∧ t'.keyNames = t.keyNames ∧
      t'.pending = t.pending ∧ t'.held = errand.result t.held ack ∧ t'.isActive = t.isActive := by
  rcases ack with (_ | _) | (_ | _) | _ <;> cases errand <;>
    exact ⟨_, _, rfl, rfl, rfl, rfl, rfl, rfl, rfl⟩

theorem Coherent.conclude (h : b.Coherent) {n : TopicNo} {t : Topic L} {p : Pending}
    (ht : b.topics[n]? = some t) (hp : t.pending = some p) (ack : Ack) :
    ((b.answered p.request).conclude n { t with pending := none } p.errand ack).1.Coherent := by
  obtain ⟨t', ids, heq, he, hc, hk, hp', -, ha⟩ :=
    conclude_shape (b.answered p.request) n { t with pending := none } p.errand ack
  rw [heq]
  exact h.answer ht hp he hc hk ha hp' ids

theorem Coherent.acknowledge (h : b.Coherent) (link : Option LinkId) (request : RequestNo) (ack : Ack) :
    (b.acknowledge link request ack).1.Coherent := by
  have ha := acknowledging h link request ack
  generalize b.acknowledge link request ack = r at ha
  cases ha with
  | unknown _ => exact h
  | known hr ht hp hpr hres =>
    subst hpr
    exact (hres ▸ h.conclude ht hp ack).settle link _

end Answers

end Herald.Switchboard
