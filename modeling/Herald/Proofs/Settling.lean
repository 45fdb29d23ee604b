import Herald.Proofs.Moves

namespace Herald

variable {L : Type}

namespace Topic

variable {t : Topic L}

theorem refused_refresh (h : t.refused = false) : t.refresh.refused = false := by
  unfold refresh
  split
  · exact h
  · rfl

theorem Quiet.join (c : Caller L) (h : t.Quiet) : (t.join c).Quiet :=
  ⟨by rw [join_held, h.1], by rw [join_pending, h.2.1], refused_refresh rfl⟩

theorem Quiet.leave (k : Ticket) (h : t.Quiet) : (t.leave k).Quiet := by
  refine ⟨by rw [leave_held, h.1], by rw [leave_pending, h.2.1], ?_⟩
  unfold Topic.leave
  dsimp only
  split
  · exact h.2.2
  · exact refused_refresh h.2.2

theorem Quiet.replace (c : Caller L) (h : t.Quiet) : (t.replace c).Quiet :=
  ⟨by rw [replace_held, h.1], by rw [replace_pending, h.2.1], refused_refresh h.2.2⟩

theorem quiet_forget (t : Topic L) : t.forget.Quiet :=
  ⟨rfl, rfl, rfl⟩

end Topic

namespace Switchboard

def Quiet (b : Switchboard L) : Prop :=
  ∀ (n : TopicNo) (t : Topic L), b.topics[n]? = some t → t.Quiet

def SettledBut (b : Switchboard L) (connected : Bool) (loose : List TopicNo) : Prop :=
  ∀ (n : TopicNo) (t : Topic L), b.topics[n]? = some t → n ∉ loose → t.Settled b.table connected

def Settled (b : Switchboard L) (connected : Bool) : Prop :=
  b.SettledBut connected []

theorem topic_put {b : Switchboard L} {n m : TopicNo} {t u : Topic L}
    (hm : (b.topics.insert n t)[m]? = some u) : (n = m ∧ t = u) ∨ (n ≠ m ∧ b.topics[m]? = some u) := by
  rw [Std.ExtTreeMap.getElem?_insert] at hm
  by_cases e : n = m
  · subst e
    simp only [Std.compare_self, if_true, Option.some.injEq] at hm
    exact .inl ⟨rfl, hm⟩
  · simp only [Std.LawfulEqOrd.compare_eq_iff_eq, e, if_false] at hm
    exact .inr ⟨e, hm⟩

namespace Quiet

variable {b b' : Switchboard L} {calls : List Call}

theorem ofTable (table : Key.Table) : (Switchboard.ofTable table : Switchboard L).Quiet := by
  intro n t ht
  simp [Switchboard.ofTable] at ht

theorem insert {n : TopicNo} {t : Topic L} (h : b.Quiet) (ht : t.Quiet) (m : TopicNo) (u : Topic L)
    (hu : (b.topics.insert n t)[m]? = some u) : u.Quiet :=
  forall_insert (P := fun _ u => u.Quiet) (h _ _) ht hu

theorem create (h : b.Quiet) (e : String) : (b.create e).1.Quiet :=
  h.insert ⟨rfl, rfl, rfl⟩

theorem topicFor (h : b.Quiet) (e : String) : (b.topicFor e).1.Quiet := by
  unfold Switchboard.topicFor
  split
  · exact h
  · exact h.create e

theorem join (h : b.Quiet) (n : TopicNo) (c : Caller L) : (b.join n c).Quiet := by
  unfold Switchboard.join
  split
  · exact h
  · next ht => exact h.insert ((h _ _ ht).join c)

theorem leave (h : b.Quiet) (n : TopicNo) (k : Ticket) : (b.leave n k).Quiet := by
  unfold Switchboard.leave
  dsimp only
  split
  · exact h
  · next ht => exact h.insert ((h _ _ ht).leave k)

theorem replace (h : b.Quiet) (n : TopicNo) (c : Caller L) : (b.replace n c).Quiet := by
  unfold Switchboard.replace
  split
  · exact h
  · next ht => exact h.insert ((h _ _ ht).replace c)

theorem rename {n : TopicNo} {t : Topic L} (h : b.Quiet) (ht : b.topics[n]? = some t) (e : String) :
    (b.rename n t e).Quiet :=
  h.insert ⟨(h _ _ ht).1, (h _ _ ht).2.1, rfl⟩

theorem settle (h : b.Quiet) (n : TopicNo) : (b.settle none n).1.Quiet := by
  have hs := settling none b n
  generalize b.settle none n = r at hs
  cases hs with
  | missing _ => exact h
  | idle _ _ => exact h
  | removal _ _ _ _ => exact fun _ _ => forall_erase (P := fun _ u => u.Quiet) (h _ _)
  | confirmation hl => simp at hl
  | order hl => simp at hl

theorem move (h : b.Quiet) (m : Move none b b' calls) : b'.Quiet := by
  cases m with
  | issue => exact h
  | found _ _ _ => exact (h.create _).join _ _
  | join _ _ _ => exact h.join _ _
  | leave _ => exact h.leave _ _
  | replace c _ => exact h.replace _ c
  | rename ht _ => exact h.rename ht _
  | settle n => exact h.settle n

theorem moves (h : b.Quiet) (m : Moves none b b' calls) : b'.Quiet := by
  generalize hl : (none : Option LinkId) = link at m
  induction m with
  | refl => exact h
  | step m _ ih =>
    subst hl
    exact ih (h.move m)

theorem rekey (h : b.Quiet) (table : Key.Table) : (b.rekey none table).1.Quiet :=
  Quiet.moves (b := b.withTable table) h (rekey_moves none b table)

theorem acknowledge_eq (h : b.Quiet) (hb : b.Coherent) (link : Option LinkId) (request : RequestNo)
    (ack : Ack) : b.acknowledge link request ack = (b, [], none) := by
  have ha := acknowledging hb link request ack
  generalize b.acknowledge link request ack = r at ha
  cases ha with
  | unknown _ => rfl
  | known _ ht hp _ _ => simp [(h _ _ ht).2.1] at hp

theorem disconnected (b : Switchboard L) : b.disconnected.Quiet := by
  intro n t' ht'
  obtain ⟨t, -, -, rfl⟩ := topic_disconnected_iff.mp ht'
  exact t.quiet_forget

end Quiet

def Occupied (b : Switchboard L) : Prop :=
  ∀ (n : TopicNo) (t : Topic L), b.topics[n]? = some t → t.isActive = true → t.callers ≠ []

namespace Occupied

variable {b b' : Switchboard L} {link : Option LinkId} {calls : List Call} {n : TopicNo} {t t' : Topic L}

theorem ofTable (table : Key.Table) : (Switchboard.ofTable table : Switchboard L).Occupied := by
  intro n t ht
  simp [Switchboard.ofTable] at ht

theorem insert (h : b.Occupied) (ht : t.isActive = true → t.callers ≠ [])
    (htopics : b'.topics = b.topics.insert n t) : b'.Occupied := by
  intro m u hu
  rw [htopics] at hu
  obtain ⟨-, rfl⟩ | ⟨-, hu⟩ := topic_put hu
  · exact ht
  · exact h m u hu

theorem update (h : b.Occupied) (ht : b.topics[n]? = some t) (htopics : b'.topics = b.topics.insert n t')
    (ha : t'.isActive = t.isActive) (hc : t'.callers = t.callers) : b'.Occupied :=
  h.insert (ha ▸ hc ▸ h n t ht) htopics

theorem settle (h : b.Occupied) (link : Option LinkId) (n : TopicNo) : (b.settle link n).1.Occupied := by
  have hs := settling link b n
  generalize b.settle link n = r at hs
  cases hs with
  | missing _ => exact h
  | idle _ _ => exact h
  | removal _ _ _ _ =>
    exact fun m u hu => forall_erase (P := fun _ u => u.isActive = true → u.callers ≠ []) (h _ _) hu
  | confirmation _ ht _ _ _ _ _ => exact h.update ht rfl rfl rfl
  | order _ ht _ _ => exact h.update ht rfl rfl rfl

theorem move (h : b.Occupied) (m : Move link b b' calls) : b'.Occupied := by
  cases m with
  | issue => exact h
  | found _ _ _ => exact h.insert (by simp [Topic.ofExpression]) topics_found
  | join ht _ _ =>
    rw [Switchboard.join, ht]
    exact h.insert (by simp) rfl
  | @leave n k _ =>
    unfold Switchboard.leave
    dsimp only
    split
    · exact h
    · next t _ =>
      refine h.insert (fun ha hc => ?_) rfl
      simp [(t.leave_eq k).2.2.2.2.2 hc] at ha
  | @replace n t c ht =>
    rw [Switchboard.replace, ht]
    exact h.insert (by simpa using h n t ht) rfl
  | rename ht _ => exact h.update ht rfl rfl rfl
  | settle n => exact h.settle link n

theorem moves (h : b.Occupied) (m : Moves link b b' calls) : b'.Occupied := by
  induction m with
  | refl => exact h
  | step m _ ih => exact ih (h.move m)

theorem disconnected (h : b.Occupied) : b.disconnected.Occupied := by
  intro n t' ht'
  obtain ⟨t, ht, -, rfl⟩ := topic_disconnected_iff.mp ht'
  exact h n t ht

theorem rekey (h : b.Occupied) (link : Option LinkId) (table : Key.Table) : (b.rekey link table).1.Occupied :=
  Occupied.moves (b := b.withTable table) h (rekey_moves link b table)

theorem reconnected (h : b.Occupied) (link : Option LinkId) : (b.reconnected link).1.Occupied :=
  h.disconnected.moves (reconnected_moves link b)

theorem acknowledge (h : b.Occupied) (hb : b.Coherent) (link : Option LinkId) (request : RequestNo) (ack : Ack) :
    (b.acknowledge link request ack).1.Occupied := by
  have ha := acknowledging hb link request ack
  generalize b.acknowledge link request ack = r at ha
  cases ha with
  | unknown _ => exact h
  | @known n t p r hr ht hp hpr hres =>
    obtain ⟨t', ids, heq, -, hc, -, -, -, hactive⟩ :=
      conclude_shape (b.answered request) n { t with pending := none } p.errand ack
    rw [hres] at heq
    have hupdated : Occupied { (b.answered request).put n t' with byBrokerId := ids } := h.update ht rfl hactive hc
    rw [heq]
    exact hupdated.settle link n

end Occupied

section Settled

variable {b b' : Switchboard L} {check : Expression.Check} {link : Option LinkId} {connected : Bool}
  {loose : List TopicNo} {n : TopicNo}

theorem SettledBut.mono (h : b.SettledBut connected loose) {others : List TopicNo}
    (hsub : ∀ n ∈ loose, n ∈ others) : b.SettledBut connected others :=
  fun _ _ ht hn => h _ _ ht fun hmem => hn (hsub _ hmem)

theorem SettledBut.once (h : b.SettledBut connected (n :: n :: loose)) :
    b.SettledBut connected (n :: loose) :=
  h.mono (List.cons_subset.mpr ⟨.head _, List.Subset.refl _⟩)

theorem SettledBut.touch (h : b.SettledBut connected loose) (htable : b'.table = b.table)
    (hsame : ∀ m, m ≠ n → b'.topics[m]? = b.topics[m]?) : b'.SettledBut connected (n :: loose) := by
  intro m t ht hm
  rw [List.mem_cons, not_or] at hm
  rw [hsame m hm.1] at ht
  exact htable ▸ h m t ht hm.2

theorem topic_insert_ne {topics : Std.ExtTreeMap TopicNo (Topic L)} {t : Topic L} (m : TopicNo)
    (hm : m ≠ n) : (topics.insert n t)[m]? = topics[m]? := by
  simp [Std.ExtTreeMap.getElem?_insert, Ne.symm hm]

theorem topic_erase_ne {topics : Std.ExtTreeMap TopicNo (Topic L)} (m : TopicNo) (hm : m ≠ n) :
    (topics.erase n)[m]? = topics[m]? := by
  simp [Std.ExtTreeMap.getElem?_erase, Ne.symm hm]

theorem settle_others (link : Option LinkId) (b : Switchboard L) {m : TopicNo} (hm : m ≠ n) :
    (b.settle link n).1.topics[m]? = b.topics[m]? := by
  have hs := settling link b n
  generalize b.settle link n = r at hs
  cases hs with
  | missing _ => rfl
  | idle _ _ => rfl
  | removal _ _ _ _ => exact topic_erase_ne m hm
  | confirmation _ _ _ _ _ _ _ => exact topic_insert_ne m hm
  | order _ _ _ _ => exact topic_insert_ne m hm

theorem SettledBut.create (h : b.SettledBut connected loose) (e : String) :
    (b.create e).1.SettledBut connected (b.nextTopic :: loose) :=
  h.touch rfl topic_insert_ne

theorem SettledBut.join (h : b.SettledBut connected loose) (n : TopicNo) (c : Caller L) :
    (b.join n c).SettledBut connected (n :: loose) := by
  unfold Switchboard.join
  split
  · exact h.mono fun m hm => List.mem_cons_of_mem n hm
  · exact h.touch rfl topic_insert_ne

theorem SettledBut.leave (h : b.SettledBut connected loose) (n : TopicNo) (k : Ticket) :
    (b.leave n k).SettledBut connected (n :: loose) := by
  unfold Switchboard.leave
  dsimp only
  split
  · exact fun _ _ ht hm => h _ _ ht fun hmem => hm (List.mem_cons_of_mem n hmem)
  · exact h.touch rfl topic_insert_ne

theorem SettledBut.replace (h : b.SettledBut connected loose) (n : TopicNo) (c : Caller L) :
    (b.replace n c).SettledBut connected (n :: loose) := by
  unfold Switchboard.replace
  split
  · exact h.mono fun m hm => List.mem_cons_of_mem n hm
  · exact h.touch rfl topic_insert_ne

theorem SettledBut.rename (h : b.SettledBut connected loose) (n : TopicNo) (t : Topic L) (e : String) :
    (b.rename n t e).SettledBut connected (n :: loose) :=
  h.touch rfl topic_insert_ne

theorem SettledBut.settle (h : b.SettledBut link.isSome (n :: loose)) (hq : link = none → b.Quiet) :
    (b.settle link n).1.SettledBut link.isSome loose := by
  have hs := settling link b n
  generalize b.settle link n = r at hs
  intro m u hu hm
  by_cases e : m = n
  · subst e
    cases hs with
    | missing hn => simp [hn] at hu
    | idle ht hneed =>
      rw [ht] at hu
      obtain rfl := Option.some.inj hu
      refine Topic.settled_of_nothing (fun hl => ?_) hneed
      exact (hq (by simpa using hl) _ _ ht).1
    | removal => simp [Switchboard.drop] at hu
    | confirmation hl ht hp hc hr hh he =>
      obtain ⟨-, rfl⟩ | ⟨hne, -⟩ := topic_put hu
      · exact hl ▸ Topic.confirm_settled hc hh
      · exact absurd rfl hne
    | order _ _ _ _ =>
      obtain ⟨-, rfl⟩ | ⟨hne, -⟩ := topic_put hu
      · exact fun hp => by simp at hp
      · exact absurd rfl hne
  -- No other topic changes, so each keeps what it had.
  · have hopen : m ∉ n :: loose := by simp [e, hm]
    cases hs with
    | missing _ => exact h _ _ hu hopen
    | idle _ _ => exact h _ _ hu hopen
    | removal _ _ _ _ => exact h _ _ (topic_erase_ne m e ▸ hu) hopen
    | confirmation _ _ _ _ _ _ _ => exact h _ _ (topic_insert_ne m e ▸ hu) hopen
    | order _ _ _ _ => exact h _ _ (topic_insert_ne m e ▸ hu) hopen

theorem quiet_settle (hq : link = none → b.Quiet) (hl : link = none) : (b.settle link n).1.Quiet := by
  subst hl
  exact (hq rfl).move (.settle n)

theorem SettledBut.settleEach {ns : List TopicNo} (h : b.SettledBut link.isSome (ns ++ loose))
    (hq : link = none → b.Quiet) : (b.settleEach link ns).1.SettledBut link.isSome loose := by
  induction ns generalizing b with
  | nil => exact h
  | cons n ns ih => exact ih (h.settle hq) (quiet_settle hq)

theorem settled_settleAll (hq : link = none → b.Quiet) : (b.settleAll link).1.Settled link.isSome := by
  refine SettledBut.settleEach ?_ hq
  intro n t ht hn
  rw [List.append_nil, Std.ExtTreeMap.mem_keys, Std.ExtTreeMap.mem_iff_isSome_getElem?, ht] at hn
  exact absurd rfl hn

structure Calm (link : Option LinkId) (b : Switchboard L) : Prop where
  settled : b.Settled link.isSome
  quiet : link = none → b.Quiet

theorem settled_subscribe (h : Calm link b) (check : Expression.Check) (w : Wish L) :
    (b.subscribe check link w).2.1.Settled link.isSome := by
  rw [subscribe_eq]
  cases check w.expression with
  | some reason => exact h.settled
  | none =>
    have hfor : (b.issued.topicFor w.expression).1.SettledBut link.isSome
        [(b.issued.topicFor w.expression).2] := by
      unfold topicFor
      split
      · exact SettledBut.mono (b := b.issued) h.settled (by simp)
      · exact SettledBut.create (b := b.issued) h.settled _
    have hq (hl : link = none) : (b.issued.topicFor w.expression).1.Quiet :=
      Quiet.topicFor (b := b.issued) (h.quiet hl) _
    have hjoin := hfor.join (b.issued.topicFor w.expression).2 (w.caller b.nextTicket)
    exact SettledBut.settle hjoin.once fun hl => (hq hl).join _ _

theorem settled_unsubscribe (h : Calm link b) (k : Ticket) : (b.unsubscribe link k).2.1.Settled link.isSome := by
  rw [unsubscribe_eq]
  cases b.byTicket[k]? with
  | none => exact h.settled
  | some n => exact (SettledBut.leave h.settled n k).settle fun hl => (h.quiet hl).leave n k

theorem settled_revise (h : Calm link b) (hb : b.Coherent) (check : Expression.Check) (k : Ticket) (w : Wish L) :
    (b.revise check link k w).2.1.Settled link.isSome := by
  have hr := revising hb check link k w
  generalize b.revise check link k w = r at hr
  cases hr with
  | unknown _ => exact h.settled
  | invalid _ _ _ _ => exact h.settled
  | @kept n t hk ht he =>
    exact (SettledBut.replace h.settled n _).settle fun hl => (h.quiet hl).replace n _
  | @renamed n t hk ht he hw hn hlen =>
    have hrep := (SettledBut.rename h.settled n t w.expression).replace n (w.caller k)
    exact SettledBut.settle hrep.once fun hl => ((h.quiet hl).rename ht _).replace n _
  | @founded n t hk ht he hw hn hlen =>
    have hjoin := ((SettledBut.leave h.settled n k).create w.expression).join (b.leave n k).nextTopic
      (w.caller k)
    refine SettledBut.settleEach (hjoin.mono ?_) fun hl => (((h.quiet hl).leave n k).create _).join _ _
    simp
  | @moved n other t hk ht he hw hn =>
    have hjoin := (SettledBut.leave h.settled n k).join other (w.caller k)
    refine SettledBut.settleEach (hjoin.mono ?_) fun hl => ((h.quiet hl).leave n k).join _ _
    simp

theorem settled_acknowledge (h : Calm link b) (hb : b.Coherent) (request : RequestNo) (ack : Ack) :
    (b.acknowledge link request ack).1.Settled link.isSome := by
  have ha := acknowledging hb link request ack
  generalize b.acknowledge link request ack = r at ha
  cases ha with
  | unknown _ => exact h.settled
  | @known n t p r hr ht hp hpr hres =>
    obtain ⟨t', ids, heq, -⟩ :=
      conclude_shape (b.answered request) n { t with pending := none } p.errand ack
    rw [hres] at heq
    have hput : r.1.SettledBut link.isSome [n] := by
      rw [heq]
      exact SettledBut.touch h.settled rfl topic_insert_ne
    refine hput.settle fun hl => ?_
    have hq := (h.quiet hl _ _ ht).2.1
    simp [hq] at hp

theorem settled_disconnected (b : Switchboard L) : b.disconnected.Settled false := by
  intro n t' ht' _ _
  obtain ⟨t, -, hc, rfl⟩ := topic_disconnected_iff.mp ht'
  exact ⟨hc, by simp⟩

theorem settled_rekey (h : link = none → b.Quiet) (table : Key.Table) :
    (b.rekey link table).1.Settled link.isSome :=
  settled_settleAll (b := b.withTable table) h

theorem settled_reconnected (b : Switchboard L) (link : Option LinkId) :
    (b.reconnected link).1.Settled link.isSome :=
  settled_settleAll fun _ => .disconnected b

end Settled

end Switchboard

end Herald
