import Herald.Proofs.Settling

namespace Herald.Switchboard

variable {L : Type}

def callersOf (b : Switchboard L) (e : String) : List (Caller L) :=
  match b.byExpression[e]?.bind fun n => b.topics[n]? with
  | none => []
  | some t => t.callers

def Serves (b : Switchboard L) (e : String) (callers : List (Caller L)) : Prop :=
  ∃ (n : TopicNo) (t : Topic L), b.topics[n]? = some t ∧ t.expression = e ∧ t.callers = callers

section Lookup

variable {b b' : Switchboard L} {e : String} {n : TopicNo} {t t' : Topic L} {callers : List (Caller L)}

theorem callersOf_of_topic (hb : b.Coherent) (ht : b.topics[n]? = some t) :
    b.callersOf t.expression = t.callers := by
  have he : b.byExpression[t.expression]? = some n := (hb.expressions.mark_iff ht).mpr rfl
  simp [callersOf, he, ht]

theorem Serves.callersOf_eq (hb : b.Coherent) (h : b.Serves e callers) : b.callersOf e = callers := by
  obtain ⟨n, t, ht, rfl, rfl⟩ := h
  exact callersOf_of_topic hb ht

theorem serves_callersOf (hb : b.Coherent) (h : b.callersOf e ≠ []) : b.Serves e (b.callersOf e) := by
  cases he : b.byExpression[e]? with
  | none => simp [callersOf, he] at h
  | some n =>
    obtain ⟨t, ht, rfl⟩ := hb.exists_topic he
    exact ⟨n, t, ht, rfl, (callersOf_of_topic hb ht).symm⟩

theorem callersOf_of_free (hb : b.Coherent) (h : ∀ (n : TopicNo) (t : Topic L), b.topics[n]? = some t →
    t.expression = e → t.callers = []) : b.callersOf e = [] := by
  refine Classical.byContradiction fun hne => ?_
  obtain ⟨n, t, ht, he, hc⟩ := serves_callersOf hb hne
  exact hne (hc ▸ h n t ht he)

theorem callersOf_congr (hb : b.Coherent) (hb' : b'.Coherent)
    (h : ∀ callers, callers ≠ [] → (b'.Serves e callers ↔ b.Serves e callers)) :
    b'.callersOf e = b.callersOf e := by
  by_cases hne : b.callersOf e = []
  · rw [hne]
    refine Classical.byContradiction fun hne' => ?_
    have hs := (h _ hne').mp (serves_callersOf hb' hne')
    exact hne' (hs.callersOf_eq hb ▸ hne)
  · exact ((h _ hne).mpr (serves_callersOf hb hne)).callersOf_eq hb'

theorem callersOf_put (hb : b.Coherent) (hb' : b'.Coherent) (ht : b.topics[n]? = some t)
    (htopics : b'.topics = b.topics.insert n t') (he : t'.expression = t.expression) (e : String) :
    b'.callersOf e = if e = t.expression then t'.callers else b.callersOf e := by
  have ht' : b'.topics[n]? = some t' := by rw [htopics, Std.ExtTreeMap.getElem?_insert_self]
  split
  · next h => rw [h, ← he, callersOf_of_topic hb' ht']
  · next h =>
    refine callersOf_congr hb hb' fun callers _ => ?_
    have hsame {m : TopicNo} (hm : m ≠ n) : b'.topics[m]? = b.topics[m]? := by
      rw [htopics, topic_insert_ne m hm]
    constructor
    · rintro ⟨m, u, hu, rfl, hc⟩
      have hm : m ≠ n := by
        rintro rfl
        rw [ht'] at hu
        exact h (Option.some.inj hu ▸ he)
      exact ⟨m, u, hsame hm ▸ hu, rfl, hc⟩
    · rintro ⟨m, u, hu, rfl, hc⟩
      have hm : m ≠ n := by
        rintro rfl
        rw [ht] at hu
        exact h (congrArg Topic.expression (Option.some.inj hu)).symm
      exact ⟨m, u, (hsame hm).trans hu, rfl, hc⟩

theorem mem_callersOf_iff (hb : b.Coherent) {k : Ticket} : (∃ c ∈ b.callersOf e, c.ticket = k) ↔
    ∃ (n : TopicNo) (t : Topic L), b.byTicket[k]? = some n ∧ b.topics[n]? = some t ∧ t.expression = e := by
  constructor
  · rintro ⟨c, hc, rfl⟩
    obtain ⟨n, t, ht, he, hcs⟩ := serves_callersOf hb (List.ne_nil_of_mem hc)
    exact ⟨n, t, (hb.tickets.mark_iff ht).mpr (List.mem_map_of_mem (hcs ▸ hc)), ht, he⟩
  · rintro ⟨n, t, hk, ht, rfl⟩
    obtain ⟨c, hc, rfl⟩ := List.mem_map.mp ((hb.tickets.mark_iff ht).mp hk)
    exact ⟨c, callersOf_of_topic hb ht ▸ hc, rfl⟩

end Lookup

structure Alike (b b' : Switchboard L) : Prop where
  callers : ∀ e, b'.callersOf e = b.callersOf e
  byTicket : b'.byTicket = b.byTicket
  nextTicket : b'.nextTicket = b.nextTicket

namespace Alike

variable {b b' b'' : Switchboard L} {link : Option LinkId} {n : TopicNo} {t t' : Topic L}

theorem refl (b : Switchboard L) : Alike b b :=
  ⟨fun _ => rfl, rfl, rfl⟩

theorem trans (h : Alike b b') (h' : Alike b' b'') : Alike b b'' :=
  ⟨fun e => (h'.callers e).trans (h.callers e), h'.byTicket.trans h.byTicket,
    h'.nextTicket.trans h.nextTicket⟩

theorem put (hb : b.Coherent) (hb' : b'.Coherent) (ht : b.topics[n]? = some t)
    (htopics : b'.topics = b.topics.insert n t') (he : t'.expression = t.expression)
    (hc : t'.callers = t.callers) (hk : b'.byTicket = b.byTicket) (hn : b'.nextTicket = b.nextTicket) :
    Alike b b' := by
  refine ⟨fun e => ?_, hk, hn⟩
  rw [callersOf_put hb hb' ht htopics he]
  split
  · next h => rw [h, hc, callersOf_of_topic hb ht]
  · rfl

theorem drop (hb : b.Coherent) (ht : b.topics[n]? = some t) (hp : t.pending = none)
    (hc : t.callers = []) : Alike b (b.drop n t) := by
  refine ⟨fun e => callersOf_congr hb (hb.drop ht hp hc) fun callers hne => ?_, rfl, rfl⟩
  constructor
  · rintro ⟨m, u, hu, rfl, hcs⟩
    exact ⟨m, u, forall_erase (P := fun m u => b.topics[m]? = some u) id hu, rfl, hcs⟩
  · rintro ⟨m, u, hu, rfl, rfl⟩
    have hm : m ≠ n := by
      rintro rfl
      rw [ht] at hu
      exact hne (Option.some.inj hu ▸ hc)
    exact ⟨m, u, (topic_erase_ne m hm).trans hu, rfl, rfl⟩

theorem settle (hb : b.Coherent) (link : Option LinkId) (n : TopicNo) : Alike b (b.settle link n).1 := by
  have hb' := hb.settle link n
  have hs := settling link b n
  generalize b.settle link n = r at hs hb'
  cases hs with
  | missing _ => exact .refl b
  | idle _ _ => exact .refl b
  | removal ht hp ha _ => exact .drop hb ht hp ((hb.proper ht).idle ha)
  | confirmation _ ht _ _ _ _ _ => exact .put hb hb' ht rfl rfl rfl rfl rfl
  | order _ ht _ _ => exact .put hb hb' ht rfl rfl rfl rfl rfl

theorem settleEach (hb : b.Coherent) (link : Option LinkId) (ns : List TopicNo) :
    Alike b (b.settleEach link ns).1 := by
  induction ns generalizing b with
  | nil => exact .refl b
  | cons n ns ih => exact (Alike.settle hb link n).trans (ih (hb.settle link n))

theorem acknowledge (hb : b.Coherent) (link : Option LinkId) (request : RequestNo) (ack : Ack) :
    Alike b (b.acknowledge link request ack).1 := by
  have ha := acknowledging hb link request ack
  generalize b.acknowledge link request ack = r at ha
  cases ha with
  | unknown _ => exact .refl b
  | @known n t p r hr ht hp hpr hres =>
    subst hpr
    have hb' : r.1.Coherent := hres ▸ hb.conclude ht hp ack
    obtain ⟨t', ids, heq, he, hc, -⟩ :=
      conclude_shape (b.answered p.request) n { t with pending := none } p.errand ack
    rw [hres] at heq
    have htopics : r.1.topics = b.topics.insert n t' := by rw [heq]; rfl
    have hput : Alike b r.1 := .put hb hb' ht htopics he hc (by rw [heq]; rfl) (by rw [heq]; rfl)
    exact hput.trans (.settle hb' link n)

theorem disconnected (hb : b.Coherent) : Alike b b.disconnected := by
  refine ⟨fun e => callersOf_congr hb hb.disconnected fun callers hne => ?_, rfl, rfl⟩
  constructor
  · rintro ⟨n, t', ht', rfl, rfl⟩
    obtain ⟨t, ht, -, rfl⟩ := topic_disconnected_iff.mp ht'
    exact ⟨n, t, ht, rfl, rfl⟩
  · rintro ⟨n, t, ht, rfl, rfl⟩
    exact ⟨n, t.forget, topic_disconnected_iff.mpr ⟨t, ht, (hb.proper ht).isActive hne, rfl⟩, rfl, rfl⟩

theorem reconnected (hb : b.Coherent) (link : Option LinkId) : Alike b (b.reconnected link).1 :=
  (Alike.disconnected hb).trans (.settleEach hb.disconnected link _)

theorem rekey (hb : b.Coherent) (link : Option LinkId) (table : Key.Table) :
    Alike b (b.rekey link table).1 := by
  have hsame : Alike b (b.withTable table) := ⟨fun _ => rfl, rfl, rfl⟩
  exact hsame.trans (.settleEach (hb.withTable table) link _)

end Alike

section Operations

variable {b : Switchboard L} {n : TopicNo} {t : Topic L} {c : Caller L} {k : Ticket}

theorem callersOf_create (hb : b.Coherent) {e : String} (he : b.byExpression[e]? = none) (e' : String) :
    (b.create e).1.callersOf e' = b.callersOf e' := by
  refine callersOf_congr hb (hb.create he) fun callers hne => ?_
  have hfree : b.topics[b.nextTopic]? = none := hb.nextTopic_free
  constructor
  · rintro ⟨m, u, hu, rfl, rfl⟩
    obtain ⟨-, rfl⟩ | ⟨-, hu⟩ := topic_put hu
    · exact absurd rfl hne
    · exact ⟨m, u, hu, rfl, rfl⟩
  · rintro ⟨m, u, hu, rfl, rfl⟩
    have hm : m ≠ b.nextTopic := by
      rintro rfl
      simp [hfree] at hu
    exact ⟨m, u, (topic_insert_ne m hm).trans hu, rfl, rfl⟩

theorem callersOf_join (hb : b.Coherent) (ht : b.topics[n]? = some t)
    (hk : b.byTicket[c.ticket]? = none) (hlt : c.ticket < b.nextTicket) (e : String) :
    (b.join n c).callersOf e = if e = t.expression then b.callersOf e ++ [c] else b.callersOf e := by
  have htopics : (b.join n c).topics = b.topics.insert n (t.join c) := by
    rw [join, ht]
    rfl
  rw [callersOf_put hb (hb.join ht hk hlt) ht htopics (t.join_expression c)]
  split
  · next h => rw [h, callersOf_of_topic hb ht, t.join_callers]
  · rfl

theorem callersOf_leave (hb : b.Coherent) (hk : b.byTicket[k]? = some n) (ht : b.topics[n]? = some t)
    (e : String) : (b.leave n k).callersOf e =
      if e = t.expression then (b.callersOf e).filter (·.ticket ≠ k) else b.callersOf e := by
  have htopics : (b.leave n k).topics = b.topics.insert n (t.leave k) := by
    simp only [leave, ht]
    rfl
  rw [callersOf_put hb (hb.leave hk) ht htopics (t.leave_expression k)]
  split
  · next h => rw [h, callersOf_of_topic hb ht, t.leave_callers]
  · rfl

theorem callersOf_replace (hb : b.Coherent) (ht : b.topics[n]? = some t) (e : String) :
    (b.replace n c).callersOf e = if e = t.expression
      then (b.callersOf e).map fun d => if d.ticket = c.ticket then c else d else b.callersOf e := by
  have htopics : (b.replace n c).topics = b.topics.insert n (t.replace c) := by
    rw [replace, ht]
    rfl
  rw [callersOf_put hb (hb.replace ht c) ht htopics (t.replace_expression c)]
  split
  · next h => rw [h, callersOf_of_topic hb ht, t.replace_callers]
  · rfl

theorem callersOf_rename (hb : b.Coherent) (ht : b.topics[n]? = some t) {e : String}
    (he : b.byExpression[e]? = none) (e' : String) : (b.rename n t e).callersOf e' =
      if e' = e then t.callers else if e' = t.expression then [] else b.callersOf e' := by
  have hb' := hb.rename ht he
  have ht' : (b.rename n t e).topics[n]? = some { t with expression := e, refused := false } :=
    Std.ExtTreeMap.getElem?_insert_self
  split
  · next h => rw [h, callersOf_of_topic hb' ht']
  · next h =>
    split
    · next h' =>
      refine callersOf_of_free hb' fun m u hu hexp => ?_
      obtain ⟨rfl, rfl⟩ | ⟨hm, hu⟩ := topic_put hu
      · exact absurd hexp.symm h
      · exact absurd (hb.expressions.mark_unique ht hu rfl (hexp.trans h')) hm
    · next h' =>
      refine callersOf_congr hb hb' fun callers _ => ?_
      constructor
      · rintro ⟨m, u, hu, rfl, rfl⟩
        obtain ⟨rfl, rfl⟩ | ⟨-, hu⟩ := topic_put hu
        · exact absurd rfl h
        · exact ⟨m, u, hu, rfl, rfl⟩
      · rintro ⟨m, u, hu, rfl, rfl⟩
        have hm : m ≠ n := by
          rintro rfl
          rw [ht] at hu
          exact h' (congrArg Topic.expression (Option.some.inj hu)).symm
        exact ⟨m, u, (topic_insert_ne m hm).trans hu, rfl, rfl⟩

theorem tickets_unsubscribe (hb : b.Coherent) (hk : b.byTicket[k]? = some n) (link : Option LinkId) :
    (b.unsubscribe link k).2.1.byTicket = b.byTicket.erase k ∧
      (b.unsubscribe link k).2.1.nextTicket = b.nextTicket := by
  have halike := Alike.settle (hb.leave hk) link n
  rw [unsubscribe_known hk]
  exact ⟨halike.byTicket.trans leave_byTicket, halike.nextTicket.trans leave_nextTicket⟩

theorem tickets_unsubscribeEach (hb : b.Coherent) (link : Option LinkId) (ks : List Ticket) :
    (∀ k n, (b.unsubscribeEach link ks).1.byTicket[k]? = some n → k ∉ ks ∧ b.byTicket[k]? = some n) ∧
      (b.unsubscribeEach link ks).1.nextTicket = b.nextTicket := by
  induction ks generalizing b with
  | nil => exact ⟨fun _ _ h => ⟨List.not_mem_nil, h⟩, rfl⟩
  | cons k ks ih =>
    rw [unsubscribeEach_cons]
    cases hk : b.byTicket[k]? with
    | none =>
      rw [unsubscribe_unknown hk]
      refine ⟨fun j n hj => ?_, (ih hb).2⟩
      obtain ⟨hmem, hold⟩ := (ih hb).1 j n hj
      refine ⟨fun h => ?_, hold⟩
      obtain rfl | h := List.mem_cons.mp h
      · simp [hk] at hold
      · exact hmem h
    | some m =>
      have hb' : (b.unsubscribe link k).2.1.Coherent := by
        rw [unsubscribe_known hk]
        exact (hb.leave hk).settle link m
      obtain ⟨herase, hnext⟩ := tickets_unsubscribe hb hk link
      refine ⟨fun j n hj => ?_, (ih hb').2.trans hnext⟩
      obtain ⟨hmem, hj⟩ := (ih hb').1 j n hj
      rw [herase, Std.ExtTreeMap.getElem?_erase] at hj
      split at hj
      · simp at hj
      · next hne =>
        refine ⟨fun h => ?_, hj⟩
        obtain rfl | h := List.mem_cons.mp h
        · exact hne Std.compare_self
        · exact hmem h

theorem callersOf_unsubscribeAll (hb : b.Coherent) (link : Option LinkId) (e : String) :
    (b.unsubscribeAll link).1.callersOf e = [] := by
  have hb' : (b.unsubscribeAll link).1.Coherent := hb.moves (unsubscribeAll_moves link b)
  refine List.eq_nil_iff_forall_not_mem.mpr fun c hc => ?_
  obtain ⟨n, t, hk, -⟩ := (mem_callersOf_iff hb').mp ⟨c, hc, rfl⟩
  obtain ⟨hmem, hk⟩ := (tickets_unsubscribeEach hb link _).1 _ _ hk
  rw [Std.ExtTreeMap.mem_keys, Std.ExtTreeMap.mem_iff_isSome_getElem?, hk] at hmem
  exact hmem rfl

end Operations

end Herald.Switchboard
