import Herald.Proofs.Runs

namespace Herald

variable {L : Type}

namespace Topic

def others (t : Topic L) (k : Ticket) : List (Caller L) :=
  t.callers.filter (·.ticket ≠ k)

structure Spares (k : Ticket) (t t' : Topic L) : Prop where
  expression : t'.expression = t.expression
  others : t'.others k = t.others k
  brokerId? : t'.brokerId? = t.brokerId?

structure Carries (t : Topic L) (e : String) (c : Caller L) : Prop where
  expression : t.expression = e
  caller : t.callers.filter (·.ticket = c.ticket) = [c]

structure Kept (t t' : Topic L) : Prop where
  expression : t'.expression = t.expression
  callers : t'.callers = t.callers
  brokerId? : t'.brokerId? = t.brokerId?

section Callers

variable {t t' t'' : Topic L} {c : Caller L} {k : Ticket} {e : String}

theorem others_join (t : Topic L) (c : Caller L) : (t.join c).others c.ticket = t.others c.ticket := by
  simp [others]

theorem others_leave (t : Topic L) (k : Ticket) : (t.leave k).others k = t.others k := by
  simp [others]

theorem others_replace (t : Topic L) (c : Caller L) : (t.replace c).others c.ticket = t.others c.ticket := by
  rw [others, others, replace_callers]
  induction t.callers with
  | nil => rfl
  | cons d ds ih =>
    by_cases h : d.ticket = c.ticket
    · simpa [h] using ih
    · simpa [h] using ih

theorem others_ne_nil (h : ∃ j ∈ t.tickets, j ≠ k) : t.others k ≠ [] := by
  obtain ⟨j, hj, hne⟩ := h
  obtain ⟨d, hd, rfl⟩ := List.mem_map.mp hj
  exact List.ne_nil_of_mem (List.mem_filter.mpr ⟨hd, decide_eq_true hne⟩)

theorem callers_of_alone (hk : k ∈ t.tickets) (hlen : t.callers.length = 1) :
    ∃ d, t.callers = [d] ∧ d.ticket = k := by
  obtain ⟨d, hd⟩ := List.length_eq_one_iff.mp hlen
  refine ⟨d, hd, ?_⟩
  simpa [tickets, hd, eq_comm] using hk

theorem Spares.refl (k : Ticket) (t : Topic L) : t.Spares k t :=
  ⟨rfl, rfl, rfl⟩

theorem Spares.trans (h : t.Spares k t') (h' : t'.Spares k t'') : t.Spares k t'' :=
  ⟨h'.expression.trans h.expression, h'.others.trans h.others, h'.brokerId?.trans h.brokerId?⟩

theorem Kept.refl (t : Topic L) : t.Kept t :=
  ⟨rfl, rfl, rfl⟩

theorem Kept.spares (h : t.Kept t') (k : Ticket) : t.Spares k t' :=
  ⟨h.expression, congrArg (List.filter _) h.callers, h.brokerId?⟩

theorem Carries.kept (h : t.Carries e c) (hk : t.Kept t') : t'.Carries e c :=
  ⟨hk.expression.trans h.expression, hk.callers ▸ h.caller⟩

theorem Carries.callers_ne_nil (h : t.Carries e c) : t.callers ≠ [] := by
  intro hnil
  simpa [hnil] using h.caller

theorem Carries.mem (h : t.Carries e c) : c ∈ t.callers := by
  have hc : c ∈ t.callers.filter (·.ticket = c.ticket) := h.caller ▸ .head _
  exact (List.mem_filter.mp hc).1

theorem carries_join (h : c.ticket ∉ t.tickets) : (t.join c).Carries t.expression c := by
  refine ⟨t.join_expression c, ?_⟩
  have hnone : t.callers.filter (·.ticket = c.ticket) = [] := by
    rw [List.filter_eq_nil_iff]
    intro d hd heq
    exact h (List.mem_map.mpr ⟨d, hd, of_decide_eq_true heq⟩)
  simp [hnone]

theorem filter_ticket (hd : t.tickets.Nodup) (hk : k ∈ t.tickets) :
    ∃ d, t.callers.filter (·.ticket = k) = [d] ∧ d.ticket = k := by
  have hmap : (t.callers.filter (·.ticket = k)).map (·.ticket) = t.tickets.filter (· = k) := by
    rw [tickets, List.filter_map]
    rfl
  rw [List.filter_eq, hd.count, if_pos hk, List.replicate_one] at hmap
  exact List.map_eq_singleton_iff.mp hmap

theorem carries_replace (hd : t.tickets.Nodup) (hk : c.ticket ∈ t.tickets) :
    (t.replace c).Carries t.expression c := by
  refine ⟨t.replace_expression c, ?_⟩
  obtain ⟨d, hfilter, hticket⟩ := filter_ticket hd hk
  have hsame : (fun a : Caller L => decide ((if a.ticket = c.ticket then c else a).ticket = c.ticket)) =
      fun a => decide (a.ticket = c.ticket) := by
    funext a
    split <;> simp [*]
  rw [replace_callers, List.filter_map, Function.comp_def, hsame, hfilter]
  simp [hticket]

theorem replace_refused (t : Topic L) (h : t.refused = false) (c : Caller L) : (t.replace c).refused = false := by
  unfold replace refresh
  dsimp only
  split
  · exact h
  · rfl

theorem wish_replace (hk : c.ticket ∈ t.tickets) (hlen : t.callers.length = 1) (table : Key.Table) :
    (t.replace c).wish table = .wanted t.expression c.keyNames.eraseDups table := by
  obtain ⟨d, hd, hdc⟩ := callers_of_alone hk hlen
  have hcallers : (t.replace c).callers = [c] := by simp [hd, hdc]
  rw [wish, replace_keyNames, wantedNames, hcallers, replace_expression, List.flatMap_singleton]

end Callers

end Topic

namespace Switchboard

section Settle

variable {b : Switchboard L} {n m : TopicNo} {t : Topic L}

theorem settle_keeps (link : Option LinkId) (n : TopicNo) (ht : b.topics[m]? = some t) (ha : t.isActive = true) :
    ∃ t', (b.settle link n).1.topics[m]? = some t' ∧ t.Kept t' := by
  by_cases hm : m = n
  · subst hm
    have hs := settling link b m
    generalize b.settle link m = r at hs
    cases hs with
    | missing _ => exact ⟨t, ht, .refl t⟩
    | idle _ _ => exact ⟨t, ht, .refl t⟩
    | removal hu _ hidle _ =>
      obtain rfl := Option.some.inj (ht.symm.trans hu)
      simp [ha] at hidle
    | confirmation _ hu _ _ _ hh _ =>
      obtain rfl := Option.some.inj (ht.symm.trans hu)
      exact ⟨_, Std.ExtTreeMap.getElem?_insert_self, rfl, rfl, by simp [Topic.brokerId?, Topic.confirm, hh]⟩
    | order _ hu _ _ =>
      obtain rfl := Option.some.inj (ht.symm.trans hu)
      exact ⟨_, Std.ExtTreeMap.getElem?_insert_self, rfl, rfl, rfl⟩
  · exact ⟨t, (settle_others link b hm).trans ht, .refl t⟩

end Settle

def Undisturbed (k : Ticket) (b b' : Switchboard L) : Prop :=
  ∀ (n : TopicNo) (t : Topic L), b.topics[n]? = some t → t.others k ≠ [] →
    ∃ t', b'.topics[n]? = some t' ∧ t.Spares k t'

namespace Undisturbed

variable {k : Ticket} {b b' b'' : Switchboard L} {n : TopicNo} {t t' : Topic L} {link : Option LinkId}

theorem of_topics (h : b'.topics = b.topics) : Undisturbed k b b' :=
  fun _ t ht _ => ⟨t, h ▸ ht, .refl k t⟩

theorem trans (h : Undisturbed k b b') (h' : Undisturbed k b' b'') : Undisturbed k b b'' := by
  intro n t ht hne
  obtain ⟨t', ht', hs⟩ := h n t ht hne
  obtain ⟨t'', ht'', hs'⟩ := h' n t' ht' (hs.others ▸ hne)
  exact ⟨t'', ht'', hs.trans hs'⟩

theorem insert (hb : b'.topics = b.topics.insert n t')
    (hs : ∀ t, b.topics[n]? = some t → t.others k ≠ [] → t.Spares k t') : Undisturbed k b b' := by
  intro m u hu hne
  by_cases hm : m = n
  · subst hm
    exact ⟨t', by rw [hb, Std.ExtTreeMap.getElem?_insert_self], hs u hu hne⟩
  · exact ⟨u, by rw [hb, topic_insert_ne m hm, hu], .refl k u⟩

theorem put (ht : b.topics[n]? = some t) (hs : t.Spares k t') (hb : b'.topics = b.topics.insert n t') :
    Undisturbed k b b' := by
  refine .insert hb fun u hu _ => ?_
  obtain rfl := Option.some.inj (ht.symm.trans hu)
  exact hs

theorem create (h : b.Coherent) (e : String) : Undisturbed k b (b.create e).1 := by
  refine .insert rfl fun u hu _ => ?_
  rw [h.nextTopic_free] at hu
  simp at hu

theorem join (ht : b.topics[n]? = some t) (c : Caller L) : Undisturbed c.ticket b (b.join n c) := by
  have hs : t.Spares c.ticket (t.join c) := ⟨by simp, t.others_join c, by simp [Topic.brokerId?]⟩
  rw [Switchboard.join, ht]
  exact .put ht hs rfl

theorem leave (ht : b.topics[n]? = some t) (k : Ticket) : Undisturbed k b (b.leave n k) := by
  have hs : t.Spares k (t.leave k) := ⟨by simp, t.others_leave k, by simp [Topic.brokerId?]⟩
  simp only [Switchboard.leave, ht]
  exact .put ht hs rfl

theorem replace (ht : b.topics[n]? = some t) (c : Caller L) : Undisturbed c.ticket b (b.replace n c) := by
  have hs : t.Spares c.ticket (t.replace c) := ⟨by simp, t.others_replace c, by simp [Topic.brokerId?]⟩
  rw [Switchboard.replace, ht]
  exact .put ht hs rfl

theorem settle (h : b.Coherent) (link : Option LinkId) (n : TopicNo) : Undisturbed k b (b.settle link n).1 := by
  intro m t ht hne
  have ha : t.isActive = true := (h.proper ht).isActive fun hnil => hne (by simp [Topic.others, hnil])
  obtain ⟨t', ht', hkept⟩ := settle_keeps link n ht ha
  exact ⟨t', ht', hkept.spares k⟩

theorem settleEach (h : b.Coherent) (link : Option LinkId) (ns : List TopicNo) :
    Undisturbed k b (b.settleEach link ns).1 := by
  induction ns generalizing b with
  | nil => exact .of_topics rfl
  | cons n ns ih => exact (Undisturbed.settle h link n).trans (ih (h.settle link n))

theorem rename (ht : b.topics[n]? = some t) (hk : k ∈ t.tickets) (hlen : t.callers.length = 1) (e : String) :
    Undisturbed k b (b.rename n t e) := by
  refine .insert rfl fun u hu hne => ?_
  obtain rfl := Option.some.inj (ht.symm.trans hu)
  obtain ⟨d, hd, hdk⟩ := Topic.callers_of_alone hk hlen
  simp [Topic.others, hd, hdk] at hne

end Undisturbed

section Operations

variable {check : Expression.Check} {link : Option LinkId} {b : Switchboard L} {k : Ticket} {w : Wish L} {n : TopicNo}
  {t : Topic L}

theorem undisturbed_subscribe (hb : b.Coherent) (check : Expression.Check) (link : Option LinkId) (w : Wish L) :
    Undisturbed b.nextTicket b (b.subscribe check link w).2.1 := by
  rw [subscribe_eq]
  cases check w.expression with
  | some reason => exact .of_topics rfl
  | none =>
    obtain ⟨-, -, -, t, ht, -⟩ := topicFor_spec hb.issued w.expression
    have htopic : Undisturbed b.nextTicket b (b.issued.topicFor w.expression).1 := by
      unfold topicFor
      split
      · exact .of_topics rfl
      · have hissued : Undisturbed b.nextTicket b b.issued := .of_topics rfl
        exact hissued.trans (.create hb.issued _)
    have hjoin := Undisturbed.join ht (w.caller b.nextTicket)
    have hmove : Move link b.issued _ [] :=
      hb.issued.joinFor w.expression (c := w.caller b.nextTicket) hb.nextTicket_free (Nat.lt_succ_self _)
    have hcoherent := hb.issued.move hmove
    exact htopic.trans (hjoin.trans (.settle hcoherent link _))

theorem undisturbed_unsubscribe (hb : b.Coherent) (link : Option LinkId) (k : Ticket) :
    Undisturbed k b (b.unsubscribe link k).2.1 := by
  rw [unsubscribe_eq]
  cases hk : b.byTicket[k]? with
  | none => exact .of_topics rfl
  | some n =>
    obtain ⟨t, ht, -⟩ := (hb.tickets k n).mp hk
    exact (Undisturbed.leave ht k).trans (.settle (hb.leave hk) link _)

theorem undisturbed_revise (hb : b.Coherent) (check : Expression.Check) (link : Option LinkId) (k : Ticket)
    (w : Wish L) : Undisturbed k b (b.revise check link k w).2.1 := by
  have hr := revising hb check link k w
  generalize b.revise check link k w = r at hr
  cases hr with
  | unknown _ => exact .of_topics rfl
  | invalid _ _ _ _ => exact .of_topics rfl
  | kept _ ht _ =>
    exact (Undisturbed.replace ht (w.caller k)).trans (.settle (hb.replace ht (w.caller k)) link _)
  | @renamed n t hk ht _ _ hn hlen =>
    have hrename := Undisturbed.rename ht ((hb.tickets.mark_iff ht).mp hk) hlen w.expression
    have hreplace := Undisturbed.replace (b := b.rename n t w.expression) Std.ExtTreeMap.getElem?_insert_self
      (w.caller k)
    have hcoherent := (hb.rename ht hn).replace Std.ExtTreeMap.getElem?_insert_self (w.caller k)
    exact hrename.trans (hreplace.trans (.settle hcoherent link _))
  | @founded n t hk ht _ _ hn _ =>
    have hcreate := Undisturbed.create (k := k) (hb.leave hk) w.expression
    have hjoin := Undisturbed.join (b := ((b.leave n k).create w.expression).1)
      Std.ExtTreeMap.getElem?_insert_self (w.caller k)
    have hcoherent := (hb.leave hk).found (c := w.caller k) (by rwa [leave_byExpression]) (hb.free_of_leave hk).1
      (hb.free_of_leave hk).2
    exact (Undisturbed.leave ht k).trans (hcreate.trans (hjoin.trans (.settleEach hcoherent link _)))
  | moved hk ht _ _ hn =>
    obtain ⟨u, hu, -⟩ := (hb.leave hk).exists_topic (by rwa [leave_byExpression])
    have hjoin := Undisturbed.join hu (w.caller k)
    have hcoherent := (hb.leave hk).join (c := w.caller k) hu (hb.free_of_leave hk).1 (hb.free_of_leave hk).2
    exact (Undisturbed.leave ht k).trans (hjoin.trans (.settleEach hcoherent link _))

def Carries (b : Switchboard L) (e : String) (c : Caller L) : Prop :=
  ∃ (n : TopicNo) (t : Topic L), b.topics[n]? = some t ∧ t.Carries e c

theorem Carries.settle {e : String} {c : Caller L} (h : b.Carries e c) (hb : b.Coherent) (link : Option LinkId)
    (n : TopicNo) : (b.settle link n).1.Carries e c := by
  obtain ⟨m, t, ht, hc⟩ := h
  obtain ⟨t', ht', hkept⟩ := settle_keeps link n ht ((hb.proper ht).isActive hc.callers_ne_nil)
  exact ⟨m, t', ht', hc.kept hkept⟩

theorem Carries.settleEach {e : String} {c : Caller L} (h : b.Carries e c) (hb : b.Coherent) (link : Option LinkId)
    (ns : List TopicNo) : (b.settleEach link ns).1.Carries e c := by
  induction ns generalizing b with
  | nil => exact h
  | cons n ns ih => exact ih (h.settle hb link n) (hb.settle link n)

theorem carries_replace (hb : b.Coherent) (ht : b.topics[n]? = some t) {c : Caller L} (hc : c.ticket ∈ t.tickets) :
    (b.replace n c).Carries t.expression c := by
  refine ⟨n, t.replace c, ?_, Topic.carries_replace (hb.proper ht).nodup hc⟩
  rw [Switchboard.replace, ht]
  exact Std.ExtTreeMap.getElem?_insert_self

theorem carries_join (hb : b.Coherent) (ht : b.topics[n]? = some t) {c : Caller L}
    (hc : b.byTicket[c.ticket]? = none) : (b.join n c).Carries t.expression c := by
  refine ⟨n, t.join c, ?_, Topic.carries_join fun hmem => ?_⟩
  · rw [Switchboard.join, ht]
    exact Std.ExtTreeMap.getElem?_insert_self
  · rw [(hb.tickets.mark_iff ht).mpr hmem] at hc
    simp at hc

theorem revise_ok (link : Option LinkId) (hb : b.Coherent) (hk : b.byTicket[k]? = some n) (ht : b.topics[n]? = some t)
    (hw : t.expression = w.expression ∨ check w.expression = none) :
    ∃ r, b.revise check link k w = (.ok (), r) := by
  have hr := revising hb check link k w
  generalize b.revise check link k w = r at hr
  cases hr with
  | unknown hnone => simp [hk] at hnone
  | invalid hk' ht' hne hfault =>
    obtain rfl := Option.some.inj (hk.symm.trans hk')
    obtain rfl := Option.some.inj (ht.symm.trans ht')
    simp [hne, hfault] at hw
  | _ => exact ⟨_, rfl⟩

theorem revise_carries (hb : b.Coherent) {r : Switchboard L × List Call}
    (hs : b.revise check link k w = (.ok (), r)) : r.1.Carries w.expression (w.caller k) := by
  have hr := revising hb check link k w
  rw [hs] at hr
  cases hr with
  | kept hk ht he =>
    have hreplace := carries_replace (c := w.caller k) hb ht ((hb.tickets.mark_iff ht).mp hk)
    exact (he ▸ hreplace).settle (hb.replace ht (w.caller k)) link _
  | renamed hk ht _ _ hn _ =>
    have hreplace := carries_replace (c := w.caller k) (hb.rename ht hn) Std.ExtTreeMap.getElem?_insert_self
      ((hb.tickets.mark_iff ht).mp hk)
    have hcoherent := (hb.rename ht hn).replace Std.ExtTreeMap.getElem?_insert_self (w.caller k)
    exact hreplace.settle hcoherent link _
  | founded hk _ _ _ hn _ =>
    have hcreate := (hb.leave hk).create (by rwa [leave_byExpression])
    have hjoin := carries_join (c := w.caller k) hcreate Std.ExtTreeMap.getElem?_insert_self
      (hb.free_of_leave hk).1
    have hcoherent := (hb.leave hk).found (c := w.caller k) (by rwa [leave_byExpression]) (hb.free_of_leave hk).1
      (hb.free_of_leave hk).2
    exact hjoin.settleEach hcoherent link _
  | moved hk _ _ _ hn =>
    obtain ⟨u, hu, he⟩ := (hb.leave hk).exists_topic (by rwa [leave_byExpression])
    have hjoin := carries_join (c := w.caller k) (hb.leave hk) hu (hb.free_of_leave hk).1
    have hcoherent := (hb.leave hk).join (c := w.caller k) hu (hb.free_of_leave hk).1 (hb.free_of_leave hk).2
    exact (he ▸ hjoin).settleEach hcoherent link _

end Operations

structure Amends (link : Option LinkId) (request : RequestNo) (t : Topic L) (terms : Terms) (calls : List Call) :
    Prop where
  held : ∀ h, t.held = some h → ∀ call ∈ calls, ∃ l r a, call = .order l r (.modify h.id a)
  no_delete : ∀ l r id, .order l r (.delete id) ∉ calls
  busy : link = none ∨ t.pending ≠ none → calls = []
  idle : ∀ h l, t.held = some h → link = some l → t.pending = none →
    calls = if (h.terms.amendment terms).isEmpty then []
      else [.order l request (.modify h.id (h.terms.amendment terms))]

theorem Amends.congr {link : Option LinkId} {request : RequestNo} {t t' : Topic L} {terms : Terms}
    {calls : List Call} (h : Amends link request t terms calls) (hh : t'.held = t.held)
    (hp : t'.pending = t.pending) : Amends link request t' terms calls where
  held := fun i hi => h.held i (hh ▸ hi)
  no_delete := h.no_delete
  busy := fun hbusy => h.busy (hp ▸ hbusy)
  idle := fun i l hi hl hnone => h.idle i l (hh ▸ hi) hl (hp ▸ hnone)

section Alone

variable {check : Expression.Check} {link : Option LinkId} {b : Switchboard L} {k : Ticket} {w : Wish L} {n : TopicNo}
  {t : Topic L}

theorem settle_amends (link : Option LinkId) (ht : b.topics[n]? = some t) (ha : t.isActive = true)
    (hr : t.refused = false) : Amends link b.nextRequest t (t.wish b.table) (b.settle link n).2 := by
  have hs := settling link b n
  generalize b.settle link n = r at hs
  cases hs with
  | missing hnone => simp [hnone] at ht
  | idle hu hneeds =>
    obtain rfl := Option.some.inj (ht.symm.trans hu)
    refine ⟨by simp, by simp, fun _ => rfl, fun h l hh hl hp => ?_⟩
    subst hl
    cases hneeds with
    | busy hbusy => exact absurd hp hbusy
    | refused _ hr' => simp [hr] at hr'
  | removal hu _ hidle _ =>
    obtain rfl := Option.some.inj (ht.symm.trans hu)
    simp [ha] at hidle
  | confirmation _ hu _ _ _ hh he =>
    obtain rfl := Option.some.inj (ht.symm.trans hu)
    refine ⟨by simp, by simp, fun _ => rfl, fun h l hh' _ _ => ?_⟩
    obtain rfl := Option.some.inj (hh.symm.trans hh')
    rw [if_pos he]
  | @order l u errand order hl hu hp hw =>
    obtain rfl := Option.some.inj (ht.symm.trans hu)
    have hbusy : link = none ∨ t.pending ≠ none → False := by simp [hl, hp]
    cases hw with
    | add _ _ hh => exact ⟨by simp [hh], by simp [send], fun h => (hbusy h).elim, by simp [hh]⟩
    | modify _ _ hh he =>
      refine ⟨fun i hi call hmem => ?_, by simp [send], fun h => (hbusy h).elim, fun i l' hi hl' _ => ?_⟩
      · obtain rfl := Option.some.inj (hh.symm.trans hi)
        obtain rfl := List.mem_singleton.mp hmem
        exact ⟨_, _, _, rfl⟩
      · obtain rfl := Option.some.inj (hh.symm.trans hi)
        obtain rfl := Option.some.inj (hl.symm.trans hl')
        rw [if_neg (by simp [he])]
        rfl
    | delete hidle _ => simp [ha] at hidle

theorem revise_alone (link : Option LinkId) (hb : b.Coherent) (hk : b.byTicket[k]? = some n)
    (ht : b.topics[n]? = some t) (hlen : t.callers.length = 1)
    (hfree : ∀ (m : TopicNo) (u : Topic L), b.topics[m]? = some u → u.expression ≠ w.expression)
    (hw : check w.expression = none) :
    ∃ r, b.revise check link k w = (.ok (), r) ∧
      (∃ u, r.1.topics[n]? = some u ∧ u.Carries w.expression (w.caller k) ∧ u.brokerId? = t.brokerId?) ∧
      Amends link b.nextRequest t (.wanted w.expression w.keyNames.eraseDups b.table) r.2 := by
  have hmem := (hb.tickets.mark_iff ht).mp hk
  have hn : b.byExpression[w.expression]? = none := by
    refine Option.eq_none_iff_forall_ne_some.mpr fun m hm => ?_
    obtain ⟨u, hu, he⟩ := hb.exists_topic hm
    exact hfree m u hu he
  have hrenamed := revise_valid hk ht (hfree n t ht) hw link
  simp only [hn, hlen, if_true] at hrenamed
  let u : Topic L := { t with expression := w.expression, refused := false }
  have hput : (b.rename n t w.expression).topics[n]? = some u := Std.ExtTreeMap.getElem?_insert_self
  have hnow : ((b.rename n t w.expression).replace n (w.caller k)).topics[n]? =
      some (u.replace (w.caller k)) := by
    rw [replace, hput]
    exact Std.ExtTreeMap.getElem?_insert_self
  have hsame : ((b.rename n t w.expression).replace n (w.caller k)).nextRequest = b.nextRequest ∧
      ((b.rename n t w.expression).replace n (w.caller k)).table = b.table := by
    rw [replace, hput]
    exact ⟨rfl, rfl⟩
  have hcarries : (u.replace (w.caller k)).Carries w.expression (w.caller k) :=
    Topic.carries_replace (hb.proper ht).nodup hmem
  have hactive : (u.replace (w.caller k)).isActive = true := by
    rw [Topic.replace_isActive]
    exact (hb.proper ht).isActive (by simp [← List.length_pos_iff, hlen])
  obtain ⟨v, hv, hkept⟩ := settle_keeps link n hnow hactive
  have hwish : (u.replace (w.caller k)).wish b.table = .wanted w.expression w.keyNames.eraseDups b.table :=
    Topic.wish_replace (t := u) (c := w.caller k) hmem hlen b.table
  have hid : v.brokerId? = t.brokerId? := hkept.brokerId?.trans (by simp [Topic.brokerId?, u])
  have hamends := settle_amends link hnow hactive (u.replace_refused rfl _)
  rw [hsame.1, hsame.2, hwish] at hamends
  refine ⟨_, hrenamed, ⟨v, hv, hcarries.kept hkept, hid⟩, hamends.congr ?_ ?_⟩
  · exact (u.replace_held _).symm
  · exact (u.replace_pending _).symm

end Alone

end Switchboard

namespace Client

variable {c : Client L} {k : Ticket} {w : Wish L} {n : TopicNo} {t : Topic L}

def concerned (c : Client L) : Input L → Option Ticket
  | .subscribe _ => some c.board.nextTicket
  | .unsubscribe k => some k
  | .revise k _ => some k
  | _ => none

theorem step_revise_ok {r : Switchboard L × List Call} (h : c.board.revise c.check c.link? k w = (.ok (), r)) :
    c.step (.revise k w) = ({ c with board := r.1 }, .ofReply .accepted r.2) := by
  simp [step, revise, h, outcome, onBoard, Reply.ofResult]

theorem step_revise_invalid (hk : c.board.byTicket[k]? = some n) (ht : c.board.topics[n]? = some t)
    (hne : t.expression ≠ w.expression) {reason : String} (hw : c.check w.expression = some reason) :
    c.step (.revise k w) = (c, .ofReply (.fault (.invalidExpression w.expression reason)) []) := by
  simp [step, revise, Switchboard.revise_invalid hk ht hne hw, outcome, onBoard, Reply.ofResult]

theorem Sound.undisturbed (h : c.Sound) {i : Input L} (hi : c.concerned i = some k) :
    Switchboard.Undisturbed k c.board (c.step i).1.board := by
  cases i with
  | subscribe w =>
    obtain rfl := Option.some.inj hi
    exact Switchboard.undisturbed_subscribe h.coherent c.check c.link? w
  | unsubscribe k =>
    obtain rfl := Option.some.inj hi
    exact Switchboard.undisturbed_unsubscribe h.coherent c.link? k
  | revise k w =>
    obtain rfl := Option.some.inj hi
    exact Switchboard.undisturbed_revise h.coherent c.check c.link? k w
  | _ => simp [concerned] at hi

structure Neighbourly (c : Client L) : Prop where
  others : ∀ i k, c.concerned i = some k → ∀ (j : Ticket) (n : TopicNo), j ≠ k →
    c.board.byTicket[j]? = some n → (c.step i).1.board.byTicket[j]? = some n ∧
      ∃ t t', c.board.topics[n]? = some t ∧ (c.step i).1.board.topics[n]? = some t' ∧ t.Spares k t'
  revised : ∀ (k : Ticket) (w : Wish L) (n : TopicNo) (t : Topic L), c.board.byTicket[k]? = some n →
    c.board.topics[n]? = some t →
    (t.expression = w.expression ∨ c.check w.expression = none) →
    (c.step (.revise k w)).2.reply = .accepted ∧ ∃ (m : TopicNo) (t' : Topic L),
      (c.step (.revise k w)).1.board.byTicket[k]? = some m ∧
      (c.step (.revise k w)).1.board.topics[m]? = some t' ∧ t'.Carries w.expression (w.caller k)
  invalid : ∀ (k : Ticket) (w : Wish L) (n : TopicNo) (t : Topic L) (reason : String),
    c.board.byTicket[k]? = some n → c.board.topics[n]? = some t → t.expression ≠ w.expression →
    c.check w.expression = some reason →
    c.step (.revise k w) = (c, .ofReply (.fault (.invalidExpression w.expression reason)) [])
  alone : ∀ (k : Ticket) (w : Wish L) (n : TopicNo) (t : Topic L), c.board.byTicket[k]? = some n →
    c.board.topics[n]? = some t → t.callers.length = 1 →
    (∀ (m : TopicNo) (u : Topic L), c.board.topics[m]? = some u → u.expression ≠ w.expression) →
    c.check w.expression = none →
    (∃ t', (c.step (.revise k w)).1.board.topics[n]? = some t' ∧ t'.Carries w.expression (w.caller k) ∧
      t'.brokerId? = t.brokerId?) ∧
    Switchboard.Amends c.link? c.board.nextRequest t
      (.wanted w.expression w.keyNames.eraseDups c.board.table) (c.step (.revise k w)).2.calls

namespace Sound

theorem others (h : c.Sound) {i : Input L} (hi : c.concerned i = some k) {j : Ticket} (hj : j ≠ k)
    (hn : c.board.byTicket[j]? = some n) : (c.step i).1.board.byTicket[j]? = some n ∧
      ∃ t t', c.board.topics[n]? = some t ∧ (c.step i).1.board.topics[n]? = some t' ∧ t.Spares k t' := by
  obtain ⟨t, ht, hmem⟩ := (h.coherent.tickets j n).mp hn
  obtain ⟨t', ht', hs⟩ := h.undisturbed hi n t ht (Topic.others_ne_nil ⟨j, hmem, hj⟩)
  refine ⟨((h.step i).coherent.tickets.mark_iff ht').mpr ?_, t, t', ht, ht', hs⟩
  obtain ⟨d, hd, rfl⟩ := List.mem_map.mp hmem
  have hd' : d ∈ t'.others k := hs.others ▸ List.mem_filter.mpr ⟨hd, decide_eq_true hj⟩
  exact List.mem_map_of_mem (List.mem_filter.mp hd').1

theorem revised (h : c.Sound) (hk : c.board.byTicket[k]? = some n) (ht : c.board.topics[n]? = some t)
    (hw : t.expression = w.expression ∨ c.check w.expression = none) :
    (c.step (.revise k w)).2.reply = .accepted ∧ ∃ (m : TopicNo) (t' : Topic L),
      (c.step (.revise k w)).1.board.byTicket[k]? = some m ∧
      (c.step (.revise k w)).1.board.topics[m]? = some t' ∧ t'.Carries w.expression (w.caller k) := by
  obtain ⟨r, hr⟩ := Switchboard.revise_ok c.link? h.coherent hk ht hw
  obtain ⟨m, t', ht', hcarries⟩ := Switchboard.revise_carries h.coherent hr
  have hstep := h.step (.revise k w)
  rw [step_revise_ok hr] at hstep ⊢
  exact ⟨rfl, m, t', (hstep.coherent.tickets.mark_iff ht').mpr (List.mem_map_of_mem hcarries.mem), ht', hcarries⟩

theorem neighbourly (h : c.Sound) : c.Neighbourly where
  others := fun _ _ hi _ _ hj hn => h.others hi hj hn
  revised := fun _ _ _ _ hk ht hw => h.revised hk ht hw
  invalid := fun _ _ _ _ _ hk ht hne hw => step_revise_invalid hk ht hne hw
  alone := by
    intro k w n t hk ht hlen hfree hw
    obtain ⟨r, hr, htopic, hamends⟩ := Switchboard.revise_alone c.link? h.coherent hk ht hlen hfree hw
    rw [step_revise_ok hr]
    exact ⟨htopic, hamends⟩

end Sound

theorem neighbourly_run {check : Expression.Check} {s : Settings} (hc : Client.ofSettings check s = .ok c)
    (inputs : List (Input L)) : (c.run inputs).Neighbourly :=
  ((Sound.ofSettings hc).run inputs).neighbourly

def neighbourhood : List (Input Nat) :=
  [.start, .arrival (.connectResult 1 (.ok 7)), .subscribe ⟨"require(A)", ["k"], 0⟩,
    .subscribe ⟨"require(A)", [], 1⟩, .subscribe ⟨"require(B)", ["j"], 2⟩, .arrival (.ack 1 (.added (.ok 5))),
    .arrival (.ack 2 (.added (.ok 6))), .revise 3 ⟨"require(C)", ["j"], 2⟩]

theorem neighbourly_run_neighbourhood :
    ∃ c, Client.ofSettings Expression.refusal? (.ofEndpoint "tcp://broker") = .ok c ∧
      (c.run neighbourhood).Neighbourly :=
  ⟨_, rfl, neighbourly_run (s := .ofEndpoint "tcp://broker") rfl neighbourhood⟩

end Client

end Herald
