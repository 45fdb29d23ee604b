import Herald.Proofs.Dormancy
import Herald.Proofs.Neighbours
import Herald.Proofs.Parting
import Herald.Proofs.Resolution

namespace Herald

variable {L : Type}

namespace Key

namespace Selection

variable {s other : Selection} {usage : Usage} {e f : Entry}

def SameKeys (s other : Selection) : Prop :=
  ∀ (h : Hash) (secret : Option (List UInt8)),
    (∃ e ∈ s.named, e.hash = h ∧ e.secret = secret) ↔ ∃ e ∈ other.named, e.hash = h ∧ e.secret = secret

theorem SameKeys.symm (h : s.SameKeys other) : other.SameKeys s :=
  fun hash secret => (h hash secret).symm

theorem SameKeys.exists_private (h : s.SameKeys other) {hash : Hash}
    (hs : ∃ e ∈ s.named, e.hash = hash ∧ e.isPrivate = true) :
    ∃ f ∈ other.named, f.hash = hash ∧ f.isPrivate = true := by
  obtain ⟨e, he, hhash, hp⟩ := hs
  obtain ⟨f, hf, hfh, hs⟩ := (h hash e.secret).mp ⟨e, he, hhash, rfl⟩
  exact ⟨f, hf, hfh, by rwa [Entry.isPrivate, hs]⟩

theorem SameKeys.matchesEntry (h : s.SameKeys other) (he : e ∈ s.entries) : other.matchesEntry e = true := by
  obtain ⟨f, hf, hfh, -⟩ := (h e.hash e.secret).mp ⟨e, named_of_mem he, rfl, rfl⟩
  obtain ⟨g, hg, hgh⟩ := exists_entry hf
  have hhash : g.hash = e.hash := hgh.trans hfh
  refine matchesEntry_iff.mpr ⟨g, hg, hhash, ?_⟩
  rw [Bool.eq_iff_iff, isPrivate_iff hg, isPrivate_iff he, hhash]
  exact ⟨h.symm.exists_private, h.exists_private⟩

theorem SameKeys.isEmpty_changeTo (h : s.SameKeys other) : (s.changeTo other usage).isEmpty = true :=
  isEmpty_changeTo_iff.mpr ⟨fun _ => h.matchesEntry, fun _ => h.symm.matchesEntry⟩

theorem sameKeys_of_names {table : Table} {names names' : List String} (h : ∀ name, name ∈ names ↔ name ∈ names') :
    SameKeys ⟨table, names⟩ ⟨table, names'⟩ := by
  intro hash secret
  simp only [named, List.mem_filterMap, h]

theorem exists_secret {secret : List UInt8} (hs : e.secret = some secret) (usage : Usage) :
    ∃ k ∈ e.credentials usage, k.datum = .secret secret := by
  cases usage with
  | publish => exact ⟨⟨.producer, .secret secret⟩, by simp [Entry.credentials, hs], rfl⟩
  | receive => exact ⟨⟨.consumer, .secret secret⟩, by simp [Entry.credentials, hs], rfl⟩

theorem isPrivate_of_ring (h : ∀ k ∈ s.ring usage, k ∈ other.ring usage) (he : e ∈ s.entries)
    (hf : f ∈ other.entries) (hhash : e.hash = f.hash) (hp : e.isPrivate = true) : f.isPrivate = true := by
  obtain ⟨secret, hs⟩ := Option.isSome_iff_exists.mp hp
  obtain ⟨k, hk, hdatum⟩ := exists_secret hs usage
  obtain ⟨g, hg, hkg⟩ := mem_ring.mp (h k (mem_ring.mpr ⟨e, he, hk⟩))
  obtain rfl := entries_unique hf hg (hhash.symm.trans (Entry.hash_eq_of_mem hk hkg))
  rcases Entry.mem_credentials.mp hkg with ⟨hhashed, -⟩ | ⟨secret', hs', -, -⟩
  · rw [hdatum] at hhashed
    cases hhashed
  · exact Option.isSome_iff_exists.mpr ⟨secret', hs'⟩

theorem matchesEntry_of_ring (h : s.ring usage = other.ring usage) (he : e ∈ s.entries) :
    other.matchesEntry e = true := by
  obtain ⟨k, hk⟩ := exists_credential e usage
  obtain ⟨f, hf, hkf⟩ := mem_ring.mp (h ▸ mem_ring.mpr ⟨e, he, hk⟩ : k ∈ other.ring usage)
  have hhash : e.hash = f.hash := Entry.hash_eq_of_mem hk hkf
  refine matchesEntry_iff.mpr ⟨f, hf, hhash.symm, ?_⟩
  rw [Bool.eq_iff_iff]
  exact ⟨isPrivate_of_ring (fun _ hm => h.symm ▸ hm) hf he hhash.symm,
    isPrivate_of_ring (fun _ hm => h ▸ hm) he hf hhash⟩

theorem isEmpty_changeTo_of_ring (h : s.ring usage = other.ring usage) :
    (s.changeTo other usage).isEmpty = true :=
  isEmpty_changeTo_iff.mpr ⟨fun _ => matchesEntry_of_ring h, fun _ => matchesEntry_of_ring h.symm⟩

end Selection

end Key

namespace Terms

variable {old new : Terms}

def Flagged (t : Terms) : Prop :=
  t.insecure = t.ring.isEmpty

/-- An amendment turns the subscription under the old terms into that under the new, which is another, and names the
expression and the flag where they differ and only there. -/
structure Exact (old new : Terms) (a : Amendment) : Prop where
  amends : Key.NoCollision (old.table.secrets ++ new.table.secrets) → old.subscription.amend a = new.subscription
  differs : new.subscription ≠ old.subscription
  expression : a.expression.isSome = true ↔ old.expression ≠ new.expression
  insecure : a.insecure.isSome = true ↔ old.ring.isEmpty ≠ new.ring.isEmpty

theorem Agrees.refl (t : Terms) : t.Agrees t :=
  t.amendment_self

theorem agrees_of_subscription (h : old.subscription = new.subscription) : old.Agrees new := by
  simp only [subscription, Subscription.mk.injEq] at h
  exact agrees_iff.mpr ⟨h.1, Key.Selection.isEmpty_changeTo_of_ring h.2.1, h.2.2⟩

theorem agrees_wanted {table table' : Key.Table} {names names' : List String} (e : String)
    (h : Key.Selection.SameKeys ⟨table, names⟩ ⟨table', names'⟩) :
    (wanted e names table).Agrees (wanted e names' table') := by
  have hkeys : (Key.Selection.changeTo ⟨table, names⟩ ⟨table', names'⟩ .receive).isEmpty = true :=
    h.isEmpty_changeTo
  exact agrees_iff.mpr ⟨rfl, hkeys, Key.Selection.isEmpty_ring_eq hkeys⟩

theorem exact_amendment (ho : old.Flagged) (hn : new.Flagged) (h : ¬ old.Agrees new) :
    Exact old new (old.amendment new) where
  amends := subscription_amend
  differs := fun heq => h (agrees_of_subscription heq.symm)
  expression := by by_cases he : old.expression = new.expression <;> simp [amendment, he]
  insecure := by
    rw [← ho, ← hn]
    by_cases hi : old.insecure = new.insecure <;> simp [amendment, hi]

end Terms

namespace Topic

variable {t : Topic L} {table : Key.Table} {errand : Errand} {order : Order}

structure InLine (t : Topic L) (table : Key.Table) : Prop where
  wanted : t.callers ≠ []
  idle : t.pending = none
  held : ∃ i, t.held = some i ∧
    i.terms.subscription = (Terms.wanted t.expression t.wantedNames table).subscription

theorem Wants.terms_eq (h : t.Wants table errand order) : ∀ terms ∈ errand.terms?, terms = t.wish table := by
  cases h <;> simp [Errand.terms?]

theorem not_wants_of_agrees (hc : t.isActive = true) {i : Holding} (hh : t.held = some i)
    (ha : i.terms.Agrees (t.wish table)) : ¬ t.Wants table errand order := by
  intro hw
  cases hw with
  | add _ _ hnone => simp [hh] at hnone
  | modify _ _ hh' hne =>
    obtain rfl := Option.some.inj (hh.symm.trans hh')
    rw [show (i.terms.amendment (t.wish table)).isEmpty = true from ha] at hne
    cases hne
  | delete hidle _ => simp [hc] at hidle

theorem mem_wantedNames {name : String} : name ∈ t.wantedNames ↔ ∃ c ∈ t.callers, name ∈ c.keyNames := by
  simp [wantedNames]

theorem mem_wantedNames_replace (hd : t.tickets.Nodup) {c d : Caller L} (hmem : d ∈ t.callers)
    (hticket : d.ticket = c.ticket) (hnames : ∀ name, name ∈ c.keyNames ↔ name ∈ d.keyNames) (name : String) :
    name ∈ t.wantedNames ↔ name ∈ (t.replace c).wantedNames := by
  simp only [mem_wantedNames, replace_callers, List.mem_map]
  constructor
  · rintro ⟨a, ha, hname⟩
    by_cases he : a.ticket = c.ticket
    · obtain rfl := List.inj_on_of_nodup_map hd ha hmem (he.trans hticket.symm)
      exact ⟨c, ⟨a, ha, if_pos he⟩, (hnames name).mpr hname⟩
    · exact ⟨a, ⟨a, ha, if_neg he⟩, hname⟩
  · rintro ⟨-, ⟨a, ha, rfl⟩, hname⟩
    split at hname
    · exact ⟨d, hmem, (hnames name).mp hname⟩
    · exact ⟨a, ha, hname⟩

theorem need_of_agrees (hc : t.isActive = true) {i : Holding} (hh : t.held = some i)
    (ha : i.terms.Agrees (t.wish table)) (connected : Bool) :
    t.need table connected = .nothing ∨ ∃ terms, t.need table connected = .confirmation terms := by
  have hn := t.needs table connected
  generalize t.need table connected = need at hn
  cases hn with
  | removal _ hidle _ => simp [hc] at hidle
  | confirmation _ _ _ _ _ => exact .inr ⟨_, rfl⟩
  | order _ hw => exact absurd hw (not_wants_of_agrees hc hh ha)
  | _ => exact .inl rfl

end Topic

namespace Switchboard

variable {link : Option LinkId} {b b' : Switchboard L} {calls : List Call} {n m : TopicNo} {t : Topic L}
  {l : LinkId} {r : RequestNo} {o : Order} {id : BrokerId} {a : Amendment}

section Bears

variable {P : Terms → Prop}

theorem Bears.still (h : b.Bears P) (hs : Still b b') : b'.Bears P :=
  ⟨fun hi => h.held (hs.held _ ▸ hi), fun hp => h.pending (hs.pending _ ▸ hp)⟩

theorem Bears.settling (h : b.Bears P) (hwish : ∀ t : Topic L, P (t.wish b.table))
    {s : Switchboard L × List Call} (hs : Settling link b n s) : s.1.Bears P := by
  cases hs with
  | missing _ => exact h
  | idle _ _ => exact h
  | removal ht hp _ hh => exact h.still ⟨view_drop ht hh, view_drop ht hp⟩
  | @confirmation t i _ ht _ _ _ hh _ =>
    have hpending : b.view Topic.pending n = t.pending := view_of_topic ht
    refine ⟨fun {m j} hj => ?_, fun {m p} hp => ?_⟩
    · rw [view_insert (b := b) (t := t.confirm (t.wish b.table)) rfl] at hj
      split at hj
      · obtain rfl : { i with terms := t.wish b.table } = j := by simpa [Topic.confirm, hh] using hj
        exact hwish t
      · exact h.held hj
    · rw [view_put (t := t.confirm (t.wish b.table)) rfl hpending] at hp
      exact h.pending hp
  | @order l t errand order _ ht hp hw =>
    have hheld : b.view Topic.held n = t.held := view_of_topic ht
    refine ⟨fun {m j} hj => ?_, fun {m p} hp => ?_⟩
    · rw [view_put (t := { t with pending := some ⟨b.nextRequest, errand⟩ }) rfl hheld] at hj
      exact h.held hj
    · rw [view_insert (b := b) (t := { t with pending := some ⟨b.nextRequest, errand⟩ }) rfl] at hp
      split at hp
      · obtain rfl := Option.some.inj hp
        exact fun terms hterms => hw.terms_eq terms hterms ▸ hwish t
      · exact h.pending hp

theorem Bears.moves (h : b.Bears P) (hb : b.Coherent) (hwish : ∀ t : Topic L, P (t.wish b.table))
    (m : Moves link b b' calls) : b'.Bears P := by
  induction m with
  | refl => exact h
  | step m _ ih =>
    refine ih ?_ (hb.move m) (m.table_eq ▸ hwish)
    obtain ⟨-, hs⟩ | ⟨n, hs⟩ := m.still_or_settling hb
    · exact h.still hs
    · exact h.settling hwish hs

theorem Bears.acknowledge (h : b.Bears P) (hb : b.Coherent) (hwish : ∀ t : Topic L, P (t.wish b.table))
    (link : Option LinkId) (request : RequestNo) (ack : Ack) : (b.acknowledge link request ack).1.Bears P := by
  have ha := acknowledging hb link request ack
  generalize b.acknowledge link request ack = s at ha
  cases ha with
  | unknown _ => exact h
  | @known n t p s hr ht hp hpr hres =>
    subst hpr
    have htable : s.1.table = b.table := hres ▸ table_conclude p.errand ack
    exact (hres ▸ h.conclude ht hp ack).settling (htable ▸ hwish) (Switchboard.settling link s.1 n)

theorem Quiet.bears (h : b.Quiet) : b.Bears P where
  held := fun {n i} hi => by simp [h.view (fun _ ht => ht.1) n] at hi
  pending := fun {n p} hp => by simp [h.view (fun _ ht => ht.2.1) n] at hp

end Bears

def Issued (b : Switchboard L) (r : RequestNo) (o : Order) : Prop :=
  ∃ (n : TopicNo) (t : Topic L) (errand : Errand),
    b.topics[n]? = some { t with pending := some ⟨r, errand⟩ } ∧ t.Wants b.table errand o

section Issued

variable {check : Expression.Check} {k : Ticket} {w : Wish L}

theorem settle_issued (h : .order l r o ∈ (b.settle link n).2) : (b.settle link n).1.Issued r o := by
  have hs := settling link b n
  generalize b.settle link n = s at hs h
  cases hs with
  | order _ _ _ hw =>
    obtain ⟨-, rfl, rfl⟩ := Call.order.inj (List.mem_singleton.mp h)
    exact ⟨n, _, _, Std.ExtTreeMap.getElem?_insert_self, hw⟩
  | _ => simp at h

theorem Issued.settle (h : b.Issued r o) (link : Option LinkId) (m : TopicNo) : (b.settle link m).1.Issued r o := by
  obtain ⟨n, t, errand, ht, hw⟩ := h
  refine ⟨n, t, errand, ?_, (Moves.settle link b m).table_eq ▸ hw⟩
  by_cases hm : n = m
  · subst hm
    rw [settle_of_nothing ht (by simp [Topic.need])]
    exact ht
  · exact (settle_others link b hm).trans ht

theorem Issued.settleEach (h : b.Issued r o) (link : Option LinkId) (ns : List TopicNo) :
    (b.settleEach link ns).1.Issued r o := by
  induction ns generalizing b with
  | nil => exact h
  | cons m ns ih => exact ih (h.settle link m)

theorem settleEach_issued {ns : List TopicNo} (h : .order l r o ∈ (b.settleEach link ns).2) :
    (b.settleEach link ns).1.Issued r o := by
  induction ns generalizing b with
  | nil => simp [Switchboard.settleEach] at h
  | cons m ns ih =>
    rw [settleEach_cons, List.mem_append] at h
    exact h.elim (fun h => (settle_issued h).settleEach link ns) ih

theorem subscribe_issued (h : .order l r o ∈ (b.subscribe check link w).2.2) :
    (b.subscribe check link w).2.1.Issued r o := by
  rw [subscribe_eq] at h ⊢
  cases hw : check w.expression with
  | some reason => simp [hw] at h
  | none =>
    rw [hw] at h
    exact settle_issued h

theorem unsubscribe_issued (h : .order l r o ∈ (b.unsubscribe link k).2.2) :
    (b.unsubscribe link k).2.1.Issued r o := by
  rw [unsubscribe_eq] at h ⊢
  cases hk : b.byTicket[k]? with
  | none => simp [hk] at h
  | some n =>
    rw [hk] at h
    exact settle_issued h

theorem revise_issued (hb : b.Coherent) (h : .order l r o ∈ (b.revise check link k w).2.2) :
    (b.revise check link k w).2.1.Issued r o := by
  have hr := revising hb check link k w
  generalize b.revise check link k w = s at hr h
  cases hr with
  | unknown _ => simp at h
  | invalid _ _ _ _ => simp at h
  | kept _ _ _ => exact settle_issued h
  | renamed _ _ _ _ _ _ => exact settle_issued h
  | founded _ _ _ _ _ _ => exact settleEach_issued h
  | moved _ _ _ _ _ => exact settleEach_issued h

theorem acknowledge_issued (hb : b.Coherent) {request : RequestNo} {ack : Ack}
    (h : .order l r o ∈ (b.acknowledge link request ack).2.1) :
    (b.acknowledge link request ack).1.Issued r o := by
  have ha := acknowledging hb link request ack
  generalize b.acknowledge link request ack = s at ha h
  cases ha with
  | unknown _ => simp at h
  | known _ _ _ _ _ => exact settle_issued h

theorem unsubscribeEach_issued {ks : List Ticket} (h : .order l r o ∈ (b.unsubscribeEach link ks).2) :
    ∃ gone, gone <+: ks ∧ (b.unsubscribeEach link gone).1.Issued r o := by
  induction ks generalizing b with
  | nil => simp [unsubscribeEach] at h
  | cons k ks ih =>
    rw [unsubscribeEach_cons, List.mem_append] at h
    rcases h with h | h
    · exact ⟨[k], List.prefix_append [k] ks, unsubscribe_issued h⟩
    · obtain ⟨gone, hgone, hissued⟩ := ih h
      exact ⟨k :: gone, (List.prefix_cons_inj k).mpr hgone, hissued⟩

end Issued

section Modifies

structure Modifies (b : Switchboard L) (r : RequestNo) (id : BrokerId) (a : Amendment) (n : TopicNo) (t : Topic L)
    (i : Holding) : Prop where
  topic : b.topics[n]? = some t
  pending : t.pending = some ⟨r, .modify (.wanted t.expression t.wantedNames b.table)⟩
  held : t.held = some i
  id : i.id = id
  exact : i.terms.Exact (.wanted t.expression t.wantedNames b.table) a

theorem Issued.modifies (h : b.Issued r (.modify id a)) (hb : b.Coherent) (ho : b.Occupied)
    (hf : b.Bears Terms.Flagged) : ∃ n t i, b.Modifies r id a n t i := by
  obtain ⟨n, t, errand, ht, hw⟩ := h
  generalize horder : Order.modify id a = o at hw
  cases hw with
  | add _ _ _ => cases horder
  | delete _ _ => cases horder
  | @modify i hc _ hh hne =>
    cases horder
    have hwish : t.wish b.table = .wanted t.expression t.wantedNames b.table :=
      congrArg (Terms.wanted t.expression · b.table) ((hb.proper ht).keyNames (ho n _ ht hc))
    have hflagged : i.terms.Flagged := hf.held ((view_of_topic ht).trans hh)
    have hwished : (t.wish b.table).Flagged := rfl
    have hexact := Terms.exact_amendment hflagged hwished (by simp [Terms.Agrees, hne])
    rw [hwish] at ht hexact ⊢
    exact ⟨n, _, i, ht, rfl, hh, rfl, hexact⟩

end Modifies

section Agreeing

theorem settle_of_agrees (ht : b.topics[n]? = some t) (hc : t.isActive = true) {i : Holding} (hh : t.held = some i)
    (ha : i.terms.Agrees (t.wish b.table)) (link : Option LinkId) : (b.settle link n).2 = [] := by
  unfold settle
  obtain hneed | ⟨terms, hneed⟩ := Topic.need_of_agrees hc hh ha link.isSome <;> simp [ht, hneed]

theorem Effect.held_agrees (he : Effect b b' calls) {i' : Holding} (hi : b'.view Topic.held n = some i') :
    ∃ i, b.view Topic.held n = some i ∧ i.terms.Agrees i'.terms := by
  cases he with
  | still hh _ => exact ⟨i', hh n ▸ hi, .refl _⟩
  | @confirmed m i terms _ hheld _ hempty hh _ =>
    rw [hh] at hi
    split at hi
    · next e =>
      obtain rfl := Option.some.inj hi
      exact ⟨i, e ▸ hheld, hempty⟩
    · exact ⟨i', hi, .refl _⟩
  | ordered _ _ _ hh _ => exact ⟨i', hh n ▸ hi, .refl _⟩

theorem Moves.held_agrees (m : Moves link b b' calls) (hb : b.Coherent) {i' : Holding}
    (hi : b'.view Topic.held n = some i') : ∃ i, b.view Topic.held n = some i ∧ i.terms.Agrees i'.terms := by
  induction m with
  | refl => exact ⟨i', hi, .refl _⟩
  | step m _ ih =>
    obtain ⟨j, hj, hagrees⟩ := ih (hb.move m) hi
    obtain ⟨i, hi, hagrees'⟩ := (m.effect hb).held_agrees hj
    exact ⟨i, hi, hagrees'.trans hagrees⟩

theorem acknowledge_held_agrees (hb : b.Coherent) {request : RequestNo} {ack : Ack}
    (hp : b.view Topic.pending n = none) {i' : Holding}
    (hi : (b.acknowledge link request ack).1.view Topic.held n = some i') :
    ∃ i, b.view Topic.held n = some i ∧ i.terms.Agrees i'.terms := by
  have ha := acknowledging hb link request ack
  generalize b.acknowledge link request ack = s at ha hi
  cases ha with
  | unknown _ => exact ⟨i', hi, .refl _⟩
  | @known m t p s hr ht hpending hpr hres =>
    subst hpr
    have hne : n ≠ m := by
      rintro rfl
      simp [view_of_topic ht, hpending] at hp
    obtain ⟨i, hheld, hagrees⟩ := (effect_settle link s.1 m).held_agrees hi
    rw [← hres, held_conclude, if_neg hne] at hheld
    exact ⟨i, hheld, hagrees⟩

end Agreeing

end Switchboard

namespace Client

variable {c : Client L} {i : Input L} {n : TopicNo} {t : Topic L} {l : LinkId} {r : RequestNo} {o : Order}

/-- A switchboard that a step leaves behind, or comes by as its callers leave one after another in a shutdown. -/
def Passes (c : Client L) : Input L → Switchboard L → Prop
  | .shutdown, b => ∃ gone, gone <+: c.board.byTicket.keys ∧ b = (c.board.unsubscribeEach c.link? gone).1
  | i, b => b = (c.step i).1.board

section Issued

theorem not_order_mem {calls : List Call} (h : ∀ call ∈ calls, call.isOrder = false) :
    .order l r o ∉ calls := fun hmem => by simpa [Call.isOrder] using h _ hmem

theorem issued_connectResult {attempt : AttemptNo} {result : Except LinkFailure LinkId}
    (hmem : .order l r o ∈ (c.step (.arrival (.connectResult attempt result))).2.calls) :
    (c.step (.arrival (.connectResult attempt result))).1.board.Issued r o := by
  by_cases hnot : c.connection.awaited ≠ some attempt ∨ ∃ failure, result = .error failure
  · rw [(connectResult_of_not_made hnot).2] at hmem
    have hsilent := Connection.connectResult_silent _ _ _ _ hmem
    simp [Call.over?] at hsilent
  · obtain ⟨ha, link, rfl⟩ : c.connection.awaited = some attempt ∧ ∃ link, result = .ok link := by
      cases result <;> simp_all
    obtain ⟨-, hboard, hcalls⟩ := connectResult_awaited ha link
    rw [hcalls] at hmem
    rw [hboard]
    exact Switchboard.settleEach_issued hmem

theorem Sound.issued (h : c.Sound) (hmem : .order l r o ∈ (c.step i).2.calls) :
    ∃ b, c.Passes i b ∧ b.Issued r o := by
  cases i with
  | start => exact absurd hmem (not_order_mem (Connection.dial_not_order _))
  | disconnect => exact absurd hmem (not_order_mem (Connection.close_not_order _))
  | shutdown =>
    rcases List.mem_append.mp hmem with hmem | hmem
    · obtain ⟨gone, hgone, hissued⟩ := Switchboard.unsubscribeEach_issued hmem
      exact ⟨_, ⟨gone, hgone, rfl⟩, hissued⟩
    · exact absurd hmem (not_order_mem (Connection.close_not_order _))
  | subscribe w =>
    exact ⟨_, rfl, Switchboard.subscribe_issued hmem⟩
  | unsubscribe k =>
    exact ⟨_, rfl, Switchboard.unsubscribe_issued hmem⟩
  | revise k w =>
    exact ⟨_, rfl, Switchboard.revise_issued h.coherent hmem⟩
  | send n names =>
    cases hl : c.link? <;> simp [Client.step, send, hl, Output.ofReply] at hmem
  | reloadKeys records =>
    refine ⟨_, rfl, ?_⟩
    simp only [Client.step, reloadKeys] at hmem ⊢
    cases hr : Key.Table.ofRecords records with
    | error fault => simp [hr, outcome, Output.ofReply] at hmem
    | ok table =>
      rw [hr] at hmem
      exact Switchboard.settleEach_issued hmem
  | arrival a =>
    refine ⟨_, rfl, ?_⟩
    cases a with
    | connectResult attempt result => exact issued_connectResult hmem
    | retryDue => exact absurd hmem (not_order_mem (Connection.dial_not_order _))
    | connectionLost failure =>
      rw [connectionLost_calls] at hmem
      exact absurd hmem (not_order_mem (Connection.lose_not_order _ _))
    | ack request a => exact Switchboard.acknowledge_issued h.coherent hmem
    | notification id n => simp [Client.step, arrive, Output.ofAudience] at hmem
    | notifySent result => simp [Client.step, arrive, Output.ofCalls] at hmem

end Issued

section Invariants

variable {P : Terms → Prop}

theorem Sound.bears_step (h : c.Sound) (hP : ∀ (t : Topic L) (table : Key.Table), P (t.wish table))
    (hb : c.board.Bears P) (i : Input L) : (c.step i).1.board.Bears P := by
  have hch := h.change i
  generalize (c.step i).1 = c', (c.step i).2.calls = calls at hch
  cases hch with
  | rest _ _ _ hboard _ _ => exact hboard ▸ hb
  | serve _ _ hm _ _ => exact hb.moves h.coherent (fun t => hP t _) hm
  | @rekey records table _ hboard _ =>
    have hwith : (c.board.withTable table).Bears P := ⟨hb.held, hb.pending⟩
    exact hboard ▸ hwith.moves (h.coherent.withTable table) (fun t => hP t _) (Switchboard.rekey_moves _ _ _)
  | ack hboard _ => exact hboard ▸ hb.acknowledge h.coherent (fun t => hP t _) _ _ _
  | down _ _ _ hboard _ _ => exact hboard ▸ (Switchboard.Quiet.disconnected _).bears
  | up _ _ hboard _ =>
    exact hboard ▸ (Switchboard.Quiet.disconnected _).bears.moves h.coherent.disconnected (fun t => hP t _)
      (Switchboard.reconnected_moves _ _)

theorem Sound.bears_run (h : c.Sound) (hP : ∀ (t : Topic L) (table : Key.Table), P (t.wish table))
    (hb : c.board.Bears P) (inputs : List (Input L)) : (c.run inputs).board.Bears P := by
  induction inputs generalizing c with
  | nil => exact hb
  | cons i inputs ih => exact ih (h.step i) (h.bears_step hP hb i)

theorem Sound.passes (h : c.Sound) (hP : ∀ (t : Topic L) (table : Key.Table), P (t.wish table))
    (hb : c.board.Bears P) {b : Switchboard L} (hpasses : c.Passes i b) : b.Coherent ∧ b.Occupied ∧ b.Bears P := by
  unfold Passes at hpasses
  split at hpasses
  · obtain ⟨gone, -, rfl⟩ := hpasses
    have hm := Switchboard.unsubscribeEach_moves c.link? c.board gone
    exact ⟨h.coherent.moves hm, h.occupied.moves hm, hb.moves h.coherent (fun t => hP t _) hm⟩
  · subst hpasses
    exact ⟨(h.step i).coherent, (h.step i).occupied, h.bears_step hP hb i⟩

end Invariants

section Silence

theorem passes_iff (hi : i ≠ .shutdown) {b : Switchboard L} : c.Passes i b ↔ b = (c.step i).1.board := by
  unfold Passes
  split
  · exact absurd rfl hi
  · rfl

theorem Sound.held_agrees (h : c.Sound) (hp : c.board.view Topic.pending n = none) (hcl : i.closes = false)
    {j : Holding} (hj : (c.step i).1.board.view Topic.held n = some j) :
    ∃ k, c.board.view Topic.held n = some k ∧ k.terms.Agrees j.terms := by
  have hch := h.change i
  generalize (c.step i).1 = c', (c.step i).2.calls = calls at hch hj
  cases hch with
  | rest _ _ _ hboard _ _ => exact ⟨j, hboard ▸ hj, .refl _⟩
  | serve _ _ hm _ _ => exact hm.held_agrees h.coherent hj
  | @rekey records table _ hboard _ =>
    exact (Switchboard.rekey_moves _ c.board table).held_agrees (h.coherent.withTable table) (hboard ▸ hj)
  | ack hboard _ => exact Switchboard.acknowledge_held_agrees h.coherent hp (hboard ▸ hj)
  | down hdown _ _ _ _ _ => simp [hdown] at hcl
  | up _ _ hboard _ =>
    -- Before a new connection nothing is held, so neither can anything be after it.
    obtain ⟨k, hk, -⟩ := (Switchboard.reconnected_moves _ c.board).held_agrees h.coherent.disconnected (hboard ▸ hj)
    simp [(Switchboard.Quiet.disconnected c.board).view (fun _ ht => ht.1) n] at hk

theorem Sound.unmodified (h : c.Sound) (ht : c.board.topics[n]? = some t) (hin : t.InLine c.board.table)
    (hi : i ≠ .shutdown) {t' : Topic L} (ht' : (c.step i).1.board.topics[n]? = some t')
    (hsame : (Terms.wanted t'.expression t'.wantedNames (c.step i).1.board.table).subscription =
      (Terms.wanted t.expression t.wantedNames c.board.table).subscription) {id : BrokerId} {a : Amendment}
    (hmem : .order l r (.modify id a) ∈ (c.step i).2.calls) : c.topicOf i r ≠ some n := by
  intro htopic
  have hcl : i.closes = false := by
    refine Bool.of_not_eq_true fun hcl => ?_
    have hnone := (ordersOf_of_closes hcl (c := c)).resolve_left hi
    have hordered : (r, Order.modify id a) ∈ c.ordersOf i := List.mem_filterMap.mpr ⟨_, hmem, rfl⟩
    simp [hnone] at hordered
  have hb' := (h.step i).coherent
  obtain ⟨b, hpasses, m, u, errand, hu, hw⟩ := h.issued hmem
  obtain rfl := (passes_iff hi).mp hpasses
  have hm : (c.step i).1.board.byRequest[r]? = some m := (hb'.requests.mark_iff hu).mpr rfl
  obtain rfl : m = n := Option.some.inj (hm.symm.trans ((c.topicOf_eq hcl r).symm.trans htopic))
  obtain rfl := Option.some.inj (hu.symm.trans ht')
  have hpending : c.board.view Topic.pending m = none := (Switchboard.view_of_topic ht).trans hin.idle
  obtain ⟨k, hk, hterms⟩ := hin.held
  cases hw with
  | @modify j hc hr hh hne =>
    obtain ⟨k', hk', hagrees⟩ := h.held_agrees hpending hcl ((Switchboard.view_of_topic ht').trans hh)
    obtain rfl := Option.some.inj (hk.symm.trans ((Switchboard.view_of_topic ht).symm.trans hk'))
    have hwish : k.terms.Agrees (u.wish (c.step i).1.board.table) := by
      have hnames := (hb'.proper ht').keyNames ((h.step i).occupied m _ ht' hc)
      refine Terms.agrees_of_subscription (hterms.trans (hsame.symm.trans ?_))
      exact congrArg (fun names => (Terms.wanted u.expression names _).subscription) hnames.symm
    exact Topic.not_wants_of_agrees hc hh (hagrees.symm.trans hwish) (.modify hc hr hh hne)

theorem Sound.silent_revise (h : c.Sound) {k : Ticket} {w : Wish L} (hk : c.board.byTicket[k]? = some n)
    (ht : c.board.topics[n]? = some t) (hin : t.InLine c.board.table) (he : t.expression = w.expression)
    {d : Caller L} (hd : d ∈ t.callers) (hticket : d.ticket = k)
    (hnames : ∀ name, name ∈ w.keyNames ↔ name ∈ d.keyNames) :
    (c.step (.revise k w)).2 = .ofReply .accepted [] := by
  obtain ⟨i, hheld, hterms⟩ := hin.held
  have hrevise := Switchboard.revise_kept hk ht he c.check c.link?
  have hnow : (c.board.replace n (w.caller k)).topics[n]? = some (t.replace (w.caller k)) := by
    rw [Switchboard.replace, ht]
    exact Std.ExtTreeMap.getElem?_insert_self
  have htable : (c.board.replace n (w.caller k)).table = c.board.table := by
    rw [Switchboard.replace, ht]
    rfl
  have hagrees : i.terms.Agrees ((t.replace (w.caller k)).wish c.board.table) := by
    have hsame := Topic.mem_wantedNames_replace (c := w.caller k) (h.coherent.proper ht).nodup hd hticket hnames
    rw [Topic.wish, Topic.replace_keyNames, Topic.replace_expression]
    exact (Terms.agrees_of_subscription hterms).trans
      (Terms.agrees_wanted _ (Key.Selection.sameKeys_of_names hsame))
  have hactive : (t.replace (w.caller k)).isActive = true :=
    (Topic.replace_isActive _ _).trans ((h.isActive_iff ht).mpr hin.wanted)
  have hcalls := Switchboard.settle_of_agrees hnow hactive
    ((Topic.replace_held _ _).trans hheld) (htable ▸ hagrees) c.link?
  rw [step_revise_ok hrevise, hcalls]

theorem Sound.not_asks_reloadKeys (h : c.Sound) {records : List Key.Record} {table : Key.Table}
    (htable : Key.Table.ofRecords records = .ok table) (ht : c.board.topics[n]? = some t)
    (hin : t.InLine c.board.table)
    (hsame : Key.Selection.SameKeys ⟨c.board.table, t.wantedNames⟩ ⟨table, t.wantedNames⟩) :
    some n ∉ c.asks (.reloadKeys records) := by
  obtain ⟨i, hheld, hterms⟩ := hin.held
  obtain ⟨link, hl⟩ : ∃ link, c.link? = some link := by
    refine Option.ne_none_iff_exists'.mp fun hnone => ?_
    simp [(h.quiet hnone n t ht).1] at hheld
  have hagrees : i.terms.Agrees (t.wish table) := by
    rw [Topic.wish, (h.coherent.proper ht).keyNames hin.wanted]
    exact (Terms.agrees_of_subscription hterms).trans (Terms.agrees_wanted _ hsame)
  obtain ⟨r, hmeet, -⟩ := Switchboard.settleAll_meets (b := c.board.withTable table) link ht
  obtain ⟨t', ht', hp⟩ : ∃ t', t.meet r (t.need table true) = some t' ∧ t'.pending = none := by
    obtain hneed | ⟨terms, hneed⟩ := Topic.need_of_agrees ((h.isActive_iff ht).mpr hin.wanted) hheld hagrees true
    · exact ⟨t, by rw [hneed]; rfl, hin.idle⟩
    · exact ⟨t.confirm terms, by rw [hneed]; rfl, hin.idle⟩
  have hafter : (c.step (.reloadKeys records)).1.board.topics[n]? = some t' := by
    simp only [Client.step, reloadKeys, htable, hl]
    exact hmeet.trans ht'
  exact h.not_mem_asks hafter hp rfl

end Silence

structure Sparing (c : Client L) : Prop where
  modifies : ∀ {i l r id a}, .order l r (.modify id a) ∈ (c.step i).2.calls →
    ∃ b n t j, c.Passes i b ∧ b.Modifies r id a n t j
  unmodified : ∀ {i n t t' l r id a}, c.board.topics[n]? = some t → t.InLine c.board.table → i ≠ .shutdown →
    (c.step i).1.board.topics[n]? = some t' →
    (Terms.wanted t'.expression t'.wantedNames (c.step i).1.board.table).subscription =
      (Terms.wanted t.expression t.wantedNames c.board.table).subscription →
    .order l r (.modify id a) ∈ (c.step i).2.calls → c.topicOf i r ≠ some n
  revised : ∀ {k w n t d}, c.board.byTicket[k]? = some n → c.board.topics[n]? = some t →
    t.InLine c.board.table → t.expression = w.expression → d ∈ t.callers → d.ticket = k →
    (∀ name, name ∈ w.keyNames ↔ name ∈ d.keyNames) → (c.step (.revise k w)).2 = .ofReply .accepted []
  reloaded : ∀ {records table n t}, Key.Table.ofRecords records = .ok table → c.board.topics[n]? = some t →
    t.InLine c.board.table → Key.Selection.SameKeys ⟨c.board.table, t.wantedNames⟩ ⟨table, t.wantedNames⟩ →
    some n ∉ c.asks (.reloadKeys records)

theorem Sound.sparing (h : c.Sound) (hf : c.board.Bears Terms.Flagged) : c.Sparing where
  modifies := by
    intro i l r id a hmem
    obtain ⟨b, hpasses, hissued⟩ := h.issued hmem
    obtain ⟨hb, ho, hflagged⟩ := h.passes (fun _ _ => rfl) hf hpasses
    obtain ⟨n, t, j, hmodifies⟩ := hissued.modifies hb ho hflagged
    exact ⟨b, n, t, j, hpasses, hmodifies⟩
  unmodified := fun ht hin hi ht' hsame hmem => h.unmodified ht hin hi ht' hsame hmem
  revised := fun hk ht hin he hd hticket hnames => h.silent_revise hk ht hin he hd hticket hnames
  reloaded := fun htable ht hin hsame => h.not_asks_reloadKeys htable ht hin hsame

theorem sparing_run {check : Expression.Check} {s : Settings} (hc : Client.ofSettings check s = .ok c)
    (inputs : List (Input L)) : (c.run inputs).Sparing := by
  have h := Sound.ofSettings hc
  have hf : c.board.Bears Terms.Flagged := by
    obtain rfl := eq_of_ofSettings hc
    exact (Switchboard.Quiet.ofTable _).bears
  exact (h.run inputs).sparing (h.bears_run (fun _ _ => rfl) hf inputs)

def twoKeys : List (Input Nat) :=
  [.start, .arrival (.connectResult 1 (.ok 7)), .reloadKeys [⟨"k", false, [1]⟩, ⟨"j", false, [2]⟩],
    .subscribe ⟨"require(A)", ["k", "j"], 0⟩, .arrival (.ack 1 (.added (.ok 5)))]

theorem sparing_run_twoKeys : ∃ (c : Client Nat) (a : Amendment) (b : Switchboard Nat) (n : TopicNo)
    (t : Topic Nat) (j : Holding), Client.ofSettings Expression.refusal? (.ofEndpoint "tcp://broker") = .ok c ∧
    ((c.run twoKeys).step (.revise 1 ⟨"require(B)", [], 0⟩)).2.calls = [.order 7 2 (.modify 5 a)] ∧
    (c.run twoKeys).Passes (.revise 1 ⟨"require(B)", [], 0⟩) b ∧ b.Modifies 2 5 a n t j ∧
    ((c.run twoKeys).step (.revise 1 ⟨"require(A)", ["j", "k", "j"], 9⟩)).2 = .ofReply .accepted [] := by
  have hc := ofSettings_ofEndpoint (L := Nat) Expression.refusal? "tcp://broker" (by decide)
  have hsparing := sparing_run hc twoKeys
  have hnames (name : String) : name ∈ ["j", "k", "j"] ↔ name ∈ ["k", "j"] := by
    simp [or_comm]
  obtain ⟨b, n, t, j, hpasses, hmodifies⟩ :=
    hsparing.modifies (i := .revise 1 ⟨"require(B)", [], 0⟩) (l := 7) (r := 2) (.head _)
  exact ⟨_, _, b, n, t, j, rfl, rfl, hpasses, hmodifies,
    hsparing.revised rfl rfl ⟨List.cons_ne_nil _ _, rfl, _, rfl, rfl⟩ rfl (.head _) rfl hnames⟩

end Client

end Herald
