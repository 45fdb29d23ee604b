import Herald.Proofs.Dormancy
import Mathlib.Logic.Equiv.Basic
/-!
Answers for different topics commute. What an answer brings about depends on its topic and the key table alone, and it
changes nothing but that topic, its places in the indexes and the number that comes next. So the order of two answers
shows in nothing but the numbers of the orders that go out for them: where each brings one about, the two numbers are
exchanged.
-/

namespace Herald

variable {L : Type}

def Ack.id? : Ack → Option BrokerId
  | .added (.ok id) => some id
  | _ => none

namespace Errand

variable {errand : Errand} {held : Option Holding} {ack : Ack} {id : BrokerId}

def gained? : Errand → Ack → Option BrokerId
  | .add _, ack => ack.id?
  | _, _ => none

def lost? (held : Option Holding) : Errand → Ack → Option BrokerId
  | .delete, .deleted _ => held.map (·.id)
  | _, _ => none

theorem id_of_gained (h : errand.gained? ack = some id) : ack.id? = some id := by
  unfold gained? at h
  split at h
  · exact h
  · cases h

theorem held_of_lost (h : errand.lost? held ack = some id) : held.map (·.id) = some id := by
  unfold lost? at h
  split at h
  · exact h
  · cases h

end Errand

def Need.removes : Need → Bool
  | .removal => true
  | _ => false

def Call.renumber (ρ : Equiv.Perm RequestNo) : Call → Call
  | .order link request o => .order link (ρ request) o
  | call => call

/-- What an answer brings about. What becomes of its topic depends on the number of the order that goes out next. -/
structure Reaction (L : Type) where
  answered : RequestNo
  topic : RequestNo → Option (Topic L)
  order? : Option Order
  dropped? : Option String
  gained? : Option BrokerId
  lost? : Option BrokerId
  rejection? : Option Rejection

namespace Topic

def heard (t : Topic L) (errand : Errand) (ack : Ack) : Topic L :=
  { t with
    pending := none
    held := errand.result t.held ack
    refused := match errand.refused? ack with
      | none => t.refused
      | some _ => true }

def reaction (t : Topic L) (table : Key.Table) (p : Pending) (ack : Ack) : Reaction L :=
  let need := (t.heard p.errand ack).need table true
  { answered := p.request
    topic := fun request => (t.heard p.errand ack).meet request need
    order? := need.order?
    dropped? := if need.removes then some t.expression else none
    gained? := p.errand.gained? ack
    lost? := p.errand.lost? t.held ack
    rejection? := if t.isActive then p.errand.rejection? ack else none }

def renumber (ρ : Equiv.Perm RequestNo) (t : Topic L) : Topic L :=
  { t with pending := t.pending.map fun p => { p with request := ρ p.request } }

variable {t : Topic L} {ρ : Equiv.Perm RequestNo} {r r' : RequestNo}

theorem renumber_of_fixed (h : ∀ r, t.request? = some r → ρ r = r) : t.renumber ρ = t := by
  have hpending : (t.pending.map fun p => { p with request := ρ p.request }) = t.pending := by
    cases hp : t.pending with
    | none => rfl
    | some p =>
      have hfix := h p.request (by simp [request?, hp])
      simp [hfix]
  rw [renumber, hpending]

theorem renumber_of_idle (h : t.pending = none) : t.renumber ρ = t :=
  renumber_of_fixed (by simp [request?, h])

theorem meet_renumber {need : Need} (hp : t.pending = none) (h : need.order?.isSome → ρ r = r') :
    t.meet r' need = (t.meet r need).map (renumber ρ) := by
  cases need with
  | nothing => simp [meet, renumber_of_idle hp]
  | removal => rfl
  | confirmation terms => simp [meet, renumber_of_idle (t := t.confirm terms) hp]
  | order errand order => simp [meet, renumber, h rfl]

end Topic

namespace Reaction

structure Proper (a : Reaction L) (next : RequestNo) : Prop where
  answered_lt : a.answered < next
  renumber : ∀ {ρ : Equiv.Perm RequestNo} {r r' : RequestNo}, (a.order?.isSome → ρ r = r') →
    a.topic r' = (a.topic r).map (Topic.renumber ρ)

structure Apart (a a' : Reaction L) : Prop where
  gained : ∀ id, a.gained? = some id → a'.gained? ≠ some id ∧ a'.lost? ≠ some id
  lost : ∀ id, a.lost? = some id → a'.gained? ≠ some id

end Reaction

namespace Switchboard

variable {b : Switchboard L} {n : TopicNo} {t : Topic L}

section Reactions

structure Reacts (link : LinkId) (b : Switchboard L) (n : TopicNo) (a : Reaction L)
    (r : Switchboard L × List Call × Option Rejection) : Prop where
  topics : ∀ m : TopicNo, r.1.topics[m]? = if m = n then a.topic b.nextRequest else b.topics[m]?
  byExpression : ∀ e : String, r.1.byExpression[e]? = if a.dropped? = some e then none else b.byExpression[e]?
  byBrokerId : ∀ id : BrokerId, r.1.byBrokerId[id]? =
    if a.gained? = some id then some n else if a.lost? = some id then none else b.byBrokerId[id]?
  byRequest : ∀ k : RequestNo, r.1.byRequest[k]? =
    if a.order?.isSome ∧ k = b.nextRequest then some n else if k = a.answered then none else b.byRequest[k]?
  byTicket : r.1.byTicket = b.byTicket
  table : r.1.table = b.table
  nextTopic : r.1.nextTopic = b.nextTopic
  nextTicket : r.1.nextTicket = b.nextTicket
  nextRequest : r.1.nextRequest = b.nextRequest + a.order?.toList.length
  calls : r.2.1 = numbered link b.nextRequest a.order?.toList
  rejection : r.2.2 = a.rejection?

theorem topic_insert (topics : Std.ExtTreeMap TopicNo (Topic L)) (n : TopicNo) (t : Topic L) (m : TopicNo) :
    (topics.insert n t)[m]? = if m = n then some t else topics[m]? := by
  rw [Std.ExtTreeMap.getElem?_insert]
  simp only [Std.LawfulEqOrd.compare_eq_iff_eq, eq_comm (a := n)]

theorem request_erase (index : Std.ExtTreeMap RequestNo TopicNo) (r k : RequestNo) :
    (index.erase r)[k]? = if k = r then none else index[k]? := by
  rw [Std.ExtTreeMap.getElem?_erase]
  simp only [Std.LawfulEqOrd.compare_eq_iff_eq, eq_comm (a := r)]

theorem byBrokerId_settle (link : Option LinkId) (b : Switchboard L) (n : TopicNo) :
    (b.settle link n).1.byBrokerId = b.byBrokerId := by
  have hs := settling link b n
  generalize b.settle link n = r at hs
  cases hs with
  | removal _ _ _ hh => simp [drop, hh]
  | _ => rfl

theorem conclude_heard (b : Switchboard L) (n : TopicNo) (t : Topic L) (errand : Errand) (ack : Ack) :
    ∃ ids, (b.conclude n { t with pending := none } errand ack).1 =
        { b.put n (t.heard errand ack) with byBrokerId := ids } ∧
      ∀ id : BrokerId, ids[id]? = if errand.gained? ack = some id then some n
        else if errand.lost? t.held ack = some id then none else b.byBrokerId[id]? := by
  rcases ack with (_ | id) | (_ | _) | _ <;> cases errand
  case added.ok.add terms =>
    refine ⟨_, rfl, fun i => ?_⟩
    simp [Errand.gained?, Ack.id?, Errand.lost?, Std.ExtTreeMap.getElem?_insert]
  case deleted.delete =>
    refine ⟨_, rfl, fun i => ?_⟩
    cases hh : t.held <;> simp [Errand.gained?, Errand.lost?, Std.ExtTreeMap.getElem?_erase]
  all_goals exact ⟨_, rfl, fun _ => rfl⟩

theorem settle_eq (link : LinkId) (ht : b.topics[n]? = some t) : b.settle (some link) n =
    match t.need b.table true with
    | .nothing => (b, [])
    | .removal => (b.drop n t, [])
    | .confirmation terms => (b.put n (t.confirm terms), [])
    | .order errand order => b.send link n t errand order := by
  simp only [settle, ht, Option.isSome_some]
  cases t.need b.table true <;> rfl

variable {p : Pending}

theorem byBrokerId_acknowledge (hb : b.Coherent) (link : Option LinkId) (ht : b.topics[n]? = some t)
    (hp : t.pending = some p) (ack : Ack) (id : BrokerId) :
    (b.acknowledge link p.request ack).1.byBrokerId[id]? = if p.errand.gained? ack = some id then some n
      else if p.errand.lost? t.held ack = some id then none else b.byBrokerId[id]? := by
  obtain ⟨ids, heq, hids⟩ := conclude_heard (b.answered p.request) n t p.errand ack
  rw [acknowledge_pending hb link ht hp rfl, byBrokerId_settle, heq]
  exact hids id

theorem reacts_acknowledge (hb : b.Coherent) (link : LinkId) (ht : b.topics[n]? = some t)
    (hp : t.pending = some p) (ack : Ack) :
    b.Reacts link n (t.reaction b.table p ack) (b.acknowledge (some link) p.request ack) := by
  have hids := byBrokerId_acknowledge hb (some link) ht hp ack
  have hrejection := acknowledge_rejection hb (some link) ht hp ack
  have he : b.byExpression[t.expression]? = some n := (hb.expressions.mark_iff ht).mpr rfl
  obtain ⟨ids, heq, -⟩ := conclude_heard (b.answered p.request) n t p.errand ack
  rw [acknowledge_pending hb (some link) ht hp rfl, heq,
    settle_eq link (t := t.heard p.errand ack) Std.ExtTreeMap.getElem?_insert_self] at hids hrejection ⊢
  dsimp only [Topic.reaction, put, answered, drop, send] at hids ⊢
  generalize (t.heard p.errand ack).need b.table true = need at hids ⊢
  cases need with
  | nothing =>
    exact ⟨topic_insert _ _ _, by simp [Need.removes], hids, by simp [Need.order?, request_erase], rfl, rfl, rfl, rfl,
      rfl, rfl, hrejection⟩
  | removal =>
    refine ⟨fun m => ?_, fun e => ?_, hids, by simp [Need.order?, request_erase], rfl, rfl, rfl, rfl, rfl, rfl,
      hrejection⟩
    · by_cases hm : m = n
      · simp [hm, Topic.meet]
      · simp [Std.ExtTreeMap.getElem?_erase, topic_insert, hm, Ne.symm hm]
    · simp [Topic.heard, he, Std.ExtTreeMap.getElem?_erase, Need.removes]
  | confirmation terms =>
    refine ⟨fun m => ?_, by simp [Need.removes], hids, by simp [Need.order?, request_erase], rfl, rfl, rfl, rfl, rfl,
      rfl, hrejection⟩
    by_cases hm : m = n <;> simp [topic_insert, Topic.meet, hm]
  | order errand order =>
    refine ⟨fun m => ?_, by simp [Need.removes], hids, fun k => ?_, rfl, rfl, rfl, rfl, rfl, rfl, hrejection⟩
    · by_cases hm : m = n <;> simp [topic_insert, Topic.meet, hm]
    · simp [Need.order?, Std.ExtTreeMap.getElem?_insert, request_erase, eq_comm (a := k)]

end Reactions

section Renumbered

/-- The numbers of two orders that go out one after the other, either of which may be missing, as they are exchanged
when the second goes out first. -/
structure Exchanges (ρ : Equiv.Perm RequestNo) (next : RequestNo) (o o' : Option Order) : Prop where
  first : o.isSome → ρ next = next + o'.toList.length
  second : o'.isSome → ρ (next + o.toList.length) = next
  others : ∀ r, ¬ (o.isSome ∧ r = next) → ¬ (o'.isSome ∧ r = next + o.toList.length) → ρ r = r

theorem issued_comm (r next : RequestNo) (o o' : Option Order) :
    o.isSome ∧ r = next ∨ o'.isSome ∧ r = next + o.toList.length ↔
      o'.isSome ∧ r = next ∨ o.isSome ∧ r = next + o'.toList.length := by
  cases o <;> cases o' <;> simp

theorem exists_exchange (next : RequestNo) (o o' : Option Order) : ∃ ρ, Exchanges ρ next o o' := by
  cases o with
  | none => exact ⟨.refl _, by simp, fun _ => rfl, fun _ _ _ => rfl⟩
  | some o =>
    cases o' with
    | none => exact ⟨.refl _, fun _ => rfl, by simp, fun _ _ _ => rfl⟩
    | some o' =>
      refine ⟨.swap next (next + 1), fun _ => Equiv.swap_apply_left _ _, fun _ => Equiv.swap_apply_right _ _,
        fun r hfirst hsecond => Equiv.swap_apply_of_ne_of_ne ?_ ?_⟩
      · exact fun e => hfirst ⟨rfl, e⟩
      · exact fun e => hsecond ⟨rfl, e⟩

theorem Exchanges.of_lt {ρ : Equiv.Perm RequestNo} {next : RequestNo} {o o' : Option Order}
    (h : Exchanges ρ next o o') {r : RequestNo} (hr : r < next) : ρ r = r :=
  h.others r (fun e => Nat.ne_of_lt hr e.2) (fun e => Nat.ne_of_lt (Nat.lt_add_right _ hr) e.2)

theorem Exchanges.issued {ρ : Equiv.Perm RequestNo} {next : RequestNo} {o o' : Option Order}
    (h : Exchanges ρ next o o') {r : RequestNo} (hr : ρ r ≠ r) :
    next ≤ r ∧ r < next + o.toList.length + o'.toList.length := by
  by_cases hfirst : o.isSome ∧ r = next
  · obtain ⟨ho, rfl⟩ := hfirst
    obtain ⟨order, rfl⟩ := Option.isSome_iff_exists.mp ho
    exact ⟨Nat.le_refl _, Nat.lt_add_right _ (Nat.lt_succ_self _)⟩
  · by_cases hsecond : o'.isSome ∧ r = next + o.toList.length
    · obtain ⟨ho, rfl⟩ := hsecond
      obtain ⟨order, rfl⟩ := Option.isSome_iff_exists.mp ho
      exact ⟨Nat.le_add_right _ _, Nat.lt_succ_self _⟩
    · exact absurd (h.others r hfirst hsecond) hr

theorem numbered_renumber {ρ : Equiv.Perm RequestNo} (link : LinkId) {request request' : RequestNo}
    {o : Option Order} (h : o.isSome → ρ request = request') :
    (numbered link request o.toList).map (Call.renumber ρ) = numbered link request' o.toList := by
  cases o with
  | none => rfl
  | some o => simp [numbered, Call.renumber, h rfl]

structure Renumbered (ρ : Equiv.Perm RequestNo) (b b' : Switchboard L) : Prop where
  topics : ∀ n : TopicNo, b'.topics[n]? = (b.topics[n]?).map (Topic.renumber ρ)
  byRequest : ∀ r : RequestNo, b'.byRequest[ρ r]? = b.byRequest[r]?
  byExpression : b'.byExpression = b.byExpression
  byBrokerId : b'.byBrokerId = b.byBrokerId
  byTicket : b'.byTicket = b.byTicket
  table : b'.table = b.table
  nextTopic : b'.nextTopic = b.nextTopic
  nextTicket : b'.nextTicket = b.nextTicket
  nextRequest : b'.nextRequest = b.nextRequest

end Renumbered

section Diamond

variable {link : LinkId} {n' : TopicNo} {a a' : Reaction L} {x y x' y' : Switchboard L × List Call × Option Rejection}
  {ρ : Equiv.Perm RequestNo}

/-- Two answers are heard in either order: `x` is the first and `y` the second, `x'` the second and `y'` the first. -/
structure Diamond (link : LinkId) (b : Switchboard L) (n n' : TopicNo) (a a' : Reaction L)
    (x y x' y' : Switchboard L × List Call × Option Rejection) : Prop where
  first : b.Reacts link n a x
  second : x.1.Reacts link n' a' y
  first' : b.Reacts link n' a' x'
  second' : x'.1.Reacts link n a y'

variable (d : Diamond link b n n' a a' x y x' y') (ha : a.Proper b.nextRequest) (ha' : a'.Proper b.nextRequest)
  (hapart : a.Apart a') (hne : n ≠ n') (hρ : Exchanges ρ b.nextRequest a.order? a'.order?)

include d

include ha ha' hne hρ in
theorem Diamond.topics (hb : b.Coherent) (m : TopicNo) :
    y'.1.topics[m]? = (y.1.topics[m]?).map (Topic.renumber ρ) := by
  rw [d.second.topics, d.second'.topics, d.first.topics, d.first'.topics, d.first.nextRequest, d.first'.nextRequest]
  by_cases hm : m = n
  · subst hm
    rw [if_pos rfl, if_neg hne, if_pos rfl]
    exact ha.renumber hρ.first
  · by_cases hm' : m = n'
    · subst hm'
      rw [if_neg hm, if_pos rfl, if_pos rfl]
      exact ha'.renumber hρ.second
    · simp only [if_neg hm, if_neg hm']
      cases ht : b.topics[m]? with
      | none => rfl
      | some t =>
        have hfixed : t.renumber ρ = t := Topic.renumber_of_fixed fun r hr =>
          hρ.of_lt (hb.request_lt ((hb.requests.mark_iff ht).mpr hr))
        rw [Option.map_some, hfixed]

include ha ha' hρ in
theorem Diamond.byRequest (r : RequestNo) : y'.1.byRequest[ρ r]? = y.1.byRequest[r]? := by
  have hfree : b.nextRequest ≠ a.answered := Nat.ne_of_gt ha.answered_lt
  have hfree' : b.nextRequest ≠ a'.answered := Nat.ne_of_gt ha'.answered_lt
  rw [d.second.byRequest, d.second'.byRequest, d.first.byRequest, d.first'.byRequest, d.first.nextRequest,
    d.first'.nextRequest]
  by_cases hfirst : a.order?.isSome ∧ r = b.nextRequest
  · obtain ⟨ho, rfl⟩ := hfirst
    have hnext : ¬ (a'.order?.isSome ∧ b.nextRequest = b.nextRequest + a.order?.toList.length) := by
      simp [Option.isSome_iff_ne_none.mp ho]
    rw [hρ.first ho, if_pos ⟨ho, rfl⟩, if_neg hnext, if_neg hfree', if_pos ⟨ho, rfl⟩]
  · by_cases hsecond : a'.order?.isSome ∧ r = b.nextRequest + a.order?.toList.length
    · obtain ⟨ho, rfl⟩ := hsecond
      have hnext : ¬ (a.order?.isSome ∧ b.nextRequest = b.nextRequest + a'.order?.toList.length) := by
        simp [Option.isSome_iff_ne_none.mp ho]
      rw [hρ.second ho, if_neg hnext, if_neg hfree, if_pos ⟨ho, rfl⟩, if_pos ⟨ho, rfl⟩]
    · have hnew := (issued_comm r b.nextRequest _ _).not.mp (not_or.mpr ⟨hfirst, hsecond⟩)
      obtain ⟨hfirst', hsecond'⟩ := not_or.mp hnew
      rw [hρ.others r hfirst hsecond, if_neg hfirst, if_neg hsecond, if_neg hfirst', if_neg hsecond']
      split <;> split <;> rfl

include hapart in
theorem Diamond.byBrokerId : y'.1.byBrokerId = y.1.byBrokerId := by
  refine Std.ExtTreeMap.ext_getElem? fun id => ?_
  rw [d.second.byBrokerId, d.second'.byBrokerId, d.first.byBrokerId, d.first'.byBrokerId]
  have hgained := hapart.gained id
  have hlost := hapart.lost id
  split <;> split <;> simp_all

theorem Diamond.byExpression : y'.1.byExpression = y.1.byExpression := by
  refine Std.ExtTreeMap.ext_getElem? fun e => ?_
  rw [d.second.byExpression, d.second'.byExpression, d.first.byExpression, d.first'.byExpression]
  split <;> split <;> rfl

include ha ha' hapart hne hρ in
theorem Diamond.renumbered (hb : b.Coherent) : Renumbered ρ y.1 y'.1 where
  topics := d.topics ha ha' hne hρ hb
  byRequest := d.byRequest ha ha' hρ
  byExpression := d.byExpression
  byBrokerId := d.byBrokerId hapart
  byTicket := by rw [d.second'.byTicket, d.first'.byTicket, d.second.byTicket, d.first.byTicket]
  table := by rw [d.second'.table, d.first'.table, d.second.table, d.first.table]
  nextTopic := by rw [d.second'.nextTopic, d.first'.nextTopic, d.second.nextTopic, d.first.nextTopic]
  nextTicket := by rw [d.second'.nextTicket, d.first'.nextTicket, d.second.nextTicket, d.first.nextTicket]
  nextRequest := by
    rw [d.second'.nextRequest, d.first'.nextRequest, d.second.nextRequest, d.first.nextRequest, Nat.add_right_comm]

include hρ in
theorem Diamond.calls : ((x.2.1 ++ y.2.1).map (Call.renumber ρ)).Perm (x'.2.1 ++ y'.2.1) := by
  have hfirst := numbered_renumber link hρ.first
  have hsecond := numbered_renumber link hρ.second
  rw [d.first.calls, d.second.calls, d.first'.calls, d.second'.calls, d.first.nextRequest, d.first'.nextRequest,
    List.map_append, hfirst, hsecond]
  exact List.perm_append_comm

theorem Diamond.news : ((x.2.2.map News.rejected).toList ++ (y.2.2.map News.rejected).toList).Perm
    ((x'.2.2.map News.rejected).toList ++ (y'.2.2.map News.rejected).toList) := by
  rw [d.first.rejection, d.second.rejection, d.first'.rejection, d.second'.rejection]
  exact List.perm_append_comm

end Diamond

structure NewIds (b : Switchboard L) (ack ack' : Ack) : Prop where
  distinct : ∀ id ∈ ack.id?, id ∉ ack'.id?
  unheld : ∀ e ∈ b.topics.toList, ∀ id ∈ e.2.brokerId?, id ∉ ack.id? ∧ id ∉ ack'.id?

instance (b : Switchboard L) (ack ack' : Ack) : Decidable (b.NewIds ack ack') :=
  decidable_of_iff
    ((∀ id ∈ ack.id?, id ∉ ack'.id?) ∧
      ∀ e ∈ b.topics.toList, ∀ id ∈ e.2.brokerId?, id ∉ ack.id? ∧ id ∉ ack'.id?)
    ⟨fun h => ⟨h.1, h.2⟩, fun h => ⟨h.distinct, h.unheld⟩⟩

theorem Coherent.reaction (hb : b.Coherent) (ht : b.topics[n]? = some t) {p : Pending} (hp : t.pending = some p)
    (table : Key.Table) (ack : Ack) : (t.reaction table p ack).Proper b.nextRequest where
  answered_lt := hb.request_lt ((hb.requests.mark_iff ht).mpr (by simp [Topic.request?, Topic.reaction, hp]))
  renumber := Topic.meet_renumber rfl

theorem NewIds.apart {ack ack' : Ack} (h : b.NewIds ack ack') {n' : TopicNo} {t' : Topic L}
    (ht : b.topics[n]? = some t) (ht' : b.topics[n']? = some t') (table : Key.Table) (p p' : Pending) :
    (t.reaction table p ack).Apart (t'.reaction table p' ack') where
  gained := by
    intro id hid
    have hack := Errand.id_of_gained hid
    have hmem := Std.ExtTreeMap.mem_toList_iff_getElem?_eq_some.mpr ht'
    exact ⟨fun hid' => h.distinct id hack (Errand.id_of_gained hid'),
      fun hid' => (h.unheld _ hmem id (Errand.held_of_lost hid')).1 hack⟩
  lost := by
    intro id hid hid'
    have hmem := Std.ExtTreeMap.mem_toList_iff_getElem?_eq_some.mpr ht
    exact (h.unheld _ hmem id (Errand.held_of_lost hid)).2 (Errand.id_of_gained hid')

theorem diamond_acknowledge (hb : b.Coherent) (link : LinkId) {n' : TopicNo} {t' : Topic L} (hne : n ≠ n')
    (ht : b.topics[n]? = some t) (ht' : b.topics[n']? = some t') {p p' : Pending} (hp : t.pending = some p)
    (hp' : t'.pending = some p') (ack ack' : Ack) :
    Diamond link b n n' (t.reaction b.table p ack) (t'.reaction b.table p' ack')
      (b.acknowledge (some link) p.request ack)
      ((b.acknowledge (some link) p.request ack).1.acknowledge (some link) p'.request ack')
      (b.acknowledge (some link) p'.request ack')
      ((b.acknowledge (some link) p'.request ack').1.acknowledge (some link) p.request ack) := by
  have hfirst := reacts_acknowledge hb link ht hp ack
  have hfirst' := reacts_acknowledge hb link ht' hp' ack'
  have hstill : (b.acknowledge (some link) p.request ack).1.topics[n']? = some t' := by
    rw [hfirst.topics, if_neg hne.symm, ht']
  have hstill' : (b.acknowledge (some link) p'.request ack').1.topics[n]? = some t := by
    rw [hfirst'.topics, if_neg hne, ht]
  have hsecond := reacts_acknowledge (hb.acknowledge (some link) p.request ack) link hstill hp' ack'
  have hsecond' := reacts_acknowledge (hb.acknowledge (some link) p'.request ack') link hstill' hp ack
  rw [hfirst.table] at hsecond
  rw [hfirst'.table] at hsecond'
  exact ⟨hfirst, hsecond, hfirst', hsecond'⟩

end Switchboard

namespace Client

/-- Two inputs the other way round lead to the same client, the same calls and the same news, but for the numbers of the
requests that they issue. -/
structure CommutesUpTo (ρ : Equiv.Perm RequestNo) (c : Client L) (i j : Input L) : Prop where
  issued : ∀ r, ρ r ≠ r → c.board.nextRequest ≤ r ∧ r < (c.run [i, j]).board.nextRequest
  connection : (c.run [j, i]).connection = (c.run [i, j]).connection
  board : Switchboard.Renumbered ρ (c.run [i, j]).board (c.run [j, i]).board
  calls : ((c.callsOf [i, j]).map (Call.renumber ρ)).Perm (c.callsOf [j, i])
  news : (c.gather (fun c i => (c.step i).2.news) [i, j]).Perm (c.gather (fun c i => (c.step i).2.news) [j, i])

def Commutes (c : Client L) (i j : Input L) : Prop :=
  ∃ ρ, c.CommutesUpTo ρ i j

section Commuting

theorem gather_pair {α : Type} (yields : Client L → Input L → List α) (c : Client L) (i j : Input L) :
    c.gather yields [i, j] = yields c i ++ yields (c.step i).1 j := by
  simp [gather]

theorem run_acks (c : Client L) (r r' : RequestNo) (ack ack' : Ack) :
    c.run [.arrival (.ack r ack), .arrival (.ack r' ack')] =
      { c with board := ((c.board.acknowledge c.link? r ack).1.acknowledge c.link? r' ack').1 } := rfl

theorem callsOf_acks (c : Client L) (r r' : RequestNo) (ack ack' : Ack) :
    c.callsOf [.arrival (.ack r ack), .arrival (.ack r' ack')] = (c.board.acknowledge c.link? r ack).2.1 ++
      ((c.board.acknowledge c.link? r ack).1.acknowledge c.link? r' ack').2.1 :=
  gather_pair _ c _ _

variable {c : Client L} {r r' : RequestNo} {n n' : TopicNo} {ack ack' : Ack}

theorem Sound.commutes (h : c.Sound) (hr : c.board.byRequest[r]? = some n) (hr' : c.board.byRequest[r']? = some n')
    (hne : n ≠ n') (hnew : c.board.NewIds ack ack') :
    c.Commutes (.arrival (.ack r ack)) (.arrival (.ack r' ack')) := by
  obtain ⟨t, ht, hrequest⟩ := (h.coherent.requests r n).mp hr
  obtain ⟨p, hp, rfl⟩ := Option.map_eq_some_iff.mp hrequest
  obtain ⟨t', ht', hrequest'⟩ := (h.coherent.requests r' n').mp hr'
  obtain ⟨p', hp', rfl⟩ := Option.map_eq_some_iff.mp hrequest'
  obtain ⟨link, hl⟩ := h.exists_link ht hp
  have d := Switchboard.diamond_acknowledge h.coherent link hne ht ht' hp hp' ack ack'
  rw [← hl] at d
  obtain ⟨ρ, hρ⟩ := Switchboard.exists_exchange c.board.nextRequest (t.reaction c.board.table p ack).order?
    (t'.reaction c.board.table p' ack').order?
  have ha := h.coherent.reaction ht hp c.board.table ack
  have ha' := h.coherent.reaction ht' hp' c.board.table ack'
  refine ⟨ρ, fun r hmoved => ?_, ?_, ?_, ?_, ?_⟩
  · rw [run_acks, d.second.nextRequest, d.first.nextRequest]
    exact hρ.issued hmoved
  · rw [run_acks, run_acks]
  · rw [run_acks, run_acks]
    exact d.renumbered ha ha' (hnew.apart ht ht' _ p p') hne hρ h.coherent
  · rw [callsOf_acks, callsOf_acks]
    exact d.calls hρ
  · rw [gather_pair, gather_pair]
    exact d.news

theorem commutes_run {check : Expression.Check} {s : Settings} (hc : Client.ofSettings check s = .ok c)
    (inputs : List (Input L))
    (hr : (c.run inputs).board.byRequest[r]? = some n) (hr' : (c.run inputs).board.byRequest[r']? = some n')
    (hne : n ≠ n') (hnew : (c.run inputs).board.NewIds ack ack') :
    (c.run inputs).Commutes (.arrival (.ack r ack)) (.arrival (.ack r' ack')) :=
  ((Sound.ofSettings hc).run inputs).commutes hr hr' hne hnew

end Commuting

def restlessCallers : List (Input Nat) :=
  [.start, .arrival (.connectResult 1 (.ok 7)), .subscribe ⟨"require(A)", [], 0⟩,
    .arrival (.ack 1 (.added (.ok 4))), .subscribe ⟨"require(B)", [], 1⟩, .subscribe ⟨"require(C)", [], 2⟩,
    .unsubscribe 2, .revise 3 ⟨"require(D)", [], 3⟩]

def added (request : RequestNo) (id : BrokerId) : Input Nat :=
  .arrival (.ack request (.added (.ok id)))

theorem commutes_run_restlessCallers : ∃ c d : Client Nat,
    Client.ofSettings Expression.refusal? (.ofEndpoint "tcp://broker") = .ok c ∧ c.run restlessCallers = d ∧
    d.board.byRequest[2]? = some 2 ∧ d.board.byRequest[3]? = some 3 ∧
    d.board.NewIds (.added (.ok 5)) (.added (.ok 6)) ∧ (d.callsOf [added 2 5, added 3 6]).length = 2 ∧
    d.Commutes (added 2 5) (added 3 6) := by
  have hnew : (run ⟨Expression.refusal?, .ofSettings (.ofEndpoint "tcp://broker"), .ofTable .empty⟩
      restlessCallers).board.NewIds (.added (.ok 5)) (.added (.ok 6)) := by decide +kernel
  exact ⟨_, _, rfl, rfl, rfl, rfl, hnew, rfl,
    commutes_run (s := .ofEndpoint "tcp://broker") rfl restlessCallers rfl rfl (by decide) hnew⟩

end Client

end Herald
