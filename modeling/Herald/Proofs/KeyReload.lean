import Herald.Proofs.Resubscription
import Mathlib.Data.List.Basic

namespace Herald

variable {L : Type}

namespace Key.Table

theorem foldlM_add {records : List Record} (hd : (records.map (·.name)).Nodup) (t : Table)
    (hfree : ∀ r ∈ records, t.lookup r.name = none) :
    ∃ u, records.foldlM add t = .ok u ∧ ∀ name, u.lookup name =
      ((records.find? fun r => r.name = name).map Entry.ofRecord).or (t.lookup name) := by
  induction records generalizing t with
  | nil => exact ⟨t, rfl, fun _ => rfl⟩
  | cons r records ih =>
    rw [List.map_cons, List.nodup_cons] at hd
    have hr : r.name ∉ t.entries := by
      have hnone := hfree r (.head _)
      rw [lookup] at hnone
      simp [Std.ExtTreeMap.mem_iff_isSome_getElem?, hnone]
    have hadd : t.add r = .ok ⟨t.entries.insert r.name (.ofRecord r)⟩ := if_neg hr
    obtain ⟨u, hu, hlookup⟩ := ih hd.2 ⟨t.entries.insert r.name (.ofRecord r)⟩ (by
      intro r' hr'
      have hne : r.name ≠ r'.name := fun heq => hd.1 (heq ▸ List.mem_map_of_mem hr')
      rw [lookup_add hadd, if_neg hne]
      exact hfree r' (.tail _ hr'))
    refine ⟨u, ?_, fun name => ?_⟩
    · simpa [List.foldlM_cons, hadd, bind, Except.bind] using hu
    · rw [hlookup, lookup_add hadd, List.find?_cons]
      by_cases hname : r.name = name
      · have hnone : records.find? (fun r => r.name = name) = none := by
          rw [List.find?_eq_none]
          intro r' hr' heq
          exact hd.1 (List.mem_map.mpr ⟨r', hr', (of_decide_eq_true heq).trans hname.symm⟩)
        simp [hname, hnone]
      · simp [hname]

theorem ofRecords_of_nodup {records : List Record} (hd : (records.map (·.name)).Nodup) :
    ∃ u, ofRecords records = .ok u ∧
      ∀ name, u.lookup name = (records.find? fun r => r.name = name).map Entry.ofRecord := by
  obtain ⟨u, hu, hlookup⟩ := foldlM_add hd .empty fun r _ => lookup_empty r.name
  exact ⟨u, hu, fun name => by rw [hlookup, lookup_empty, Option.or_none]⟩

end Key.Table

namespace Key.Selection

variable {s other : Selection} {usage : Usage} {e : Entry}

theorem exists_credential (e : Entry) (usage : Usage) : ∃ k, k ∈ e.credentials usage :=
  List.exists_mem_of_ne_nil _ (by cases usage <;> simp [Entry.credentials])

theorem matchesEntry_of_isEmpty (h : (s.changeTo other usage).isEmpty = true) (he : e ∈ s.entries) :
    other.matchesEntry e = true := by
  refine Bool.of_not_eq_false fun hm => ?_
  obtain ⟨k, hk⟩ := exists_credential e usage
  have hmem : k ∈ s.surplus other usage := mem_surplus.mpr ⟨e, he, hm, hk⟩
  simp only [Change.isEmpty, Bool.and_eq_true, Std.ExtTreeSet.isEmpty_iff] at h
  have hnone : s.surplus other usage = ∅ := h.1
  simp [hnone] at hmem

theorem isEmpty_ring_iff : (s.ring usage).isEmpty = true ↔ s.entries = [] := by
  rw [Std.ExtTreeSet.isEmpty_iff, List.eq_nil_iff_forall_not_mem]
  constructor
  · intro h e he
    obtain ⟨k, hk⟩ := exists_credential e usage
    have hmem : k ∈ s.ring usage := mem_ring.mpr ⟨e, he, hk⟩
    simp [h] at hmem
  · intro h
    refine Std.ExtTreeSet.ext_mem fun k => iff_of_false (fun hk => ?_) Std.ExtTreeSet.not_mem_empty
    obtain ⟨e, he, -⟩ := mem_ring.mp hk
    exact h e he

theorem entries_eq_nil_of_isEmpty (h : (s.changeTo other usage).isEmpty = true) (ho : other.entries = []) :
    s.entries = [] := by
  refine List.eq_nil_iff_forall_not_mem.mpr fun e he => ?_
  obtain ⟨f, hf, -⟩ := matchesEntry_iff.mp (matchesEntry_of_isEmpty h he)
  simp [ho] at hf

theorem isEmpty_changeTo_comm (h : (s.changeTo other usage).isEmpty = true) :
    (other.changeTo s usage).isEmpty = true := by
  simpa [Change.isEmpty, changeTo, and_comm] using h

theorem isEmpty_ring_eq (h : (s.changeTo other usage).isEmpty = true) :
    (s.ring usage).isEmpty = (other.ring usage).isEmpty := by
  rw [Bool.eq_iff_iff, isEmpty_ring_iff, isEmpty_ring_iff]
  exact ⟨entries_eq_nil_of_isEmpty (isEmpty_changeTo_comm h), entries_eq_nil_of_isEmpty h⟩

end Key.Selection

theorem Terms.isEmpty_amendment_wanted (e : String) (names : List String) (old new : Key.Table) :
    ((wanted e names old).amendment (wanted e names new)).isEmpty =
      (Key.Selection.changeTo ⟨old, names⟩ ⟨new, names⟩ .receive).isEmpty := by
  cases hk : (Key.Selection.changeTo ⟨old, names⟩ ⟨new, names⟩ .receive).isEmpty with
  | false => simp [Amendment.isEmpty, amendment, wanted, selection, hk]
  | true => simp [Amendment.isEmpty, amendment, wanted, selection, hk, Key.Selection.isEmpty_ring_eq hk]

namespace Topic

/-- The modification that brings what is held of a topic to the keys of its callers in another table. -/
def modification (t : Topic L) (table : Key.Table) : Option Order :=
  t.held.bind fun h =>
    let keys := h.terms.selection.changeTo ⟨table, t.wantedNames⟩ .receive
    let insecure := (Key.Selection.ring ⟨table, t.wantedNames⟩ .receive).isEmpty
    if keys.isEmpty then none
    else some (.modify h.id ⟨none, keys, if h.terms.insecure = insecure then none else some insecure⟩)

def Idle (t : Topic L) : Prop :=
  t.callers ≠ [] ∧ t.pending = none ∧ t.refused = false

instance (t : Topic L) : Decidable t.Idle :=
  inferInstanceAs (Decidable (t.callers ≠ [] ∧ t.pending = none ∧ t.refused = false))

def reload (t : Topic L) (table : Key.Table) : Option Order :=
  if t.Idle then t.modification table else none

/-- The same without regard to a refusal. -/
def reloadAnyway (t : Topic L) (table : Key.Table) : Option Order :=
  if t.callers ≠ [] ∧ t.pending = none then t.modification table else none

theorem modification_eq {t : Topic L} {old : Key.Table} {h : Holding} (hh : t.held = some h)
    (hterms : h.terms = t.wish old) (hnames : t.keyNames = t.wantedNames) (new : Key.Table) :
    t.modification new = if (h.terms.amendment (t.wish new)).isEmpty then none
      else some (.modify h.id (h.terms.amendment (t.wish new))) := by
  have hempty := Terms.isEmpty_amendment_wanted t.expression t.wantedNames old new
  rw [wish, hnames] at hterms
  rw [wish, hnames, hterms, hempty]
  simp only [modification, hh, Option.bind_some, hterms, Terms.amendment, Terms.wanted, Terms.selection, if_pos]
  rfl

section Settled

variable {t : Topic L} {old : Key.Table}

theorem need_of_not_idle (hs : t.Settled old true) (ho : t.isActive = true → t.callers ≠ []) (h : ¬ t.Idle)
    (new : Key.Table) : t.need new true = .nothing := by
  unfold need
  split
  · rfl
  · next hp =>
    have hnone : t.pending = none := by simpa using hp
    obtain ⟨ha, -⟩ := hs hnone
    have hr : t.refused = true := by simpa [Idle, ho ha, hnone] using h
    simp [ha, hr]

theorem need_of_idle (hs : t.Settled old true) (hp : t.Proper) (h : t.Idle) (new : Key.Table) :
    t.need new true = match t.modification new with
      | none => .confirmation (t.wish new)
      | some order => .order (.modify (t.wish new)) order := by
  obtain ⟨hc, hnone, hr⟩ := h
  obtain ⟨i, hi, hterms⟩ := ((hs hnone).2 rfl).resolve_left (by simp [hr])
  rw [modification_eq hi hterms (hp.keyNames hc)]
  simp only [need, hnone, hr, needOfWish, hi, hp.isActive hc]
  cases (i.terms.amendment (t.wish new)).isEmpty <;> rfl

theorem order?_need (hs : t.Settled old true) (hp : t.Proper) (ho : t.isActive = true → t.callers ≠ [])
    (new : Key.Table) : (t.need new true).order? = t.reload new := by
  unfold reload
  split
  · next h =>
    rw [need_of_idle hs hp h new]
    cases t.modification new <;> rfl
  · next h =>
    rw [need_of_not_idle hs ho h new]
    rfl

theorem need_of_reload (hs : t.Settled old true) (hp : t.Proper) {new : Key.Table} {order : Order}
    (h : t.reload new = some order) :
    t.need new true = .order (.modify (.wanted t.expression t.wantedNames new)) order := by
  unfold reload at h
  split at h
  · next hi =>
    rw [need_of_idle hs hp hi, h, wish, hp.keyNames hi.1]
  · simp at h

end Settled

end Topic

namespace Switchboard

variable {b : Switchboard L}

theorem Settled.orders_eq (hs : b.Settled true) (hb : b.Coherent) (ho : b.Occupied) (table : Key.Table) :
    orders table b.topics.toList = b.topics.toList.filterMap fun entry => entry.2.reload table := by
  refine List.filterMap_congr fun entry hmem => ?_
  have ht := (lists_toList b).topic entry hmem
  exact Topic.order?_need (hs _ _ ht (by simp)) (hb.proper ht) (ho _ _ ht) table

theorem rekey_calls (link : LinkId) (hb : b.Coherent) (ho : b.Occupied) (hs : b.Settled true)
    (table : Key.Table) : (b.rekey (some link) table).2 =
      numbered link b.nextRequest (b.topics.toList.filterMap fun entry => entry.2.reload table) :=
  (settleAll_calls (b.withTable table) link).trans (congrArg _ (hs.orders_eq hb ho table))

end Switchboard

namespace Client

variable {c : Client L}

/-- What another key table brings over a link: the due modifications in the order of the topics' numbers and nothing
else, after which every topic that is idle is held under the new table. -/
structure Rekeyed (c c' : Client L) (table : Key.Table) (link : LinkId) (calls : List Call) : Prop where
  table_eq : c'.board.table = table
  calls_eq : calls = Switchboard.numbered link c.board.nextRequest
    (c.board.topics.toList.filterMap fun entry => entry.2.reload table)
  sorted : c.board.topics.toList.Pairwise fun x y => x.1 < y.1
  held : ∀ (n : TopicNo) (t : Topic L), c.board.topics[n]? = some t → t.Idle → ∃ i, t.held = some i ∧
    i.terms = .wanted t.expression t.wantedNames c.board.table
  ordered : ∀ (n : TopicNo) (t : Topic L) (order : Order), c.board.topics[n]? = some t →
    t.reload table = some order → ∃ r, .order link r order ∈ calls ∧ c'.board.topics[n]? =
      some { t with pending := some ⟨r, .modify (.wanted t.expression t.wantedNames table)⟩ }
  kept : ∀ (n : TopicNo) (t : Topic L), c.board.topics[n]? = some t → ¬ t.Idle →
    c'.board.topics[n]? = some t
  current : ∀ (n : TopicNo) (t : Topic L), c'.board.topics[n]? = some t → t.Idle → ∃ i, t.held = some i ∧
    i.terms = .wanted t.expression t.wantedNames table

theorem Sound.held_of_idle (h : c.Sound) {link : LinkId} (hl : c.link? = some link) {n : TopicNo} {t : Topic L}
    (ht : c.board.topics[n]? = some t) (hi : t.Idle) :
    ∃ i, t.held = some i ∧ i.terms = .wanted t.expression t.wantedNames c.board.table := by
  have hsettled : c.board.Settled true := by simpa [hl] using h.settled
  exact (h.coherent.idle h.occupied hsettled ht hi.2.1).2.resolve_left (by simp [hi.2.2])

theorem Sound.rekeyed (h : c.Sound) {link : LinkId} (hl : c.link? = some link) {records : List Key.Record}
    {table : Key.Table} (htable : Key.Table.ofRecords records = .ok table) :
    let after := c.step (.reloadKeys records)
    after.2.reply = .accepted ∧ Rekeyed c after.1 table link after.2.calls := by
  have hstep : c.step (.reloadKeys records) = ({ c with board := (c.board.rekey (some link) table).1 },
      .ofReply .accepted (c.board.rekey (some link) table).2) := by
    simp only [Client.step, reloadKeys, htable, hl]
    rfl
  have hsound := h.step (.reloadKeys records)
  have hsettled : c.board.Settled true := by simpa [hl] using h.settled
  have hnow : (c.board.rekey (some link) table).1.table = table :=
    (Switchboard.rekey_moves (some link) c.board table).table_eq
  have hmet {n : TopicNo} {t : Topic L} (ht : c.board.topics[n]? = some t) :=
    Switchboard.settleAll_meets (b := c.board.withTable table) link ht
  simp only [hstep] at hsound ⊢
  refine ⟨rfl, ?_⟩
  exact {
    table_eq := hnow
    calls_eq := Switchboard.rekey_calls link h.coherent h.occupied hsettled table
    sorted := Std.ExtTreeMap.ordered_keys_toList.imp Nat.compare_eq_lt.mp
    held := fun _ _ ht hi => h.held_of_idle hl ht hi
    ordered := by
      intro n t order ht ho
      obtain ⟨r, hr, horder⟩ := hmet ht
      have hneed : t.need (c.board.withTable table).table true = _ :=
        Topic.need_of_reload (hsettled n t ht (by simp)) (h.coherent.proper ht) ho
      rw [hneed] at hr horder
      exact ⟨r, horder order rfl, hr⟩
    kept := by
      intro n t ht hi
      obtain ⟨r, hr, -⟩ := hmet ht
      have hneed : t.need (c.board.withTable table).table true = _ :=
        Topic.need_of_not_idle (hsettled n t ht (by simp)) (h.occupied n t ht) hi table
      rw [hneed] at hr
      exact hr
    current := fun _ _ ht hi => hnow ▸ hsound.held_of_idle hl ht hi }

theorem rekeyed_run {check : Expression.Check} {s : Settings} (hc : Client.ofSettings check s = .ok c)
    (inputs : List (Input L)) {link : LinkId} (hl : (c.run inputs).link? = some link) {records : List Key.Record}
    (hd : (records.map (·.name)).Nodup) :
    let after := (c.run inputs).step (.reloadKeys records)
    after.2.reply = .accepted ∧
      (∃ table : Key.Table,
        (∀ name, table.lookup name = (records.find? fun r => r.name = name).map Key.Entry.ofRecord) ∧
          Rekeyed (c.run inputs) after.1 table link after.2.calls) ∧
      c.NumberedByAge inputs := by
  have h := Sound.ofSettings hc
  obtain ⟨table, htable, hlookup⟩ := Key.Table.ofRecords_of_nodup hd
  obtain ⟨hreply, hrekeyed⟩ := (h.run inputs).rekeyed hl htable
  exact ⟨hreply, ⟨table, hlookup, hrekeyed⟩, h.numberedByAge inputs⟩

def fourTopics : List (Input Nat) :=
  [.start, .arrival (.connectResult 1 (.ok 7)), .reloadKeys [⟨"k", false, [1]⟩, ⟨"j", false, [2]⟩],
    .subscribe ⟨"require(A)", ["k"], 0⟩, .subscribe ⟨"require(B)", ["k"], 1⟩,
    .subscribe ⟨"require(C)", ["k"], 2⟩, .subscribe ⟨"require(D)", ["j"], 3⟩,
    .arrival (.ack 1 (.added (.ok 5))), .arrival (.ack 3 (.added (.error ⟨3, "no"⟩))),
    .arrival (.ack 4 (.added (.ok 6)))]

theorem rekeyed_run_fourTopics :
    ∃ c, Client.ofSettings Expression.refusal? (.ofEndpoint "tcp://broker") = .ok c ∧
    (c.run fourTopics).link? = some 7 ∧
    let records := [⟨"k", false, [3]⟩, ⟨"j", false, [2]⟩]
    (records.map Key.Record.name).Nodup ∧
    let after := (c.run fourTopics).step (.reloadKeys records)
    after.2.reply = .accepted ∧
      (∃ table : Key.Table,
        (∀ name, table.lookup name = (records.find? fun r => r.name = name).map Key.Entry.ofRecord) ∧
          Rekeyed (c.run fourTopics) after.1 table 7 after.2.calls) ∧
      c.NumberedByAge fourTopics :=
  ⟨_, rfl, by decide +kernel, by decide,
    rekeyed_run (s := .ofEndpoint "tcp://broker") rfl fourTopics (by decide +kernel) (by decide)⟩

def secondKey : List (Input Nat) :=
  [.start, .arrival (.connectResult 1 (.ok 7)), .reloadKeys [⟨"k", false, [1]⟩, ⟨"j", false, [2]⟩],
    .subscribe ⟨"require(A)", ["k"], 0⟩, .arrival (.ack 1 (.added (.ok 5))),
    .revise 1 ⟨"require(A)", ["k", "j"], 0⟩, .arrival (.ack 2 (.modified (.error ⟨3, "no"⟩)))]

/-- The reload takes the key away under which the topic is held, and asks nothing of the broker. -/
theorem refused_not_rekeyed_secondKey : ∃ (c : Client Nat) (table : Key.Table),
    Client.ofSettings Expression.refusal? (.ofEndpoint "tcp://broker") = .ok c ∧ (c.run secondKey).link? = some 7 ∧
    Key.Table.ofRecords [⟨"j", false, [2]⟩] = .ok table ∧
    ((c.run secondKey).step (.reloadKeys [⟨"j", false, [2]⟩])).2.calls ≠
      Switchboard.numbered 7 (c.run secondKey).board.nextRequest
        ((c.run secondKey).board.topics.toList.filterMap fun entry => entry.2.reloadAnyway table) :=
  ⟨_, _, rfl, by decide +kernel, rfl, fun h => absurd (congrArg List.length h) (by decide +kernel)⟩

end Client

end Herald
