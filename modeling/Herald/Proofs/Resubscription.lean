import Herald.Proofs.InSync
import Herald.Proofs.Requests
import Herald.Proofs.Rounds

namespace Herald

variable {L : Type}

namespace Topic

def addition (t : Topic L) (table : Key.Table) : Order :=
  let keys := Key.Selection.ring ⟨table, t.wantedNames⟩ .receive
  .add t.expression keys keys.isEmpty

def adding (t : Topic L) (table : Key.Table) (request : RequestNo) : Topic L :=
  { t with pending := some ⟨request, .add (.wanted t.expression t.wantedNames table)⟩ }

structure Bare (t : Topic L) : Prop where
  quiet : t.Quiet
  isActive : t.isActive = true
  callers : t.callers ≠ []
  keyNames : t.keyNames = t.wantedNames

theorem Bare.need {t : Topic L} (h : t.Bare) (table : Key.Table) :
    t.need table true = .order (.add (.wanted t.expression t.wantedNames table)) (t.addition table) := by
  obtain ⟨hh, hp, hr⟩ := h.quiet
  simp only [Topic.need, hp, hr, needOfWish, hh, wish, h.keyNames, h.isActive]
  rfl

end Topic

namespace Switchboard

def additions (link : LinkId) (table : Key.Table) (request : RequestNo) (ts : List (TopicNo × Topic L)) :
    List Call :=
  (ts.zipIdx request).map fun (entry, r) => .order link r (entry.2.addition table)

theorem orders_bare {table : Key.Table} {ts : List (TopicNo × Topic L)} (h : ∀ entry ∈ ts, entry.2.Bare) :
    orders table ts = ts.map fun entry => entry.2.addition table := by
  induction ts with
  | nil => rfl
  | cons entry ts ih =>
    rw [orders_cons, (h entry (.head _)).need, ih fun e he => h e (.tail _ he)]
    rfl

theorem mem_zipIdx_iff {α : Type} {xs : List α} {x : α} {r s : Nat} :
    (x, r) ∈ xs.zipIdx s ↔ ∃ pre post, xs = pre ++ x :: post ∧ r = s + pre.length := by
  rw [List.mem_zipIdx_iff_le_and_getElem?_sub]
  constructor
  · rintro ⟨hle, hget⟩
    obtain ⟨hlt, hx⟩ := List.getElem?_eq_some_iff.mp hget
    dsimp only at hle hlt hx
    refine ⟨xs.take (r - s), xs.drop (r - s + 1), ?_, ?_⟩
    · rw [← hx, ← List.drop_eq_getElem_cons hlt, List.take_append_drop]
    · rw [List.length_take]
      omega
  · rintro ⟨pre, post, rfl, rfl⟩
    simp

section Quiet

variable {b : Switchboard L}

theorem Quiet.bare (h : b.Quiet) (hb : b.Coherent) (ho : b.Occupied) (hs : b.Settled false) {n : TopicNo}
    {t : Topic L} (ht : b.topics[n]? = some t) : t.Bare :=
  have ha := (hs n t ht (by simp) (h n t ht).2.1).1
  have hc := ho n t ht ha
  ⟨h n t ht, ha, hc, (hb.proper ht).keyNames hc⟩

theorem Quiet.topics_disconnected (h : b.Quiet) (hs : b.Settled false) :
    b.disconnected.topics = b.topics := by
  refine Std.ExtTreeMap.ext_getElem? fun n => Option.ext fun t => ?_
  rw [topic_disconnected_iff]
  have hforget {u : Topic L} (hu : u.Quiet) : u.forget = u := by
    obtain ⟨hh, hp, hr⟩ := hu
    cases u
    simp_all [Topic.forget]
  constructor
  · rintro ⟨u, hu, -, rfl⟩
    rwa [hforget (h n u hu)]
  · exact fun ht => ⟨t, ht, (hs n t ht (by simp) (h n t ht).2.1).1, hforget (h n t ht)⟩

theorem reconnected_quiet (h : b.Quiet) (hb : b.Coherent) (ho : b.Occupied) (hs : b.Settled false)
    (link : LinkId) : (b.reconnected (some link)).2 = additions link b.table b.nextRequest b.topics.toList ∧
      ∀ n t', (b.reconnected (some link)).1.topics[n]? = some t' ↔
        ∃ t r, ((n, t), r) ∈ b.topics.toList.zipIdx b.nextRequest ∧ t' = t.adding b.table r := by
  have htopics := h.topics_disconnected hs
  have hbare {n : TopicNo} {t : Topic L} (hmem : (n, t) ∈ b.topics.toList) : t.Bare :=
    h.bare hb ho hs (Std.ExtTreeMap.mem_toList_iff_getElem?_eq_some.mp hmem)
  -- Every topic is added, so the number of the request is that of the topic in the list.
  have hadded {pre post : List (TopicNo × Topic L)} {n : TopicNo} {t : Topic L}
      (hsplit : b.topics.toList = pre ++ (n, t) :: post) : (b.reconnected (some link)).1.topics[n]? =
        some (t.adding b.table (b.nextRequest + pre.length)) := by
    have hmet := settleAll_split (b := b.disconnected) link (htopics ▸ hsplit)
    have hpre : ∀ entry ∈ pre, entry.2.Bare := fun entry hmem => hbare (n := entry.1) (by simp [hsplit, hmem])
    have hneed := (hbare (n := n) (t := t) (by simp [hsplit])).need b.disconnected.table
    rw [hneed, orders_bare hpre, List.length_map] at hmet
    exact hmet
  refine ⟨?_, fun n t' => ⟨fun ht' => ?_, ?_⟩⟩
  · have hcalls := settleAll_calls b.disconnected link
    rw [htopics, orders_bare fun _ hmem => hbare hmem, numbered_map] at hcalls
    exact hcalls
  · cases ht : b.topics[n]? with
    | none =>
      have hnone := settleAll_others (some link) (htopics ▸ ht)
      simp [reconnected, hnone] at ht'
    | some t =>
      obtain ⟨pre, post, hsplit⟩ := List.append_of_mem (Std.ExtTreeMap.mem_toList_iff_getElem?_eq_some.mpr ht)
      rw [hadded hsplit] at ht'
      exact ⟨t, _, mem_zipIdx_iff.mpr ⟨pre, post, hsplit, rfl⟩, (Option.some.inj ht').symm⟩
  · rintro ⟨t, r, hz, rfl⟩
    obtain ⟨pre, post, hsplit, rfl⟩ := mem_zipIdx_iff.mp hz
    exact hadded hsplit

end Quiet

def Grows (b b' : Switchboard L) : Prop :=
  b.nextTopic ≤ b'.nextTopic ∧ ∀ n, n ∈ b'.topics → n ∈ b.topics ∨ b.nextTopic ≤ n

namespace Grows

variable {a b c : Switchboard L} {link : Option LinkId} {calls : List Call}

theorem of_subset (hn : c.nextTopic = b.nextTopic) (h : ∀ n, n ∈ c.topics → n ∈ b.topics) : b.Grows c :=
  ⟨Nat.le_of_eq hn.symm, fun n hmem => .inl (h n hmem)⟩

theorem refl (b : Switchboard L) : b.Grows b :=
  .of_subset rfl fun _ h => h

theorem trans (h : a.Grows b) (h' : b.Grows c) : a.Grows c := by
  refine ⟨Nat.le_trans h.1 h'.1, fun n hmem => ?_⟩
  obtain hb | hb := h'.2 n hmem
  · exact h.2 n hb
  · exact .inr (Nat.le_trans h.1 hb)

theorem put {n : TopicNo} {t t' : Topic L} (ht : b.topics[n]? = some t)
    (htopics : c.topics = b.topics.insert n t') (hn : c.nextTopic = b.nextTopic) : b.Grows c := by
  refine .of_subset hn fun m hm => ?_
  rw [htopics, Std.ExtTreeMap.mem_insert, Std.LawfulEqOrd.compare_eq_iff_eq] at hm
  obtain rfl | hm := hm
  · exact Std.ExtTreeMap.mem_iff_isSome_getElem?.mpr (by simp [ht])
  · exact hm

theorem settle (link : Option LinkId) (b : Switchboard L) (n : TopicNo) : b.Grows (b.settle link n).1 := by
  have hs := settling link b n
  generalize b.settle link n = r at hs
  cases hs with
  | missing _ => exact .refl b
  | idle _ _ => exact .refl b
  | removal _ _ _ _ => exact .of_subset rfl fun m hm => (Std.ExtTreeMap.mem_erase.mp hm).2
  | confirmation _ ht _ _ _ _ _ => exact .put ht rfl rfl
  | order _ ht _ _ => exact .put ht rfl rfl

theorem move (m : Move link b c calls) : b.Grows c := by
  cases m with
  | issue => exact .refl b
  | @found e c _ _ _ =>
    refine ⟨by rw [create_join]; exact Nat.le_succ _, fun n hn => ?_⟩
    rw [topics_found] at hn
    obtain heq | hn := Std.ExtTreeMap.mem_insert.mp hn
    · exact .inr (Nat.le_of_eq (Std.LawfulEqOrd.compare_eq_iff_eq.mp heq))
    · exact .inl hn
  | join ht _ _ =>
    rw [Switchboard.join, ht]
    exact .put ht rfl rfl
  | leave _ =>
    unfold Switchboard.leave
    dsimp only
    split
    · exact .refl b
    · next ht => exact .put ht rfl rfl
  | replace _ ht =>
    rw [Switchboard.replace, ht]
    exact .put ht rfl rfl
  | rename ht _ => exact .put ht rfl rfl
  | settle n => exact .settle link b n

theorem moves (m : Moves link b c calls) : b.Grows c := by
  induction m with
  | refl => exact .refl _
  | step m _ ih => exact (Grows.move m).trans ih

theorem disconnected (b : Switchboard L) : b.Grows b.disconnected := by
  refine .of_subset rfl fun n hn => ?_
  obtain ⟨t', ht'⟩ := Option.isSome_iff_exists.mp (Std.ExtTreeMap.mem_iff_isSome_getElem?.mp hn)
  obtain ⟨t, ht, -, -⟩ := topic_disconnected_iff.mp ht'
  exact Std.ExtTreeMap.mem_iff_isSome_getElem?.mpr (by simp [ht])

theorem acknowledge (hb : b.Coherent) (link : Option LinkId) (request : RequestNo) (ack : Ack) :
    b.Grows (b.acknowledge link request ack).1 := by
  have ha := acknowledging hb link request ack
  generalize b.acknowledge link request ack = r at ha
  cases ha with
  | unknown _ => exact .refl b
  | @known n t p r _ ht _ _ hres =>
    obtain ⟨t', ids, heq, -⟩ :=
      conclude_shape (b.answered request) n { t with pending := none } p.errand ack
    rw [hres] at heq
    have hput : b.Grows r.1 := .put ht (by rw [heq]; rfl) (by rw [heq]; rfl)
    exact hput.trans (.settle link r.1 n)

end Grows

end Switchboard

namespace Client

variable {c c' : Client L} {i : Input L} {calls : List Call}

theorem Change.grows (hch : Change c c' i calls) (hb : c.board.Coherent) : c.board.Grows c'.board := by
  cases hch with
  | rest _ _ _ hboard _ _ => exact hboard ▸ .refl _
  | serve _ _ hm _ _ => exact .moves hm
  | @rekey records table _ hboard _ =>
    have hgrows := Switchboard.Grows.moves (Switchboard.rekey_moves c.link? c.board table)
    exact hboard ▸ hgrows
  | ack hboard _ => exact hboard ▸ .acknowledge hb _ _ _
  | down _ hm _ hboard _ _ => exact hboard ▸ (Switchboard.Grows.moves hm).trans (.disconnected _)
  | up _ _ hboard _ =>
    rw [hboard]
    exact (Switchboard.Grows.disconnected _).trans (.moves (Switchboard.reconnected_moves _ _))

theorem Sound.grows_run (h : c.Sound) (inputs : List (Input L)) : c.board.Grows (c.run inputs).board := by
  induction inputs generalizing c with
  | nil => exact .refl _
  | cons i inputs ih => exact ((h.change i).grows h.coherent).trans (ih (h.step i))

theorem Sound.lt_of_made_later (h : c.Sound) {inputs : List (Input L)} {n m : TopicNo}
    (hn : n ∈ c.board.topics) (hm : m ∈ (c.run inputs).board.topics) (hlater : m ∉ c.board.topics) :
    n < m := by
  obtain ⟨t, ht⟩ := Option.isSome_iff_exists.mp (Std.ExtTreeMap.mem_iff_isSome_getElem?.mp hn)
  obtain hold | hnew := (h.grows_run inputs).2 m hm
  · exact absurd hold hlater
  · exact Nat.lt_of_lt_of_le (h.coherent.topic_lt ht) hnew

/-- What a new link brings: an add for each topic that callers want, in the order of their numbers, and nothing
else, neither among the calls nor left over in a topic. -/
structure Resubscribed (c c' : Client L) (link : LinkId) (calls : List Call) : Prop where
  connected : c'.link? = some link
  calls_eq : calls = Switchboard.additions link c.board.table c.board.nextRequest c.board.topics.toList
  sorted : c.board.topics.toList.Pairwise fun x y => x.1 < y.1
  once : (c.board.topics.toList.map (·.2.expression)).Nodup
  live : ∀ e, e ∈ c.board.topics.toList.map (·.2.expression) ↔
    ∃ k i, c.board.info? k = some i ∧ i.expression = e
  topics : ∀ (n : TopicNo) (t' : Topic L), c'.board.topics[n]? = some t' ↔
    ∃ t r, ((n, t), r) ∈ c.board.topics.toList.zipIdx c.board.nextRequest ∧ t' = { t with
      pending := some ⟨r, .add (.wanted t.expression t.wantedNames c.board.table)⟩ }
  bare : ∀ (n : TopicNo) (t' : Topic L), c'.board.topics[n]? = some t' →
    t'.isActive = true ∧ t'.refused = false ∧ t'.held = none

theorem Sound.resubscribed (h : c.Sound) {attempt : AttemptNo} (ha : c.connection.awaited = some attempt)
    (link : LinkId) : Resubscribed c (c.step (.arrival (.connectResult attempt (.ok link)))).1 link
      (c.step (.arrival (.connectResult attempt (.ok link)))).2.calls := by
  have hnone : c.link? = none := Connection.link?_eq_none_of_sound h.connection (by simp [ha])
  have hquiet := h.quiet hnone
  have hsettled : c.board.Settled false := by simpa [hnone] using h.settled
  obtain ⟨hcalls, htopics⟩ := Switchboard.reconnected_quiet hquiet h.coherent h.occupied hsettled link
  obtain ⟨hlink, hboard, hstep⟩ := connectResult_awaited ha link
  have hbare {n : TopicNo} {t : Topic L} (ht : (n, t) ∈ c.board.topics.toList) : t.Bare :=
    hquiet.bare h.coherent h.occupied hsettled (Std.ExtTreeMap.mem_toList_iff_getElem?_eq_some.mp ht)
  rw [← hboard] at htopics
  exact {
    connected := hlink
    calls_eq := hstep.trans hcalls
    sorted := Std.ExtTreeMap.ordered_keys_toList.imp Nat.compare_eq_lt.mp
    once := by
      rw [List.Nodup, List.pairwise_map]
      refine Std.ExtTreeMap.distinct_keys_toList.imp_of_mem ?_
      rintro ⟨n, t⟩ ⟨m, u⟩ ht hu hne heq
      rw [Std.ExtTreeMap.mem_toList_iff_getElem?_eq_some] at ht hu
      exact hne (Std.LawfulEqOrd.compare_eq_iff_eq.mpr
        (h.coherent.expressions.mark_unique ht hu heq rfl))
    live := by
      intro e
      rw [Switchboard.exists_info_iff h.coherent, List.mem_map]
      constructor
      · rintro ⟨⟨n, t⟩, ht, rfl⟩
        exact ⟨n, t, Std.ExtTreeMap.mem_toList_iff_getElem?_eq_some.mp ht, (hbare ht).callers, rfl⟩
      · rintro ⟨n, t, ht, -, rfl⟩
        exact ⟨(n, t), Std.ExtTreeMap.mem_toList_iff_getElem?_eq_some.mpr ht, rfl⟩
    topics := htopics
    bare := by
      intro n t' ht'
      obtain ⟨t, r, hz, rfl⟩ := (htopics n t').mp ht'
      have ht := hbare (List.fst_mem_of_mem_zipIdx hz)
      exact ⟨ht.isActive, ht.quiet.2.2, ht.quiet.1⟩ }

def NumberedByAge (c : Client L) (inputs : List (Input L)) : Prop :=
  ∀ xs ys, inputs = xs ++ ys → ∀ n m, n ∈ (c.run xs).board.topics → m ∈ (c.run inputs).board.topics →
    m ∉ (c.run xs).board.topics → n < m

theorem Sound.numberedByAge (h : c.Sound) (inputs : List (Input L)) : c.NumberedByAge inputs := by
  rintro xs ys rfl n m hn hm hlater
  rw [run_append] at hm
  exact (h.run xs).lt_of_made_later hn hm hlater

theorem resubscribed_run {check : Expression.Check} {s : Settings} (hc : Client.ofSettings check s = .ok c)
    (inputs : List (Input L)) {attempt : AttemptNo} (ha : (c.run inputs).connection.awaited = some attempt)
    (link : LinkId) :
    let i : Input L := .arrival (.connectResult attempt (.ok link))
    Resubscribed (c.run inputs) ((c.run inputs).step i).1 link ((c.run inputs).step i).2.calls ∧
      (c.requestsOf inputs ++ ((c.run inputs).ordersOf i).map Prod.fst).Nodup ∧ c.NumberedByAge inputs := by
  have h := Sound.ofSettings hc
  refine ⟨(h.run inputs).resubscribed ha link, ?_, ?_⟩
  · obtain ⟨k, hk, hbefore⟩ := h.requestsOf_eq inputs
    obtain ⟨j, -, hnow⟩ := ((h.run inputs).change _).numbers (h.run inputs).coherent
    rw [hbefore, ordersOf, hnow, hk, List.range'_append_1]
    exact List.nodup_range'
  · exact h.numberedByAge inputs

def outage : List (Input Nat) :=
  [.start, .arrival (.connectResult 1 (.ok 7)), .subscribe ⟨"require(A)", ["k"], 0⟩,
    .subscribe ⟨"require(B)", [], 1⟩, .subscribe ⟨"require(C)", ["j"], 2⟩,
    .arrival (.ack 1 (.added (.ok 5))), .arrival (.ack 3 (.added (.error ⟨3, "no"⟩))), .unsubscribe 1,
    .arrival (.connectionLost ⟨1, "gone"⟩), .revise 2 ⟨"require(D)", ["k"], 1⟩,
    .reloadKeys [⟨"k", false, [1, 2]⟩]]

theorem resubscribed_run_outage :
    ∃ c, Client.ofSettings Expression.refusal? (.ofEndpoint "tcp://broker") = .ok c ∧
    (c.run outage).connection.awaited = some 2 ∧
    let i := .arrival (.connectResult 2 (.ok 8))
    Resubscribed (c.run outage) ((c.run outage).step i).1 8 ((c.run outage).step i).2.calls ∧
      (c.requestsOf outage ++ ((c.run outage).ordersOf i).map Prod.fst).Nodup ∧ c.NumberedByAge outage :=
  ⟨_, rfl, by decide +kernel,
    resubscribed_run (s := .ofEndpoint "tcp://broker") rfl outage (by decide +kernel) 8⟩

end Client

end Herald
