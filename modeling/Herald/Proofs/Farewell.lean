import Herald.Proofs.CallerSide
import Herald.Proofs.Parting
import Herald.Proofs.Watch
import Mathlib.Data.List.Nodup
import Mathlib.Data.List.Perm.Basic
import Mathlib.Data.Set.List

namespace Herald

variable {L : Type}

namespace Switchboard

variable {b : Switchboard L} {n : TopicNo} {t : Topic L} {k : Ticket} {ks : List Ticket}

theorem nodup_toList (topics : Std.ExtTreeMap TopicNo (Topic L)) : topics.toList.Nodup := by
  refine List.Nodup.of_map Prod.fst ?_
  rw [Std.ExtTreeMap.map_fst_toList_eq_keys]
  exact Std.ExtTreeMap.nodup_keys

theorem mem_erase {topics : Std.ExtTreeMap TopicNo (Topic L)} {entry : TopicNo × Topic L} :
    entry ∈ (topics.erase n).toList ↔ entry.1 ≠ n ∧ entry ∈ topics.toList := by
  rw [Std.ExtTreeMap.mem_toList_iff_getElem?_eq_some, Std.ExtTreeMap.mem_toList_iff_getElem?_eq_some]
  by_cases hm : entry.1 = n
  · simp [hm]
  · simp [topic_erase_ne _ hm, hm]

theorem toList_perm_erase (topics : Std.ExtTreeMap TopicNo (Topic L)) (n : TopicNo) :
    topics.toList.Perm ((topics[n]?.map (n, ·)).toList ++ (topics.erase n).toList) := by
  have hnodup : ((topics[n]?.map (n, ·)).toList ++ (topics.erase n).toList).Nodup := by
    refine List.nodup_append.mpr ⟨by cases topics[n]? <;> simp, nodup_toList _, ?_⟩
    rintro _ hmem entry hentry rfl
    obtain ⟨t, -, heq⟩ := Option.map_eq_some_iff.mp (Option.mem_toList.mp hmem)
    exact (mem_erase.mp hentry).1 (heq ▸ rfl)
  refine (List.perm_ext_iff_of_nodup (nodup_toList _) hnodup).mpr fun (m, u) => ?_
  rw [List.mem_append, mem_erase, Option.mem_toList, Std.ExtTreeMap.mem_toList_iff_getElem?_eq_some]
  by_cases hm : m = n
  · subst hm
    simp
  · simp [hm, Ne.symm hm]

theorem filterMap_perm_erase (topics : Std.ExtTreeMap TopicNo (Topic L)) (n : TopicNo) (f : Topic L → Option Order) :
    (topics.toList.filterMap fun entry => f entry.2).Perm
      ((topics[n]?.bind f).toList ++ (topics.erase n).toList.filterMap fun entry => f entry.2) := by
  have hperm := (toList_perm_erase topics n).filterMap fun entry => f entry.2
  rw [List.filterMap_append] at hperm
  have hhead : (topics[n]?.map (n, ·)).toList.filterMap (fun entry => f entry.2) = (topics[n]?.bind f).toList := by
    cases topics[n]? with
    | none => rfl
    | some t => cases hf : f t <;> simp [hf]
  rwa [hhead] at hperm

theorem unsubscribe_meets (link : LinkId) (hn : b.byTicket[k]? = some n) (ht : b.topics[n]? = some t) :
    ∃ b', b.unsubscribe (some link) k =
        (.ok (), b', numbered link b.nextRequest ((t.leave k).need b.table true).order?.toList) ∧
      b'.topics[n]? = (t.leave k).meet b.nextRequest ((t.leave k).need b.table true) ∧
      b'.topics.erase n = b.topics.erase n ∧ b'.table = b.table ∧
      b'.nextRequest = b.nextRequest + ((t.leave k).need b.table true).order?.toList.length := by
  have hleave : b.leave n k = { b with
      byTicket := b.byTicket.erase k, topics := b.topics.insert n (t.leave k) } := by
    simp only [leave, ht]
    rfl
  have hnow : (b.leave n k).topics[n]? = some (t.leave k) := by
    rw [hleave]
    exact Std.ExtTreeMap.getElem?_insert_self
  obtain ⟨hcalls, hmet, htable, hnext⟩ := settle_meets link hnow
  have hothers (m : TopicNo) (hm : m ≠ n) :
      ((b.leave n k).settle (some link) n).1.topics[m]? = b.topics[m]? := by
    rw [settle_others _ _ hm, hleave]
    exact topic_insert_ne m hm
  have herase : ((b.leave n k).settle (some link) n).1.topics.erase n = b.topics.erase n := by
    refine Std.ExtTreeMap.ext_getElem? fun m => ?_
    by_cases hm : m = n
    · subst hm
      simp
    · rw [topic_erase_ne m hm, topic_erase_ne m hm, hothers m hm]
  rw [hleave] at hcalls hmet htable hnext herase
  refine ⟨_, ?_, hmet, herase, htable, hnext⟩
  rw [unsubscribe_known hn, hleave, ← hcalls]

theorem not_mem_tickets (hb : b.Coherent) {entry : TopicNo × Topic L} (hmem : entry ∈ b.topics.toList)
    (hk : b.byTicket[k]? ≠ some entry.1) : k ∉ entry.2.tickets := fun hin =>
  hk ((hb.tickets k entry.1).mpr ⟨entry.2, Std.ExtTreeMap.mem_toList_iff_getElem?_eq_some.mp hmem, hin⟩)

theorem unsubscribeEach_orders (hb : b.Coherent) (link : LinkId) (hd : ks.Nodup) : ∃ orders : List Order,
    (b.unsubscribeEach (some link) ks).2 = numbered link b.nextRequest orders ∧
      orders.Perm (b.topics.toList.filterMap fun entry => entry.2.share b.table ks) := by
  induction ks generalizing b with
  | nil =>
    have hnone : (b.topics.toList.filterMap fun entry => entry.2.share b.table []) = [] :=
      List.filterMap_eq_nil_iff.mpr fun _ _ => rfl
    exact ⟨[], rfl, .of_eq hnone.symm⟩
  | cons k ks ih =>
    obtain ⟨hk, hd⟩ := List.nodup_cons.mp hd
    cases hn : b.byTicket[k]? with
    | none =>
      obtain ⟨orders, hcalls, hperm⟩ := ih hb hd
      refine ⟨orders, ?_, hperm.trans (.of_eq (List.filterMap_congr fun entry hmem => ?_))⟩
      · rw [unsubscribeEach_cons, unsubscribe_unknown hn, List.nil_append]
        exact hcalls
      · exact (Topic.share_of_not_mem (not_mem_tickets hb hmem (by simp [hn]))).symm
    | some n =>
      obtain ⟨t, ht, hmem⟩ := (hb.tickets k n).mp hn
      obtain ⟨b', hok, hmet, herase, htable, hnext⟩ := unsubscribe_meets link hn ht
      have hmoves := unsubscribe_moves (some link) b k
      rw [hok] at hmoves
      obtain ⟨orders, hcalls, hperm⟩ := ih (hb.moves hmoves) hd
      refine ⟨((t.leave k).need b.table true).order?.toList ++ orders, ?_, ?_⟩
      · rw [unsubscribeEach_cons, hok]
        rw [hcalls, hnext, numbered_append]
      -- The share of the topic itself begins with what its caller's release orders; the others lose nothing.
      have hown : (b.topics[n]?.bind (·.share b.table (k :: ks))).toList =
          ((t.leave k).need b.table true).order?.toList ++ (b'.topics[n]?.bind (·.share b.table ks)).toList := by
        rw [ht, Option.bind_some, hmet]
        exact Topic.toList_share hmem hk _
      have hrest : ((b.topics.erase n).toList.filterMap fun entry => entry.2.share b.table (k :: ks)) =
          (b'.topics.erase n).toList.filterMap fun entry => entry.2.share b.table ks := by
        rw [herase]
        refine List.filterMap_congr fun entry hentry => Topic.share_of_not_mem ?_
        obtain ⟨hne, hmem⟩ := mem_erase.mp hentry
        exact not_mem_tickets hb hmem (by simpa [hn] using Ne.symm hne)
      rw [htable] at hperm
      refine .trans ?_ (filterMap_perm_erase b.topics n (·.share b.table (k :: ks))).symm
      rw [hown, hrest, List.append_assoc]
      exact (hperm.trans (filterMap_perm_erase b'.topics n (·.share b.table ks))).append_left _

theorem unsubscribeAll_orders (hb : b.Coherent) (link : LinkId) : ∃ orders : List Order,
    (b.unsubscribeAll (some link)).2 = numbered link b.nextRequest orders ∧
      orders.Perm (b.topics.toList.filterMap fun entry => entry.2.farewell b.table) := by
  have hsorted : b.byTicket.keys.Pairwise (· < ·) := Std.ExtTreeMap.ordered_keys.imp Nat.compare_eq_lt.mp
  obtain ⟨orders, hcalls, hperm⟩ := unsubscribeEach_orders hb link (hsorted.imp Nat.ne_of_lt)
  refine ⟨orders, hcalls, hperm.trans (.of_eq (List.filterMap_congr fun entry hmem => ?_))⟩
  have ht := Std.ExtTreeMap.mem_toList_iff_getElem?_eq_some.mp hmem
  refine Topic.share_eq_farewell (hb.proper ht).nodup hsorted fun k hk => ?_
  rw [Std.ExtTreeMap.mem_keys, Std.ExtTreeMap.mem_iff_isSome_getElem?, (hb.tickets k entry.1).mpr ⟨_, ht, hk⟩]
  rfl

theorem topics_unsubscribeAll (hb : b.Coherent) (ho : b.Occupied) (link : Option LinkId) :
    (b.unsubscribeAll link).1.disconnected.topics = ∅ := by
  have hb' : (b.unsubscribeAll link).1.Coherent := hb.moves (unsubscribeAll_moves link b)
  have ho' : (b.unsubscribeAll link).1.Occupied := ho.moves (unsubscribeAll_moves link b)
  refine Std.ExtTreeMap.ext_getElem? fun n => ?_
  rw [Std.ExtTreeMap.getElem?_empty, Option.eq_none_iff_forall_ne_some]
  intro t' ht'
  obtain ⟨t, ht, ha, -⟩ := topic_disconnected_iff.mp ht'
  exact ho' n t ht ha ((callersOf_of_topic hb' ht).symm.trans (callersOf_unsubscribeAll hb link _))

theorem orders_numbered (link : LinkId) (request : RequestNo) (orders : List Order) :
    ((numbered link request orders).filterMap Call.order?).map Prod.snd = orders := by
  simp [numbered, List.filterMap_map, Function.comp_def, Call.order?]

end Switchboard

namespace Client

variable {c : Client L} {link : LinkId}

structure Vacant (c : Client L) : Prop where
  link? : c.link? = none
  topics : c.board.topics = ∅
  status : c.connection.status = .disconnected

/-- A client is shut down cleanly if each deletion that is due goes out once and nothing else does, before the link
is closed. -/
structure ClosesCleanly (c : Client L) (link : LinkId) : Prop where
  calls : ∃ deletes : List (RequestNo × BrokerId), (deletes.map Prod.snd).Perm
      (c.board.topics.toList.filterMap fun entry => entry.2.due) ∧
    (c.step .shutdown).2.calls =
      (deletes.map fun (r, id) => .order link r (.delete id)) ++ [.disconnect link]
  vacant : (c.step .shutdown).1.Vacant

/-- What shutting a client down does: for each topic it orders what the topic parts with, and then it closes the
link. -/
structure Dismisses (c : Client L) (link : LinkId) : Prop where
  calls : ∃ orders : List Order, orders.Perm
      (c.board.topics.toList.filterMap fun entry => entry.2.farewell c.board.table) ∧
    (c.step .shutdown).2.calls = Switchboard.numbered link c.board.nextRequest orders ++ [.disconnect link]
  parts : ∀ entry ∈ c.board.topics.toList, entry.2.Parts c.board.table (entry.2.farewell c.board.table)
  vacant : (c.step .shutdown).1.Vacant

theorem shutdown_calls (hl : c.link? = some link) :
    (c.step .shutdown).2.calls = (c.board.unsubscribeAll (some link)).2 ++ [.disconnect link] := by
  have hclosed : c.connection.close.2 = [.disconnect link] := congrArg (fun l => l.toList.map Call.disconnect) hl
  rw [← hl, ← hclosed]
  rfl

theorem Sound.topic_laws (h : c.Sound) (hl : c.link? = some link) {entry : TopicNo × Topic L}
    (hmem : entry ∈ c.board.topics.toList) : entry.2.Proper ∧ (entry.2.isActive = true → entry.2.callers ≠ []) ∧
      entry.2.Settled c.board.table true := by
  have ht := Std.ExtTreeMap.mem_toList_iff_getElem?_eq_some.mp hmem
  have hsettled : c.board.Settled true := by simpa [hl] using h.settled
  exact ⟨h.coherent.proper ht, h.occupied _ _ ht, hsettled _ _ ht List.not_mem_nil⟩

theorem Sound.dismisses (h : c.Sound) (hl : c.link? = some link) : c.Dismisses link where
  calls := by
    obtain ⟨orders, hcalls, hperm⟩ := Switchboard.unsubscribeAll_orders h.coherent link
    exact ⟨orders, hperm, by rw [shutdown_calls hl, hcalls]⟩
  parts := by
    intro entry hmem
    obtain ⟨hproper, hoccupied, hsettled⟩ := h.topic_laws hl hmem
    exact Topic.parts_farewell hproper hoccupied hsettled
  vacant := ⟨rfl, Switchboard.topics_unsubscribeAll h.coherent h.occupied c.link?, rfl⟩

theorem orders_of_deletes {orders : List Order} {request : RequestNo} {deletes : List (RequestNo × BrokerId)}
    (h : Switchboard.numbered link request orders ++ [.disconnect link] =
      (deletes.map fun (r, id) => .order link r (.delete id)) ++ [.disconnect link]) :
    orders = deletes.map fun d => .delete d.2 := by
  rw [← Switchboard.orders_numbered link request orders, List.append_cancel_right h, List.filterMap_map]
  simp [Function.comp_def, Call.order?]

theorem numbered_deletes (link : LinkId) (request : RequestNo) (ids : List BrokerId) :
    ∃ deletes : List (RequestNo × BrokerId), deletes.map Prod.snd = ids ∧
      Switchboard.numbered link request (ids.map .delete) =
        deletes.map fun (r, id) => .order link r (.delete id) := by
  refine ⟨(ids.zipIdx request).map Prod.swap, ?_, ?_⟩
  · rw [List.map_map]
    exact List.zipIdx_map_fst request ids
  · simp [Switchboard.numbered, List.zipIdx_map, Function.comp_def]

theorem Sound.closesCleanly_iff (h : c.Sound) (hl : c.link? = some link) : c.ClosesCleanly link ↔
    ∀ entry ∈ c.board.topics.toList, entry.2.callers ≠ [] → entry.2.pending = none →
      entry.2.Uniform c.board.table := by
  have hdismisses := h.dismisses hl
  obtain ⟨orders, hperm, hcalls⟩ := hdismisses.calls
  constructor
  · intro hclean entry hentry _ hp
    obtain ⟨deletes, -, hdeletes⟩ := hclean.calls
    have horders := orders_of_deletes (hcalls.symm.trans hdeletes)
    refine (hdismisses.parts entry hentry).uniform hp fun o ho => ?_
    have hmem : o ∈ orders := hperm.mem_iff.mpr (List.mem_filterMap.mpr ⟨entry, hentry, ho⟩)
    rw [horders] at hmem
    obtain ⟨d, -, rfl⟩ := List.mem_map.mp hmem
    exact ⟨d.2, rfl⟩
  · intro huniform
    have hdue : (c.board.topics.toList.filterMap fun entry => entry.2.farewell c.board.table) =
        (c.board.topics.toList.filterMap fun entry => entry.2.due).map .delete := by
      rw [List.map_filterMap]
      exact List.filterMap_congr fun entry hmem => (hdismisses.parts entry hmem).eq_due (huniform entry hmem)
    rw [hdue] at hperm
    obtain ⟨ids, rfl⟩ : orders ∈ Set.range (List.map Order.delete) := by
      rw [Set.range_list_map]
      intro o ho
      obtain ⟨id, -, hid⟩ := List.mem_map.mp (hperm.mem_iff.mp ho)
      exact ⟨id, hid⟩
    obtain ⟨deletes, hids, hdeletes⟩ := numbered_deletes link c.board.nextRequest ids
    refine ⟨⟨deletes, ?_, by rw [hcalls, hdeletes]⟩, hdismisses.vacant⟩
    rw [hids]
    exact (List.map_perm_map_iff fun _ _ => Order.delete.inj).mp hperm

theorem Sound.closesCleanly_of_alike (h : c.Sound) (hl : c.link? = some link)
    (ha : ∀ entry ∈ c.board.topics.toList, entry.2.Alike) : c.ClosesCleanly link := by
  refine (h.closesCleanly_iff hl).mpr fun entry hmem _ hp => ?_
  obtain ⟨hproper, -, hsettled⟩ := h.topic_laws hl hmem
  exact Topic.uniform_of_alike hproper hsettled hp (ha entry hmem)

/-- At every point of every run, shutting down parts with each topic by one order at most and leaves nothing behind.
It is a clean end exactly if no topic that waits for no answer asks for anything before its last caller has gone. -/
theorem shutdown_run {check : Expression.Check} {s : Settings} (hc : Client.ofSettings check s = .ok c)
    (inputs : List (Input L)) (hl : (c.run inputs).link? = some link) : (c.run inputs).Dismisses link ∧
      ((c.run inputs).ClosesCleanly link ↔
        ∀ entry ∈ (c.run inputs).board.topics.toList, entry.2.callers ≠ [] → entry.2.pending = none →
          entry.2.Uniform (c.run inputs).board.table) := by
  have h := (Sound.ofSettings hc).run inputs
  exact ⟨h.dismisses hl, h.closesCleanly_iff hl⟩

def alikeCallers : List (Input Nat) :=
  [.start, .arrival (.connectResult 1 (.ok 7)), .reloadKeys [⟨"k", false, [1]⟩],
    .subscribe ⟨"require(A)", ["k"], 0⟩, .subscribe ⟨"require(A)", ["k"], 1⟩, .subscribe ⟨"require(B)", [], 2⟩,
    .subscribe ⟨"require(C)", [], 3⟩, .subscribe ⟨"require(D)", [], 4⟩, .arrival (.ack 1 (.added (.ok 5))),
    .arrival (.ack 2 (.added (.ok 6))), .arrival (.ack 4 (.added (.error ⟨3, "no"⟩)))]

theorem shutdown_run_alikeCallers :
    ∃ c, Client.ofSettings Expression.refusal? (.ofEndpoint "tcp://broker") = .ok c ∧
    (c.run alikeCallers).link? = some 7 ∧ (c.run alikeCallers).Dismisses 7 ∧
    (c.run alikeCallers).ClosesCleanly 7 := by
  have hc := ofSettings_ofEndpoint (L := Nat) Expression.refusal? "tcp://broker" (by decide)
  obtain ⟨hdismisses, hclean⟩ := shutdown_run hc alikeCallers (show _ = some 7 by decide +kernel)
  exact ⟨_, hc, by decide +kernel, hdismisses, hclean.mpr (by decide +kernel)⟩

/-- Two callers share a topic, each with a key of its own. -/
def differingCallers : List (Input Nat) :=
  [.start, .arrival (.connectResult 1 (.ok 7)), .reloadKeys [⟨"k", false, [1]⟩, ⟨"j", false, [2]⟩],
    .subscribe ⟨"require(A)", ["k"], 0⟩, .arrival (.ack 1 (.added (.ok 5))), .subscribe ⟨"require(A)", ["j"], 1⟩,
    .arrival (.ack 2 (.modified (.ok ())))]

theorem shutdown_unclean_differingCallers :
    ∃ c, Client.ofSettings Expression.refusal? (.ofEndpoint "tcp://broker") = .ok c ∧
    (c.run differingCallers).link? = some 7 ∧ ¬ (c.run differingCallers).ClosesCleanly 7 := by
  have hc := ofSettings_ofEndpoint (L := Nat) Expression.refusal? "tcp://broker" (by decide)
  have hsound := (Sound.ofSettings hc).run differingCallers
  refine ⟨_, hc, by decide +kernel, fun hclean => ?_⟩
  exact absurd ((hsound.closesCleanly_iff (show _ = some 7 by decide +kernel)).mp hclean) (by decide +kernel)

end Client

end Herald
