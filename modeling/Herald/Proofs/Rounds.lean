import Herald.Proofs.Settling
/-!
A round of settling over a link: topics are settled one after another, none of them twice, so that each is met as
the round found it. The orders of the round are those that the topics need, under the numbers that come next.
-/

namespace Herald

variable {L : Type}

namespace Need

def order? : Need → Option Order
  | .order _ o => some o
  | _ => none

end Need

namespace Topic

def meet (t : Topic L) (request : RequestNo) : Need → Option (Topic L)
  | .nothing => some t
  | .removal => none
  | .confirmation terms => some (t.confirm terms)
  | .order errand _ => some { t with pending := some ⟨request, errand⟩ }

end Topic

namespace Switchboard

def numbered (link : LinkId) (request : RequestNo) (orders : List Order) : List Call :=
  (orders.zipIdx request).map fun (order, r) => .order link r order

def orders (table : Key.Table) (ts : List (TopicNo × Topic L)) : List Order :=
  ts.filterMap fun entry => (entry.2.need table true).order?

structure Lists (b : Switchboard L) (ts : List (TopicNo × Topic L)) : Prop where
  nodup : (ts.map Prod.fst).Nodup
  topic : ∀ entry ∈ ts, b.topics[entry.1]? = some entry.2

variable {link : LinkId} {request : RequestNo} {table : Key.Table} {ts pre post : List (TopicNo × Topic L)}
  {b : Switchboard L} {n m : TopicNo} {t : Topic L}

theorem numbered_append (first others : List Order) : numbered link request (first ++ others) =
    numbered link request first ++ numbered link (request + first.length) others := by
  simp [numbered, List.zipIdx_append]

theorem numbered_map (f : TopicNo × Topic L → Order) :
    numbered link request (ts.map f) = (ts.zipIdx request).map fun (entry, r) => .order link r (f entry) := by
  simp [numbered, List.zipIdx_map]

theorem mem_numbered (first : List Order) (order : Order) (others : List Order) :
    .order link (request + first.length) order ∈ numbered link request (first ++ order :: others) := by
  rw [numbered_append]
  exact List.mem_append_right _ (.head _)

theorem orders_append : orders table (pre ++ post) = orders table pre ++ orders table post :=
  List.filterMap_append

theorem orders_cons (entry : TopicNo × Topic L) (ts : List (TopicNo × Topic L)) :
    orders table (entry :: ts) = (entry.2.need table true).order?.toList ++ orders table ts := by
  cases h : (entry.2.need table true).order? <;> simp [orders, h]

theorem lists_toList (b : Switchboard L) : b.Lists b.topics.toList where
  nodup := by
    rw [Std.ExtTreeMap.map_fst_toList_eq_keys]
    exact Std.ExtTreeMap.nodup_keys
  topic := fun _ hmem => Std.ExtTreeMap.mem_toList_iff_getElem?_eq_some.mp hmem

theorem Lists.settle (h : b.Lists ((n, t) :: ts)) (link : Option LinkId) : (b.settle link n).1.Lists ts := by
  obtain ⟨hn, hd⟩ := List.nodup_cons.mp h.nodup
  refine ⟨hd, fun entry hmem => ?_⟩
  have hne : entry.1 ≠ n := by
    rintro rfl
    exact hn (List.mem_map.mpr ⟨entry, hmem, rfl⟩)
  rw [settle_others link b hne]
  exact h.topic entry (.tail _ hmem)

theorem settle_meets (link : LinkId) (ht : b.topics[n]? = some t) :
    (b.settle (some link) n).2 = numbered link b.nextRequest (t.need b.table true).order?.toList ∧
      (b.settle (some link) n).1.topics[n]? = t.meet b.nextRequest (t.need b.table true) ∧
      (b.settle (some link) n).1.table = b.table ∧
      (b.settle (some link) n).1.nextRequest =
        b.nextRequest + (t.need b.table true).order?.toList.length := by
  simp only [Switchboard.settle, ht, Option.isSome_some]
  cases t.need b.table true with
  | nothing => exact ⟨rfl, ht, rfl, rfl⟩
  | removal => exact ⟨rfl, Std.ExtTreeMap.getElem?_erase_self, rfl, rfl⟩
  | confirmation terms => exact ⟨rfl, Std.ExtTreeMap.getElem?_insert_self, rfl, rfl⟩
  | order errand order => exact ⟨rfl, Std.ExtTreeMap.getElem?_insert_self, rfl, rfl⟩

theorem settleEach_cons (link : Option LinkId) (b : Switchboard L) (n : TopicNo) (ns : List TopicNo) :
    b.settleEach link (n :: ns) = (((b.settle link n).1.settleEach link ns).1,
      (b.settle link n).2 ++ ((b.settle link n).1.settleEach link ns).2) := rfl

theorem settleEach_others (link : Option LinkId) {ns : List TopicNo} (hm : m ∉ ns) :
    (b.settleEach link ns).1.topics[m]? = b.topics[m]? := by
  induction ns generalizing b with
  | nil => rfl
  | cons n ns ih =>
    rw [List.mem_cons, not_or] at hm
    exact (ih hm.2).trans (settle_others link b hm.1)

theorem settleEach_calls (h : b.Lists ts) (link : LinkId) :
    (b.settleEach (some link) (ts.map Prod.fst)).2 = numbered link b.nextRequest (orders b.table ts) := by
  induction ts generalizing b with
  | nil => rfl
  | cons entry ts ih =>
    obtain ⟨n, t⟩ := entry
    obtain ⟨hcalls, -, htable, hnext⟩ := settle_meets link (h.topic _ (.head _))
    rw [List.map_cons, settleEach_cons, ih (h.settle _), hcalls, htable, hnext, orders_cons, numbered_append]

theorem settleEach_meets (link : LinkId) (h : b.Lists (pre ++ (n, t) :: post)) :
    (b.settleEach (some link) ((pre ++ (n, t) :: post).map Prod.fst)).1.topics[n]? =
      t.meet (b.nextRequest + (orders b.table pre).length) (t.need b.table true) := by
  induction pre generalizing b with
  | nil =>
    have hn : n ∉ post.map Prod.fst := (List.nodup_cons.mp h.nodup).1
    exact (settleEach_others _ hn).trans (settle_meets link (h.topic _ (.head _))).2.1
  | cons entry pre ih =>
    obtain ⟨m, u⟩ := entry
    obtain ⟨-, -, htable, hnext⟩ := settle_meets link (h.topic _ (.head _))
    have hrest := ih (h.settle (some link))
    rw [htable, hnext, Nat.add_assoc, ← List.length_append, ← orders_cons (m, u)] at hrest
    exact hrest

theorem settleAll_calls (b : Switchboard L) (link : LinkId) :
    (b.settleAll (some link)).2 = numbered link b.nextRequest (orders b.table b.topics.toList) := by
  rw [settleAll, ← Std.ExtTreeMap.map_fst_toList_eq_keys]
  exact settleEach_calls (lists_toList b) link

theorem settleAll_split (link : LinkId) (hsplit : b.topics.toList = pre ++ (n, t) :: post) :
    (b.settleAll (some link)).1.topics[n]? =
      t.meet (b.nextRequest + (orders b.table pre).length) (t.need b.table true) := by
  rw [settleAll, ← Std.ExtTreeMap.map_fst_toList_eq_keys, hsplit]
  exact settleEach_meets link (hsplit ▸ lists_toList b)

theorem settleAll_meets (link : LinkId) (ht : b.topics[n]? = some t) :
    ∃ r, (b.settleAll (some link)).1.topics[n]? = t.meet r (t.need b.table true) ∧
      ∀ order ∈ (t.need b.table true).order?, .order link r order ∈ (b.settleAll (some link)).2 := by
  obtain ⟨pre, post, hsplit⟩ := List.append_of_mem (Std.ExtTreeMap.mem_toList_iff_getElem?_eq_some.mpr ht)
  refine ⟨_, settleAll_split link hsplit, fun order horder => ?_⟩
  rw [settleAll_calls, hsplit, orders_append, orders_cons, Option.mem_def.mp horder]
  exact mem_numbered _ order _

theorem settleAll_others (link : Option LinkId) (hn : b.topics[n]? = none) :
    (b.settleAll link).1.topics[n]? = none := by
  have hkeys : n ∉ b.topics.keys := by
    rw [Std.ExtTreeMap.mem_keys, Std.ExtTreeMap.mem_iff_isSome_getElem?, hn]
    exact Bool.false_ne_true
  exact (settleEach_others link hkeys).trans hn

end Switchboard

end Herald
