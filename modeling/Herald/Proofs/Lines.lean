import Herald.Proofs.Moves
/-!
What a switchboard and the broker have to do with each other: under each number of a topic, what is held and
what is pending. Moves that change callers leave both as they are, and settling a topic changes at most one
of them. A map that has such lines in it follows their changes one by one.
-/

namespace Herald

variable {L : Type}

namespace Errand

def terms? : Errand → Option Terms
  | .add terms => some terms
  | .modify terms => some terms
  | .delete => none

def order? : Errand → Option Holding → Option Order
  | .add terms, _ => some (.add terms.expression terms.ring terms.insecure)
  | .modify terms, held => held.map fun h => .modify h.id (h.terms.amendment terms)
  | .delete, held => held.map fun h => .delete h.id

theorem result_eq_some {errand : Errand} {held : Option Holding} {ack : Ack} {i : Holding}
    (h : errand.result held ack = some i) : held = some i ∨ errand.terms? = some i.terms := by
  unfold result at h
  split at h
  · obtain rfl := Option.some.inj h
    exact .inr rfl
  · obtain ⟨j, -, rfl⟩ := Option.map_eq_some_iff.mp h
    exact .inr rfl
  · simp at h
  · exact .inl h

theorem Fits.exists_order {errand : Errand} {held : Option Holding} (h : errand.Fits held) :
    ∃ o, errand.order? held = some o := by
  cases errand with
  | add terms => exact ⟨_, rfl⟩
  | modify terms =>
    obtain ⟨i, rfl⟩ := Option.ne_none_iff_exists'.mp h
    exact ⟨_, rfl⟩
  | delete =>
    obtain ⟨i, rfl⟩ := Option.ne_none_iff_exists'.mp h
    exact ⟨_, rfl⟩

end Errand

namespace Topic.Wants

variable {t : Topic L} {table : Key.Table} {errand : Errand} {order : Order}

theorem order?_eq (h : t.Wants table errand order) : errand.order? t.held = some order := by
  cases h with
  | add _ _ _ => rfl
  | modify _ _ hh _ => simp [Errand.order?, hh]
  | delete _ hh => simp [Errand.order?, hh]

theorem table_eq (h : t.Wants table errand order) : ∀ terms ∈ errand.terms?, terms.table = table := by
  cases h <;> simp [Errand.terms?, Topic.wish, Terms.wanted]

end Topic.Wants

namespace Switchboard

def view {α : Type} (field : Topic L → Option α) (b : Switchboard L) (n : TopicNo) : Option α :=
  b.topics[n]?.bind field

section View

variable {α : Type} {field : Topic L → Option α} {b b' : Switchboard L} {n : TopicNo} {t : Topic L}

theorem view_of_topic (ht : b.topics[n]? = some t) : b.view field n = field t := by
  simp [view, ht]

theorem view_eq_some {x : α} : b.view field n = some x ↔ ∃ t, b.topics[n]? = some t ∧ field t = some x :=
  Option.bind_eq_some_iff

theorem view_insert (hb : b'.topics = b.topics.insert n t) (m : TopicNo) :
    b'.view field m = if m = n then field t else b.view field m := by
  by_cases hm : m = n
  · simp [view, hb, hm]
  · simp [view, hb, hm, Std.ExtTreeMap.getElem?_insert, Ne.symm hm]

theorem view_put (hb : b'.topics = b.topics.insert n t) (h : b.view field n = field t) (m : TopicNo) :
    b'.view field m = b.view field m := by
  rw [view_insert hb]
  split
  · next hm => rw [hm, h]
  · rfl

theorem view_drop (ht : b.topics[n]? = some t) (h : field t = none) (m : TopicNo) :
    (b.drop n t).view field m = b.view field m := by
  by_cases hm : n = m
  · simp [view, drop, ← hm, ht, h]
  · simp [view, drop, Std.ExtTreeMap.getElem?_erase, hm]

end View

inductive Effect (b b' : Switchboard L) : List Call → Prop
  | still : (∀ m, b'.view Topic.held m = b.view Topic.held m) →
      (∀ m, b'.view Topic.pending m = b.view Topic.pending m) → Effect b b' []
  | confirmed {n : TopicNo} {h : Holding} {terms : Terms} : b.view Topic.pending n = none →
      b.view Topic.held n = some h → terms.table = b.table → (h.terms.amendment terms).isEmpty = true →
      (∀ m, b'.view Topic.held m = if m = n then some { h with terms } else b.view Topic.held m) →
      (∀ m, b'.view Topic.pending m = b.view Topic.pending m) → Effect b b' []
  | ordered {n : TopicNo} {link : LinkId} {errand : Errand} {order : Order} :
      b.view Topic.pending n = none → errand.order? (b.view Topic.held n) = some order →
      (∀ terms ∈ errand.terms?, terms.table = b.table) →
      (∀ m, b'.view Topic.held m = b.view Topic.held m) →
      (∀ m, b'.view Topic.pending m =
        if m = n then some ⟨b.nextRequest, errand⟩ else b.view Topic.pending m) →
      Effect b b' [.order link b.nextRequest order]

section Moves

variable {link : Option LinkId} {b b' : Switchboard L} {calls : List Call} {n : TopicNo} {t t' : Topic L}

theorem Settling.effect {r : Switchboard L × List Call} (hs : Settling link b n r) : Effect b r.1 r.2 := by
  cases hs with
  | missing _ => exact .still (fun _ => rfl) (fun _ => rfl)
  | idle _ _ => exact .still (fun _ => rfl) (fun _ => rfl)
  | removal ht hp _ hh => exact .still (view_drop ht hh) (view_drop ht hp)
  | @confirmation t h _ ht hp _ _ hh he =>
    have hpending : b.view Topic.pending n = t.pending := view_of_topic ht
    refine .confirmed (hpending.trans hp) ((view_of_topic ht).trans hh) rfl he (fun m => ?_)
      (view_put (t := t.confirm (t.wish b.table)) rfl hpending)
    rw [view_insert (t := t.confirm (t.wish b.table)) rfl]
    simp [Topic.confirm, hh]
  | @order l t errand order _ ht hp hw =>
    have hheld : b.view Topic.held n = t.held := view_of_topic ht
    exact .ordered ((view_of_topic ht).trans hp) (hheld ▸ hw.order?_eq) hw.table_eq
      (view_put (t := { t with pending := some ⟨b.nextRequest, errand⟩ }) rfl hheld)
      (view_insert (t := { t with pending := some ⟨b.nextRequest, errand⟩ }) rfl)

theorem effect_settle (link : Option LinkId) (b : Switchboard L) (n : TopicNo) :
    Effect b (b.settle link n).1 (b.settle link n).2 :=
  (settling link b n).effect

structure Still (b b' : Switchboard L) : Prop where
  held : ∀ m, b'.view Topic.held m = b.view Topic.held m
  pending : ∀ m, b'.view Topic.pending m = b.view Topic.pending m

theorem Still.put (ht : b.topics[n]? = some t) (hb : b'.topics = b.topics.insert n t')
    (hh : t'.held = t.held) (hp : t'.pending = t.pending) : Still b b' :=
  ⟨view_put hb ((view_of_topic ht).trans hh.symm), view_put hb ((view_of_topic ht).trans hp.symm)⟩

theorem Move.still_or_settling (m : Move link b b' calls) (h : b.Coherent) :
    (calls = [] ∧ Still b b') ∨ ∃ n, Settling link b n (b', calls) := by
  cases m with
  | issue => exact .inl ⟨rfl, fun _ => rfl, fun _ => rfl⟩
  | found _ _ _ =>
    refine .inl ⟨rfl, view_put topics_found ?_, view_put topics_found ?_⟩
    · simp [view, h.nextTopic_free, Topic.ofExpression]
    · simp [view, h.nextTopic_free, Topic.ofExpression]
  | join ht _ _ =>
    rw [Switchboard.join, ht]
    exact .inl ⟨rfl, .put ht rfl (Topic.join_held _ _) (Topic.join_pending _ _)⟩
  | leave hk =>
    obtain ⟨t, ht, -⟩ := (h.tickets _ _).mp hk
    refine .inl ⟨rfl, ?_⟩
    simp only [Switchboard.leave, ht]
    exact .put ht rfl (Topic.leave_held _ _) (Topic.leave_pending _ _)
  | replace c ht =>
    rw [Switchboard.replace, ht]
    exact .inl ⟨rfl, .put ht rfl (Topic.replace_held _ _) (Topic.replace_pending _ _)⟩
  | rename ht _ => exact .inl ⟨rfl, .put ht rfl rfl rfl⟩
  | settle n => exact .inr ⟨n, settling link b n⟩

theorem Move.effect (m : Move link b b' calls) (h : b.Coherent) : Effect b b' calls := by
  obtain ⟨rfl, hs⟩ | ⟨n, hs⟩ := m.still_or_settling h
  · exact .still hs.held hs.pending
  · exact hs.effect

end Moves

structure Bears (P : Terms → Prop) (b : Switchboard L) : Prop where
  held : ∀ {n : TopicNo} {i : Holding}, b.view Topic.held n = some i → P i.terms
  pending : ∀ {n : TopicNo} {p : Pending}, b.view Topic.pending n = some p →
    ∀ terms ∈ p.errand.terms?, P terms

section Answers

variable {b : Switchboard L} {n : TopicNo} {t : Topic L} {request : RequestNo}

theorem held_conclude (errand : Errand) (ack : Ack) (m : TopicNo) :
    ((b.answered request).conclude n { t with pending := none } errand ack).1.view Topic.held m =
      if m = n then errand.result t.held ack else b.view Topic.held m := by
  obtain ⟨t', ids, heq, -, -, -, -, hh, -⟩ :=
    conclude_shape (b.answered request) n { t with pending := none } errand ack
  rw [heq, view_insert (b := b) (t := t') rfl, hh]

theorem pending_conclude (errand : Errand) (ack : Ack) (m : TopicNo) :
    ((b.answered request).conclude n { t with pending := none } errand ack).1.view Topic.pending m =
      if m = n then none else b.view Topic.pending m := by
  obtain ⟨t', ids, heq, -, -, -, hp, -⟩ :=
    conclude_shape (b.answered request) n { t with pending := none } errand ack
  rw [heq, view_insert (b := b) (t := t') rfl, hp]

theorem table_conclude (errand : Errand) (ack : Ack) :
    ((b.answered request).conclude n { t with pending := none } errand ack).1.table = b.table := by
  obtain ⟨t', ids, heq, -⟩ :=
    conclude_shape (b.answered request) n { t with pending := none } errand ack
  rw [heq]
  rfl

theorem Bears.conclude {P : Terms → Prop} (h : b.Bears P) (ht : b.topics[n]? = some t) {p : Pending}
    (hp : t.pending = some p) (ack : Ack) :
    ((b.answered p.request).conclude n { t with pending := none } p.errand ack).1.Bears P where
  held := by
    intro m i hi
    rw [held_conclude] at hi
    split at hi
    · rcases Errand.result_eq_some hi with hheld | hterms
      · exact h.held ((view_of_topic ht).trans hheld)
      · exact h.pending ((view_of_topic ht).trans hp) _ hterms
    · exact h.held hi
  pending := by
    intro m q hq
    rw [pending_conclude] at hq
    split at hq
    · simp at hq
    · exact h.pending hq

end Answers

end Switchboard

/-- A map has exactly the keys and values that stand under the topics' numbers, and each key once. -/
structure Tabulates {κ γ : Type} [Ord κ] [Std.TransOrd κ] (line : TopicNo → Option (κ × γ))
    (map : Std.ExtTreeMap κ γ) : Prop where
  distinct : ∀ {n m : TopicNo} {x y : κ × γ}, line n = some x → line m = some y → x.1 = y.1 → n = m
  exact : ∀ key value, map[key]? = some value ↔ ∃ n, line n = some (key, value)

namespace Tabulates

variable {κ γ : Type} [Ord κ] [Std.TransOrd κ] {line line' : TopicNo → Option (κ × γ)}
  {map map' : Std.ExtTreeMap κ γ} {n : TopicNo} {key : κ} {value : γ}

theorem empty (h : ∀ n, line n = none) : Tabulates line (∅ : Std.ExtTreeMap κ γ) where
  distinct := fun hx => by simp [h] at hx
  exact := by simp [h]

theorem congr (h : Tabulates line map) (heq : ∀ m, line' m = line m) : Tabulates line' map := by
  obtain rfl : line' = line := funext heq
  exact h

theorem keep (h : Tabulates line map) (heq : ∀ m, line' m = if m = n then line n else line m) :
    Tabulates line' map := by
  refine h.congr fun m => ?_
  rw [heq]
  split
  · next e => rw [e]
  · rfl

theorem change (h : Tabulates line map) {now : Option (κ × γ)}
    (heq : ∀ m, line' m = if m = n then now else line m)
    (hnew : ∀ {x y m}, now = some x → line m = some y → y.1 = x.1 → m = n)
    (hmap : ∀ key value, map'[key]? = some value ↔
      now = some (key, value) ∨ (∀ x, line n = some x → x.1 ≠ key) ∧ map[key]? = some value) :
    Tabulates line' map' where
  distinct := by
    intro m m' x y hm hm' hxy
    rw [heq] at hm hm'
    by_cases e : m = n
    · by_cases e' : m' = n
      · rw [e, e']
      · rw [if_pos e] at hm
        rw [if_neg e'] at hm'
        exact absurd (hnew hm hm' hxy.symm) e'
    · rw [if_neg e] at hm
      by_cases e' : m' = n
      · rw [if_pos e'] at hm'
        exact absurd (hnew hm' hm hxy) e
      · rw [if_neg e'] at hm'
        exact h.distinct hm hm' hxy
  exact := by
    intro key value
    rw [hmap, h.exact]
    constructor
    · rintro (hnow | ⟨hne, m, hm⟩)
      · exact ⟨n, by rw [heq, if_pos rfl, hnow]⟩
      · refine ⟨m, ?_⟩
        rw [heq, if_neg, hm]
        rintro rfl
        exact hne _ hm rfl
    · rintro ⟨m, hm⟩
      rw [heq] at hm
      by_cases e : m = n
      · rw [if_pos e] at hm
        exact .inl hm
      · rw [if_neg e] at hm
        exact .inr ⟨fun x hx hkey => e (h.distinct hm hx hkey.symm), m, hm⟩

theorem lookup (h : Tabulates line map) (hn : line n = some (key, value)) : map[key]? = some value :=
  (h.exact key value).mpr ⟨n, hn⟩

variable [Std.LawfulEqOrd κ]

theorem insert (h : Tabulates line map) (hn : line n = none) (hfree : key ∉ map)
    (heq : ∀ m, line' m = if m = n then some (key, value) else line m) :
    Tabulates line' (map.insert key value) := by
  have hnone : map[key]? = none := Std.ExtTreeMap.getElem?_eq_none hfree
  refine h.change heq ?_ fun key' value' => ?_
  · rintro x ⟨key', value'⟩ m hx hm rfl
    obtain rfl := Option.some.inj hx
    rw [h.lookup hm] at hnone
    simp at hnone
  · rw [Std.ExtTreeMap.getElem?_insert]
    by_cases e : key = key'
    · subst e
      simp [hnone]
    · simp [e, hn]

theorem modify (h : Tabulates line map) (hn : line n = some (key, value)) {f : γ → γ}
    (heq : ∀ m, line' m = if m = n then some (key, f value) else line m) :
    Tabulates line' (map.modify key f) := by
  refine h.change heq ?_ fun key' value' => ?_
  · intro x y m hx hm hkey
    obtain rfl := Option.some.inj hx
    exact h.distinct hm hn hkey
  · rw [Std.ExtTreeMap.getElem?_modify]
    by_cases e : key = key'
    · subst e
      simp [hn, h.lookup hn]
    · simp [hn, e]

theorem erase (h : Tabulates line map) (hn : line n = some (key, value))
    (heq : ∀ m, line' m = if m = n then none else line m) : Tabulates line' (map.erase key) := by
  refine h.change heq (by simp) fun key' value' => ?_
  rw [Std.ExtTreeMap.getElem?_erase]
  by_cases e : key = key' <;> simp [hn, e]

end Tabulates

end Herald
