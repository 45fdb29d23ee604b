import Herald.Proofs.Agreement
import Herald.Proofs.KeyChange
import Herald.Proofs.Refusal
import Mathlib.Data.List.Perm.Subperm
/-!
Left to the broker's answers alone, a connected client comes to rest. An answer leads to at most one more order
for its topic, and that order is the last: what callers want, or a deletion that nobody objects to.
-/

namespace Herald

variable {L : Type}

theorem Terms.amendment_self (t : Terms) : (t.amendment t).isEmpty = true := by
  simp [amendment, Amendment.isEmpty, Key.Selection.changeTo_self]

def Errand.expects : Errand → Ack → Bool
  | .add _, .added _ => true
  | .modify _, .modified _ => true
  | .delete, .deleted _ => true
  | _, _ => false

namespace Topic

variable {t t' : Topic L} {table : Key.Table} {errand next : Errand} {order : Order} {ack : Ack}

inductive Final (t : Topic L) (table : Key.Table) : Errand → Prop
  | wished {errand : Errand} : t.isActive = true → errand.terms? = some (t.wish table) → Final t table errand
  | delete : t.isActive = false → Final t table .delete

theorem Wants.final (h : t.Wants table errand order) : t.Final table errand := by
  cases h with
  | add hc _ _ => exact .wished hc rfl
  | modify hc _ _ _ => exact .wished hc rfl
  | delete hc _ => exact .delete hc

theorem Final.sent (h : t.Final table errand) (p : Pending) :
    ({ t with pending := some p } : Topic L).Final table errand := by
  cases h with
  | wished hc hterms => exact .wished hc hterms
  | delete hc => exact .delete hc

structure Answered (t : Topic L) (errand : Errand) (ack : Ack) (t' : Topic L) : Prop where
  expression : t'.expression = t.expression
  isActive : t'.isActive = t.isActive
  keyNames : t'.keyNames = t.keyNames
  pending : t'.pending = none
  held : t'.held = errand.result t.held ack
  refused : errand.refused? ack ≠ none → t'.refused = true

theorem Answered.wish (h : t.Answered errand ack t') (table : Key.Table) : t'.wish table = t.wish table := by
  rw [Topic.wish, Topic.wish, h.expression, h.keyNames]

theorem Answered.refused_or_held (h : t.Answered errand ack t') (hx : errand.expects ack = true)
    (hfit : errand.Fits t.held) {terms : Terms} (hterms : errand.terms? = some terms) :
    t'.refused = true ∨ ∃ i, t'.held = some i ∧ i.terms = terms := by
  unfold Errand.expects at hx
  split at hx
  · next result =>
    obtain rfl := Option.some.inj hterms
    cases result with
    | ok id => exact .inr ⟨_, h.held, rfl⟩
    | error refusal => exact .inl (h.refused (by simp [Errand.refused?]))
  · next result =>
    obtain rfl := Option.some.inj hterms
    cases result with
    | ok u =>
      obtain ⟨holding, hh⟩ := Option.ne_none_iff_exists'.mp hfit
      have hheld := h.held
      rw [hh] at hheld
      exact .inr ⟨_, hheld, rfl⟩
    | error refusal => exact .inl (h.refused (by simp [Errand.refused?]))
  · cases hterms
  · cases hx

theorem not_wants_of_refused (hc : t.isActive = true) (hr : t.refused = true) : ¬ t.Wants table next order := by
  intro hw
  cases hw with
  | add _ hr' _ => simp [hr] at hr'
  | modify _ hr' _ _ => simp [hr] at hr'
  | delete hidle _ => simp [hc] at hidle

theorem not_wants_of_held {i : Holding} (hc : t.isActive = true) (hh : t.held = some i)
    (hterms : i.terms = t.wish table) : ¬ t.Wants table next order := by
  intro hw
  cases hw with
  | add _ _ hnone => simp [hh] at hnone
  | modify _ _ hh' he =>
    obtain rfl := Option.some.inj (hh.symm.trans hh')
    rw [hterms, Terms.amendment_self] at he
    cases he
  | delete hidle _ => simp [hc] at hidle

theorem not_wants_of_absent (hc : t.isActive = false) (hh : t.held = none) : ¬ t.Wants table next order := by
  intro hw
  cases hw with
  | add hactive _ _ => simp [hc] at hactive
  | modify hactive _ _ _ => simp [hc] at hactive
  | delete _ hheld => simp [hh] at hheld

theorem Final.not_wants (h : t.Final table errand) (hx : errand.expects ack = true)
    (hfit : errand.Fits t.held) (ha : t.Answered errand ack t') : ¬ t'.Wants table next order := by
  cases h with
  | wished hc hterms =>
    -- Nobody's wish has changed since, so what comes back is about the wish as it is now.
    have hc' : t'.isActive = true := ha.isActive.trans hc
    obtain hr | ⟨i, hh, hi⟩ := ha.refused_or_held hx hfit hterms
    · exact not_wants_of_refused hc' hr
    · exact not_wants_of_held hc' hh (hi.trans (ha.wish table).symm)
  | delete hc =>
    have hnone : t'.held = none := by
      cases ack with
      | deleted result => exact ha.held
      | _ => simp [Errand.expects] at hx
    exact not_wants_of_absent (ha.isActive.trans hc) hnone

/-- A topic that callers want, that awaits nothing, and that the broker has refused or holds on their terms. -/
structure Done (t : Topic L) (table : Key.Table) : Prop where
  pending : t.pending = none
  callers : t.callers ≠ []
  held : t.refused = true ∨ ∃ h, t.held = some h ∧ h.terms =
    ⟨t.expression, t.wantedNames, table, (Key.Selection.ring ⟨table, t.wantedNames⟩ .receive).isEmpty⟩

end Topic

namespace Switchboard

variable {b b' : Switchboard L} {n : TopicNo} {t : Topic L} {ack : Ack} {l : LinkId}

def inFlight (b : Switchboard L) (n : TopicNo) : Nat :=
  if (b.view Topic.pending n).isSome then 1 else 0

def Closing (b : Switchboard L) (n : TopicNo) : Prop :=
  ∀ t p, b.topics[n]? = some t → t.pending = some p → t.Final b.table p.errand

structure Advances (l : LinkId) (n : TopicNo) (b b' : Switchboard L) (calls : List Call) : Prop where
  table : b'.table = b.table
  others : ∀ m, m ≠ n → b'.topics[m]? = b.topics[m]?
  turn : (calls = [] ∧ b'.inFlight n = 0) ∨ ∃ r o, calls = [.order l r o] ∧ b'.byRequest[r]? = some n ∧
    b'.inFlight n = 1 ∧ b'.Closing n ∧ ¬ b.Closing n

theorem inFlight_le (b : Switchboard L) (n : TopicNo) : b.inFlight n ≤ 1 := by
  unfold inFlight
  split <;> simp

theorem inFlight_eq_zero_iff : b.inFlight n = 0 ↔
    ∀ t : Topic L, b.topics[n]? = some t → t.pending = none := by
  cases h : b.topics[n]? <;> simp [inFlight, view, h]

theorem inFlight_eq_one (ht : b.topics[n]? = some t) {p : Pending} (hp : t.pending = some p) :
    b.inFlight n = 1 := by
  simp [inFlight, view_of_topic ht, hp]

theorem conclude_answered (b : Switchboard L) (n : TopicNo) (t : Topic L) (errand : Errand) (ack : Ack) :
    ∃ t' ids, (b.conclude n { t with pending := none } errand ack).1 = { b.put n t' with byBrokerId := ids } ∧
      t.Answered errand ack t' := by
  obtain ⟨t', ids, heq, he, -, hk, hp, hh, hc⟩ := conclude_shape b n { t with pending := none } errand ack
  refine ⟨t', ids, heq, he, hc, hk, hp, hh, fun hr => ?_⟩
  obtain ⟨terms, hr⟩ := Option.ne_none_iff_exists'.mp hr
  have hput := (conclude_refused b n { t with pending := none } hr).symm.trans heq
  have htopic := congrArg (fun b : Switchboard L => b.topics[n]?) hput
  simp only [put, Std.ExtTreeMap.getElem?_insert_self, Option.some.injEq] at htopic
  rw [← htopic]

theorem settle_idle (ht : b.topics[n]? = some t) (hp : t.pending = none) :
    ((b.settle (some l) n).2 = [] ∧ (b.settle (some l) n).1.inFlight n = 0) ∨
      ∃ errand order, t.Wants b.table errand order ∧ b.settle (some l) n = b.send l n t errand order := by
  have hs := settling (some l) b n
  generalize b.settle (some l) n = r at hs
  cases hs with
  | missing hnone => simp [hnone] at ht
  | idle _ _ =>
    refine .inl ⟨rfl, inFlight_eq_zero_iff.mpr fun u hu => ?_⟩
    obtain rfl := Option.some.inj (ht.symm.trans hu)
    exact hp
  | removal _ _ _ _ => exact .inl ⟨rfl, by simp [inFlight, view, drop]⟩
  | confirmation _ hu hnone _ _ _ _ =>
    refine .inl ⟨rfl, ?_⟩
    simp [inFlight, view, put, Topic.confirm, hnone]
  | order hl hu _ hw =>
    obtain rfl := Option.some.inj hl
    obtain rfl := Option.some.inj (ht.symm.trans hu)
    exact .inr ⟨_, _, hw, rfl⟩

theorem acknowledge_advances (hb : b.Coherent) (l : LinkId) (ht : b.topics[n]? = some t) {p : Pending}
    (hp : t.pending = some p) (hx : p.errand.expects ack = true) :
    b.Advances l n (b.acknowledge (some l) p.request ack).1 (b.acknowledge (some l) p.request ack).2.1 := by
  obtain ⟨t', ids, heq, ha⟩ := conclude_answered (b.answered p.request) n t p.errand ack
  generalize hres : (b.answered p.request).conclude n { t with pending := none } p.errand ack = r at heq
  have ht' : r.1.topics[n]? = some t' := by
    rw [heq]
    exact Std.ExtTreeMap.getElem?_insert_self
  have htable : r.1.table = b.table := by
    rw [heq]
    rfl
  rw [acknowledge_pending hb (some l) ht hp hres]
  refine ⟨(Moves.settle (some l) r.1 n).table_eq.trans htable, fun m hm => ?_, ?_⟩
  · rw [settle_others (some l) r.1 hm, heq]
    exact topic_insert_ne m hm
  · refine (settle_idle ht' ha.pending).imp_right ?_
    rintro ⟨errand, order, hw, hsend⟩
    have hsent : (r.1.send l n t' errand order).1.topics[n]? =
        some { t' with pending := some ⟨r.1.nextRequest, errand⟩ } := Std.ExtTreeMap.getElem?_insert_self
    rw [hsend]
    refine ⟨_, _, rfl, Std.ExtTreeMap.getElem?_insert_self, inFlight_eq_one hsent rfl, ?_, fun hclosing => ?_⟩
    · intro u q hu hq
      obtain rfl := Option.some.inj (hsent.symm.trans hu)
      obtain rfl := Option.some.inj hq
      exact hw.final.sent _
    · exact (hclosing t p ht hp).not_wants hx ((hb.proper ht).fits p hp) ha (htable ▸ hw)

end Switchboard

namespace Client

open Switchboard (Closing inFlight_le inFlight_eq_zero_iff inFlight_eq_one)

variable {c c' : Client L} {i : Input L} {n m : TopicNo} {topics : List (Option TopicNo)}

def awaits (c : Client L) : Input L → Bool
  | .arrival (.ack request ack) => (c.board.errand? request).any (·.2.expects ack)
  | _ => false

def addressee (c : Client L) : Input L → Option TopicNo
  | .arrival (.ack request _) => c.board.byRequest[request]?
  | _ => none

def answered (c : Client L) : List (Input L) → List (Option TopicNo)
  | [] => []
  | i :: is => c.addressee i :: (c.step i).1.answered is

def asks (c : Client L) (i : Input L) : List (Option TopicNo) :=
  (c.ordersOf i).map fun (request, _) => c.topicOf i request

def asked (c : Client L) : List (Input L) → List (Option TopicNo)
  | [] => []
  | i :: is => c.asks i ++ (c.step i).1.asked is

structure Advance (n : TopicNo) (c c' : Client L) (topics : List (Option TopicNo)) : Prop where
  connection : c'.connection = c.connection
  table : c'.board.table = c.board.table
  others : ∀ m, m ≠ n → c'.board.topics[m]? = c.board.topics[m]?
  before : c.board.inFlight n = 1
  turn : (topics = [] ∧ c'.board.inFlight n = 0) ∨
    topics = [some n] ∧ c'.board.inFlight n = 1 ∧ c'.board.Closing n ∧ ¬ c.board.Closing n

theorem Sound.advance (h : c.Sound) (hi : c.awaits i = true) :
    ∃ n, c.addressee i = some n ∧ Advance n c (c.step i).1 (c.asks i) := by
  unfold awaits at hi
  split at hi
  · next request ack =>
    obtain ⟨⟨n, errand⟩, he, hx⟩ := Option.any_eq_true _ _ |>.mp hi
    obtain ⟨t, ht, hp⟩ := (Switchboard.errand?_eq_some_iff h.coherent).mp he
    have hr : c.board.byRequest[request]? = some n :=
      (h.coherent.requests.mark_iff ht).mpr (by simp [Topic.request?, hp])
    obtain ⟨l, hl⟩ : ∃ l, c.link? = some l := by
      cases hl : c.link? with
      | none => simp [(h.quiet hl n t ht).2.1] at hp
      | some l => exact ⟨l, rfl⟩
    have hadv := Switchboard.acknowledge_advances h.coherent l ht hp hx
    rw [← hl] at hadv
    refine ⟨n, hr, rfl, hadv.table, hadv.others, inFlight_eq_one ht hp, ?_⟩
    obtain ⟨hcalls, hnow⟩ | ⟨r, o, hcalls, hmark, hturn⟩ := hadv.turn
    · have hstep : (c.step (.arrival (.ack request ack))).2.calls = [] := hcalls
      exact .inl ⟨by simp [asks, ordersOf, hstep], hnow⟩
    · have hstep : (c.step (.arrival (.ack request ack))).2.calls = [.order l r o] := hcalls
      have htopic : c.topicOf (.arrival (.ack request ack)) r = some n := hmark
      exact .inr ⟨by simp [asks, ordersOf, hstep, Call.order?, htopic], hturn⟩
  · cases hi

namespace Advance

theorem inFlight_others (h : Advance n c c' topics) (hm : m ≠ n) :
    c'.board.inFlight m = c.board.inFlight m := by
  have hview : c'.board.view Topic.pending m = c.board.view Topic.pending m := by
    rw [Switchboard.view, Switchboard.view, h.others m hm]
  rw [Switchboard.inFlight, Switchboard.inFlight, hview]

theorem mem_topics (h : Advance n c c' topics) {x : Option TopicNo} (hx : x ∈ topics) :
    x = some n ∧ c'.board.Closing n := by
  obtain ⟨rfl, -⟩ | ⟨rfl, -, hclosing, -⟩ := h.turn
  · simp at hx
  · exact ⟨List.mem_singleton.mp hx, hclosing⟩

theorem closing (h : Advance n c c' topics) (hm : c.board.Closing m) :
    some m ∉ topics ∧ c'.board.Closing m := by
  by_cases hmn : m = n
  · subst hmn
    obtain ⟨rfl, hnow⟩ | ⟨-, -, -, hnot⟩ := h.turn
    · refine ⟨List.not_mem_nil, fun t p ht hp => ?_⟩
      simp [inFlight_eq_zero_iff.mp hnow t ht] at hp
    · exact absurd hm hnot
  · refine ⟨fun hmem => hmn (Option.some.inj (h.mem_topics hmem).1), fun t p ht hp => ?_⟩
    rw [h.others m hmn] at ht
    rw [h.table]
    exact hm t p ht hp

theorem balance (h : Advance n c c' topics) (m : TopicNo) : topics.count (some m) + c.board.inFlight m =
    (if n = m then 1 else 0) + c'.board.inFlight m := by
  by_cases hmn : m = n
  · subst hmn
    obtain ⟨rfl, hnow⟩ | ⟨rfl, hnow, -⟩ := h.turn <;> simp [h.before, hnow]
  · have hnone : some m ∉ topics := fun hmem => hmn (Option.some.inj (h.mem_topics hmem).1)
    simp [List.count_eq_zero.mpr hnone, h.inFlight_others hmn, Ne.symm hmn]

theorem exists_topic (h : Advance n c c' topics) : n ∈ c.board.topics := by
  rw [Std.ExtTreeMap.mem_iff_isSome_getElem?]
  have hbefore := h.before
  cases ht : c.board.topics[n]? with
  | none => simp [Switchboard.inFlight, Switchboard.view, ht] at hbefore
  | some t => rfl

theorem subset (h : Advance n c c' topics) (hm : m ∈ c'.board.topics) : m ∈ c.board.topics := by
  by_cases hmn : m = n
  · exact hmn ▸ h.exists_topic
  · rw [Std.ExtTreeMap.mem_iff_isSome_getElem?] at hm ⊢
    rwa [h.others m hmn] at hm

end Advance

def Answers (c : Client L) (inputs : List (Input L)) : Prop :=
  c.Along (fun c i => c.awaits i = true) inputs

instance (c : Client L) (inputs : List (Input L)) : Decidable (c.Answers inputs) :=
  inferInstanceAs (Decidable (c.Along (fun c i => c.awaits i = true) inputs))

section Answers

variable {inputs : List (Input L)}

theorem Sound.not_mem_asked (h : c.Sound) (ha : c.Answers inputs) (hm : c.board.Closing m) :
    some m ∉ c.asked inputs := by
  induction inputs generalizing c with
  | nil => exact List.not_mem_nil
  | cons i inputs ih =>
    obtain ⟨n, -, hadv⟩ := h.advance ha.1
    obtain ⟨hnone, hclosing⟩ := hadv.closing hm
    rw [asked, List.mem_append, not_or]
    exact ⟨hnone, ih (h.step i) ha.2 hclosing⟩

theorem Sound.nodup_asked (h : c.Sound) (ha : c.Answers inputs) : (c.asked inputs).Nodup := by
  induction inputs generalizing c with
  | nil => exact .nil
  | cons i inputs ih =>
    obtain ⟨n, -, hadv⟩ := h.advance ha.1
    have hone : (c.asks i).Nodup := by
      obtain ⟨heq, -⟩ | ⟨heq, -⟩ := hadv.turn <;> simp [heq]
    refine List.nodup_append.mpr ⟨hone, ih (h.step i) ha.2, fun x hx y hy => ?_⟩
    -- What is asked for now is closing, so the rest of the run does not ask for it.
    obtain ⟨rfl, hclosing⟩ := hadv.mem_topics hx
    rintro rfl
    exact (h.step i).not_mem_asked ha.2 hclosing hy

theorem Sound.balance (h : c.Sound) (ha : c.Answers inputs) (m : TopicNo) :
    (c.asked inputs).count (some m) + c.board.inFlight m =
      (c.answered inputs).count (some m) + (c.run inputs).board.inFlight m := by
  induction inputs generalizing c with
  | nil => rfl
  | cons i inputs ih =>
    obtain ⟨n, hn, hadv⟩ := h.advance ha.1
    have hstep := hadv.balance m
    have hrest := ih (h.step i) ha.2
    simp only [asked, answered, Client.run, hn, List.count_append, List.count_cons, beq_iff_eq,
      Option.some.injEq]
    omega

theorem Sound.asked_or_answered (h : c.Sound) (ha : c.Answers inputs) {x : Option TopicNo}
    (hx : x ∈ c.asked inputs ∨ x ∈ c.answered inputs) : ∃ n ∈ c.board.topics, x = some n := by
  induction inputs generalizing c with
  | nil => simp [asked, answered] at hx
  | cons i inputs ih =>
    obtain ⟨n, hn, hadv⟩ := h.advance ha.1
    rw [asked, answered, List.mem_append, List.mem_cons, hn] at hx
    obtain hnow | hlater : x = some n ∨ x ∈ (c.step i).1.asked inputs ∨ x ∈ (c.step i).1.answered inputs := by
      obtain (hx | hx) | hx | hx := hx
      · exact .inl (hadv.mem_topics hx).1
      · exact .inr (.inl hx)
      · exact .inl hx
      · exact .inr (.inr hx)
    · exact ⟨n, hadv.exists_topic, hnow⟩
    · obtain ⟨m, hm, rfl⟩ := ih (h.step i) ha.2 hlater
      exact ⟨m, hadv.subset hm, rfl⟩

theorem length_answered (c : Client L) (inputs : List (Input L)) :
    (c.answered inputs).length = inputs.length := by
  induction inputs generalizing c with
  | nil => rfl
  | cons i inputs ih => exact congrArg (· + 1) (ih _)

theorem Sound.connection_answers (h : c.Sound) (ha : c.Answers inputs) :
    (c.run inputs).connection = c.connection := by
  induction inputs generalizing c with
  | nil => rfl
  | cons i inputs ih =>
    obtain ⟨n, -, hadv⟩ := h.advance ha.1
    exact (ih (h.step i) ha.2).trans hadv.connection

theorem Sound.answered_twice (h : c.Sound) (ha : c.Answers inputs) (n : TopicNo) :
    (c.answered inputs).count (some n) + (c.run inputs).board.inFlight n ≤ 2 := by
  have honce := List.nodup_iff_count.mp (h.nodup_asked ha) (some n)
  have hbalance := h.balance ha n
  have hbefore := inFlight_le c.board n
  omega

theorem Sound.length_answers (h : c.Sound) (ha : c.Answers inputs) : inputs.length ≤ 2 * c.board.size := by
  have hsub : (c.answered inputs).Subperm (c.board.topics.keys.map some ++ c.board.topics.keys.map some) := by
    refine List.subperm_ext_iff.mpr fun x hx => ?_
    obtain ⟨n, hn, rfl⟩ := h.asked_or_answered ha (.inr hx)
    have hkey : some n ∈ c.board.topics.keys.map some := List.mem_map_of_mem (Std.ExtTreeMap.mem_keys.mpr hn)
    have hcount := List.count_pos_iff.mpr hkey
    have htwice := h.answered_twice ha n
    rw [List.count_append]
    omega
  have hle := hsub.length_le
  simp only [length_answered, List.length_append, List.length_map, Std.ExtTreeMap.length_keys] at hle
  rw [Switchboard.size]
  omega

theorem awaits_eq_false (h : c.board.byRequest = ∅) (i : Input L) : c.awaits i = false := by
  unfold awaits
  split
  · simp [Switchboard.errand?, h]
  · rfl

theorem Sound.awaits_nothing_iff (h : c.Sound) : (∀ i, c.awaits i = false) ↔
    ∀ (n : TopicNo) (t : Topic L), c.board.topics[n]? = some t → t.pending = none := by
  constructor
  · intro hnone n t ht
    refine Classical.byContradiction fun hne => ?_
    obtain ⟨p, hp⟩ := Option.ne_none_iff_exists'.mp hne
    obtain ⟨ack, hx⟩ : ∃ ack, p.errand.expects ack = true := by
      cases p.errand with
      | add terms => exact ⟨.added (.ok 0), rfl⟩
      | modify terms => exact ⟨.modified (.ok ()), rfl⟩
      | delete => exact ⟨.deleted (.ok ()), rfl⟩
    have he := (Switchboard.errand?_eq_some_iff h.coherent).mpr ⟨t, ht, hp⟩
    have hawaits := hnone (.arrival (.ack p.request ack))
    simp [awaits, he, hx] at hawaits
  · exact fun hidle => awaits_eq_false (h.coherent.byRequest_eq_empty hidle)

theorem Sound.done (h : c.Sound) (hl : c.link?.isSome = true) (ha : c.Answers inputs) {t : Topic L}
    (ht : (c.run inputs).board.topics[n]? = some t) (hp : t.pending = none) :
    t.Done (c.run inputs).board.table := by
  have h' := Sound.run h inputs
  rw [← Sound.link?_of_connection (h.connection_answers ha)] at hl
  obtain ⟨hactive, hsync⟩ := h'.coherent.idle h'.occupied (hl ▸ h'.settled) ht hp
  exact ⟨hp, (h'.isActive_iff ht).mp hactive, hsync⟩

end Answers

/-- What a run of awaited answers comes to: each topic is asked for at most once and answered at most twice, and
a topic that was answered twice is done, as all are when no answer is awaited any more. -/
structure Converges (c : Client L) (inputs : List (Input L)) : Prop where
  once : (c.asked inputs).Nodup
  topics : ∀ x, x ∈ c.asked inputs ∨ x ∈ c.answered inputs → ∃ n ∈ c.board.topics, x = some n
  twice : ∀ n, (c.answered inputs).count (some n) ≤ 2
  rest : ∀ n, (c.answered inputs).count (some n) = 2 → ∀ t, (c.run inputs).board.topics[n]? = some t →
    t.Done (c.run inputs).board.table
  bounded : inputs.length ≤ 2 * c.board.size
  ended : (∀ i, (c.run inputs).awaits i = false) → (c.run inputs).board.byRequest = ∅ ∧
    ∀ (n : TopicNo) (t : Topic L), (c.run inputs).board.topics[n]? = some t →
      t.Done (c.run inputs).board.table

theorem converges_run {check : Expression.Check} {s : Settings} (hc : Client.ofSettings check s = .ok c)
    (inputs : List (Input L)) (hconn : (c.run inputs).connection.status = .connected) {answers : List (Input L)}
    (ha : (c.run inputs).Answers answers) : (c.run inputs).Converges answers := by
  have h := (Sound.ofSettings hc).run inputs
  have hl : (c.run inputs).link?.isSome = true := h.connection.link_iff.mpr hconn
  exact {
    once := h.nodup_asked ha
    topics := fun _ => h.asked_or_answered ha
    twice := fun n => Nat.le_of_add_right_le (h.answered_twice ha n)
    rest := by
      intro n hn t ht
      have htwice := h.answered_twice ha n
      have hnone : ((c.run inputs).run answers).board.inFlight n = 0 := by omega
      exact h.done hl ha ht (inFlight_eq_zero_iff.mp hnone t ht)
    bounded := h.length_answers ha
    ended := by
      intro hnone
      have hidle := (h.run answers).awaits_nothing_iff.mp hnone
      exact ⟨(h.run answers).coherent.byRequest_eq_empty hidle, fun n t ht => h.done hl ha ht (hidle n t ht)⟩ }

def overtaken : List (Input Nat) :=
  [.start, .arrival (.connectResult 1 (.ok 7)), .subscribe ⟨"require(A)", ["k"], 0⟩,
    .subscribe ⟨"require(B)", [], 1⟩, .subscribe ⟨"require(C)", [], 2⟩, .reloadKeys [⟨"k", false, [1, 2]⟩],
    .unsubscribe 2]

def lateAnswers : List (Input Nat) :=
  [.arrival (.ack 2 (.added (.ok 6))), .arrival (.ack 1 (.added (.ok 5))),
    .arrival (.ack 3 (.added (.error ⟨3, "no"⟩))), .arrival (.ack 5 (.modified (.ok ()))),
    .arrival (.ack 4 (.deleted (.error ⟨4, "late"⟩)))]

theorem converges_run_overtaken : ∃ c, Client.ofSettings Expression.refusal? (.ofEndpoint "tcp://broker") = .ok c ∧
    (c.run overtaken).connection.status = .connected ∧ (c.run overtaken).Answers lateAnswers ∧
    (c.run overtaken).asked lateAnswers = [some 2, some 1] ∧ (c.run overtaken).Converges lateAnswers ∧
    ∀ i, ((c.run overtaken).run lateAnswers).awaits i = false :=
  ⟨_, rfl, by decide +kernel, by decide +kernel, by decide +kernel,
    converges_run (s := .ofEndpoint "tcp://broker") rfl overtaken (by decide +kernel) (by decide +kernel),
    awaits_eq_false (by decide +kernel)⟩

end Client

end Herald
