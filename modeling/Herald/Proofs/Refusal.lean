import Herald.Proofs.Lines
import Herald.Proofs.Runs

namespace Herald

variable {L : Type}

def Terms.Alike (a b : Terms) : Prop :=
  a.expression = b.expression ∧ a.ring = b.ring

def Errand.refused? : Errand → Ack → Option Terms
  | .add terms, .added (.error _) => some terms
  | .modify terms, .modified (.error _) => some terms
  | _, _ => none

theorem Topic.need_refused {t : Topic L} (ha : t.isActive = true) (table : Key.Table) (connected : Bool) :
    ({ t with pending := none, refused := true } : Topic L).need table connected = .nothing := by
  simp [need, ha]

namespace Switchboard

variable {b : Switchboard L} {n : TopicNo} {t : Topic L} {terms : Terms} {ack : Ack}

theorem settle_of_nothing {link : Option LinkId} (ht : b.topics[n]? = some t)
    (h : t.need b.table link.isSome = .nothing) : b.settle link n = (b, []) := by
  simp [settle, ht, h]

theorem conclude_refused (b : Switchboard L) (n : TopicNo) (t : Topic L) {errand : Errand}
    (h : errand.refused? ack = some terms) :
    (b.conclude n t errand ack).1 = b.put n { t with refused := true } := by
  unfold Errand.refused? at h
  split at h
  · rfl
  · rfl
  · simp at h

theorem exists_acknowledge_refused (hb : b.Coherent) (link : Option LinkId) (ht : b.topics[n]? = some t)
    {p : Pending} (hp : t.pending = some p) (hr : p.errand.refused? ack = some terms) :
    ∃ b' : Switchboard L, b'.topics[n]? = some { t with pending := none, refused := true } ∧
      b'.nextRequest = b.nextRequest ∧
      (b.acknowledge link p.request ack).1 = (b'.settle link n).1 ∧
      (b.acknowledge link p.request ack).2.1 = (b'.settle link n).2 := by
  have hput := conclude_refused (b.answered p.request) n { t with pending := none } hr
  refine ⟨(b.answered p.request).put n { t with pending := none, refused := true },
    Std.ExtTreeMap.getElem?_insert_self, rfl, ?_⟩
  rw [acknowledge_pending hb link ht hp rfl, hput]
  exact ⟨rfl, rfl⟩

theorem acknowledge_refused (hb : b.Coherent) (link : Option LinkId) (ht : b.topics[n]? = some t)
    (hc : t.callers ≠ []) {p : Pending} (hp : t.pending = some p)
    (hr : p.errand.refused? ack = some terms) :
    (b.acknowledge link p.request ack).1.topics[n]? =
        some { t with pending := none, refused := true } ∧
      (b.acknowledge link p.request ack).2.1 = [] := by
  obtain ⟨b', hnow, -, hboard, hcalls⟩ := exists_acknowledge_refused hb link ht hp hr
  have hactive := (hb.proper ht).isActive hc
  rw [hboard, hcalls, settle_of_nothing hnow (Topic.need_refused hactive _ _)]
  exact ⟨hnow, rfl⟩

end Switchboard

namespace Client

/-- A newer wish outlives the refusal of an older one: if the broker does not hold it, it is ordered at once, and
the topic waits as refused only if what was refused is still the wish. -/
structure KeepsNewerWish (c : Client L) (n : TopicNo) (t : Topic L) (p : Pending) (ack : Ack)
    (terms : Terms) : Prop where
  ordered : ¬ terms.Alike (t.wish c.board.table) →
    (∀ h, t.held = some h → ¬ h.terms.Alike (t.wish c.board.table)) →
    ∃ (link : LinkId) (request : RequestNo) (errand : Errand) (order : Order),
      .order link request order ∈ (c.step (.arrival (.ack p.request ack))).2.calls ∧
      errand.terms? = some (t.wish c.board.table) ∧ errand.order? t.held = some order
  idle : ∀ t', (c.step (.arrival (.ack p.request ack))).1.board.topics[n]? = some t' →
    t'.pending = none → t'.refused = true → terms.Alike (t.wish c.board.table)

section Refused

variable {c : Client L} {n : TopicNo} {t : Topic L} {p : Pending} {ack : Ack} {terms : Terms}

theorem Sound.keepsNewerWish_iff (h : c.Sound) (ht : c.board.topics[n]? = some t)
    (hcallers : t.callers ≠ []) (hp : t.pending = some p) (hr : p.errand.refused? ack = some terms) :
    c.KeepsNewerWish n t p ack terms ↔ terms.Alike (t.wish c.board.table) := by
  obtain ⟨hnow, -⟩ := Switchboard.acknowledge_refused h.coherent c.link? ht hcallers hp hr
  constructor
  · exact fun hk => hk.idle _ hnow rfl rfl
  · exact fun ha => ⟨fun hne => absurd ha hne, fun _ _ _ _ => ha⟩

/-- At every point of every run, a refusal leaves a topic that callers want waiting with nothing ordered. So a
newer wish survives it exactly if there is none: if the terms refused are still the wish. -/
theorem refused_run {check : Expression.Check} {s : Settings} (hc : Client.ofSettings check s = .ok c)
    (inputs : List (Input L)) (ht : (c.run inputs).board.topics[n]? = some t) (hcallers : t.callers ≠ [])
    (hp : t.pending = some p) (hr : p.errand.refused? ack = some terms) :
    (((c.run inputs).step (.arrival (.ack p.request ack))).1.board.topics[n]? =
        some { t with pending := none, refused := true } ∧
      ((c.run inputs).step (.arrival (.ack p.request ack))).2.calls = []) ∧
    ((c.run inputs).KeepsNewerWish n t p ack terms ↔
      terms.Alike (t.wish (c.run inputs).board.table)) := by
  have h := (Sound.ofSettings hc).run inputs
  exact ⟨Switchboard.acknowledge_refused h.coherent _ ht hcallers hp hr,
    h.keepsNewerWish_iff ht hcallers hp hr⟩

end Refused

def refusal : Ack :=
  .added (.error ⟨3, "no"⟩)

def steady : List (Input Nat) :=
  [.start, .arrival (.connectResult 1 (.ok 7)), .subscribe ⟨"require(A)", [], 0⟩]

theorem refused_run_steady : ∃ (c : Client Nat) (t : Topic Nat) (p : Pending) (terms : Terms),
    Client.ofSettings Expression.refusal? (.ofEndpoint "tcp://broker") = .ok c ∧
    (c.run steady).board.topics[1]? = some t ∧ t.callers ≠ [] ∧ t.pending = some p ∧
    p.errand.refused? refusal = some terms ∧ (c.run steady).KeepsNewerWish 1 t p refusal terms :=
  have hkeeps := (refused_run (s := .ofEndpoint "tcp://broker") rfl steady rfl (by simp) rfl rfl).2
  ⟨_, _, _, _, rfl, rfl, by simp, rfl, rfl, hkeeps.mpr ⟨rfl, rfl⟩⟩

/-- The caller goes over to another expression while the add of the first is on its way. -/
def wavering : List (Input Nat) :=
  steady ++ [.revise 1 ⟨"require(B)", [], 0⟩]

theorem newerWish_lost_wavering : ∃ (c : Client Nat) (t : Topic Nat) (p : Pending) (terms : Terms),
    Client.ofSettings Expression.refusal? (.ofEndpoint "tcp://broker") = .ok c ∧
    (c.run wavering).board.topics[1]? = some t ∧ t.callers ≠ [] ∧ t.pending = some p ∧
    p.errand.refused? refusal = some terms ∧ ¬ (c.run wavering).KeepsNewerWish 1 t p refusal terms := by
  have hc := ofSettings_ofEndpoint (L := Nat) Expression.refusal? "tcp://broker" (by decide)
  have hsound := (Sound.ofSettings hc).run wavering
  refine ⟨_, _, _, _, rfl, rfl, by simp, rfl, rfl, fun hkeeps => ?_⟩
  have halike := (hsound.keepsNewerWish_iff rfl (by simp) rfl rfl).mp hkeeps
  exact absurd halike.1 (by decide)

end Client

end Herald
