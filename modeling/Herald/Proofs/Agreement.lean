import Herald.Proofs.Discipline
import Herald.Proofs.InSync

namespace Herald

variable {L : Type}

namespace Call

def over? : Call → Option LinkId
  | .order link _ _ => some link
  | .notify link _ _ _ => some link
  | _ => none

def leaves (live : Option LinkId) : Call → Option LinkId
  | .disconnect link => if live = some link then none else live
  | _ => live

end Call

/-- The calls of a step, one after another, go out over the link that is live, or over none. -/
def Speaks : Option LinkId → List Call → Prop
  | _, [] => True
  | live, call :: rest => (call.over? = none ∨ call.over? = live) ∧ Speaks (call.leaves live) rest

section Speaks

variable {live : Option LinkId} {calls first rest : List Call}

theorem speaks_of_silent (h : ∀ call ∈ calls, call.over? = none) : Speaks live calls := by
  induction calls generalizing live with
  | nil => trivial
  | cons call calls ih => exact ⟨.inl (h call (.head _)), ih fun call hmem => h call (.tail _ hmem)⟩

theorem silent_of_speaks (h : Speaks none calls) : ∀ call ∈ calls, call.over? = none := by
  induction calls with
  | nil => simp
  | cons call calls ih =>
    obtain ⟨hcall, hrest⟩ := h
    have hnone : call.leaves none = none := by cases call <;> simp [Call.leaves]
    rw [hnone] at hrest
    intro other hmem
    obtain rfl | hmem := List.mem_cons.mp hmem
    · exact hcall.elim id id
    · exact ih hrest other hmem

theorem speaks_append (h : ∀ call ∈ first, call.isOrder = true ∧ call.over? = live)
    (hrest : Speaks live rest) : Speaks live (first ++ rest) := by
  induction first with
  | nil => exact hrest
  | cons call first ih =>
    obtain ⟨horder, hover⟩ := h call (.head _)
    have hsame : call.leaves live = live := by cases call <;> simp_all [Call.isOrder, Call.leaves]
    refine ⟨.inr hover, ?_⟩
    rw [hsame]
    exact ih fun call hmem => h call (.tail _ hmem)

theorem speaks_of_orders (h : ∀ call ∈ calls, call.isOrder = true ∧ call.over? = live) :
    Speaks live calls := by
  have hnil : Speaks live [] := trivial
  simpa using speaks_append h hnil

end Speaks

namespace Connection

theorem dial_silent (c : Connection) : ∀ call ∈ c.dial.2, call.over? = none := by
  unfold dial
  split <;> simp [Call.over?]

theorem close_silent (c : Connection) : ∀ call ∈ c.close.2, call.over? = none := by
  simp [close, Call.over?]

theorem lose_silent (c : Connection) (failure : LinkFailure) :
    ∀ call ∈ (c.lose failure).2.1, call.over? = none := by
  unfold lose
  split
  · exact dial_silent _
  · simp

theorem connectResult_silent (c : Connection) (attempt : AttemptNo) (result : Except LinkFailure LinkId) :
    ∀ call ∈ (c.connectResult attempt result).2.1, call.over? = none := by
  unfold connectResult
  cases result with
  | ok link => split <;> simp [Call.over?]
  | error failure => split <;> simp [fail, Call.over?]

theorem awaited_eq_none_of_sound {c : Connection} (h : c.Sound)
    (hs : c.status = .connected ∨ c.status = .disconnected) : c.awaited = none := by
  refine Classical.byContradiction fun ha => ?_
  have hne := status_ne_of_isDown (h.down_of_awaited ha)
  exact hs.elim hne.1 hne.2

end Connection

def Errand.isAdd : Errand → Bool
  | .add _ => true
  | _ => false

namespace Switchboard

variable {link : Option LinkId} {b b' c : Switchboard L} {calls others : List Call}

def errand? (b : Switchboard L) (request : RequestNo) : Option (TopicNo × Errand) := do
  let n ← b.byRequest[request]?
  let t ← b.topics[n]?
  let p ← t.pending
  return (n, p.errand)

theorem errand?_eq_some_iff (hb : b.Coherent) {request : RequestNo} {n : TopicNo} {errand : Errand} :
    b.errand? request = some (n, errand) ↔
      ∃ t, b.topics[n]? = some t ∧ t.pending = some ⟨request, errand⟩ := by
  constructor
  · intro h
    cases hr : b.byRequest[request]? with
    | none => simp [errand?, hr] at h
    | some m =>
      obtain ⟨t, ht, hrequest⟩ := (hb.requests request m).mp hr
      obtain ⟨p, hp, rfl⟩ := Option.map_eq_some_iff.mp hrequest
      simp only [errand?, hr, ht, hp, bind, Option.bind, pure, Option.some.injEq, Prod.mk.injEq] at h
      obtain ⟨rfl, rfl⟩ := h
      exact ⟨t, ht, hp⟩
  · rintro ⟨t, ht, hp⟩
    have hr : b.byRequest[request]? = some n := (hb.requests.mark_iff ht).mpr (by simp [Topic.request?, hp])
    simp [errand?, hr, ht, hp]

theorem Coherent.byRequest_eq_empty (hb : b.Coherent)
    (h : ∀ (n : TopicNo) (t : Topic L), b.topics[n]? = some t → t.pending = none) : b.byRequest = ∅ := by
  refine Std.ExtTreeMap.ext_getElem? fun r => ?_
  cases hr : b.byRequest[r]? with
  | none => simp
  | some n =>
    obtain ⟨t, ht, hrequest⟩ := (hb.requests r n).mp hr
    simp [Topic.request?, h n t ht] at hrequest

theorem Move.over (m : Move link b b' calls) : ∀ call ∈ calls, call.isOrder = true ∧ call.over? = link := by
  rcases m.requests_eq with ⟨rfl, -, -⟩ | ⟨n, hs⟩
  · simp
  · cases hs with
    | order hl _ _ _ =>
      intro call hmem
      obtain rfl := List.mem_singleton.mp hmem
      exact ⟨rfl, hl.symm⟩
    | _ => simp

theorem Moves.over (m : Moves link b b' calls) :
    ∀ call ∈ calls, call.isOrder = true ∧ call.over? = link := by
  induction m with
  | refl => simp
  | step m _ ih =>
    intro call hmem
    exact (List.mem_append.mp hmem).elim (m.over call) (ih call)

theorem acknowledge_over (hb : b.Coherent) (link : Option LinkId) (request : RequestNo) (ack : Ack) :
    ∀ call ∈ (b.acknowledge link request ack).2.1, call.isOrder = true ∧ call.over? = link := by
  have ha := acknowledging hb link request ack
  generalize b.acknowledge link request ack = r at ha
  cases ha with
  | unknown _ => simp
  | known _ _ _ _ _ => exact (Moves.settle link _ _).over

def LearnsNoId (b b' : Switchboard L) : Prop :=
  ∀ (id : BrokerId) (n : TopicNo), b'.byBrokerId[id]? = some n → b.byBrokerId[id]? = some n

namespace LearnsNoId

theorem of_eq (h : b'.byBrokerId = b.byBrokerId) : b.LearnsNoId b' :=
  fun _ _ hid => h ▸ hid

theorem of_erase {id : BrokerId} (h : b'.byBrokerId = b.byBrokerId.erase id) : b.LearnsNoId b' := by
  intro id' n hid
  rw [h, Std.ExtTreeMap.getElem?_erase] at hid
  split at hid
  · simp at hid
  · exact hid

theorem trans (h : b.LearnsNoId b') (h' : b'.LearnsNoId c) : b.LearnsNoId c :=
  fun id n hid => h id n (h' id n hid)

theorem empty (h : b.LearnsNoId b') (hb : b.byBrokerId = ∅) : b'.byBrokerId = ∅ := by
  refine Std.ExtTreeMap.ext_getElem? fun id => ?_
  cases hid : b'.byBrokerId[id]? with
  | none => simp
  | some n => simpa [hb] using h id n hid

theorem settle (link : Option LinkId) (b : Switchboard L) (n : TopicNo) :
    b.LearnsNoId (b.settle link n).1 := by
  have hs := settling link b n
  generalize b.settle link n = r at hs
  cases hs with
  | removal _ _ _ hh => exact .of_eq (by simp [drop, hh])
  | _ => exact .of_eq rfl

theorem move (m : Move link b b' calls) : b.LearnsNoId b' := by
  cases m with
  | found _ _ _ =>
    rw [create_join]
    exact .of_eq rfl
  | join ht _ _ =>
    rw [Switchboard.join, ht]
    exact .of_eq rfl
  | leave _ =>
    unfold Switchboard.leave
    dsimp only
    split <;> exact .of_eq rfl
  | replace _ ht =>
    rw [Switchboard.replace, ht]
    exact .of_eq rfl
  | settle n => exact .settle link b n
  | _ => exact .of_eq rfl

theorem moves (m : Moves link b b' calls) : b.LearnsNoId b' := by
  induction m with
  | refl => exact .of_eq rfl
  | step m _ ih => exact (LearnsNoId.move m).trans ih

theorem conclude {n : TopicNo} {t : Topic L} {errand : Errand} {ack : Ack}
    (h : ∀ terms id, errand = .add terms → ack ≠ .added (.ok id)) :
    b.LearnsNoId (b.conclude n t errand ack).1 := by
  unfold Switchboard.conclude
  split
  · exact absurd rfl (h _ _ rfl)
  · exact .of_eq rfl
  · exact .of_eq rfl
  · exact .of_eq rfl
  · cases hh : t.held with
    | none => exact .of_eq (by simp)
    | some holding => exact .of_erase rfl
  · exact .of_eq rfl

theorem acknowledge (hb : b.Coherent) (link : Option LinkId) {request : RequestNo} {ack : Ack}
    (h : ∀ n terms id, b.errand? request = some (n, .add terms) → ack ≠ .added (.ok id)) :
    b.LearnsNoId (b.acknowledge link request ack).1 := by
  have ha := acknowledging hb link request ack
  generalize b.acknowledge link request ack = r at ha
  cases ha with
  | unknown _ => exact .of_eq rfl
  | @known n t p r hr ht hp hpr hres =>
    subst hpr
    have hconcluded : b.LearnsNoId r.1 := by
      rw [← hres]
      refine LearnsNoId.conclude (b := b.answered p.request) fun terms id he => ?_
      exact h n terms id ((errand?_eq_some_iff hb).mpr ⟨t, ht, by simp [← he, hp]⟩)
    exact hconcluded.trans (.settle link r.1 n)

end LearnsNoId

end Switchboard

namespace Client

variable {c : Client L} {i : Input L}

def adds (c : Client L) : Input L → Bool
  | .arrival (.ack request (.added (.ok _))) => (c.board.errand? request).any (·.2.isAdd)
  | _ => false

theorem Sound.adds_eq_false (h : c.Sound) (hl : c.link? = none) (i : Input L) : c.adds i = false := by
  unfold adds
  split
  · next request id =>
    cases he : c.board.errand? request with
    | none => rfl
    | some e =>
      obtain ⟨t, ht, hp⟩ := (Switchboard.errand?_eq_some_iff h.coherent).mp he
      simp [(h.quiet hl e.1 t ht).2.1] at hp
  · rfl

theorem Sound.learnsNoId (h : c.Sound) (hi : c.adds i = false) : c.board.LearnsNoId (c.step i).1.board := by
  have hnone (b : Switchboard L) : b.LearnsNoId b.disconnected := fun id n hid => by
    simp [Switchboard.disconnected] at hid
  have hch := h.change i
  generalize (c.step i).1 = c', (c.step i).2.calls = calls at hch
  cases hch with
  | rest _ _ _ hb _ _ => exact .of_eq (by rw [hb])
  | serve _ _ hm _ _ => exact .moves hm
  | @rekey records table _ hb _ =>
    have hmoves := Switchboard.LearnsNoId.moves (Switchboard.rekey_moves c.link? c.board table)
    exact hb ▸ hmoves
  | @ack request a hb _ =>
    rw [hb]
    refine .acknowledge h.coherent _ fun n terms id he ha => ?_
    simp [adds, ha, he, Errand.isAdd] at hi
  | down _ hm _ hb _ _ => exact hb ▸ (Switchboard.LearnsNoId.moves hm).trans (hnone _)
  | up _ _ hb _ => exact hb ▸ (hnone _).trans (.moves (Switchboard.reconnected_moves _ _))

theorem Sound.ids_step (h : c.Sound) (hids : c.link? = none → c.board.byBrokerId = ∅)
    (hl : (c.step i).1.link? = none) : (c.step i).1.board.byBrokerId = ∅ := by
  cases hc : c.link? with
  | none => exact (h.learnsNoId (h.adds_eq_false hc i)).empty (hids hc)
  | some link =>
    have hch := h.change i
    generalize (c.step i).1 = c', (c.step i).2.calls = calls at hch hl
    cases hch with
    | rest _ _ _ _ hsame _ => simp [hsame, hc] at hl
    | serve _ _ _ _ hconn => simp [Sound.link?_of_connection hconn, hc] at hl
    | rekey _ _ hconn => simp [Sound.link?_of_connection hconn, hc] at hl
    | ack _ hconn => simp [Sound.link?_of_connection hconn, hc] at hl
    | down _ _ _ hb _ _ => exact hb ▸ rfl
    | up hnone _ _ _ => simp [hnone] at hc

theorem Sound.ids_run (h : c.Sound) (hids : c.link? = none → c.board.byBrokerId = ∅)
    (inputs : List (Input L)) : (c.run inputs).link? = none → (c.run inputs).board.byBrokerId = ∅ := by
  induction inputs generalizing c with
  | nil => exact hids
  | cons i inputs ih => exact ih (h.step i) (h.ids_step hids)

/-- The link that is live when the first call of a step goes out: a new one at once, a lost one no more. -/
def linkAt (c : Client L) : Input L → Option LinkId
  | .arrival (.connectResult attempt (.ok link)) =>
    if c.connection.awaited = some attempt then some link else c.link?
  | .arrival (.connectionLost _) => none
  | _ => c.link?

theorem linkAt_eq_none (h : c.link? = none) (h' : (c.step i).1.link? = none) : c.linkAt i = none := by
  unfold linkAt
  split
  · split
    · next ha => simp [(connectResult_awaited ha _).1] at h'
    · exact h
  · rfl
  · exact h

theorem speaks_step (h : c.Sound) (i : Input L) : Speaks (c.linkAt i) (c.step i).2.calls := by
  cases i with
  | start => exact speaks_of_silent c.connection.dial_silent
  | disconnect => exact speaks_of_silent c.connection.close_silent
  | shutdown =>
    exact speaks_append (Switchboard.unsubscribeAll_moves c.link? c.board).over
      (speaks_of_silent c.connection.close_silent)
  | subscribe w => exact speaks_of_orders (Switchboard.subscribe_moves h.coherent c.check c.link? w).over
  | unsubscribe k => exact speaks_of_orders (Switchboard.unsubscribe_moves c.link? c.board k).over
  | revise k w => exact speaks_of_orders (Switchboard.revise_moves h.coherent c.check c.link? k w).over
  | send n names =>
    cases hl : c.link? with
    | none => simp [step, send, hl, Output.ofReply, Speaks]
    | some link => simp [step, send, hl, Output.ofReply, Speaks, linkAt, Call.over?]
  | reloadKeys records =>
    cases hr : Key.Table.ofRecords records with
    | error fault =>
      simp only [step, reloadKeys, hr, outcome]
      trivial
    | ok table =>
      simp only [step, reloadKeys, hr, outcome]
      exact speaks_of_orders (Switchboard.rekey_moves c.link? c.board table).over
  | arrival a =>
    cases a with
    | connectResult attempt result =>
      by_cases ha : c.connection.awaited = some attempt
      · cases result with
        | ok link =>
          rw [linkAt, if_pos ha, (connectResult_awaited ha link).2.2]
          exact speaks_of_orders (Switchboard.reconnected_moves (some link) c.board).over
        | error failure =>
          rw [(connectResult_of_not_made (.inr ⟨failure, rfl⟩)).2]
          exact speaks_of_silent (c.connection.connectResult_silent _ _)
      · rw [(connectResult_of_not_made (.inl ha)).2]
        exact speaks_of_silent (c.connection.connectResult_silent _ _)
    | retryDue => exact speaks_of_silent c.connection.dial_silent
    | connectionLost failure =>
      rw [connectionLost_calls]
      exact speaks_of_silent (c.connection.lose_silent failure)
    | ack request a => exact speaks_of_orders (Switchboard.acknowledge_over h.coherent c.link? request a)
    | notification id n => trivial
    | notifySent result => trivial

structure InStep (c : Client L) : Prop where
  link_iff : c.link?.isSome = true ↔ c.connection.status = .connected
  unawaited : c.connection.status = .connected ∨ c.connection.status = .disconnected →
    c.connection.awaited = none
  forgotten : c.connection.status ≠ .connected → ∀ (n : TopicNo) (t : Topic L),
    c.board.topics[n]? = some t →
      t.held = none ∧ t.pending = none ∧ t.refused = false ∧ t.isActive = true
  requests : c.connection.status ≠ .connected → c.board.byRequest = ∅
  ids : c.connection.status ≠ .connected → c.board.byBrokerId = ∅

theorem Sound.link?_eq_none_iff (h : c.Sound) : c.link? = none ↔ c.connection.status ≠ .connected := by
  rw [← Option.not_isSome_iff_eq_none]
  exact not_congr h.connection.link_iff

theorem Sound.inStep (h : c.Sound) (hids : c.link? = none → c.board.byBrokerId = ∅) : c.InStep := by
  have hnone (hs : c.connection.status ≠ .connected) : c.link? = none := h.link?_eq_none_iff.mpr hs
  exact {
    link_iff := h.connection.link_iff
    unawaited := Connection.awaited_eq_none_of_sound h.connection
    forgotten := by
      intro hs n t ht
      obtain ⟨hh, hp, hr⟩ := h.quiet (hnone hs) n t ht
      exact ⟨hh, hp, hr, (h.settled n t ht (by simp) hp).1⟩
    requests := fun hs => h.coherent.byRequest_eq_empty fun n t ht => (h.quiet (hnone hs) n t ht).2.1
    ids := fun hs => hids (hnone hs) }

theorem inStep_run {check : Expression.Check} {s : Settings} (hc : Client.ofSettings check s = .ok c)
    (inputs : List (Input L)) (i : Input L) : (c.run inputs).InStep ∧
      Speaks ((c.run inputs).linkAt i) ((c.run inputs).step i).2.calls ∧
      ((c.run inputs).connection.status ≠ .connected →
        ((c.run inputs).step i).1.connection.status ≠ .connected →
        ∀ call ∈ ((c.run inputs).step i).2.calls, call.over? = none) := by
  have h := (Sound.ofSettings hc).run inputs
  have hids : c.link? = none → c.board.byBrokerId = ∅ := fun _ => by
    rw [eq_of_ofSettings hc]
    rfl
  have hspeaks := speaks_step h i
  refine ⟨h.inStep ((Sound.ofSettings hc).ids_run hids inputs), hspeaks, fun hs hs' => ?_⟩
  rw [linkAt_eq_none (h.link?_eq_none_iff.mpr hs) ((h.step i).link?_eq_none_iff.mpr hs')] at hspeaks
  exact silent_of_speaks hspeaks

def droppedLink : List (Input Nat) :=
  [.start, .subscribe ⟨"require(A)", [], 0⟩, .arrival (.connectResult 1 (.ok 7)), .send ⟨∅⟩ [],
    .arrival (.ack 1 (.added (.ok 5))), .arrival (.connectionLost ⟨1, "gone"⟩), .disconnect]

theorem inStep_run_droppedLink : ∃ c, Client.ofSettings Expression.refusal? (.ofEndpoint "tcp://broker") = .ok c ∧
    let late : Input Nat := .arrival (.connectResult 2 (.ok 8))
    (c.run droppedLink).InStep ∧
    Speaks ((c.run droppedLink).linkAt late) ((c.run droppedLink).step late).2.calls ∧
    (c.run droppedLink).connection.status ≠ .connected ∧
    ((c.run droppedLink).step late).1.connection.status ≠ .connected ∧
    ∀ call ∈ ((c.run droppedLink).step late).2.calls, call.over? = none :=
  have h := inStep_run (s := .ofEndpoint "tcp://broker") rfl droppedLink
    (.arrival (.connectResult 2 (.ok 8)))
  ⟨_, rfl, h.1, h.2.1, by decide +kernel, by decide +kernel, h.2.2 (by decide +kernel) (by decide +kernel)⟩

end Client

end Herald
