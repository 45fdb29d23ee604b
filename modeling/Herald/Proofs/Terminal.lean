import Herald.Proofs.Links
import Herald.Proofs.Requests

namespace Herald

variable {L : Type}

theorem Call.tends_of_silent {call : Call} (h : call.over? = none) : call.tends = true := by
  cases call <;> simp_all [over?, tends]

namespace Connection

variable {c : Connection} {i : Input L} {r : Connection × List Call}

theorem awaited_eq_none_of_closed (h : c.Sound) (hp : c.status = .disconnected) : c.awaited = none := by
  refine Classical.byContradiction fun ha => ?_
  simpa [hp, Status.isDown] using h.down_of_awaited ha

theorem link?_of_closed (h : c.Sound) (hp : c.status = .disconnected) : c.link? = none :=
  h.link?_eq_none (by simp [hp])

theorem Tending.of_closed (t : c.Tending i r) (h : c.Sound) (hp : c.status = .disconnected) :
    r.1.status = .disconnected ∧ r.2 = i.brings.map .disconnect := by
  have ha := awaited_eq_none_of_closed h hp
  have hl := link?_of_closed h hp
  cases t with
  | aloof hi =>
    rw [(idle_of_isAloof hi c 0).1]
    exact ⟨hp, rfl⟩
  | idle hi _ =>
    rw [(idle_of_dials hi c 0).1]
    exact ⟨hp, rfl⟩
  | dialled _ hdown _ => simp [hp, Status.isDown] at hdown
  | made link hawaited _ => simp [ha] at hawaited
  | missed failure hawaited _ => simp [ha] at hawaited
  | turnedAway link _ => exact ⟨hp, rfl⟩
  | stale failure _ => exact ⟨hp, rfl⟩
  | lost failure hlink _ => simp [hl] at hlink
  | spared failure _ => exact ⟨hp, rfl⟩
  | closed hi =>
    rw [(settles_of_ends hi c 0).1]
    exact ⟨rfl, by simp [close, hl]⟩

end Connection

namespace Client

variable {c : Client L} {i : Input L}

def callsOf (c : Client L) (inputs : List (Input L)) : List Call :=
  c.gather (fun c i => (c.step i).2.calls) inputs

section Step

theorem Sound.filter_tends (h : c.Sound) (hl : c.link? = none) (hl' : (c.step i).1.link? = none) :
    (c.step i).2.calls.filter Call.tends = (c.step i).2.calls := by
  have hspeaks := speaks_step h i
  rw [linkAt_eq_none hl hl'] at hspeaks
  exact List.filter_eq_self.mpr fun call hmem => Call.tends_of_silent (silent_of_speaks hspeaks call hmem)

theorem Sound.step_of_closed (h : c.Sound) (hp : c.connection.status = .disconnected) (i : Input L) :
    (c.step i).1.connection.status = .disconnected ∧ (c.step i).2.calls = i.brings.map .disconnect := by
  obtain ⟨hp', hcalls⟩ := (h.tending i).of_closed h.connection hp
  have hl : c.link? = none := Connection.link?_of_closed h.connection hp
  have hl' : (c.step i).1.link? = none := Connection.link?_of_closed (h.step i).connection hp'
  exact ⟨hp', (h.filter_tends hl hl').symm.trans hcalls⟩

theorem Sound.news_of_closed (h : c.Sound) (hp : c.connection.status = .disconnected) (i : Input L) :
    (c.step i).2.news = [] := by
  have ha := Connection.awaited_eq_none_of_closed h.connection hp
  have hl : c.link? = none := Connection.link?_of_closed h.connection hp
  cases i with
  | arrival a =>
    cases a with
    | connectResult attempt result =>
      cases result <;> simp [Client.step, arrive, connectResult, Connection.connectResult, ha, Output.ofNews]
    | connectionLost failure =>
      have hdown : c.connection.status ≠ .connected := by simp [hp]
      have hlose := Connection.lose_of_not_connected hdown failure
      simp [Client.step, arrive, connectionLost, hlose, Output.ofNews]
    | ack request a =>
      -- No request is outstanding without a link, so there is nothing that this could answer.
      have hnone := h.coherent.byRequest_eq_empty fun n t ht => (h.quiet hl n t ht).2.1
      rw [step_ack_unknown (by simp [hnone])]
    | _ => rfl
  | _ => rfl

end Step

section Run

theorem Sound.status_of_closed (h : c.Sound) (hp : c.connection.status = .disconnected) (inputs : List (Input L)) :
    (c.run inputs).connection.status = .disconnected := by
  induction inputs generalizing c with
  | nil => exact hp
  | cons i inputs ih => exact ih (h.step i) (h.step_of_closed hp i).1

theorem Sound.callsOf_of_closed (h : c.Sound) (hp : c.connection.status = .disconnected) (inputs : List (Input L)) :
    c.callsOf inputs = (brought inputs).map .disconnect := by
  induction inputs generalizing c with
  | nil => rfl
  | cons i inputs ih =>
    obtain ⟨hp', hcalls⟩ := h.step_of_closed hp i
    have hrest : (c.step i).1.gather (fun c i => (c.step i).2.calls) inputs = _ := ih (h.step i) hp'
    rw [callsOf, gather, hcalls, hrest, brought, brought, List.flatMap_cons, List.map_append]

end Run

structure Terminal (c : Client L) : Prop where
  status : c.connection.status = .disconnected
  calls : ∀ i, (c.step i).2.calls = i.brings.map .disconnect
  news : ∀ i, (c.step i).2.news = []
  unsent : ∀ n names, (c.step (.send n names)).2.reply = .sent false

theorem Sound.terminal (h : c.Sound) (hp : c.connection.status = .disconnected) : c.Terminal where
  status := hp
  calls := fun i => (h.step_of_closed hp i).2
  news := h.news_of_closed hp
  unsent := by
    intro n names
    have hl : c.link? = none := Connection.link?_of_closed h.connection hp
    simp [Client.step, send, hl, Output.ofReply]

/-- Once a client has been given up it is so in every later state, and all that the rest of the run asks for is that
the links it is brought be closed, each once. -/
theorem terminal_run {check : Expression.Check} {s : Settings} (hc : Client.ofSettings check s = .ok c)
    (hi : i = .disconnect ∨ i = .shutdown) (before later : List (Input L)) : (c.run (before ++ i :: later)).Terminal ∧
      (c.run (before ++ [i])).callsOf later = (brought later).map .disconnect := by
  have h := (Sound.ofSettings hc).run before
  have hp : ((c.run before).step i).1.connection.status = .disconnected := by
    obtain rfl | rfl := hi <;> rfl
  rw [run_append, run_concat]
  exact ⟨((h.step i).run later).terminal ((h.step i).status_of_closed hp later),
    (h.step i).callsOf_of_closed hp later⟩

def interruptedLine : List (Input Nat) :=
  [.start, .arrival (.connectResult 1 (.ok 7)), .subscribe ⟨"require(A)", [], 0⟩,
    .arrival (.connectionLost ⟨104, "reset"⟩)]

def aftermath : List (Input Nat) :=
  [.arrival (.connectResult 2 (.ok 8)), .arrival .retryDue, .arrival (.connectResult 2 (.ok 9)), .start,
    .arrival (.ack 1 (.added (.error ⟨3, "no"⟩))), .subscribe ⟨"require(B)", [], 1⟩, .shutdown,
    .arrival (.connectionLost ⟨32, "pipe"⟩), .revise 1 ⟨"require(C)", [], 2⟩, .reloadKeys [⟨"k", false, [1]⟩]]

theorem terminal_run_aftermath : ∃ c, Client.ofSettings Expression.refusal? (.ofEndpoint "tcp://broker") = .ok c ∧
    (c.run interruptedLine).connection.awaited = some 2 ∧
    (c.run (interruptedLine ++ .disconnect :: aftermath)).Terminal ∧
    (c.run (interruptedLine ++ [.disconnect])).callsOf aftermath = [.disconnect 8, .disconnect 9] :=
  have h := terminal_run (s := .ofEndpoint "tcp://broker") rfl (.inl rfl) interruptedLine aftermath
  ⟨_, rfl, by decide +kernel, h.1, h.2⟩

end Client

end Herald
