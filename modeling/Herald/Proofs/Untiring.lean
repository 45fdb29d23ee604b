import Herald.Proofs.Links

namespace Herald

variable {L : Type}

def Input.isTimer : Input L → Bool
  | .arrival .retryDue => true
  | _ => false

theorem Input.dials_of_isAloof {i : Input L} (h : i.isAloof = true) : i.dials = false ∧ i.isTimer = false := by
  cases i with
  | arrival a => cases a <;> simp_all [isAloof, dials, isTimer]
  | _ => simp_all [isAloof, dials, isTimer]

namespace Connection.Tending

variable {c : Connection} {i : Input L} {r : Connection × List Call}

theorem status_ne_disconnected (t : c.Tending i r) (hi : i.ends = false) (h : c.status ≠ .disconnected) :
    r.1.status ≠ .disconnected := by
  cases t with
  | made link _ _ => simp [succeed]
  | missed failure _ _ =>
    simp only [fail]
    split <;> simp
  | lost failure _ _ => simp [Connection.dialled, cut]
  | closed hends => simp [hi] at hends
  | _ => exact h

theorem awaited_or_waits (t : c.Tending i r) {waits : Prop}
    (h : i.dials = true ∨ (c.status.isDown = true → c.awaited ≠ none ∨ waits)) (hdown : r.1.status.isDown = true) :
    r.1.awaited ≠ none ∨ r.2.filterMap Call.delay? ≠ [] ∨ waits ∧ i.isTimer = false := by
  -- Where the connection stays as it is, what it waits for is waited for still.
  have hkept (hdials : i.dials = false) (htimer : i.isTimer = false) (hc : c.status.isDown = true) :
      c.awaited ≠ none ∨ [].filterMap Call.delay? ≠ [] ∨ waits ∧ i.isTimer = false := by
    obtain ha | hw := h.resolve_left (by simp [hdials]) hc
    · exact .inl ha
    · exact .inr (.inr ⟨hw, htimer⟩)
  cases t with
  | aloof hi => exact hkept (Input.dials_of_isAloof hi).1 (Input.dials_of_isAloof hi).2 hdown
  | idle _ ha => exact .inl (ha hdown)
  | dialled _ _ _ => exact .inl (by simp [Connection.dialled])
  | made link _ _ => simp [succeed, Status.isDown] at hdown
  | missed failure _ _ => exact .inr (.inl (by simp [Call.delay?]))
  | turnedAway link _ =>
    obtain ha | hw | hw := hkept rfl rfl hdown
    · exact .inl ha
    · simp at hw
    · exact .inr (.inr hw)
  | stale failure _ => exact hkept rfl rfl hdown
  | lost failure _ _ => exact .inl (by simp [Connection.dialled])
  | spared failure _ => exact hkept rfl rfl hdown
  | closed _ => simp [close, Status.isDown] at hdown

end Connection.Tending

namespace Client

variable {c : Client L} {i : Input L} {attempt : AttemptNo} {inputs : List (Input L)}

def delays (c : Client L) (i : Input L) : List Delay :=
  (c.step i).2.calls.filterMap Call.delay?

def Waits (c : Client L) (inputs : List (Input L)) : Prop :=
  c.Since (fun c i => c.delays i ≠ []) Input.isTimer inputs

def Takes (c : Client L) (attempt : AttemptNo) : Prop :=
  (∀ link, (c.step (.arrival (.connectResult attempt (.ok link)))).1.link? = some link) ∧
    ∀ failure, c.delays (.arrival (.connectResult attempt (.error failure))) ≠ []

theorem tended_delay? (c : Client L) (i : Input L) :
    (c.tended i).2.filterMap Call.delay? = c.delays i :=
  Call.filterMap_filter_tends (by intro call h; cases call <;> simp_all [Call.tends, Call.delay?]) _

theorem takes_of_awaited (ha : c.connection.awaited = some attempt) : c.Takes attempt := by
  refine ⟨fun link => (connectResult_awaited ha link).1, fun failure => ?_⟩
  rw [delays, (connectResult_of_not_made (.inr ⟨failure, rfl⟩)).2]
  simp [Connection.connectResult, ha, Connection.fail, Call.delay?]

theorem attempts_retryDue (hdown : c.connection.status.isDown = true) (ha : c.connection.awaited = none) :
    c.attempts (.arrival .retryDue) = [c.connection.nextAttempt] := by
  have hcalls : (c.step (.arrival .retryDue)).2.calls = c.connection.dial.2 := rfl
  rw [attempts, hcalls, Connection.dial_eq hdown ha]
  rfl

theorem Sound.status_ne_disconnected_run (h : c.Sound) (hp : c.connection.status ≠ .disconnected)
    (hi : ∀ i ∈ inputs, i.ends = false) : (c.run inputs).connection.status ≠ .disconnected := by
  induction inputs generalizing c with
  | nil => exact hp
  | cons i inputs ih =>
    have hstep := (h.tending i).status_ne_disconnected (hi i (.head _)) hp
    exact ih (h.step i) hstep fun j hj => hi j (.tail _ hj)

theorem Sound.awaited_or_waits_run (h : c.Sound) (hs : .start ∈ inputs)
    (hdown : (c.run inputs).connection.status.isDown = true) :
    (c.run inputs).connection.awaited ≠ none ∨ c.Waits inputs := by
  induction inputs using List.reverseRecOn with
  | nil => simp at hs
  | append_singleton inputs i ih =>
    have hbefore : i.dials = true ∨ ((c.run inputs).connection.status.isDown = true →
        (c.run inputs).connection.awaited ≠ none ∨ c.Waits inputs) := by
      obtain hs | hs := List.mem_append.mp hs
      · exact .inr (ih hs)
      · exact .inl (List.mem_singleton.mp hs ▸ rfl)
    rw [run_concat] at hdown ⊢
    have hstep := ((h.run inputs).tending i).awaited_or_waits hbefore hdown
    rw [tended_delay?] at hstep
    rw [Waits, since_concat]
    exact hstep

/-- A client that was started and has not been given up is connected, or takes the result that it awaits, or waits
for a timer that starts the next attempt. -/
theorem untiring_run {check : Expression.Check} {s : Settings} (hc : Client.ofSettings check s = .ok c)
    (hs : .start ∈ inputs) (hd : .disconnect ∉ inputs) (hx : .shutdown ∉ inputs) :
    (c.run inputs).connection.status = .connected ∨
      (∃ attempt, c.Awaits inputs attempt ∧ (c.run inputs).Takes attempt) ∨
      (c.Waits inputs ∧ (c.run inputs).attempts (.arrival .retryDue) ≠ []) := by
  have h := Sound.ofSettings hc
  have hfresh : c.connection.status ≠ .disconnected ∧ c.connection.awaited = none := by
    rw [eq_of_ofSettings hc]
    exact ⟨Status.noConfusion, rfl⟩
  have hends : ∀ i ∈ inputs, i.ends = false := by
    intro i hi
    cases i with
    | disconnect => exact absurd hi hd
    | shutdown => exact absurd hi hx
    | _ => rfl
  have hopen := h.status_ne_disconnected_run hfresh.1 hends
  cases hp : (c.run inputs).connection.status.isDown with
  | false =>
    left
    cases hstatus : (c.run inputs).connection.status <;> simp_all [Status.isDown]
  | true =>
    right
    cases ha : (c.run inputs).connection.awaited with
    | some attempt => exact .inl ⟨attempt, (h.awaits_iff hfresh.2 inputs).mpr ha, takes_of_awaited ha⟩
    | none =>
      have hwaits := (h.awaited_or_waits_run hs hp).resolve_left (by simp [ha])
      exact .inr ⟨hwaits, by simp [attempts_retryDue hp ha]⟩

def flakyLine : List (Input Nat) :=
  [.arrival .retryDue, .start, .arrival (.connectResult 1 (.error ⟨111, "refused"⟩)), .arrival .retryDue,
    .arrival .retryDue, .arrival (.connectResult 1 (.ok 7)), .start,
    .arrival (.connectResult 2 (.error ⟨111, "refused"⟩)), .arrival (.connectionLost ⟨104, "reset"⟩)]

theorem untiring_run_flakyLine : ∃ c, Client.ofSettings Expression.refusal? (.ofEndpoint "tcp://broker") = .ok c ∧
    .start ∈ flakyLine ∧ .disconnect ∉ flakyLine ∧ .shutdown ∉ flakyLine ∧
    (c.run flakyLine).connection.status = .neverConnected ∧ (c.run flakyLine).connection.awaited = none ∧
    ((c.run flakyLine).connection.status = .connected ∨
      (∃ attempt, c.Awaits flakyLine attempt ∧ (c.run flakyLine).Takes attempt) ∨
      (c.Waits flakyLine ∧ (c.run flakyLine).attempts (.arrival .retryDue) ≠ [])) :=
  have hs : .start ∈ flakyLine := by simp [flakyLine]
  have hd : .disconnect ∉ flakyLine := by simp [flakyLine]
  have hx : .shutdown ∉ flakyLine := by simp [flakyLine]
  ⟨_, rfl, hs, hd, hx, by decide +kernel, by decide +kernel,
    untiring_run (s := .ofEndpoint "tcp://broker") rfl hs hd hx⟩

end Client

end Herald
