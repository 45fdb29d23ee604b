import Herald.Proofs.Agreement

namespace Herald

variable {L : Type}

namespace Turn

def course (outages : List LinkFailure) : List Turn :=
  outages.flatMap fun failure => [.lost failure, .reconnected]

def history (failed : Option LinkFailure) (outages : List LinkFailure) : List Turn :=
  (failed.map Turn.connectFailed).toList ++ .connected :: course outages

variable {outages : List LinkFailure} {failed : Option LinkFailure} {failure : LinkFailure}

theorem connectFailed_not_mem_course : .connectFailed failure ∉ course outages := by
  simp [course]

theorem connected_not_mem_course : .connected ∉ course outages := by
  simp [course]

theorem eq_zero_of_connectFailed {j : Nat} (h : (history failed outages)[j]? = some (.connectFailed failure)) :
    j = 0 := by
  have hrest : Turn.connectFailed failure ∉ Turn.connected :: course outages := by
    simp [connectFailed_not_mem_course]
  cases failed with
  | none => exact absurd (List.mem_of_getElem? h) hrest
  | some first =>
    cases j with
    | zero => rfl
    | succ j =>
      have htail : (Turn.connected :: course outages)[j]? = some (.connectFailed failure) := h
      exact absurd (List.mem_of_getElem? htail) hrest

theorem count_connected : (history failed outages).count .connected = 1 := by
  have hnone : (course outages).count .connected = 0 := List.count_eq_zero.mpr connected_not_mem_course
  cases failed <;> simp [history, hnone]

end Turn

def News.turn? : News → Option Turn
  | .connection turn => some turn
  | .rejected _ => none

namespace Client

def turns (c : Client L) (i : Input L) : List Turn :=
  (c.step i).2.news.filterMap News.turn?

def turnsOf (c : Client L) : List (Input L) → List Turn
  | [] => []
  | i :: is => c.turns i ++ (c.step i).1.turnsOf is

def succeeds (c : Client L) : Input L → Bool
  | .arrival (.connectResult attempt (.ok _)) => c.connection.awaited = some attempt
  | _ => false

def fails (c : Client L) : Input L → Option LinkFailure
  | .arrival (.connectResult attempt (.error failure)) =>
    if c.connection.awaited = some attempt then some failure else none
  | _ => none

def loses (c : Client L) : Input L → Option LinkFailure
  | .arrival (.connectionLost failure) => if c.connection.status = .connected then some failure else none
  | _ => none

def ever (test : Client L → Input L → Bool) (c : Client L) : List (Input L) → Bool
  | [] => false
  | i :: is => test c i || (c.step i).1.ever test is

/-- What is to be reported of a step, given whether a connection was made before it and whether an attempt had
failed. -/
def due (c : Client L) (made failed : Bool) (i : Input L) : List Turn :=
  if c.succeeds i then [if made then .reconnected else .connected]
  else
    match c.fails i with
    | some failure => if made || failed then [] else [.connectFailed failure]
    | none => ((c.loses i).map Turn.lost).toList

end Client

structure Standing where
  status : Status
  hasConnected : Bool
  failureReported : Bool

namespace Connection

def standing (c : Connection) : Standing :=
  ⟨c.status, c.hasConnected, c.failureReported⟩

@[simp] theorem standing_dial (c : Connection) : c.dial.1.standing = c.standing := by
  unfold dial
  split <;> rfl

end Connection

namespace Client

inductive Passage (c : Client L) (i : Input L) : Standing → List Turn → Prop
  | rest : c.succeeds i = false → c.fails i = none → c.loses i = none → Passage c i c.connection.standing []
  | closed : c.succeeds i = false → c.fails i = none → c.loses i = none →
      Passage c i ⟨.disconnected, c.connection.hasConnected, c.connection.failureReported⟩ []
  | made : c.succeeds i = true → c.fails i = none → c.connection.status.isDown = true →
      Passage c i ⟨.connected, true, false⟩ [if c.connection.hasConnected then .reconnected else .connected]
  | missed {failure : LinkFailure} : c.succeeds i = false → c.fails i = some failure →
      c.connection.status.isDown = true →
      (c.connection.hasConnected = true → c.connection.failureReported = true) →
      Passage c i
        ⟨if c.connection.hasConnected then .reconnectFailed else .neverConnected, c.connection.hasConnected, true⟩
        (if c.connection.failureReported then [] else [.connectFailed failure])
  | lost {failure : LinkFailure} : c.succeeds i = false → c.fails i = none → c.loses i = some failure →
      c.connection.status = .connected → c.connection.hasConnected = true →
      Passage c i ⟨.lostConnection, c.connection.hasConnected, true⟩ [.lost failure]

section Passage

variable {c : Client L} {i : Input L}

theorem passage_of_rest (hs : c.succeeds i = false) (hf : c.fails i = none) (hl : c.loses i = none)
    (hsame : (c.step i).1.connection.standing = c.connection.standing) (hturns : c.turns i = []) :
    Passage c i (c.step i).1.connection.standing (c.turns i) := by
  rw [hsame, hturns]
  exact .rest hs hf hl

theorem turn?_rejected (r : Option Rejection) : (r.map News.rejected).toList.filterMap News.turn? = [] := by
  cases r <;> rfl

theorem passage_connectResult (h : c.connection.Sound) (attempt : AttemptNo)
    (result : Except LinkFailure LinkId) :
    let i : Input L := .arrival (.connectResult attempt result)
    Passage c i (c.step i).1.connection.standing (c.turns i) := by
  by_cases ha : c.connection.awaited = some attempt
  · have hdown : c.connection.status.isDown = true := h.down_of_awaited (by simp [ha])
    cases result with
    | ok link =>
      have hs : c.succeeds (.arrival (.connectResult attempt (.ok link))) = true := by simp [succeeds, ha]
      have hmade := Passage.made hs rfl hdown
      simp only [step, arrive, turns, connectResult, Connection.connectResult, ha, if_true, Connection.succeed]
      cases hc : c.connection.hasConnected <;>
        simpa [hc, Connection.standing, Output.ofNews, News.turn?] using hmade
    | error failure =>
      have hf : c.fails (.arrival (.connectResult attempt (.error failure))) = some failure := by
        simp [fails, ha]
      have hmissed := Passage.missed rfl hf hdown (h.reported hdown)
      simp only [step, arrive, turns, connectResult, Connection.connectResult, ha, if_true, Connection.fail]
      cases hr : c.connection.failureReported <;>
        simpa [hr, Connection.standing, Output.ofNews, News.turn?] using hmissed
  · have hnot : c.succeeds (.arrival (.connectResult attempt result)) = false ∧
        c.fails (.arrival (.connectResult attempt result)) = none := by
      cases result <;> simp [succeeds, fails, ha]
    refine passage_of_rest hnot.1 hnot.2 rfl ?_ ?_ <;>
      cases result <;> simp [step, arrive, turns, connectResult, Connection.connectResult, ha, Output.ofNews]

theorem passage_connectionLost (h : c.connection.Sound) (failure : LinkFailure) :
    let i : Input L := .arrival (.connectionLost failure)
    Passage c i (c.step i).1.connection.standing (c.turns i) := by
  by_cases hs : c.connection.status = .connected
  · have hlost := Connection.lose_of_connected hs failure
    have hl : c.loses (.arrival (.connectionLost failure)) = some failure := by simp [loses, hs]
    have hmade : c.connection.hasConnected = true := by simpa [hs] using h.never_iff (by simp [hs])
    have hcut : c.connection.cut.standing = ⟨.lostConnection, c.connection.hasConnected, true⟩ := rfl
    simpa [turns, step, arrive, connectionLost, hlost, hcut, Output.ofNews, News.turn?]
      using Passage.lost (i := .arrival (.connectionLost failure)) rfl rfl hl hs hmade
  · have hlost := Connection.lose_of_not_connected hs failure
    have hl : c.loses (.arrival (.connectionLost failure)) = none := by simp [loses, hs]
    exact passage_of_rest rfl rfl hl (by simp [step, arrive, connectionLost, hlost])
      (by simp [turns, step, arrive, connectionLost, hlost, Output.ofNews])

theorem passage (h : c.connection.Sound) (i : Input L) :
    Passage c i (c.step i).1.connection.standing (c.turns i) := by
  cases i with
  | start => exact passage_of_rest rfl rfl rfl (Connection.standing_dial _) rfl
  | disconnect => exact .closed rfl rfl rfl
  | shutdown => exact .closed rfl rfl rfl
  | reloadKeys records =>
    refine passage_of_rest rfl rfl rfl ?_ rfl
    simp only [step, reloadKeys]
    split <;> rfl
  | arrival a =>
    cases a with
    | connectResult attempt result => exact passage_connectResult h attempt result
    | retryDue => exact passage_of_rest rfl rfl rfl (Connection.standing_dial _) rfl
    | connectionLost failure => exact passage_connectionLost h failure
    | ack request a => exact passage_of_rest rfl rfl rfl rfl (turn?_rejected _)
    | notification id n => exact passage_of_rest rfl rfl rfl rfl rfl
    | notifySent result => exact passage_of_rest rfl rfl rfl rfl rfl
  | _ => exact passage_of_rest rfl rfl rfl rfl rfl

end Passage

end Client

namespace Standing

def Recalls (made failed : Bool) (s : Standing) : Prop :=
  s.hasConnected = made ∧ (made = false → s.failureReported = failed)

def Ahead (s : Standing) (ts : List Turn) : Prop :=
  match s.status with
  | .disconnected => ts = []
  | .connected => ∃ outages, ts <+: Turn.course outages
  | _ =>
    if s.hasConnected then ∃ outages, ts <+: .reconnected :: Turn.course outages
    else if s.failureReported then ∃ outages, ts <+: .connected :: Turn.course outages
    else ∃ failed outages, ts <+: Turn.history failed outages

theorem ahead_nil (s : Standing) : s.Ahead [] := by
  unfold Ahead
  split
  · rfl
  · exact ⟨[], List.nil_prefix⟩
  · split
    · exact ⟨[], List.nil_prefix⟩
    · split
      · exact ⟨[], List.nil_prefix⟩
      · exact ⟨none, [], List.nil_prefix⟩

theorem ahead_of_isDown {s : Standing} {ts : List Turn} (h : s.status.isDown = true) : s.Ahead ts ↔
    if s.hasConnected then ∃ outages, ts <+: .reconnected :: Turn.course outages
    else if s.failureReported then ∃ outages, ts <+: .connected :: Turn.course outages
    else ∃ failed outages, ts <+: Turn.history failed outages := by
  cases hs : s.status <;> simp [Ahead, hs, Status.isDown] at h ⊢

end Standing

namespace Client

section Run

variable {c : Client L} {i : Input L} {s : Standing} {ts rest : List Turn} {made failed : Bool}

theorem Passage.recalls (p : Passage c i s ts) (h : c.connection.standing.Recalls made failed) :
    s.Recalls (made || c.succeeds i) (failed || (c.fails i).isSome) := by
  obtain ⟨hmade, hfailed⟩ := h
  simp only [Connection.standing] at hmade hfailed
  cases p with
  | rest hs hf _ => simpa [hs, hf] using ⟨hmade, hfailed⟩
  | closed hs hf _ => simpa [hs, hf] using ⟨hmade, hfailed⟩
  | made hs hf _ => simp [Standing.Recalls, hs]
  | missed hs hf _ _ => simpa [Standing.Recalls, hs, hf] using hmade
  | lost hs hf _ _ hc =>
    obtain rfl : made = true := hmade.symm.trans hc
    simpa [Standing.Recalls] using hc

theorem Passage.due_eq (p : Passage c i s ts) (h : c.connection.standing.Recalls made failed) :
    ts = c.due made failed i := by
  obtain ⟨hmade, hfailed⟩ := h
  simp only [Connection.standing] at hmade hfailed
  cases p with
  | rest hs hf hl => simp [due, hs, hf, hl]
  | closed hs hf hl => simp [due, hs, hf, hl]
  | made hs _ _ => simp [due, hs, hmade]
  | missed hs hf _ hreported =>
    cases made with
    | true => simp [due, hs, hf, hreported hmade]
    | false => simp [due, hs, hf, hfailed rfl]
  | lost hs hf hl _ _ => simp [due, hs, hf, hl]

theorem Passage.ahead (p : Passage c i s ts) (h : s.Ahead rest) : c.connection.standing.Ahead (ts ++ rest) := by
  cases p with
  | rest _ _ _ => exact h
  | closed _ _ _ =>
    obtain rfl : rest = [] := h
    exact c.connection.standing.ahead_nil
  | made _ _ hdown =>
    obtain ⟨outages, h⟩ := h
    rw [Standing.ahead_of_isDown hdown]
    cases hc : c.connection.hasConnected with
    | true => simpa [Connection.standing, hc] using ⟨outages, h⟩
    | false =>
      cases hr : c.connection.failureReported with
      | true => simpa [Connection.standing, hc, hr] using ⟨outages, h⟩
      | false =>
        have hprefix : [Turn.connected] ++ rest <+: Turn.history none outages := List.cons_prefix_cons.mpr ⟨rfl, h⟩
        simpa [Connection.standing, hc, hr] using ⟨none, outages, hprefix⟩
  | @missed failure _ _ hdown hreported =>
    have hdown' : (if c.connection.hasConnected then Status.reconnectFailed else .neverConnected).isDown = true := by
      split <;> rfl
    rw [Standing.ahead_of_isDown hdown'] at h
    rw [Standing.ahead_of_isDown hdown]
    cases hc : c.connection.hasConnected with
    | true => simpa [Connection.standing, hc, hreported hc] using h
    | false =>
      rw [if_neg (by simp [hc]), if_pos rfl] at h
      cases hr : c.connection.failureReported with
      | true => simpa [Connection.standing, hc, hr] using h
      | false =>
        obtain ⟨outages, h⟩ := h
        have hprefix : [Turn.connectFailed failure] ++ rest <+: Turn.history (some failure) outages :=
          List.cons_prefix_cons.mpr ⟨rfl, h⟩
        simpa [Connection.standing, hc, hr] using ⟨some failure, outages, hprefix⟩
  | @lost failure _ _ _ hs hc =>
    rw [hc] at h
    obtain ⟨outages, h⟩ := h
    have hprefix : [Turn.lost failure] ++ rest <+: Turn.course (failure :: outages) :=
      List.cons_prefix_cons.mpr ⟨rfl, h⟩
    simpa [Standing.Ahead, Connection.standing, hs] using ⟨failure :: outages, hprefix⟩

theorem Sound.recalls_run (h : c.Sound) (hr : c.connection.standing.Recalls made failed)
    (inputs : List (Input L)) : (c.run inputs).connection.standing.Recalls
      (made || c.ever succeeds inputs) (failed || c.ever (fun c i => (c.fails i).isSome) inputs) := by
  induction inputs generalizing c made failed with
  | nil => simpa [ever, Client.run] using hr
  | cons i inputs ih =>
    have hnext := ih (h.step i) ((passage h.connection i).recalls hr)
    simpa only [Client.run, ever, Bool.or_assoc] using hnext

theorem Sound.ahead_run (h : c.Sound) (inputs : List (Input L)) :
    c.connection.standing.Ahead (c.turnsOf inputs) := by
  induction inputs generalizing c with
  | nil => exact c.connection.standing.ahead_nil
  | cons i inputs ih => exact (passage h.connection i).ahead (ih (h.step i))

end Run

/-- What a run reports of the connection: a beginning of one history, in which each step reports what is due. -/
structure Chronicle (c : Client L) (inputs : List (Input L)) : Prop where
  begins : ∃ failed outages, c.turnsOf inputs <+: Turn.history failed outages
  failed_first : ∀ (j : Nat) (failure : LinkFailure),
    (c.turnsOf inputs)[j]? = some (.connectFailed failure) → j = 0
  connected_once : (c.turnsOf inputs).count .connected ≤ 1
  due : ∀ xs i ys, inputs = xs ++ i :: ys → (c.run xs).turns i =
    (c.run xs).due (c.ever succeeds xs) (c.ever (fun c i => (c.fails i).isSome) xs) i

theorem chronicle_run {check : Expression.Check} {s : Settings} {c : Client L} (hc : Client.ofSettings check s = .ok c)
    (inputs : List (Input L)) : c.Chronicle inputs := by
  have h := Sound.ofSettings hc
  have hstanding : c.connection.standing = ⟨.neverConnected, false, false⟩ := by
    rw [eq_of_ofSettings hc]
    rfl
  have hbegins : ∃ failed outages, c.turnsOf inputs <+: Turn.history failed outages := by
    simpa [hstanding, Standing.Ahead] using h.ahead_run inputs
  exact {
    begins := hbegins
    failed_first := by
      intro j failure hj
      obtain ⟨failed, outages, rest, hrest⟩ := hbegins
      obtain ⟨hlt, -⟩ := List.getElem?_eq_some_iff.mp hj
      have hhistory : (Turn.history failed outages)[j]? = some (.connectFailed failure) := by
        rwa [← hrest, List.getElem?_append_left hlt]
      exact Turn.eq_zero_of_connectFailed hhistory
    connected_once := by
      obtain ⟨failed, outages, hprefix⟩ := hbegins
      have hone : (Turn.history failed outages).count .connected = 1 := Turn.count_connected
      exact hone ▸ hprefix.sublist.count_le _
    due := by
      intro xs i ys _
      have hrecalls : c.connection.standing.Recalls false false := by simp [hstanding, Standing.Recalls]
      have hpast := h.recalls_run hrecalls xs
      simp only [Bool.false_or] at hpast
      exact (passage (h.run xs).connection i).due_eq hpast }

def unsteadyLine : List (Input Nat) :=
  [.start, .arrival (.connectResult 1 (.error ⟨111, "refused"⟩)), .arrival .retryDue,
    .arrival (.connectResult 2 (.error ⟨111, "refused"⟩)), .start, .arrival (.connectResult 3 (.ok 7)),
    .arrival (.connectResult 3 (.ok 8)), .arrival (.connectionLost ⟨104, "reset"⟩),
    .arrival (.connectResult 4 (.error ⟨111, "refused"⟩)), .arrival .retryDue,
    .arrival (.connectResult 5 (.ok 9)), .arrival (.connectionLost ⟨32, "pipe"⟩), .disconnect, .start]

theorem chronicle_run_unsteadyLine : ∃ c, Client.ofSettings Expression.refusal? (.ofEndpoint "tcp://broker") = .ok c ∧
    c.turnsOf unsteadyLine = [.connectFailed ⟨111, "refused"⟩, .connected, .lost ⟨104, "reset"⟩,
      .reconnected, .lost ⟨32, "pipe"⟩] ∧ c.Chronicle unsteadyLine :=
  ⟨_, rfl, by decide +kernel, chronicle_run (s := .ofEndpoint "tcp://broker") rfl _⟩

end Client

end Herald
