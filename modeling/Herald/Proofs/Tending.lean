import Herald.Proofs.Chronicle
import Mathlib.Data.List.Basic
import Mathlib.Data.List.Induction

namespace Herald

variable {L : Type}

namespace Call

def tends : Call → Bool
  | .connect _ _ => true
  | .retry _ => true
  | .disconnect _ => true
  | _ => false

def closed? : Call → Option LinkId
  | .disconnect link => some link
  | _ => none

def attempt? : Call → Option AttemptNo
  | .connect attempt _ => some attempt
  | _ => none

def delay? : Call → Option Delay
  | .retry delay => some delay
  | _ => none

theorem tends_of_isOrder {call : Call} (h : call.isOrder = true) : call.tends = false := by
  cases call <;> simp_all [isOrder, tends]

theorem filterMap_filter_tends {α : Type} {f : Call → Option α} (hf : ∀ call, call.tends = false → f call = none)
    (calls : List Call) : (calls.filter tends).filterMap f = calls.filterMap f := by
  rw [List.filterMap_filter]
  refine List.filterMap_congr fun call _ => ?_
  cases ht : call.tends with
  | true => rfl
  | false => exact (hf call ht).symm

end Call

namespace Input

def dials : Input L → Bool
  | .start => true
  | .arrival .retryDue => true
  | _ => false

def ends : Input L → Bool
  | .disconnect => true
  | .shutdown => true
  | _ => false

def isAloof : Input L → Bool
  | .start => false
  | .disconnect => false
  | .shutdown => false
  | .arrival (.connectResult _ _) => false
  | .arrival .retryDue => false
  | .arrival (.connectionLost _) => false
  | _ => true

end Input

namespace Connection

def dialled (c : Connection) : Connection :=
  { c with awaited := some c.nextAttempt, nextAttempt := c.nextAttempt + 1 }

/-- What one step does to the connection, and the calls that it makes for the connection's own sake. -/
inductive Tending (c : Connection) : Input L → Connection × List Call → Prop
  | aloof {i : Input L} : i.isAloof = true → Tending c i (c, [])
  | idle {i : Input L} : i.dials = true → (c.status.isDown = true → c.awaited ≠ none) → Tending c i (c, [])
  | dialled {i : Input L} : i.dials = true → c.status.isDown = true → c.awaited = none →
      Tending c i (c.dialled, [.connect c.nextAttempt c.endpoint])
  | made {attempt : AttemptNo} (link : LinkId) : c.awaited = some attempt → c.link? = none →
      Tending c (.arrival (.connectResult attempt (.ok link))) ((c.succeed link).1, [])
  | missed {attempt : AttemptNo} (failure : LinkFailure) : c.awaited = some attempt → c.link? = none →
      Tending c (.arrival (.connectResult attempt (.error failure)))
        ((c.fail failure).1, [.retry c.backoff.current])
  | turnedAway {attempt : AttemptNo} (link : LinkId) : c.awaited ≠ some attempt →
      Tending c (.arrival (.connectResult attempt (.ok link))) (c, [.disconnect link])
  | stale {attempt : AttemptNo} (failure : LinkFailure) : c.awaited ≠ some attempt →
      Tending c (.arrival (.connectResult attempt (.error failure))) (c, [])
  | lost {link : LinkId} (failure : LinkFailure) : c.link? = some link → c.awaited = none →
      Tending c (.arrival (.connectionLost failure))
        (c.cut.dialled, [.connect c.nextAttempt c.endpoint])
  | spared (failure : LinkFailure) : c.link? = none → Tending c (.arrival (.connectionLost failure)) (c, [])
  | closed {i : Input L} : i.ends = true → Tending c i c.close

variable {c : Connection}

theorem dial_eq (hd : c.status.isDown = true) (ha : c.awaited = none) :
    c.dial = (c.dialled, [.connect c.nextAttempt c.endpoint]) := by
  simp [dial, dialled, hd, ha]

theorem dial_eq_self (h : c.status.isDown = true → c.awaited ≠ none) : c.dial = (c, []) := by
  unfold dial
  split
  · next hd =>
    obtain ⟨hdown, hnone⟩ := (Bool.and_eq_true _ _).mp hd
    exact absurd (Option.isNone_iff_eq_none.mp hnone) (h hdown)
  · rfl

theorem awaited_eq_none_of_link (h : c.Sound) {link : LinkId} (hl : c.link? = some link) : c.awaited = none := by
  refine Classical.byContradiction fun ha => ?_
  have hnone := link?_eq_none_of_sound h ha
  simp [hl] at hnone

theorem tending_dial {i : Input L} (hi : i.dials = true) : c.Tending i c.dial := by
  by_cases h : c.status.isDown = true → c.awaited ≠ none
  · rw [dial_eq_self h]
    exact .idle hi h
  · have hd : c.status.isDown = true ∧ c.awaited = none := by simpa using h
    rw [dial_eq hd.1 hd.2]
    exact .dialled hi hd.1 hd.2

theorem tending_connectResult (h : c.Sound) (attempt : AttemptNo) (result : Except LinkFailure LinkId) :
    c.Tending (L := L) (.arrival (.connectResult attempt result))
      ((c.connectResult attempt result).1, (c.connectResult attempt result).2.1) := by
  unfold connectResult
  by_cases ha : c.awaited = some attempt
  · have hnone : c.link? = none := link?_eq_none_of_sound h (by simp [ha])
    rw [if_pos ha]
    cases result with
    | ok link => exact .made link ha hnone
    | error failure => exact .missed failure ha hnone
  · rw [if_neg ha]
    cases result with
    | ok link => exact .turnedAway link ha
    | error failure => exact .stale failure ha

theorem tending_lose (h : c.Sound) (failure : LinkFailure) :
    c.Tending (L := L) (.arrival (.connectionLost failure)) ((c.lose failure).1, (c.lose failure).2.1) := by
  cases hl : c.link? with
  | none =>
    rw [lose_of_not_connected (h.not_connected_of_no_link hl)]
    exact .spared failure hl
  | some link =>
    have ha := awaited_eq_none_of_link h hl
    have hdial : c.cut.dial = (c.cut.dialled, [.connect c.nextAttempt c.endpoint]) := dial_eq rfl ha
    rw [lose_of_connected (h.connected_of_link hl), hdial]
    exact .lost failure hl ha

theorem Tending.filter_tends {i : Input L} {r : Connection × List Call} (t : c.Tending i r) :
    r.2.filter Call.tends = r.2 := by
  cases t with
  | closed _ => cases hl : c.link? <;> simp [close, hl, Call.tends]
  | _ => rfl

end Connection

namespace Client

variable {c : Client L} {i : Input L} {r : Connection × List Call} {first : List Call}

section Operations

variable {records : List Key.Record} {fault : Fault}

theorem step_reloadKeys_ok {table : Key.Table} (h : Key.Table.ofRecords records = .ok table) :
    c.step (.reloadKeys records) = ({ c with board := (c.board.rekey c.link? table).1 },
      .ofReply .accepted (c.board.rekey c.link? table).2) := by
  simp [step, reloadKeys, h, outcome, Reply.ofResult]

theorem step_reloadKeys_error (h : Key.Table.ofRecords records = .error fault) :
    c.step (.reloadKeys records) = (c, .ofReply (.fault fault) []) := by
  simp [step, reloadKeys, h, outcome, Reply.ofResult]

end Operations

def tended (c : Client L) (i : Input L) : Connection × List Call :=
  ((c.step i).1.connection, (c.step i).2.calls.filter Call.tends)

theorem tending_of_step (t : c.connection.Tending i r) (hc : (c.step i).1.connection = r.1)
    (hcalls : (c.step i).2.calls = first ++ r.2) (hfirst : ∀ call ∈ first, call.tends = false) :
    c.connection.Tending i (c.tended i) := by
  have hnone : first.filter Call.tends = [] :=
    List.filter_eq_nil_iff.mpr fun call hmem => by simp [hfirst call hmem]
  have hr : c.tended i = r := by
    rw [tended, hc, hcalls, List.filter_append, hnone, List.nil_append, t.filter_tends]
  rwa [hr]

theorem tending_of_calls (t : c.connection.Tending i r) (hc : (c.step i).1.connection = r.1)
    (hcalls : (c.step i).2.calls = r.2) : c.connection.Tending i (c.tended i) :=
  tending_of_step t hc (hcalls.trans (List.nil_append r.2).symm) (by simp)

theorem tending_of_aloof (hi : i.isAloof = true) (hc : (c.step i).1.connection = c.connection)
    (hcalls : ∀ call ∈ (c.step i).2.calls, call.tends = false) : c.connection.Tending i (c.tended i) :=
  tending_of_step (.aloof hi) hc (List.append_nil _).symm hcalls

theorem tending_of_moves {b b' : Switchboard L} (hi : i.isAloof = true)
    (hc : (c.step i).1.connection = c.connection) (hm : b.Moves c.link? b' (c.step i).2.calls) :
    c.connection.Tending i (c.tended i) :=
  tending_of_aloof hi hc fun call hmem => Call.tends_of_isOrder (hm.over call hmem).1

theorem connection_connectResult (c : Client L) (attempt : AttemptNo) (result : Except LinkFailure LinkId) :
    (c.step (.arrival (.connectResult attempt result))).1.connection =
      (c.connection.connectResult attempt result).1 := by
  simp only [step, arrive, connectResult]
  split <;> rfl

theorem connection_connectionLost (c : Client L) (failure : LinkFailure) :
    (c.step (.arrival (.connectionLost failure))).1.connection = (c.connection.lose failure).1 := by
  simp only [step, arrive, connectionLost]
  split <;> rfl

theorem Sound.tending_connectResult (h : c.Sound) (attempt : AttemptNo) (result : Except LinkFailure LinkId) :
    let i : Input L := .arrival (.connectResult attempt result)
    c.connection.Tending i (c.tended i) := by
  have ht := Connection.tending_connectResult (L := L) h.connection attempt result
  have hc := c.connection_connectResult attempt result
  by_cases ha : c.connection.awaited = some attempt
  · cases result with
    | ok link =>
      have hcalls : (c.step (.arrival (.connectResult attempt (.ok link)))).2.calls =
          (c.board.reconnected (some link)).2 ++ (c.connection.connectResult attempt (.ok link)).2.1 := by
        rw [(connectResult_awaited ha link).2.2]
        simp [Connection.connectResult, ha]
      -- What a success sets off is all for the topics.
      refine tending_of_step ht hc hcalls fun call hmem => ?_
      exact Call.tends_of_isOrder ((Switchboard.reconnected_moves _ _).over call hmem).1
    | error failure => exact tending_of_calls ht hc (connectResult_of_not_made (.inr ⟨failure, rfl⟩)).2
  · exact tending_of_calls ht hc (connectResult_of_not_made (.inl ha)).2

theorem Sound.tending (h : c.Sound) (i : Input L) : c.connection.Tending i (c.tended i) := by
  cases i with
  | start => exact tending_of_calls (Connection.tending_dial rfl) rfl rfl
  | disconnect => exact tending_of_calls (.closed rfl) rfl rfl
  | shutdown =>
    refine tending_of_step (.closed rfl) rfl rfl fun call hmem => ?_
    exact Call.tends_of_isOrder ((Switchboard.unsubscribeAll_moves c.link? c.board).over call hmem).1
  | subscribe w =>
    exact tending_of_moves rfl rfl (Switchboard.subscribe_moves h.coherent c.check c.link? w)
  | unsubscribe k =>
    exact tending_of_moves rfl rfl (Switchboard.unsubscribe_moves c.link? c.board k)
  | revise k w =>
    exact tending_of_moves rfl rfl (Switchboard.revise_moves h.coherent c.check c.link? k w)
  | send n names =>
    refine tending_of_aloof rfl rfl ?_
    cases hl : c.link? <;> simp [Client.step, send, hl, Output.ofReply, Call.tends]
  | reloadKeys records =>
    cases hr : Key.Table.ofRecords records with
    | error fault =>
      have hstep := step_reloadKeys_error (c := c) hr
      exact tending_of_aloof rfl (by rw [hstep]) (by simp [hstep, Output.ofReply])
    | ok table =>
      have hstep := step_reloadKeys_ok (c := c) hr
      refine tending_of_aloof rfl (by rw [hstep]) fun call hmem => ?_
      rw [hstep] at hmem
      exact Call.tends_of_isOrder ((Switchboard.rekey_moves c.link? c.board table).over call hmem).1
  | arrival a =>
    cases a with
    | connectResult attempt result => exact h.tending_connectResult attempt result
    | retryDue => exact tending_of_calls (Connection.tending_dial rfl) rfl rfl
    | connectionLost failure =>
      exact tending_of_calls (Connection.tending_lose h.connection failure) (c.connection_connectionLost failure)
        (c.connectionLost_calls failure)
    | ack request a =>
      refine tending_of_aloof rfl rfl fun call hmem => ?_
      exact Call.tends_of_isOrder (Switchboard.acknowledge_over h.coherent c.link? request a call hmem).1
    | notification id n => exact tending_of_calls (.aloof rfl) rfl rfl
    | notifySent result => exact tending_of_calls (.aloof rfl) rfl rfl

def gather {α : Type} (yields : Client L → Input L → List α) (c : Client L) : List (Input L) → List α
  | [] => []
  | i :: is => yields c i ++ (c.step i).1.gather yields is

theorem Sound.gather_range' {yields : Client L → Input L → List Nat} (next : Client L → Nat)
    (hstep : ∀ {c : Client L}, c.Sound → ∀ i, ∃ k, next (c.step i).1 = next c + k ∧
      yields c i = List.range' (next c) k) (h : c.Sound) (inputs : List (Input L)) :
    ∃ k, next (c.run inputs) = next c + k ∧ c.gather yields inputs = List.range' (next c) k := by
  induction inputs generalizing c with
  | nil => exact ⟨0, rfl, rfl⟩
  | cons i inputs ih =>
    obtain ⟨k, hk, hfirst⟩ := hstep h i
    obtain ⟨l, hl, hrest⟩ := ih (h.step i)
    refine ⟨k + l, by rw [Client.run, hl, hk, Nat.add_assoc], ?_⟩
    rw [gather, hfirst, hrest, hk, List.range'_append_1]

/-- Some step of a run has asked for something, and nothing that came in since has settled it. -/
def Since (asks : Client L → Input L → Prop) (settles : Input L → Bool) (c : Client L)
    (inputs : List (Input L)) : Prop :=
  ∃ xs i ys, inputs = xs ++ i :: ys ∧ asks (c.run xs) i ∧ ∀ j ∈ ys, settles j = false

section Since

variable {asks : Client L → Input L → Prop} {settles : Input L → Bool}

theorem run_concat (c : Client L) (inputs : List (Input L)) (i : Input L) :
    c.run (inputs ++ [i]) = ((c.run inputs).step i).1 :=
  run_append c inputs [i]

theorem not_since_nil (c : Client L) : ¬ c.Since asks settles [] := by
  rintro ⟨xs, i, ys, heq, -⟩
  simp at heq

theorem since_concat (c : Client L) (inputs : List (Input L)) (i : Input L) :
    c.Since asks settles (inputs ++ [i]) ↔
      asks (c.run inputs) i ∨ c.Since asks settles inputs ∧ settles i = false := by
  constructor
  · rintro ⟨xs, j, ys, heq, hasks, hys⟩
    -- The step that asked is the last one, or the last one has not settled it.
    obtain rfl | ⟨ys, k, rfl⟩ := List.eq_nil_or_concat ys
    · obtain ⟨rfl, hij⟩ := List.append_inj' heq rfl
      obtain rfl := List.head_eq_of_cons_eq hij
      exact .inl hasks
    · have hassoc : inputs ++ [i] = (xs ++ j :: ys) ++ [k] := by simpa using heq
      obtain ⟨rfl, hik⟩ := List.append_inj' hassoc rfl
      obtain rfl := List.head_eq_of_cons_eq hik
      exact .inr ⟨⟨xs, j, ys, rfl, hasks, fun j hj => hys j (by simp [hj])⟩, hys i (by simp)⟩
  · rintro (hasks | ⟨⟨xs, j, ys, rfl, hasks, hys⟩, hi⟩)
    · exact ⟨inputs, i, [], rfl, hasks, by simp⟩
    · refine ⟨xs, j, ys ++ [i], by simp, hasks, fun k hk => ?_⟩
      obtain hk | hk := List.mem_append.mp hk
      · exact hys k hk
      · exact List.mem_singleton.mp hk ▸ hi

end Since

end Client

end Herald
