import Herald.Proofs.Links
import Herald.Proofs.Requests
import Herald.Proofs.Resubscription
import Herald.Proofs.Seats
/-!
The counters. They are counters of sixty-four bits that start at one; as long as they have not run over, they give
out the same numbers as counters without an end.
-/

namespace Herald

variable {L : Type}

namespace Counter

/-- The numbers that a counter of sixty-four bits gives out, and where it stands then; none where it runs over. -/
def draw : UInt64 → Nat → Option (List UInt64 × UInt64)
  | next, 0 => some ([], next)
  | next, k + 1 =>
    if next = -1 then none else (draw (next + 1) k).map fun (given, last) => (next :: given, last)

theorem draw_eq {n k : Nat} (h : n + k < UInt64.size) : ∃ given, draw (.ofNat n) k =
    some (given, .ofNat (n + k)) ∧ given.map UInt64.toNat = List.range' n k := by
  induction k generalizing n with
  | zero => exact ⟨[], rfl, rfl⟩
  | succ k ih =>
    obtain ⟨given, hdraw, hgiven⟩ := ih (n := n + 1) (by omega)
    have hroom : UInt64.ofNat n ≠ -1 := by
      intro hlast
      have hmax := congrArg UInt64.toNat hlast
      rw [UInt64.toNat_ofNat_of_lt' (by omega)] at hmax
      have hone : (-1 : UInt64).toNat + 1 = UInt64.size := by decide
      omega
    refine ⟨.ofNat n :: given, ?_, ?_⟩
    · rw [draw, if_neg hroom, ← UInt64.ofNat_one, ← UInt64.ofNat_add, hdraw, Option.map_some, Nat.add_right_comm,
        Nat.add_assoc]
    · rw [List.map_cons, hgiven, UInt64.toNat_ofNat_of_lt' (by omega), List.range'_succ]

def Keeps (given : List Nat) (next : Nat) : Prop :=
  given.length + 1 < UInt64.size → ∃ words, draw 1 given.length = some (words, .ofNat next) ∧
    words.map UInt64.toNat = given ∧ (UInt64.ofNat next).toNat = next

theorem keeps_range' (k : Nat) : Keeps (List.range' 1 k) (1 + k) := by
  intro h
  rw [List.length_range'] at h
  obtain ⟨words, hdraw, hwords⟩ := draw_eq (n := 1) (k := k) (by omega)
  rw [List.length_range']
  exact ⟨words, hdraw, hwords, UInt64.toNat_ofNat_of_lt' (by omega)⟩

end Counter

def Reply.ticket? : Reply → Option Ticket
  | .ticket k => some k
  | _ => none

theorem Ledger.numbers_step (l : Ledger L) (check : Expression.Check) (i : Input L) :
    ∃ k, (l.step check i).1.nextTicket = l.nextTicket + k ∧
      (l.step check i).2.ticket?.toList = List.range' l.nextTicket k := by
  have houtcome {done : Except Fault (Ledger L)} (h : ∀ l', done = .ok l' → l'.nextTicket = l.nextTicket) :
      ∃ k, (l.outcome done).1.nextTicket = l.nextTicket + k ∧
        (l.outcome done).2.ticket?.toList = List.range' l.nextTicket k := by
    cases done with
    | error fault => exact ⟨0, rfl, rfl⟩
    | ok l' => exact ⟨0, h l' rfl, rfl⟩
  cases i with
  | subscribe w =>
    simp only [step, subscribe, checkExpression]
    cases check w.expression with
    | some reason => exact ⟨0, rfl, rfl⟩
    | none => exact ⟨1, rfl, rfl⟩
  | unsubscribe k =>
    refine houtcome fun l' h => ?_
    unfold unsubscribe at h
    split at h
    · cases h
    · obtain rfl := Except.ok.inj h
      rfl
  | revise k w =>
    refine houtcome fun l' h => ?_
    unfold revise checkExpression at h
    split at h
    · cases h
    · split at h
      · obtain rfl := Except.ok.inj h
        rfl
      · split at h
        · obtain rfl := Except.ok.inj h
          rfl
        · cases h
  | reloadKeys records =>
    refine houtcome fun l' h => ?_
    cases hr : Key.Table.ofRecords records with
    | error fault => simp [hr, Except.map] at h
    | ok table =>
      rw [hr] at h
      obtain rfl := Except.ok.inj h
      rfl
  | _ => exact ⟨0, rfl, rfl⟩

namespace Client

variable {c : Client L}

def ticketsOf (c : Client L) (inputs : List (Input L)) : List Ticket :=
  c.gather (fun c i => (c.step i).2.reply.ticket?.toList) inputs

def topicsOf (c : Client L) (inputs : List (Input L)) : List TopicNo :=
  c.gather (fun c i => List.range' c.board.nextTopic ((c.step i).1.board.nextTopic - c.board.nextTopic)) inputs

theorem ticket?_of_passive {i : Input L} (hi : i.isCaller = false) (c : Client L) :
    (c.step i).2.reply.ticket? = none := by
  cases i with
  | arrival a => cases a <;> rfl
  | start => rfl
  | disconnect => rfl
  | send n names => rfl
  | _ => simp [Input.isCaller] at hi

theorem Sound.ticketsOf_eq (h : c.Sound) (inputs : List (Input L)) :
    ∃ k, (c.run inputs).board.nextTicket = c.board.nextTicket + k ∧
      c.ticketsOf inputs = List.range' c.board.nextTicket k := by
  refine h.gather_range' (fun c => c.board.nextTicket) (fun {c} h i => ?_) inputs
  obtain ⟨htracks, hreply⟩ := tracks_step c.board.tracks_ledger h i
  obtain ⟨k, hk, hgiven⟩ := c.board.ledger.numbers_step c.check i
  refine ⟨k, htracks.nextTicket.symm.trans hk, ?_⟩
  cases hi : i.isCaller with
  | true => rw [hreply hi, hgiven]; rfl
  | false =>
    rw [Ledger.step_of_passive hi] at hgiven
    rw [ticket?_of_passive hi]
    exact hgiven

theorem Sound.topicsOf_eq (h : c.Sound) (inputs : List (Input L)) :
    ∃ k, (c.run inputs).board.nextTopic = c.board.nextTopic + k ∧
      c.topicsOf inputs = List.range' c.board.nextTopic k := by
  refine h.gather_range' (fun c => c.board.nextTopic) (fun {c} h i => ?_) inputs
  have hgrows := ((h.change i).grows h.coherent).1
  exact ⟨_, (Nat.add_sub_cancel' hgrows).symm, rfl⟩

structure Counted (c : Client L) (inputs : List (Input L)) : Prop where
  topics : Counter.Keeps (c.topicsOf inputs) (c.run inputs).board.nextTopic
  tickets : Counter.Keeps (c.ticketsOf inputs) (c.run inputs).board.nextTicket
  requests : Counter.Keeps (c.requestsOf inputs) (c.run inputs).board.nextRequest
  attempts : Counter.Keeps (c.attemptsOf inputs) (c.run inputs).connection.nextAttempt

theorem counted_run {check : Expression.Check} {s : Settings} (hc : Client.ofSettings check s = .ok c)
    (inputs : List (Input L)) : c.Counted inputs := by
  have h := Sound.ofSettings hc
  have hkeeps {given : List Nat} {next : Nat} (hk : ∃ k, next = 1 + k ∧ given = List.range' 1 k) :
      Counter.Keeps given next := by
    obtain ⟨k, rfl, rfl⟩ := hk
    exact Counter.keeps_range' k
  obtain rfl := eq_of_ofSettings hc
  constructor
  · exact hkeeps (h.topicsOf_eq inputs)
  · exact hkeeps (h.ticketsOf_eq inputs)
  · exact hkeeps (h.requestsOf_eq inputs)
  · exact hkeeps (h.attemptsOf_eq inputs)

end Client

end Herald
