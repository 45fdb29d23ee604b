import Herald.Proofs.KeyReload
import Herald.Proofs.Ledger
import Herald.Proofs.Tending
import Mathlib.Data.List.Induction
import Mathlib.Logic.Function.Basic

namespace Herald

variable {L : Type}

namespace Key.Table

variable {first rest records : List Record} {r : Record} {fault : Fault}

theorem exists_first_repeat (h : ¬ (records.map (·.name)).Nodup) : ∃ first r rest, records = first ++ r :: rest ∧
    (first.map (·.name)).Nodup ∧ r.name ∈ first.map (·.name) := by
  induction records using List.reverseRecOn with
  | nil => simp at h
  | append_singleton records r ih =>
    -- The last record is the first repeat only if there is none before it.
    by_cases hd : (records.map (·.name)).Nodup
    · have hr : r.name ∈ records.map (·.name) := by simpa [List.nodup_append, hd] using h
      exact ⟨records, r, [], rfl, hd, hr⟩
    · obtain ⟨first, r', rest, rfl, hfirst, hr'⟩ := ih hd
      exact ⟨first, r', rest ++ [r], by simp, hfirst, hr'⟩

theorem ofRecords_repeated (hd : (first.map (·.name)).Nodup) (hr : r.name ∈ first.map (·.name)) :
    ofRecords (first ++ r :: rest) = .error (.keyExists r.name) := by
  obtain ⟨u, hu, hlookup⟩ := ofRecords_of_nodup hd
  have hmem : r.name ∈ u.entries := by
    rw [Std.ExtTreeMap.mem_iff_isSome_getElem?, ← lookup, hlookup, Option.isSome_map, List.find?_isSome]
    simpa using hr
  have hadd : u.add r = .error (.keyExists r.name) := if_pos hmem
  rw [ofRecords] at hu ⊢
  rw [List.foldlM_append, hu]
  simp [List.foldlM_cons, hadd, bind, Except.bind]

theorem ofRecords_eq_error_iff : ofRecords records = .error fault ↔ ∃ first r rest, records = first ++ r :: rest ∧
    (first.map (·.name)).Nodup ∧ r.name ∈ first.map (·.name) ∧ fault = .keyExists r.name := by
  constructor
  · intro h
    have hd : ¬ (records.map (·.name)).Nodup := by
      intro hd
      obtain ⟨u, hu, -⟩ := ofRecords_of_nodup hd
      simp [hu] at h
    obtain ⟨first, r, rest, rfl, hfirst, hr⟩ := exists_first_repeat hd
    rw [ofRecords_repeated hfirst hr] at h
    exact ⟨first, r, rest, rfl, hfirst, hr, (Except.error.inj h).symm⟩
  · rintro ⟨first, r, rest, rfl, hd, hr, rfl⟩
    exact ofRecords_repeated hd hr

end Key.Table

/-- What an operation and its answer say of the expressions of the tickets that are out. -/
def Input.noted (standing : Ticket → Option String) : Input L → Reply → Ticket → Option String
  | .subscribe w, .ticket k => Function.update standing k (some w.expression)
  | .unsubscribe k, .accepted => Function.update standing k none
  | .revise k w, .accepted => Function.update standing k (some w.expression)
  | .shutdown, _ => fun _ => none
  | _, _ => standing

/-- The faults that an operation is to be answered with. -/
inductive Faulty (check : Expression.Check) (standing : Ticket → Option String) : Input L → Fault → Prop
  | subscribe {w : Wish L} {reason : String} : check w.expression = some reason →
      Faulty check standing (.subscribe w) (.invalidExpression w.expression reason)
  | unsubscribe {k : Ticket} : standing k = none → Faulty check standing (.unsubscribe k) (.unknownTicket k)
  | unknown {k : Ticket} {w : Wish L} : standing k = none → Faulty check standing (.revise k w) (.unknownTicket k)
  | invalid {k : Ticket} {w : Wish L} {e reason : String} : standing k = some e → e ≠ w.expression →
      check w.expression = some reason →
      Faulty check standing (.revise k w) (.invalidExpression w.expression reason)
  | reloadKeys {first rest : List Key.Record} {r : Key.Record} : (first.map (·.name)).Nodup →
      r.name ∈ first.map (·.name) → Faulty check standing (.reloadKeys (first ++ r :: rest)) (.keyExists r.name)

theorem exists_faulty_reloadKeys {check : Expression.Check} {standing : Ticket → Option String}
    {records : List Key.Record} :
    (∃ fault, Faulty (L := L) check standing (.reloadKeys records) fault) ↔ ¬ (records.map (·.name)).Nodup := by
  constructor
  · rintro ⟨_, hf⟩ hd
    cases hf with
    | reloadKeys _ hr =>
      rw [List.map_append, List.map_cons] at hd
      exact (List.nodup_append.mp hd).2.2 _ hr _ (.head _) rfl
  · intro hd
    obtain ⟨first, r, rest, rfl, hfirst, hr⟩ := Key.Table.exists_first_repeat hd
    exact ⟨_, .reloadKeys hfirst hr⟩

namespace Ledger

variable {check : Expression.Check} {l : Ledger L} {standing : Ticket → Option String} {e e' : String}
  {k j : Ticket} {c : Caller L} {fault : Fault}

def Has (l : Ledger L) (e : String) (k : Ticket) : Prop :=
  ∃ d ∈ l.callersOf e, d.ticket = k

theorem has_join : (l.join e c).Has e' k ↔ l.Has e' k ∨ e' = e ∧ c.ticket = k := by
  rw [Has, join, callersOf_put]
  split
  · next h => simp [Has, h, or_and_right, exists_or]
  · next h => simp [Has, h]

theorem has_leave : (l.leave e j).Has e' k ↔ l.Has e' k ∧ ¬ (e' = e ∧ k = j) := by
  rw [Has, leave, callersOf_put]
  split
  · next h =>
    subst h
    constructor
    · rintro ⟨d, hd, rfl⟩
      obtain ⟨hd, hne⟩ := List.mem_filter.mp hd
      exact ⟨⟨d, hd, rfl⟩, fun h => of_decide_eq_true hne h.2⟩
    · rintro ⟨⟨d, hd, rfl⟩, hne⟩
      exact ⟨d, List.mem_filter.mpr ⟨hd, decide_eq_true fun h => hne ⟨rfl, h⟩⟩, rfl⟩
  · next h => simp [Has, h]

theorem has_replace : (l.replace e c).Has e' k ↔ l.Has e' k := by
  rw [Has, replace, callersOf_put]
  split
  · next h =>
    subst h
    have hticket (d : Caller L) : (if d.ticket = c.ticket then c else d).ticket = d.ticket := by
      split <;> simp [*]
    simp [Has, hticket]
  · rfl

structure Stands (l : Ledger L) (standing : Ticket → Option String) : Prop where
  has : ∀ e k, l.Has e k ↔ standing k = some e
  fresh : ∀ k, l.nextTicket ≤ k → standing k = none

theorem reply_outcome {r : Except Fault (Ledger L)} : (l.outcome r).2 = .fault fault ↔ r = .error fault := by
  cases r <;> simp [outcome]

theorem checkExpression_eq_error_iff : checkExpression check e = .error fault ↔
    ∃ reason, check e = some reason ∧ fault = .invalidExpression e reason := by
  unfold checkExpression
  cases check e <;> simp [eq_comm]

theorem subscribe_fault_iff {w : Wish L} :
    (l.step check (.subscribe w)).2 = .fault fault ↔ Faulty check standing (.subscribe w) fault := by
  have hreply : (l.step check (.subscribe w)).2 = .fault fault ↔ checkExpression check w.expression = .error fault := by
    rw [step, subscribe]
    cases checkExpression check w.expression <;> simp [bind, Except.bind, pure, Except.pure]
  rw [hreply, checkExpression_eq_error_iff]
  constructor
  · rintro ⟨reason, hw, rfl⟩
    exact .subscribe hw
  · rintro ⟨hw⟩
    exact ⟨_, hw, rfl⟩

theorem reloadKeys_fault_iff {records : List Key.Record} : (l.step check (.reloadKeys records)).2 = .fault fault ↔
    Faulty (L := L) check standing (.reloadKeys records) fault := by
  have hreply : (l.step check (.reloadKeys records)).2 = .fault fault ↔ Key.Table.ofRecords records = .error fault := by
    rw [step, reply_outcome]
    cases Key.Table.ofRecords records <;> simp [Except.map]
  rw [hreply, Key.Table.ofRecords_eq_error_iff]
  constructor
  · rintro ⟨first, r, rest, rfl, hd, hr, rfl⟩
    exact .reloadKeys hd hr
  · intro hf
    cases hf with
    | reloadKeys hd hr => exact ⟨_, _, _, rfl, hd, hr, rfl⟩

namespace Stands

theorem find? (h : l.Stands standing) (k : Ticket) :
    l.find? k = (standing k).map fun e => (e, l.callersOf e) := by
  cases hk : standing k with
  | none =>
    refine find?_eq_none fun e he => ?_
    simpa [hk] using (h.has e k).mp he
  | some e =>
    refine find?_eq_some (fun e' he' => ?_) ((h.has e k).mpr hk)
    have hk' := (h.has e' k).mp he'
    exact Option.some.inj (hk'.symm.trans hk)

theorem join (h : l.Stands standing) (hk : standing c.ticket = none) (hlt : c.ticket < l.nextTicket) (e : String) :
    (l.join e c).Stands (Function.update standing c.ticket (some e)) where
  has := by
    intro e' k
    rw [has_join, h.has]
    by_cases hkc : k = c.ticket
    · simp [hkc, hk, eq_comm]
    · simp [hkc, Ne.symm hkc]
  fresh := by
    intro k hle
    have hne : k ≠ c.ticket := Nat.ne_of_gt (Nat.lt_of_lt_of_le hlt hle)
    rw [Function.update_of_ne hne]
    exact h.fresh k hle

theorem leave (h : l.Stands standing) (hk : standing k = some e) :
    (l.leave e k).Stands (Function.update standing k none) where
  has := by
    intro e' j
    rw [has_leave, h.has]
    by_cases hjk : j = k
    · simp [hjk, hk, eq_comm]
    · simp [hjk]
  fresh := by
    intro j hle
    by_cases hjk : j = k
    · simp [hjk]
    · rw [Function.update_of_ne hjk]
      exact h.fresh j hle

theorem replace (h : l.Stands standing) (hk : standing c.ticket = some e) :
    (l.replace e c).Stands (Function.update standing c.ticket (some e)) := by
  rw [← hk, Function.update_eq_self]
  exact ⟨fun e' k => has_replace.trans (h.has e' k), h.fresh⟩

theorem lt_nextTicket (h : l.Stands standing) (hk : standing k = some e) : k < l.nextTicket := by
  refine Nat.lt_of_not_le fun hle => ?_
  simp [h.fresh k hle] at hk

theorem step (h : l.Stands standing) (check : Expression.Check) (i : Input L) :
    (l.step check i).1.Stands (i.noted standing (l.step check i).2) := by
  cases i with
  | subscribe w =>
    rw [Ledger.step, Ledger.subscribe]
    cases checkExpression check w.expression with
    | error fault => exact h
    | ok u =>
      have hnone : standing l.nextTicket = none := h.fresh _ (Nat.le_refl _)
      have hissued : Stands { l with nextTicket := l.nextTicket + 1 } standing :=
        ⟨h.has, fun k hle => h.fresh k (Nat.le_of_succ_le hle)⟩
      exact hissued.join (c := w.caller l.nextTicket) hnone (Nat.lt_succ_self _) w.expression
  | unsubscribe k =>
    rw [Ledger.step, Ledger.unsubscribe, h.find?]
    cases hk : standing k with
    | none => exact h
    | some e => exact h.leave hk
  | revise k w =>
    rw [Ledger.step, Ledger.revise, h.find?]
    cases hk : standing k with
    | none => exact h
    | some e =>
      simp only [Option.map_some]
      split
      · next he =>
        subst he
        exact h.replace (c := w.caller k) hk
      · cases checkExpression check w.expression with
        | error fault => exact h
        | ok u =>
          -- The ticket is given up and noted again under the new expression.
          have hleft := h.leave hk
          have hjoined := hleft.join (c := w.caller k) (Function.update_self ..) (h.lt_nextTicket hk) w.expression
          rwa [Wish.caller, Function.update_idem] at hjoined
  | reloadKeys records =>
    rw [Ledger.step]
    cases Key.Table.ofRecords records <;> exact h
  | shutdown => exact ⟨fun e k => by simp [Has, Ledger.step, callersOf, Input.noted], fun _ _ => rfl⟩
  | _ => exact h

theorem unsubscribe_error_iff (h : l.Stands standing) (k : Ticket) :
    l.unsubscribe k = .error fault ↔ Faulty (L := L) check standing (.unsubscribe k) fault := by
  rw [Ledger.unsubscribe, h.find?]
  constructor
  · cases hk : standing k with
    | none =>
      rintro ⟨rfl⟩
      exact .unsubscribe hk
    | some e => simp
  · intro hf
    cases hf with
    | unsubscribe hk => simp [hk]

theorem revise_error_iff (h : l.Stands standing) (k : Ticket) (w : Wish L) :
    l.revise check k w = .error fault ↔ Faulty check standing (.revise k w) fault := by
  rw [Ledger.revise, h.find?]
  constructor
  · cases hk : standing k with
    | none =>
      rintro ⟨rfl⟩
      exact .unknown hk
    | some e =>
      by_cases he : e = w.expression
      · simp [he]
      · cases hw : checkExpression check w.expression with
        | error fault' =>
          obtain ⟨reason, hreason, rfl⟩ := checkExpression_eq_error_iff.mp hw
          simp only [Option.map_some, he, if_false, bind, Except.bind]
          rintro ⟨rfl⟩
          exact .invalid hk he hreason
        | ok u => simp [he, bind, Except.bind, pure, Except.pure]
  · intro hf
    cases hf with
    | unknown hk => simp [hk]
    | invalid hk he hreason =>
      have hw := checkExpression_eq_error_iff.mpr ⟨_, hreason, rfl⟩
      simp [hk, he, hw, bind, Except.bind]

theorem fault_iff (h : l.Stands standing) (i : Input L) :
    (l.step check i).2 = .fault fault ↔ Faulty check standing i fault := by
  cases i with
  | subscribe w => exact subscribe_fault_iff
  | unsubscribe k => exact reply_outcome.trans (h.unsubscribe_error_iff k)
  | revise k w => exact reply_outcome.trans (h.revise_error_iff k w)
  | reloadKeys records => exact reloadKeys_fault_iff
  | _ => exact iff_of_false Reply.noConfusion (fun hf => nomatch hf)

end Stands

end Ledger

theorem Input.noted_of_passive {i : Input L} (h : i.isCaller = false) (standing : Ticket → Option String)
    (reply : Reply) : i.noted standing reply = standing := by
  cases i with
  | subscribe | unsubscribe | revise | reloadKeys | shutdown => exact Bool.noConfusion h
  | _ => rfl

namespace Client

variable {c : Client L} {l : Ledger L} {known : Ticket → Option String} {i : Input L} {fault : Fault}

/-- The expressions of the tickets that are out after a run, by what the callers have asked and been answered. -/
def standing (c : Client L) (known : Ticket → Option String) : List (Input L) → Ticket → Option String
  | [] => known
  | i :: is => (c.step i).1.standing (i.noted known (c.step i).2.reply) is

theorem reply_of_passive (hi : i.isCaller = false) (c : Client L) (fault : Fault) :
    (c.step i).2.reply ≠ .fault fault := by
  cases i with
  | subscribe | unsubscribe | revise | reloadKeys => exact Bool.noConfusion hi
  | arrival a => cases a <;> exact Reply.noConfusion
  | _ => exact Reply.noConfusion

theorem stands_step (h : l.Tracks c.board) (hs : c.Sound) (hl : l.Stands known) (i : Input L) :
    (l.step c.check i).1.Stands (i.noted known (c.step i).2.reply) := by
  cases hi : i.isCaller with
  | true =>
    rw [(tracks_step h hs i).2 hi]
    exact hl.step c.check i
  | false =>
    rw [Ledger.step_of_passive hi, Input.noted_of_passive hi]
    exact hl

theorem stands_run (h : l.Tracks c.board) (hs : c.Sound) (hl : l.Stands known) (inputs : List (Input L)) :
    (l.run c.check inputs).Stands (c.standing known inputs) := by
  induction inputs generalizing c l known with
  | nil => exact hl
  | cons i inputs ih =>
    have hrun := ih (tracks_step h hs i).1 (hs.step i) (stands_step h hs hl i)
    rwa [check_step] at hrun

theorem fault_iff (h : l.Tracks c.board) (hs : c.Sound) (hl : l.Stands known) (i : Input L) :
    (c.step i).2.reply = .fault fault ↔ Faulty c.check known i fault := by
  cases hi : i.isCaller with
  | true =>
    rw [(tracks_step h hs i).2 hi]
    exact hl.fault_iff i
  | false =>
    have hnone : ¬ Faulty c.check known i fault := by
      rintro (_ | _ | _ | _ | _) <;> simp [Input.isCaller] at hi
    exact iff_of_false (reply_of_passive hi c fault) hnone

theorem outcome_eq_of_fault {α : Type} {accepted : α → Reply} (haccepted : ∀ a, accepted a ≠ .fault fault)
    {r : Except Fault α × Client L × List Call} (hf : ∀ fault, r.1 = .error fault → r.2 = (c, []))
    (h : (outcome accepted r).2.reply = .fault fault) : outcome accepted r = (c, .ofReply (.fault fault) []) := by
  rcases r with ⟨fault' | a, r⟩
  · obtain rfl := Reply.fault.inj h
    obtain rfl := hf fault' rfl
    rfl
  · exact absurd h (haccepted a)

theorem Sound.step_eq_of_fault (hs : c.Sound) (h : (c.step i).2.reply = .fault fault) :
    c.step i = (c, .ofReply (.fault fault) []) := by
  cases hi : i.isCaller with
  | false => exact absurd h (reply_of_passive hi c fault)
  | true =>
    cases i with
    | subscribe w => exact outcome_eq_of_fault (fun _ => Reply.noConfusion) (fun _ => subscribe_unchanged) h
    | unsubscribe k => exact outcome_eq_of_fault (fun _ => Reply.noConfusion) (fun _ => unsubscribe_unchanged) h
    | revise k w => exact outcome_eq_of_fault (fun _ => Reply.noConfusion) (fun _ => hs.revise_unchanged) h
    | reloadKeys records =>
      exact outcome_eq_of_fault (fun _ => Reply.noConfusion) (fun _ => reloadKeys_unchanged) h
    | shutdown => exact Reply.noConfusion h
    | _ => simp [Input.isCaller] at hi

/-- An operation fails exactly where it has to, and then it has done nothing. -/
structure Atomic (c : Client L) (standing : Ticket → Option String) (i : Input L) : Prop where
  faults : ∀ fault, (c.step i).2.reply = .fault fault ↔ Faulty c.check standing i fault
  repeats : ∀ records, i = .reloadKeys records →
    ((∃ fault, (c.step i).2.reply = .fault fault) ↔ ¬ (records.map (·.name)).Nodup)
  unchanged : ∀ fault, (c.step i).2.reply = .fault fault → c.step i = (c, ⟨.fault fault, [], [], []⟩)

theorem atomic_run {check : Expression.Check} {s : Settings} (hc : Client.ofSettings check s = .ok c)
    (inputs : List (Input L)) (i : Input L) : (c.run inputs).Atomic (c.standing (fun _ => none) inputs) i := by
  have hs := Sound.ofSettings hc
  have hl : (Ledger.empty : Ledger L).Stands fun _ => none :=
    ⟨fun e k => by simp [Ledger.Has, Ledger.callersOf, Ledger.empty], fun _ _ => rfl⟩
  have ht := tracks_ofSettings hc
  have hfault (fault : Fault) : ((c.run inputs).step i).2.reply = .fault fault ↔
      Faulty (c.run inputs).check (c.standing (fun _ => none) inputs) i fault :=
    fault_iff (tracks_run ht hs inputs).1 (hs.run inputs) (stands_run ht hs hl inputs) i
  exact {
    faults := hfault
    repeats := by
      rintro records rfl
      exact (exists_congr hfault).trans exists_faulty_reloadKeys
    unchanged := fun _ h => (hs.run inputs).step_eq_of_fault h }

def secondThoughts : List (Input Nat) :=
  [.subscribe ⟨"require(A)", [], 0⟩, .subscribe ⟨"require(B)", [], 1⟩, .start, .arrival (.connectResult 1 (.ok 7)),
    .unsubscribe 1, .subscribe ⟨"require(C", [], 2⟩, .revise 2 ⟨"require(C)", [], 1⟩]

theorem atomic_run_secondThoughts : ∃ c, Client.ofSettings Expression.refusal? (.ofEndpoint "tcp://broker") = .ok c ∧
    c.standing (fun _ => none) secondThoughts 1 = none ∧
    c.standing (fun _ => none) secondThoughts 2 = some "require(C)" ∧
    c.standing (fun _ => none) secondThoughts 3 = none ∧
    ((c.run secondThoughts).step (.revise 2 ⟨"require(D", [], 1⟩)).2.reply =
      .fault (.invalidExpression "require(D" "unbalanced '('") ∧
    (c.run secondThoughts).Atomic (c.standing (fun _ => none) secondThoughts) (.revise 2 ⟨"require(D", [], 1⟩) ∧
    (c.run secondThoughts).Atomic (c.standing (fun _ => none) secondThoughts)
      (.reloadKeys [⟨"k", true, [1]⟩, ⟨"j", true, [2]⟩, ⟨"j", false, [3]⟩, ⟨"k", true, [4]⟩]) :=
  ⟨_, rfl, by decide +kernel, by decide +kernel, by decide +kernel, by decide +kernel,
    atomic_run (s := .ofEndpoint "tcp://broker") rfl _ _, atomic_run (s := .ofEndpoint "tcp://broker") rfl _ _⟩

end Client

end Herald
