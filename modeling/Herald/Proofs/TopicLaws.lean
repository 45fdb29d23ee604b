import Herald.Topic

namespace Herald

variable {L : Type}

def Errand.Fits : Errand → Option Holding → Prop
  | .add _, held => held = none
  | .modify _, held => held ≠ none
  | .delete, held => held ≠ none

def Errand.result (held : Option Holding) : Errand → Ack → Option Holding
  | .add terms, .added (.ok id) => some ⟨id, terms⟩
  | .modify terms, .modified (.ok ()) => held.map fun h => { h with terms }
  | .delete, .deleted _ => none
  | _, _ => held

namespace Topic

def tickets (t : Topic L) : List Ticket :=
  t.callers.map (·.ticket)

def request? (t : Topic L) : Option RequestNo :=
  t.pending.map (·.request)

def brokerId? (t : Topic L) : Option BrokerId :=
  t.held.map (·.id)

/-- What holds of a topic at every point of an operation, also while it has been made and not yet joined. -/
structure Proper (t : Topic L) : Prop where
  nodup : t.tickets.Nodup
  idle : t.isActive = false → t.callers = []
  keyNames : t.callers ≠ [] → t.keyNames = t.wantedNames
  fits : ∀ p, t.pending = some p → p.errand.Fits t.held

def Quiet (t : Topic L) : Prop :=
  t.held = none ∧ t.pending = none ∧ t.refused = false

def Settled (t : Topic L) (table : Key.Table) (connected : Bool) : Prop :=
  t.pending = none → t.isActive = true ∧
    (connected = true → t.refused = true ∨ ∃ h, t.held = some h ∧ h.terms = t.wish table)

section Callers

variable (t : Topic L) (c : Caller L) (k : Ticket)

theorem refresh_eq : t.refresh.expression = t.expression ∧ t.refresh.callers = t.callers ∧
    t.refresh.isActive = t.isActive ∧ t.refresh.held = t.held ∧ t.refresh.pending = t.pending ∧
    t.refresh.keyNames = t.wantedNames := by
  unfold refresh
  split
  · next h => exact ⟨rfl, rfl, rfl, rfl, rfl, h.symm⟩
  · exact ⟨rfl, rfl, rfl, rfl, rfl, rfl⟩

@[simp] theorem join_expression : (t.join c).expression = t.expression :=
  (refresh_eq _).1

@[simp] theorem join_callers : (t.join c).callers = t.callers ++ [c] :=
  (refresh_eq _).2.1

@[simp] theorem join_isActive : (t.join c).isActive = true :=
  (refresh_eq _).2.2.1

@[simp] theorem join_held : (t.join c).held = t.held :=
  (refresh_eq _).2.2.2.1

@[simp] theorem join_pending : (t.join c).pending = t.pending :=
  (refresh_eq _).2.2.2.2.1

theorem join_keyNames : (t.join c).keyNames = (t.join c).wantedNames := by
  rw [wantedNames, join_callers]
  exact (refresh_eq _).2.2.2.2.2

@[simp] theorem replace_expression : (t.replace c).expression = t.expression :=
  (refresh_eq _).1

@[simp] theorem replace_callers :
    (t.replace c).callers = t.callers.map fun d => if d.ticket = c.ticket then c else d :=
  (refresh_eq _).2.1

@[simp] theorem replace_isActive : (t.replace c).isActive = t.isActive :=
  (refresh_eq _).2.2.1

@[simp] theorem replace_held : (t.replace c).held = t.held :=
  (refresh_eq _).2.2.2.1

@[simp] theorem replace_pending : (t.replace c).pending = t.pending :=
  (refresh_eq _).2.2.2.2.1

theorem replace_keyNames : (t.replace c).keyNames = (t.replace c).wantedNames := by
  rw [wantedNames, replace_callers]
  exact (refresh_eq _).2.2.2.2.2

theorem leave_eq : (t.leave k).expression = t.expression ∧
    (t.leave k).callers = t.callers.filter (·.ticket ≠ k) ∧ (t.leave k).held = t.held ∧
    (t.leave k).pending = t.pending ∧
    ((t.leave k).callers ≠ [] → (t.leave k).isActive = t.isActive ∧ (t.leave k).keyNames = (t.leave k).wantedNames) ∧
    ((t.leave k).callers = [] → (t.leave k).isActive = false) := by
  unfold leave
  dsimp only
  split
  · next h =>
    refine ⟨rfl, rfl, rfl, rfl, fun hne => ?_, fun _ => rfl⟩
    exact absurd (List.isEmpty_iff.mp h) hne
  · next h =>
    obtain ⟨he, hc, ha, hh, hp, hn⟩ := refresh_eq { t with callers := t.callers.filter (·.ticket ≠ k) }
    refine ⟨he, hc, hh, hp, fun _ => ⟨ha, ?_⟩, fun hnil => ?_⟩
    · rw [hn, wantedNames, wantedNames, hc]
    · exact absurd (List.isEmpty_iff.mpr (hc.symm.trans hnil)) h

@[simp] theorem leave_expression : (t.leave k).expression = t.expression :=
  (leave_eq t k).1

@[simp] theorem leave_callers : (t.leave k).callers = t.callers.filter (·.ticket ≠ k) :=
  (leave_eq t k).2.1

@[simp] theorem leave_held : (t.leave k).held = t.held :=
  (leave_eq t k).2.2.1

@[simp] theorem leave_pending : (t.leave k).pending = t.pending :=
  (leave_eq t k).2.2.2.1

theorem leave_isActive_iff (h : t.isActive = true) : (t.leave k).isActive = true ↔ (t.leave k).callers ≠ [] := by
  obtain ⟨-, -, -, -, hne, hnil⟩ := leave_eq t k
  refine ⟨fun ha hc => ?_, fun hc => (hne hc).1.trans h⟩
  simp [hnil hc] at ha

theorem tickets_join : (t.join c).tickets = t.tickets ++ [c.ticket] := by
  simp [tickets]

theorem tickets_leave : (t.leave k).tickets = t.tickets.filter (· ≠ k) := by
  simp [tickets, List.filter_map, Function.comp_def]

theorem tickets_replace : (t.replace c).tickets = t.tickets := by
  rw [tickets, tickets, replace_callers, List.map_map]
  apply List.map_congr_left
  intro d _
  by_cases h : d.ticket = c.ticket <;> simp [h]

end Callers

namespace Proper

variable {t : Topic L}

theorem isActive (h : t.Proper) (hc : t.callers ≠ []) : t.isActive = true := by
  cases ha : t.isActive with
  | true => rfl
  | false => exact absurd (h.idle ha) hc

theorem congr (h : t.Proper) {t' : Topic L} (hc : t'.callers = t.callers) (hk : t'.keyNames = t.keyNames)
    (ha : t'.isActive = t.isActive) (hp : ∀ p, t'.pending = some p → p.errand.Fits t'.held) : t'.Proper where
  nodup := by
    rw [tickets, hc]
    exact h.nodup
  idle := by
    rw [hc, ha]
    exact h.idle
  keyNames := by
    rw [hc, hk, wantedNames, hc]
    exact h.keyNames
  fits := hp

theorem ofExpression (e : String) : (Topic.ofExpression e : Topic L).Proper where
  nodup := .nil
  idle := fun _ => rfl
  keyNames := fun h => absurd rfl h
  fits := by simp [Topic.ofExpression]

theorem join (h : t.Proper) {c : Caller L} (hc : c.ticket ∉ t.tickets) : (t.join c).Proper where
  nodup := by
    rw [tickets_join, List.nodup_append]
    refine ⟨h.nodup, by simp, ?_⟩
    intro a ha d hd
    rw [List.mem_singleton] at hd
    exact fun e => hc (hd ▸ e ▸ ha)
  idle := by simp
  keyNames := fun _ => join_keyNames t c
  fits := by simpa using h.fits

theorem leave (h : t.Proper) (k : Ticket) : (t.leave k).Proper where
  nodup := by
    rw [tickets_leave]
    exact h.nodup.filter _
  idle := fun ha => by
    refine Classical.byContradiction fun hne => ?_
    -- Callers are left, so the topic is as active as it was.
    have hidle := h.idle (((leave_eq t k).2.2.2.2.1 hne).1.symm.trans ha)
    simp [hidle] at hne
  keyNames := fun hne => ((leave_eq t k).2.2.2.2.1 hne).2
  fits := by simpa using h.fits

theorem replace (h : t.Proper) (c : Caller L) : (t.replace c).Proper where
  nodup := by
    rw [tickets_replace]
    exact h.nodup
  idle := fun ha => by simp [h.idle ((t.replace_isActive c).symm.trans ha)]
  keyNames := fun _ => replace_keyNames t c
  fits := by simpa using h.fits

end Proper

inductive Wants (t : Topic L) (table : Key.Table) : Errand → Order → Prop
  | add : t.isActive = true → t.refused = false → t.held = none →
      Wants t table (.add (t.wish table))
        (.add (t.wish table).expression (t.wish table).ring (t.wish table).insecure)
  | modify {h : Holding} : t.isActive = true → t.refused = false → t.held = some h →
      (h.terms.amendment (t.wish table)).isEmpty = false →
      Wants t table (.modify (t.wish table)) (.modify h.id (h.terms.amendment (t.wish table)))
  | delete {h : Holding} : t.isActive = false → t.held = some h → Wants t table .delete (.delete h.id)

inductive Needs (t : Topic L) (table : Key.Table) : Bool → Need → Prop
  | busy {connected : Bool} : t.pending ≠ none → Needs t table connected .nothing
  | removal {connected : Bool} : t.pending = none → t.isActive = false → t.held = none →
      Needs t table connected .removal
  | stranded : t.isActive = false → t.held ≠ none → Needs t table false .nothing
  | offline : t.isActive = true → Needs t table false .nothing
  | refused : t.isActive = true → t.refused = true → Needs t table true .nothing
  | confirmation {h : Holding} : t.pending = none → t.isActive = true → t.refused = false →
      t.held = some h → (h.terms.amendment (t.wish table)).isEmpty = true →
      Needs t table true (.confirmation (t.wish table))
  | order {errand : Errand} {order : Order} : t.pending = none → t.Wants table errand order →
      Needs t table true (.order errand order)

theorem needs (t : Topic L) (table : Key.Table) (connected : Bool) :
    t.Needs table connected (t.need table connected) := by
  unfold need
  cases hp : t.pending with
  | some p => exact .busy (by simp [hp])
  | none =>
    rw [Option.isSome_none, if_neg Bool.false_ne_true]
    cases hc : t.isActive with
    | false =>
      rw [Bool.not_false, if_pos rfl]
      cases hh : t.held with
      | none => exact .removal hp hc hh
      | some h =>
        cases connected with
        | false => exact .stranded hc (by simp [hh])
        | true => exact .order hp (.delete hc hh)
    | true =>
      rw [Bool.not_true, if_neg Bool.false_ne_true]
      cases connected with
      | false => exact .offline hc
      | true =>
        cases hr : t.refused with
        | true => exact .refused hc hr
        | false =>
          simp only [Bool.not_true, Bool.or_self, Bool.false_eq_true, if_false, needOfWish]
          cases hh : t.held with
          | none => exact .order hp (.add hc hr hh)
          | some h =>
            dsimp only
            cases he : (h.terms.amendment (t.wish table)).isEmpty with
            | true => exact .confirmation hp hc hr hh he
            | false => exact .order hp (.modify hc hr hh he)

theorem settled_of_nothing {t : Topic L} {table : Key.Table} {connected : Bool}
    (hq : connected = false → t.held = none) (h : t.Needs table connected .nothing) :
    t.Settled table connected := by
  intro hp
  cases h with
  | busy hne => exact absurd hp hne
  | stranded _ hh => exact absurd (hq rfl) hh
  | offline hc => exact ⟨hc, by simp⟩
  | refused hc hr => exact ⟨hc, fun _ => .inl hr⟩

theorem confirm_settled {t : Topic L} {table : Key.Table} {h : Holding} (hc : t.isActive = true)
    (hh : t.held = some h) : (t.confirm (t.wish table)).Settled table true := by
  refine fun _ => ⟨hc, fun _ => .inr ⟨{ h with terms := t.wish table }, ?_, rfl⟩⟩
  simp [confirm, hh]

end Topic

end Herald
