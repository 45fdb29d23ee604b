import Herald.Proofs.Delivery
import Mathlib.Data.List.Nodup

namespace Herald

variable {L : Type}

namespace Switchboard

variable {b b' : Switchboard L} {k : Ticket} {w : Wish L} {e e' : String} {c d : Caller L}

def ledger (b : Switchboard L) : Ledger L :=
  ⟨b.byExpression.map fun _ n => (b.topics[n]?.map (·.callers)).getD [], b.nextTicket⟩

theorem tracks_ledger (b : Switchboard L) : b.ledger.Tracks b where
  callers := by
    intro e
    rw [Ledger.callersOf, ledger, Std.ExtTreeMap.getD_eq_getD_getElem?, Std.ExtTreeMap.getElem?_map, callersOf]
    cases he : b.byExpression[e]? with
    | none => rfl
    | some n => cases ht : b.topics[n]? <;> simp [ht]
  nextTicket := rfl

def Seated (b : Switchboard L) (k : Ticket) : Prop :=
  ∃ e, ∃ d ∈ b.callersOf e, d.ticket = k

section Seated

theorem seated_iff_info (hb : b.Coherent) : b.Seated k ↔ (b.info? k).isSome = true := by
  constructor
  · rintro ⟨e, d, hd, rfl⟩
    obtain ⟨i, hi, -⟩ := (mem_callersOf_iff_info hb).mp (List.mem_map_of_mem hd)
    rw [hi]
    rfl
  · intro h
    obtain ⟨i, hi⟩ := Option.isSome_iff_exists.mp h
    obtain ⟨d, hd, hk⟩ := List.mem_map.mp ((mem_callersOf_iff_info hb).mpr ⟨i, hi, rfl⟩)
    exact ⟨i.expression, d, hd, hk⟩

theorem Seated.lt (h : b.Seated k) (hb : b.Coherent) : k < b.nextTicket := by
  obtain ⟨e, d, hd, hk⟩ := h
  obtain ⟨n, t, hn, -⟩ := (mem_callersOf_iff hb).mp ⟨d, hd, hk⟩
  exact hb.ticket_lt hn

theorem eq_of_ticket (hb : b.Coherent) (hc : c ∈ b.callersOf e) (hd : d ∈ b.callersOf e)
    (h : c.ticket = d.ticket) : c = d :=
  List.inj_on_of_nodup_map (nodup_callersOf hb e) hc hd h

theorem expression_unique (hb : b.Coherent) (hc : c ∈ b.callersOf e) (hd : d ∈ b.callersOf e')
    (h : c.ticket = d.ticket) : e = e' := by
  obtain ⟨n, t, hn, ht, rfl⟩ := (mem_callersOf_iff hb).mp ⟨c, hc, h⟩
  obtain ⟨m, u, hm, hu, rfl⟩ := (mem_callersOf_iff hb).mp ⟨d, hd, rfl⟩
  obtain rfl : n = m := Option.some.inj (hn.symm.trans hm)
  exact congrArg Topic.expression (Option.some.inj (ht.symm.trans hu))

theorem ticket_ne_elsewhere (hb : b.Coherent) (hd : d ∈ b.callersOf e') (he : e ≠ e') :
    ∀ c ∈ b.callersOf e, c.ticket ≠ d.ticket :=
  fun _ hc h => he (expression_unique hb hc hd h)

end Seated

section Effects

theorem ledger_leave (hb : b.Coherent) (hd : d ∈ b.callersOf e') (e : String) :
    (b.ledger.leave e' d.ticket).callersOf e = (b.callersOf e).filter (·.ticket ≠ d.ticket) := by
  rw [Ledger.leave, Ledger.callersOf_put, b.tracks_ledger.callers, b.tracks_ledger.callers]
  split
  · next he => rw [he]
  · next he =>
    have helsewhere := ticket_ne_elsewhere hb hd he
    exact (List.filter_eq_self.mpr fun c hc => decide_eq_true (helsewhere c hc)).symm

theorem ledger_replace (hb : b.Coherent) (hd : d ∈ b.callersOf e') (hc : c.ticket = d.ticket) (e : String) :
    (b.ledger.replace e' c).callersOf e = (b.callersOf e).map fun a => if a.ticket = c.ticket then c else a := by
  rw [Ledger.replace, Ledger.callersOf_put, b.tracks_ledger.callers, b.tracks_ledger.callers]
  split
  · next he => rw [he]
  · next he =>
    have helsewhere := ticket_ne_elsewhere hb hd he
    refine (List.map_id (b.callersOf e)).symm.trans (List.map_congr_left fun a ha => ?_)
    rw [hc, if_neg (helsewhere a ha), id]

theorem callersOf_subscribe {check : Expression.Check} {link : Option LinkId} {calls : List Call} (hb : b.Coherent)
    (hs : b.subscribe check link w = (.ok k, b', calls)) : k = b.nextTicket ∧ b'.nextTicket = b.nextTicket + 1 ∧
      ∀ e, b'.callersOf e = b.callersOf e ++ if e = w.expression then [w.caller k] else [] := by
  have htracks := b.tracks_ledger.subscribe hb link w
  obtain ⟨rfl, heq⟩ := eq_of_subscribe hs
  rw [← heq] at htracks
  refine ⟨rfl, htracks.nextTicket.symm, fun e => ?_⟩
  refine (htracks.callers e).symm.trans ?_
  change (b.ledger.join w.expression (w.caller b.nextTicket)).callersOf e = _
  rw [Ledger.join, Ledger.callersOf_put, b.tracks_ledger.callers, b.tracks_ledger.callers]
  by_cases he : e = w.expression <;> simp [he]

theorem callersOf_unsubscribe {link : Option LinkId} {r : Switchboard L × List Call} (hb : b.Coherent)
    (hs : b.unsubscribe link k = (.ok (), r)) : r.1.nextTicket = b.nextTicket ∧
      ∀ e, r.1.callersOf e = (b.callersOf e).filter (·.ticket ≠ k) := by
  have hanswers := b.tracks_ledger.unsubscribe hb link k
  unfold Ledger.unsubscribe at hanswers
  rw [hs] at hanswers
  obtain ⟨n, hn, -⟩ := eq_of_unsubscribe hs
  obtain ⟨t, ht, -⟩ := (hb.tickets k n).mp hn
  obtain ⟨d, hd, rfl⟩ := (mem_callersOf_iff hb).mpr ⟨n, t, hn, ht, rfl⟩
  rw [b.tracks_ledger.find?_some hb hn ht] at hanswers
  cases hanswers with
  | ok htracks =>
    exact ⟨htracks.nextTicket.symm, fun e => (htracks.callers e).symm.trans (ledger_leave hb hd e)⟩

theorem callersOf_revise {check : Expression.Check} {link : Option LinkId} {r : Switchboard L × List Call}
    (hb : b.Coherent) (hs : b.revise check link k w = (.ok (), r)) : r.1.nextTicket = b.nextTicket ∧
      ∃ e', (∃ d ∈ b.callersOf e', d.ticket = k) ∧
        ∀ e, r.1.callersOf e = if e' = w.expression
          then (b.callersOf e).map fun c => if c.ticket = k then w.caller k else c
          else (b.callersOf e).filter (·.ticket ≠ k) ++ if e = w.expression then [w.caller k] else [] := by
  have hanswers := b.tracks_ledger.revise hb check link k w
  unfold Ledger.revise at hanswers
  rw [hs] at hanswers
  cases hn : b.byTicket[k]? with
  | none => simp [revise_unknown hn] at hs
  | some n =>
    obtain ⟨t, ht, -⟩ := (hb.tickets k n).mp hn
    obtain ⟨d, hd, rfl⟩ := (mem_callersOf_iff hb).mpr ⟨n, t, hn, ht, rfl⟩
    rw [b.tracks_ledger.find?_some hb hn ht] at hanswers
    dsimp only at hanswers
    split at hanswers
    · next hkept =>
      cases hanswers with
      | ok htracks =>
        refine ⟨htracks.nextTicket.symm, _, ⟨d, hd, rfl⟩, fun e => ?_⟩
        rw [if_pos hkept, ← htracks.callers, ledger_replace (c := w.caller d.ticket) hb hd rfl]
        rfl
    · next hmoved =>
      cases hw : check w.expression with
      | some reason =>
        rw [Ledger.checkExpression, hw] at hanswers
        cases hanswers
      | none =>
        rw [Ledger.checkExpression, hw] at hanswers
        cases hanswers with
        | ok htracks =>
          refine ⟨htracks.nextTicket.symm, _, ⟨d, hd, rfl⟩, fun e => ?_⟩
          rw [if_neg hmoved, ← htracks.callers, Ledger.join, Ledger.callersOf_put, ledger_leave hb hd,
            ledger_leave hb hd]
          by_cases he : e = w.expression <;> simp [he]

end Effects

/-- Everybody but the holder of a ticket keeps its place, and that one has this seat, if any. -/
structure Reseats (k : Ticket) (seat : Option (String × Caller L)) (b b' : Switchboard L) : Prop where
  others : ∀ e, (b'.callersOf e).filter (·.ticket ≠ k) = (b.callersOf e).filter (·.ticket ≠ k)
  own : ∀ e d, d ∈ b'.callersOf e ∧ d.ticket = k ↔ seat = some (e, d)

namespace Reseats

variable {seat : Option (String × Caller L)}

theorem mem_iff (h : Reseats k seat b b') :
    d ∈ b'.callersOf e ↔ (d ∈ b.callersOf e ∧ d.ticket ≠ k) ∨ seat = some (e, d) := by
  have hothers : d ∈ b'.callersOf e ∧ d.ticket ≠ k ↔ d ∈ b.callersOf e ∧ d.ticket ≠ k := by
    have hmem := congrArg (d ∈ ·) (h.others e)
    simpa using hmem
  rw [← hothers, ← h.own e d, ← and_or_left]
  simp [Classical.em, or_comm]

theorem filter_eq (h : Reseats k seat b b') {p : Ticket → Bool} (hp : p k = false) (e : String) :
    (b'.callersOf e).filter (p ·.ticket) = (b.callersOf e).filter (p ·.ticket) := by
  have hsplit (cs : List (Caller L)) :
      cs.filter (p ·.ticket) = (cs.filter (·.ticket ≠ k)).filter (p ·.ticket) := by
    rw [List.filter_filter]
    refine List.filter_congr fun c _ => ?_
    by_cases hc : c.ticket = k <;> simp [hc, hp]
  rw [hsplit, h.others, ← hsplit]

end Reseats

section Reseating

variable {check : Expression.Check} {link : Option LinkId} {calls : List Call} {r : Switchboard L × List Call}

theorem reseats_of_append (h : ∀ e, b'.callersOf e =
      (b.callersOf e).filter (·.ticket ≠ k) ++ if e = w.expression then [w.caller k] else []) :
    Reseats k (some (w.expression, w.caller k)) b b' := by
  constructor
  · intro e
    rw [h, List.filter_append, List.filter_filter]
    by_cases he : e = w.expression <;> simp [he, Wish.caller]
  · intro e d
    rw [h]
    by_cases he : e = w.expression
    · have hticket : w.caller k = d → d.ticket = k := by
        rintro rfl
        rfl
      simp only [he, if_true, List.mem_append, List.mem_filter, decide_eq_true_eq, List.mem_singleton,
        Option.some.injEq, Prod.mk.injEq, true_and]
      grind
    · simp [he, Ne.symm he]

theorem reseats_subscribe (hb : b.Coherent) (hs : b.subscribe check link w = (.ok k, b', calls)) :
    Reseats k (some (w.expression, w.caller k)) b b' := by
  obtain ⟨rfl, -, hcallers⟩ := callersOf_subscribe hb hs
  refine reseats_of_append fun e => (hcallers e).trans ?_
  rw [List.filter_eq_self.mpr]
  intro d hd
  have hlt := Seated.lt ⟨e, d, hd, rfl⟩ hb
  exact decide_eq_true (Nat.ne_of_lt hlt)

theorem reseats_unsubscribe (hb : b.Coherent) (hs : b.unsubscribe link k = (.ok (), r)) :
    Reseats k none b r.1 := by
  obtain ⟨-, hcallers⟩ := callersOf_unsubscribe hb hs
  constructor
  · intro e
    rw [hcallers, List.filter_filter]
    simp
  · simp [hcallers]

theorem reseats_of_map (hb : b.Coherent) (hd : d ∈ b.callersOf w.expression) (h : ∀ e, b'.callersOf e =
      (b.callersOf e).map fun c => if c.ticket = d.ticket then w.caller d.ticket else c) :
    Reseats d.ticket (some (w.expression, w.caller d.ticket)) b b' := by
  constructor
  · intro e
    rw [h, List.filter_map, List.filter_congr (q := (·.ticket ≠ d.ticket)) fun c _ => ?_]
    · refine (List.map_congr_left fun c hc => ?_).trans (List.map_id _)
      rw [if_neg (by simpa using (List.mem_filter.mp hc).2), id]
    · by_cases hc : c.ticket = d.ticket <;> simp [hc, Wish.caller]
  · intro e c
    rw [h, List.mem_map]
    constructor
    · rintro ⟨⟨a, ha, rfl⟩, hticket⟩
      by_cases hk : a.ticket = d.ticket
      · rw [if_pos hk, expression_unique hb ha hd hk]
      · rw [if_neg hk] at hticket
        exact absurd hticket hk
    · intro hseat
      obtain ⟨rfl, rfl⟩ := Prod.mk.inj (Option.some.inj hseat)
      exact ⟨⟨d, hd, if_pos rfl⟩, rfl⟩

theorem reseats_revise (hb : b.Coherent) (hs : b.revise check link k w = (.ok (), r)) :
    Reseats k (some (w.expression, w.caller k)) b r.1 := by
  obtain ⟨-, e', ⟨d, hd, rfl⟩, hcallers⟩ := callersOf_revise hb hs
  by_cases he' : e' = w.expression
  · subst he'
    exact reseats_of_map hb hd fun e => by rw [hcallers, if_pos rfl]
  · exact reseats_of_append fun e => by rw [hcallers, if_neg he']

end Reseating

end Switchboard

namespace Client

open Switchboard (Alike Reseats)

variable {c c' : Client L} {calls : List Call} {k : Ticket} {w : Wish L}

theorem of_onBoard {α : Type} {r : Except Fault α × Switchboard L × List Call} {result : Except Fault α}
    (hs : c.onBoard r = (result, c', calls)) : ∃ b, r = (result, b, calls) ∧ c' = { c with board := b } := by
  obtain ⟨rfl, rfl, rfl⟩ := hs
  exact ⟨r.2.1, rfl, rfl⟩

theorem check_onBoard {α : Type} {r : Except Fault α × Switchboard L × List Call} {result : Except Fault α}
    (hs : c.onBoard r = (result, c', calls)) : c'.check = c.check := by
  obtain ⟨b, -, rfl⟩ := of_onBoard hs
  rfl

namespace Sound

theorem subscribed (h : c.Sound) (hs : c.subscribe w = (.ok k, c', calls)) : c'.Sound ∧
    k = c.board.nextTicket ∧ c'.board.nextTicket = k + 1 ∧
    Reseats k (some (w.expression, w.caller k)) c.board c'.board := by
  have hstep := h.step (.subscribe w)
  simp only [Client.step, hs, outcome] at hstep
  obtain ⟨b, hb, rfl⟩ := of_onBoard hs
  obtain ⟨hk, hnext, -⟩ := Switchboard.callersOf_subscribe h.coherent hb
  exact ⟨hstep, hk, hnext.trans (congrArg (· + 1) hk.symm), Switchboard.reseats_subscribe h.coherent hb⟩

theorem unsubscribed (h : c.Sound) (hs : c.unsubscribe k = (.ok (), c', calls)) : c'.Sound ∧
    c'.board.nextTicket = c.board.nextTicket ∧ Reseats k none c.board c'.board := by
  have hstep := h.step (.unsubscribe k)
  simp only [Client.step, hs, outcome] at hstep
  obtain ⟨b, hb, rfl⟩ := of_onBoard hs
  exact ⟨hstep, (Switchboard.callersOf_unsubscribe h.coherent hb).1,
    Switchboard.reseats_unsubscribe h.coherent hb⟩

theorem revised_ok (h : c.Sound) (hs : c.revise k w = (.ok (), c', calls)) : c'.Sound ∧
    c'.board.nextTicket = c.board.nextTicket ∧
    Reseats k (some (w.expression, w.caller k)) c.board c'.board := by
  have hstep := h.step (.revise k w)
  simp only [Client.step, hs, outcome] at hstep
  obtain ⟨b, hb, rfl⟩ := of_onBoard hs
  exact ⟨hstep, (Switchboard.callersOf_revise h.coherent hb).1, Switchboard.reseats_revise h.coherent hb⟩

theorem nextTicket_le (h : c.Sound) (i : Input L) : c.board.nextTicket ≤ (c.step i).1.board.nextTicket := by
  have htracks := (tracks_step c.board.tracks_ledger h i).1
  exact htracks.nextTicket ▸ Ledger.nextTicket_le_step c.board.ledger c.check i

end Sound

inductive Reseating (c : Client L) : Input L → Switchboard L → Prop
  | alike {i : Input L} {b : Switchboard L} : Alike c.board b → Reseating c i b
  | subscribed {w : Wish L} {b : Switchboard L} :
      Reseats c.board.nextTicket (some (w.expression, w.caller c.board.nextTicket)) c.board b →
      Reseating c (.subscribe w) b
  | unsubscribed {k : Ticket} {b : Switchboard L} : Reseats k none c.board b → Reseating c (.unsubscribe k) b
  | revised {k : Ticket} {w : Wish L} {b : Switchboard L} :
      Reseats k (some (w.expression, w.caller k)) c.board b → Reseating c (.revise k w) b

theorem Sound.reseating (h : c.Sound) {i : Input L} (hi : i ≠ .shutdown) :
    c.Reseating i (c.step i).1.board := by
  cases hcaller : i.isCaller with
  | false => exact .alike (alike_of_passive h hcaller)
  | true =>
    cases i with
    | shutdown => exact absurd rfl hi
    | subscribe w =>
      simp only [Client.step]
      rcases hs : c.subscribe w with ⟨fault | k, c', calls⟩
      · obtain ⟨rfl, -⟩ := of_unchanged subscribe_unchanged hs
        exact .alike (.refl _)
      · obtain ⟨-, hk, -, hseats⟩ := h.subscribed hs
        exact .subscribed (hk ▸ hseats)
    | unsubscribe k =>
      simp only [Client.step]
      rcases hs : c.unsubscribe k with ⟨fault | _, c', calls⟩
      · obtain ⟨rfl, -⟩ := of_unchanged unsubscribe_unchanged hs
        exact .alike (.refl _)
      · exact .unsubscribed (h.unsubscribed hs).2.2
    | revise k w =>
      simp only [Client.step]
      rcases hs : c.revise k w with ⟨fault | _, c', calls⟩
      · obtain ⟨rfl, -⟩ := of_unchanged h.revise_unchanged hs
        exact .alike (.refl _)
      · exact .revised (h.revised_ok hs).2.2
    | reloadKeys records =>
      simp only [Client.step, reloadKeys]
      cases Key.Table.ofRecords records with
      | error fault => exact .alike (.refl _)
      | ok table => exact .alike (.rekey h.coherent c.link? table)
    | _ => simp [Input.isCaller] at hcaller

end Client

end Herald
