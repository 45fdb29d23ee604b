import Herald.Proofs.CallerSide
import Herald.Proofs.Runs

namespace Herald

variable {L : Type}

def Input.isCaller : Input L → Bool
  | .subscribe _ => true
  | .unsubscribe _ => true
  | .revise _ _ => true
  | .reloadKeys _ => true
  | .shutdown => true
  | _ => false

structure Sight (L : Type) where
  expression : String
  keyNames : List String
  listeners : Nat
  sharing : List (Caller L)

def Switchboard.sight? (b : Switchboard L) (k : Ticket) : Option (Sight L) := do
  let n ← b.byTicket[k]?
  let t ← b.topics[n]?
  return ⟨t.info.expression, t.info.keyNames, t.info.listeners, t.callers⟩

structure Ledger (L : Type) where
  callers : Std.ExtTreeMap String (List (Caller L))
  nextTicket : Ticket

namespace Ledger

def empty : Ledger L :=
  ⟨∅, 1⟩

def callersOf (l : Ledger L) (e : String) : List (Caller L) :=
  l.callers.getD e []

def put (l : Ledger L) (e : String) (callers : List (Caller L)) : Ledger L :=
  { l with callers := l.callers.insert e callers }

def join (l : Ledger L) (e : String) (c : Caller L) : Ledger L :=
  l.put e (l.callersOf e ++ [c])

def leave (l : Ledger L) (e : String) (k : Ticket) : Ledger L :=
  l.put e ((l.callersOf e).filter (·.ticket ≠ k))

def replace (l : Ledger L) (e : String) (c : Caller L) : Ledger L :=
  l.put e ((l.callersOf e).map fun d => if d.ticket = c.ticket then c else d)

def find? (l : Ledger L) (k : Ticket) : Option (String × List (Caller L)) :=
  l.callers.toList.find? fun entry => entry.2.any (·.ticket == k)

def sight? (l : Ledger L) (k : Ticket) : Option (Sight L) :=
  (l.find? k).map fun (e, callers) =>
    ⟨e, (callers.flatMap (·.keyNames)).eraseDups, callers.length, callers⟩

def checkExpression (check : Expression.Check) (e : String) : Except Fault Unit :=
  match check e with
  | none => .ok ()
  | some reason => .error (.invalidExpression e reason)

def subscribe (l : Ledger L) (check : Expression.Check) (w : Wish L) : Except Fault (Ticket × Ledger L) := do
  checkExpression check w.expression
  return (l.nextTicket,
    { l.join w.expression (w.caller l.nextTicket) with nextTicket := l.nextTicket + 1 })

def unsubscribe (l : Ledger L) (k : Ticket) : Except Fault (Ledger L) :=
  match l.find? k with
  | none => .error (.unknownTicket k)
  | some (e, _) => .ok (l.leave e k)

def revise (l : Ledger L) (check : Expression.Check) (k : Ticket) (w : Wish L) : Except Fault (Ledger L) :=
  match l.find? k with
  | none => .error (.unknownTicket k)
  | some (e, _) =>
    if e = w.expression then .ok (l.replace e (w.caller k))
    else do
      checkExpression check w.expression
      return (l.leave e k).join w.expression (w.caller k)

def outcome (l : Ledger L) : Except Fault (Ledger L) → Ledger L × Reply
  | .ok l => (l, .accepted)
  | .error fault => (l, .fault fault)

def step (l : Ledger L) (check : Expression.Check) : Input L → Ledger L × Reply
  | .subscribe w =>
    match l.subscribe check w with
    | .ok (ticket, l) => (l, .ticket ticket)
    | .error fault => (l, .fault fault)
  | .unsubscribe k => l.outcome (l.unsubscribe k)
  | .revise k w => l.outcome (l.revise check k w)
  | .reloadKeys records => l.outcome ((Key.Table.ofRecords records).map fun _ => l)
  | .shutdown => ({ l with callers := ∅ }, .nothing)
  | _ => (l, .nothing)

def run (l : Ledger L) (check : Expression.Check) : List (Input L) → Ledger L
  | [] => l
  | i :: is => (l.step check i).1.run check is

def replies (l : Ledger L) (check : Expression.Check) : List (Input L) → List Reply
  | [] => []
  | i :: is => (if i.isCaller then [(l.step check i).2] else []) ++ (l.step check i).1.replies check is

section Lookup

variable {l : Ledger L} {e : String} {k : Ticket}

theorem callersOf_put (l : Ledger L) (e : String) (callers : List (Caller L)) (e' : String) :
    (l.put e callers).callersOf e' = if e' = e then callers else l.callersOf e' := by
  by_cases h : e' = e
  · simp [callersOf, put, h]
  · simp [callersOf, put, Std.ExtTreeMap.getD_insert, h, Ne.symm h]

theorem mem_entries {callers : List (Caller L)} (h : (e, callers) ∈ l.callers.toList) :
    l.callersOf e = callers := by
  rw [Std.ExtTreeMap.mem_toList_iff_getElem?_eq_some] at h
  simp [callersOf, Std.ExtTreeMap.getD_eq_getD_getElem?, h]

theorem entry_mem {c : Caller L} (h : c ∈ l.callersOf e) : (e, l.callersOf e) ∈ l.callers.toList := by
  rw [Std.ExtTreeMap.mem_toList_iff_getElem?_eq_some]
  unfold callersOf at h ⊢
  rw [Std.ExtTreeMap.getD_eq_getD_getElem?] at h ⊢
  cases he : l.callers[e]? with
  | none => simp [he] at h
  | some callers => rfl

theorem find?_eq_none (h : ∀ e, ¬∃ c ∈ l.callersOf e, c.ticket = k) : l.find? k = none := by
  rw [find?, List.find?_eq_none]
  rintro ⟨e, callers⟩ hmem hany
  rw [List.any_eq_true] at hany
  obtain ⟨c, hc, hk⟩ := hany
  exact h e ⟨c, (mem_entries hmem).symm ▸ hc, eq_of_beq hk⟩

theorem find?_eq_some (hone : ∀ e', (∃ c ∈ l.callersOf e', c.ticket = k) → e' = e)
    (h : ∃ c ∈ l.callersOf e, c.ticket = k) : l.find? k = some (e, l.callersOf e) := by
  obtain ⟨c, hc, rfl⟩ := h
  cases hf : l.find? c.ticket with
  | none =>
    rw [find?, List.find?_eq_none] at hf
    refine absurd ?_ (hf _ (entry_mem hc))
    exact List.any_eq_true.mpr ⟨c, hc, beq_self_eq_true _⟩
  | some entry =>
    obtain ⟨e', callers⟩ := entry
    have hmem := mem_entries (List.mem_of_find?_eq_some hf)
    have hany : callers.any (·.ticket == c.ticket) = true :=
      List.find?_some (p := fun entry : String × List (Caller L) => entry.2.any (·.ticket == c.ticket)) hf
    obtain ⟨d, hd, hk⟩ := List.any_eq_true.mp hany
    obtain rfl := hone e' ⟨d, hmem.symm ▸ hd, eq_of_beq hk⟩
    rw [hmem]

end Lookup

structure Tracks (l : Ledger L) (b : Switchboard L) : Prop where
  callers : ∀ e, l.callersOf e = b.callersOf e
  nextTicket : l.nextTicket = b.nextTicket

namespace Tracks

open Switchboard

variable {l : Ledger L} {b b' : Switchboard L} {n : TopicNo} {t : Topic L} {c : Caller L} {k : Ticket}

theorem alike (h : l.Tracks b) (ha : Alike b b') : l.Tracks b' :=
  ⟨fun e => (h.callers e).trans (ha.callers e).symm, h.nextTicket.trans ha.nextTicket.symm⟩

theorem find?_none (h : l.Tracks b) (hb : b.Coherent) (hk : b.byTicket[k]? = none) : l.find? k = none := by
  refine find?_eq_none fun e he => ?_
  rw [h.callers] at he
  obtain ⟨n, t, hn, -⟩ := (mem_callersOf_iff hb).mp he
  simp [hk] at hn

theorem find?_some (h : l.Tracks b) (hb : b.Coherent) (hk : b.byTicket[k]? = some n)
    (ht : b.topics[n]? = some t) : l.find? k = some (t.expression, t.callers) := by
  have hmem : ∃ c ∈ b.callersOf t.expression, c.ticket = k := (mem_callersOf_iff hb).mpr ⟨n, t, hk, ht, rfl⟩
  rw [← callersOf_of_topic hb ht, ← h.callers]
  refine find?_eq_some (fun e' he' => ?_) (by rwa [h.callers])
  rw [h.callers] at he'
  obtain ⟨m, u, hm, hu, rfl⟩ := (mem_callersOf_iff hb).mp he'
  obtain rfl : n = m := Option.some.inj (hk.symm.trans hm)
  exact congrArg Topic.expression (Option.some.inj (hu.symm.trans ht))

theorem sight?_eq (h : l.Tracks b) (hb : b.Coherent) (k : Ticket) : b.sight? k = l.sight? k := by
  cases hk : b.byTicket[k]? with
  | none => simp [Switchboard.sight?, Ledger.sight?, hk, h.find?_none hb hk]
  | some n =>
    obtain ⟨t, ht, hmem⟩ := (hb.tickets k n).mp hk
    have hne : t.callers ≠ [] := by
      rintro hc
      simp [Topic.tickets, hc] at hmem
    have hnames := (hb.proper ht).keyNames hne
    simp [Switchboard.sight?, Ledger.sight?, hk, ht, h.find?_some hb hk ht, Topic.info, hnames,
      Topic.wantedNames]

theorem join (h : l.Tracks b) (hb : b.Coherent) (ht : b.topics[n]? = some t)
    (hk : b.byTicket[c.ticket]? = none) (hlt : c.ticket < b.nextTicket) :
    (l.join t.expression c).Tracks (b.join n c) where
  callers := by
    intro e
    rw [Ledger.join, callersOf_put, callersOf_join hb ht hk hlt, ← h.callers e]
    split
    · next he => rw [he]
    · rfl
  nextTicket := by
    rw [Switchboard.join, ht]
    exact h.nextTicket

theorem leave (h : l.Tracks b) (hb : b.Coherent) (hk : b.byTicket[k]? = some n)
    (ht : b.topics[n]? = some t) : (l.leave t.expression k).Tracks (b.leave n k) where
  callers := by
    intro e
    rw [Ledger.leave, callersOf_put, callersOf_leave hb hk ht, ← h.callers e]
    split
    · next he => rw [he]
    · rfl
  nextTicket := by
    rw [leave_nextTicket]
    exact h.nextTicket

theorem replace (h : l.Tracks b) (hb : b.Coherent) (ht : b.topics[n]? = some t) :
    (l.replace t.expression c).Tracks (b.replace n c) where
  callers := by
    intro e
    rw [Ledger.replace, callersOf_put, callersOf_replace hb ht, ← h.callers e]
    split
    · next he => rw [he]
    · rfl
  nextTicket := by
    rw [Switchboard.replace, ht]
    exact h.nextTicket

theorem renamed (h : l.Tracks b) (hb : b.Coherent) (hk : b.byTicket[k]? = some n)
    (ht : b.topics[n]? = some t) {w : Wish L} (he : b.byExpression[w.expression]? = none)
    (hlen : t.callers.length = 1) : ((l.leave t.expression k).join w.expression (w.caller k)).Tracks
      ((b.rename n t w.expression).replace n (w.caller k)) := by
  obtain ⟨d, hd⟩ := List.length_eq_one_iff.mp hlen
  have hdk : d.ticket = k := by
    have hmem := (hb.tickets.mark_iff ht).mp hk
    simpa [Topic.tickets, hd, eq_comm] using hmem
  have hold : b.callersOf t.expression = [d] := (callersOf_of_topic hb ht).trans hd
  have hnew : b.callersOf w.expression = [] := by simp [Switchboard.callersOf, he]
  have hne : w.expression ≠ t.expression := by
    rintro heq
    rw [heq, hold] at hnew
    simp at hnew
  have hb' := hb.rename ht he
  have ht' : (b.rename n t w.expression).topics[n]? =
      some { t with expression := w.expression, refused := false } := Std.ExtTreeMap.getElem?_insert_self
  refine ⟨fun e => ?_, ?_⟩
  · rw [Ledger.join, callersOf_put, Ledger.leave, callersOf_put, callersOf_put, callersOf_replace hb' ht',
      callersOf_rename hb ht he]
    by_cases h1 : e = w.expression
    · simp [h1, hne, h.callers, hnew, hd, hdk, Wish.caller]
    · by_cases h2 : e = t.expression
      · simp [h2, hne.symm, h.callers, hold, hdk]
      · simp [h1, h2, h.callers]
  · rw [Switchboard.replace, ht']
    exact h.nextTicket

theorem create (h : l.Tracks b) (hb : b.Coherent) {e : String} (he : b.byExpression[e]? = none) :
    l.Tracks (b.create e).1 :=
  ⟨fun e' => (h.callers e').trans (callersOf_create hb he e').symm, h.nextTicket⟩

end Tracks

inductive Answers (l : Ledger L) : Except Fault (Ledger L) → Except Fault Unit × Switchboard L × List Call → Prop
  | ok {l' : Ledger L} {r : Switchboard L × List Call} : l'.Tracks r.1 → Answers l (.ok l') (.ok (), r)
  | error {r : Switchboard L × List Call} (fault : Fault) : l.Tracks r.1 →
      Answers l (.error fault) (.error fault, r)

section Operations

open Switchboard

variable {l : Ledger L} {b : Switchboard L}

theorem Tracks.topicFor (h : l.Tracks b) (hb : b.Coherent) (e : String) : l.Tracks (b.topicFor e).1 := by
  unfold Switchboard.topicFor
  cases he : b.byExpression[e]? with
  | none => exact h.create hb he
  | some n => exact h

theorem Tracks.subscribe (h : l.Tracks b) (hb : b.Coherent) (link : Option LinkId) (w : Wish L) :
    Tracks { l.join w.expression (w.caller l.nextTicket) with nextTicket := l.nextTicket + 1 }
      (((b.issued.topicFor w.expression).1.join (b.issued.topicFor w.expression).2
        (w.caller b.nextTicket)).settle link (b.issued.topicFor w.expression).2).1 := by
  have hissued : Tracks { l with nextTicket := l.nextTicket + 1 } b.issued :=
    ⟨h.callers, congrArg (· + 1) h.nextTicket⟩
  obtain ⟨hb', hk, hn, t, ht, he⟩ := topicFor_spec hb.issued w.expression
  have hfree : (b.issued.topicFor w.expression).1.byTicket[(w.caller b.nextTicket).ticket]? = none := by
    rw [hk]
    exact hb.nextTicket_free
  have hlt : (w.caller b.nextTicket).ticket < (b.issued.topicFor w.expression).1.nextTicket := by
    rw [hn]
    exact Nat.lt_succ_self _
  have hjoin := (hissued.topicFor hb.issued w.expression).join hb' ht hfree hlt
  rw [he, ← h.nextTicket] at hjoin
  rw [← h.nextTicket] at hfree hlt ⊢
  exact hjoin.alike (.settle (hb'.join ht hfree hlt) link _)

theorem Tracks.unsubscribe (h : l.Tracks b) (hb : b.Coherent) (link : Option LinkId) (k : Ticket) :
    Answers l (l.unsubscribe k) (b.unsubscribe link k) := by
  unfold Ledger.unsubscribe
  cases hk : b.byTicket[k]? with
  | none =>
    rw [h.find?_none hb hk, unsubscribe_unknown hk]
    exact .error _ h
  | some n =>
    obtain ⟨t, ht, -⟩ := (hb.tickets k n).mp hk
    rw [h.find?_some hb hk ht, unsubscribe_known hk]
    exact .ok ((h.leave hb hk ht).alike (.settle (hb.leave hk) link n))

theorem Tracks.revise (h : l.Tracks b) (hb : b.Coherent) (check : Expression.Check) (link : Option LinkId)
    (k : Ticket) (w : Wish L) : Answers l (l.revise check k w) (b.revise check link k w) := by
  have hr := revising hb check link k w
  generalize b.revise check link k w = r at hr
  unfold Ledger.revise
  cases hr with
  | unknown hk =>
    rw [h.find?_none hb hk]
    exact .error _ h
  | @kept n t hk ht he =>
    simp only [h.find?_some hb hk ht, he, if_true]
    exact .ok ((he ▸ h.replace hb ht).alike (.settle (hb.replace ht _) link n))
  | @invalid n t reason hk ht he hw =>
    simp only [h.find?_some hb hk ht, he, if_false, checkExpression, hw]
    exact .error _ h
  | @renamed n t hk ht he hw hn hlen =>
    have ht' : (b.rename n t w.expression).topics[n]? =
        some { t with expression := w.expression, refused := false } := Std.ExtTreeMap.getElem?_insert_self
    simp only [h.find?_some hb hk ht, he, if_false, checkExpression, hw]
    exact .ok ((h.renamed hb hk ht hn hlen).alike (.settle ((hb.rename ht hn).replace ht' _) link n))
  | @founded n t hk ht he hw hn hlen =>
    have hn' : (b.leave n k).byExpression[w.expression]? = none := by rwa [leave_byExpression]
    have hb' := (hb.leave hk).create hn'
    have hu : ((b.leave n k).create w.expression).1.topics[(b.leave n k).nextTopic]? =
        some (.ofExpression w.expression) := Std.ExtTreeMap.getElem?_insert_self
    obtain ⟨hfree, hlt⟩ := hb.free_of_leave hk
    have hjoin := ((h.leave hb hk ht).create (hb.leave hk) hn').join (c := w.caller k) hb' hu hfree hlt
    simp only [h.find?_some hb hk ht, he, if_false, checkExpression, hw]
    exact .ok (hjoin.alike (.settleEach (hb'.join (c := w.caller k) hu hfree hlt) link _))
  | @moved n other t hk ht he hw hn =>
    have hb' := hb.leave hk
    obtain ⟨u, hu, hexp⟩ := hb'.exists_topic (by rwa [leave_byExpression])
    obtain ⟨hfree, hlt⟩ := hb.free_of_leave hk
    have hjoin := (h.leave hb hk ht).join (c := w.caller k) hb' hu hfree hlt
    rw [hexp] at hjoin
    simp only [h.find?_some hb hk ht, he, if_false, checkExpression, hw]
    exact .ok (hjoin.alike (.settleEach (hb'.join (c := w.caller k) hu hfree hlt) link _))

end Operations

section Runs

variable {check : Expression.Check} {l : Ledger L}

theorem step_of_passive {i : Input L} (hi : i.isCaller = false) (l : Ledger L) :
    l.step check i = (l, .nothing) := by
  cases i <;> first | rfl | simp [Input.isCaller] at hi

theorem run_filter (l : Ledger L) (inputs : List (Input L)) :
    l.run check (inputs.filter Input.isCaller) = l.run check inputs := by
  induction inputs generalizing l with
  | nil => rfl
  | cons i inputs ih =>
    cases hi : i.isCaller with
    | true =>
      rw [List.filter_cons_of_pos hi]
      exact ih _
    | false =>
      rw [List.filter_cons_of_neg (by simp [hi]), run, step_of_passive hi]
      exact ih l

theorem replies_filter (l : Ledger L) (inputs : List (Input L)) :
    l.replies check (inputs.filter Input.isCaller) = l.replies check inputs := by
  induction inputs generalizing l with
  | nil => rfl
  | cons i inputs ih =>
    cases hi : i.isCaller with
    | true =>
      rw [List.filter_cons_of_pos hi, replies, replies, ih]
    | false =>
      rw [List.filter_cons_of_neg (by simp [hi]), replies, step_of_passive hi, hi]
      exact ih l

end Runs

end Ledger

namespace Client

open Switchboard (Alike)

variable {c : Client L} {l : Ledger L}

def replies (c : Client L) : List (Input L) → List Reply
  | [] => []
  | i :: is => (if i.isCaller then [(c.step i).2.reply] else []) ++ (c.step i).1.replies is

theorem alike_of_passive (h : c.Sound) {i : Input L} (hi : i.isCaller = false) :
    Alike c.board (c.step i).1.board := by
  cases i with
  | start => exact .refl _
  | disconnect => exact .disconnected h.coherent
  | send n names => exact .refl _
  | arrival a =>
    cases a with
    | connectResult attempt result =>
      simp only [step, arrive, connectResult]
      split
      · exact .reconnected h.coherent _
      · exact .reconnected h.coherent _
      · exact .refl _
    | retryDue => exact .refl _
    | connectionLost failure =>
      simp only [step, arrive, connectionLost]
      split
      · exact .disconnected h.coherent
      · exact .refl _
    | ack request a => exact .acknowledge h.coherent _ _ _
    | notification id n => exact .refl _
    | notifySent result => exact .refl _
  | _ => simp [Input.isCaller] at hi

theorem tracks_outcome {r : Except Fault Unit × Switchboard L × List Call}
    {s : Except Fault (Ledger L)} (ha : l.Answers s r) :
    let done := outcome (fun _ => .accepted) (c.onBoard r)
    (l.outcome s).1.Tracks done.1.board ∧ done.2.reply = (l.outcome s).2 := by
  cases ha with
  | ok ht => exact ⟨ht, rfl⟩
  | error fault ht => exact ⟨ht, rfl⟩

theorem tracks_subscribe (h : l.Tracks c.board) (hs : c.Sound) (w : Wish L) :
    (l.step c.check (.subscribe w)).1.Tracks (c.step (.subscribe w)).1.board ∧
      (c.step (.subscribe w)).2.reply = (l.step c.check (.subscribe w)).2 := by
  simp only [step, subscribe, Switchboard.subscribe_eq, Ledger.step, Ledger.subscribe, Ledger.checkExpression]
  cases c.check w.expression with
  | some reason => exact ⟨h, rfl⟩
  | none => exact ⟨h.subscribe hs.coherent c.link? w, congrArg Reply.ticket h.nextTicket.symm⟩

theorem tracks_shutdown (h : l.Tracks c.board) (hs : c.Sound) :
    (l.step c.check .shutdown).1.Tracks (c.step .shutdown).1.board := by
  have hb : (c.board.unsubscribeAll c.link?).1.Coherent :=
    hs.coherent.moves (Switchboard.unsubscribeAll_moves c.link? c.board)
  refine Ledger.Tracks.alike (b := (c.board.unsubscribeAll c.link?).1) ⟨fun e => ?_, ?_⟩ (.disconnected hb)
  · rw [Switchboard.callersOf_unsubscribeAll hs.coherent]
    simp [Ledger.step, Ledger.callersOf]
  · exact h.nextTicket.trans (Switchboard.tickets_unsubscribeEach hs.coherent _ _).2.symm

theorem tracks_step (h : l.Tracks c.board) (hs : c.Sound) (i : Input L) :
    (l.step c.check i).1.Tracks (c.step i).1.board ∧
      (i.isCaller = true → (c.step i).2.reply = (l.step c.check i).2) := by
  cases hi : i.isCaller with
  | false =>
    rw [Ledger.step_of_passive hi]
    exact ⟨h.alike (alike_of_passive hs hi), by simp⟩
  | true =>
    cases i with
    | subscribe w => exact (tracks_subscribe h hs w).imp_right fun hr _ => hr
    | unsubscribe k =>
      exact (tracks_outcome (h.unsubscribe hs.coherent c.link? k)).imp_right fun hr _ => hr
    | revise k w =>
      exact (tracks_outcome (h.revise hs.coherent c.check c.link? k w)).imp_right fun hr _ => hr
    | reloadKeys records =>
      simp only [step, reloadKeys, Ledger.step]
      cases Key.Table.ofRecords records with
      | error fault => exact ⟨h, fun _ => rfl⟩
      | ok table => exact ⟨h.alike (.rekey hs.coherent c.link? table), fun _ => rfl⟩
    | shutdown => exact ⟨tracks_shutdown h hs, fun _ => rfl⟩
    | _ => simp [Input.isCaller] at hi

theorem tracks_run (h : l.Tracks c.board) (hs : c.Sound) (inputs : List (Input L)) :
    (l.run c.check inputs).Tracks (c.run inputs).board ∧ c.replies inputs = l.replies c.check inputs := by
  induction inputs generalizing c l with
  | nil => exact ⟨h, rfl⟩
  | cons i inputs ih =>
    obtain ⟨hstep, hreply⟩ := tracks_step h hs i
    obtain ⟨hrun, hreplies⟩ := ih hstep (hs.step i)
    rw [check_step] at hrun hreplies
    refine ⟨hrun, ?_⟩
    rw [replies, Ledger.replies, hreplies]
    cases hi : i.isCaller with
    | true => rw [hreply hi]
    | false => rfl

theorem tracks_ofSettings {check : Expression.Check} {s : Settings} (hc : Client.ofSettings check s = .ok c) :
    Ledger.empty.Tracks c.board := by
  rw [eq_of_ofSettings hc]
  refine ⟨fun e => ?_, rfl⟩
  simp [Ledger.callersOf, Ledger.empty, Switchboard.callersOf, Switchboard.ofTable]

/-- Callers are answered, and see their subscriptions, as in a plain ledger; so no two runs with the same
operations of the callers differ for them. -/
theorem callers_unaffected {check : Expression.Check} {s : Settings} (hc : Client.ofSettings check s = .ok c)
    {xs ys : List (Input L)} (h : xs.filter Input.isCaller = ys.filter Input.isCaller) :
    c.replies xs = c.replies ys ∧ (∀ k, (c.run xs).board.sight? k = (c.run ys).board.sight? k) ∧
      c.replies xs = Ledger.empty.replies check xs ∧
      ∀ k, (c.run xs).board.sight? k = (Ledger.empty.run check xs).sight? k := by
  have hsound := Sound.ofSettings hc
  have hcheck : c.check = check := by rw [eq_of_ofSettings hc]
  obtain ⟨hx, hrx⟩ := tracks_run (tracks_ofSettings hc) hsound xs
  obtain ⟨hy, hry⟩ := tracks_run (tracks_ofSettings hc) hsound ys
  rw [hcheck] at hx hrx hy hry
  have hreplies : (Ledger.empty : Ledger L).replies check xs = Ledger.empty.replies check ys := by
    rw [← Ledger.replies_filter, h, Ledger.replies_filter]
  have hrun : (Ledger.empty : Ledger L).run check xs = Ledger.empty.run check ys := by
    rw [← Ledger.run_filter, h, Ledger.run_filter]
  have hsx := hx.sight?_eq (hsound.run xs).coherent
  have hsy := hy.sight?_eq (hsound.run ys).coherent
  exact ⟨by rw [hrx, hry, hreplies], fun k => by rw [hsx, hsy, hrun], hrx, hsx⟩

/-- Without a connection the released topic is gone when its expression is wanted again. -/
def revisedOffline : List (Input Nat) :=
  [.subscribe ⟨"require(A)", ["k"], 0⟩, .unsubscribe 1, .subscribe ⟨"require(B)", ["j"], 1⟩,
    .revise 2 ⟨"require(A)", ["j"], 1⟩]

/-- With a connection the released topic still waits to be deleted when its expression is wanted again. -/
def revisedOnline : List (Input Nat) :=
  [.start, .arrival (.connectResult 1 (.ok 7)), .subscribe ⟨"require(A)", ["k"], 0⟩,
    .arrival (.ack 1 (.added (.ok 5))), .unsubscribe 1, .subscribe ⟨"require(B)", ["j"], 1⟩,
    .revise 2 ⟨"require(A)", ["j"], 1⟩, .arrival (.ack 2 (.deleted (.ok ())))]

theorem callers_unaffected_revised : ∃ c, Client.ofSettings Expression.refusal? (.ofEndpoint "tcp://broker") = .ok c ∧
    revisedOffline.filter Input.isCaller = revisedOnline.filter Input.isCaller ∧
    c.replies revisedOffline = c.replies revisedOnline ∧
    (∀ k, (c.run revisedOffline).board.sight? k = (c.run revisedOnline).board.sight? k) ∧
    c.replies revisedOffline = Ledger.empty.replies Expression.refusal? revisedOffline ∧
    ∀ k, (c.run revisedOffline).board.sight? k = (Ledger.empty.run Expression.refusal? revisedOffline).sight? k :=
  ⟨_, rfl, rfl, callers_unaffected (s := .ofEndpoint "tcp://broker") rfl rfl⟩

end Client

end Herald
