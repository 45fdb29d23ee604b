import Herald.Proofs.Handover
import Herald.Proofs.Reentry
import Herald.Proofs.Terminal

namespace Herald

def Input.serves {L : Type} : Input L → Bool
  | .subscribe _ => true
  | .unsubscribe _ => true
  | .revise _ _ => true
  | _ => false

section Serving

variable {L : Type} {c : Client L} {inputs : List (Input L)}

def Client.Serves (c c' : Client L) : Prop :=
  ∃ inputs, (∀ i ∈ inputs, i.serves = true) ∧ c' = c.run inputs

namespace Client.Serves

variable {c' c'' : Client L}

theorem refl (c : Client L) : Serves c c :=
  ⟨[], by simp, rfl⟩

theorem trans (h : Serves c c') (h' : Serves c' c'') : Serves c c'' := by
  obtain ⟨xs, hxs, rfl⟩ := h
  obtain ⟨ys, hys, rfl⟩ := h'
  exact ⟨xs ++ ys, by grind, (run_append c xs ys).symm⟩

theorem of_step {i : Input L} (hi : i.serves = true) : Serves c (c.step i).1 :=
  ⟨[i], by simpa using hi, rfl⟩

theorem check (h : Serves c c') : c'.check = c.check := by
  obtain ⟨inputs, -, rfl⟩ := h
  exact c.check_run inputs

theorem closed (h : Serves c c') (hc : c.Sound) (hp : c.connection.status = .disconnected) :
    c'.connection.status = .disconnected := by
  obtain ⟨inputs, -, rfl⟩ := h
  exact hc.status_of_closed hp inputs

theorem ids (h : Serves c c') (hc : c.Sound) (hids : c.link? = none → c.board.byBrokerId = ∅) :
    c'.link? = none → c'.board.byBrokerId = ∅ := by
  obtain ⟨inputs, -, rfl⟩ := h
  exact hc.ids_run hids inputs

theorem brokerIds (h : Serves c c') (hc : c.Sound) (hids : c.board.BrokerIds) : c'.board.BrokerIds := by
  obtain ⟨inputs, hserves, rfl⟩ := h
  refine brokerIds_run hc hids ?_
  clear hids
  induction inputs generalizing c with
  | nil => trivial
  | cons i inputs ih =>
    refine ⟨?_, ih (hc.step i) fun j hj => hserves j (List.mem_cons_of_mem _ hj)⟩
    have hi := hserves i List.mem_cons_self
    cases i <;> trivial

end Client.Serves

open Client (Serves)

namespace Reload

theorem serves_place (listener : Group → L) (r : Reload L) (g : Group) :
    Serves r.client (r.place listener g).client := by
  unfold place
  cases r.old.find? (·.group.expression = g.expression) with
  | some m =>
    have hstep := Serves.of_step (c := r.client) (i := .revise m.ticket (g.wish listener)) rfl
    dsimp only
    split <;> exact hstep
  | none =>
    have hstep := Serves.of_step (c := r.client) (i := .subscribe (g.wish listener)) rfl
    dsimp only
    split <;> exact hstep

theorem serves_release (r : Reload L) (m : Member) : Serves r.client (r.release m).client :=
  Serves.of_step (c := r.client) (i := .unsubscribe m.ticket) rfl

theorem serves_foldl {α : Type} {f : Reload L → α → Reload L} (hf : ∀ r a, Serves r.client (f r a).client)
    (xs : List α) (r : Reload L) : Serves r.client (xs.foldl f r).client := by
  induction xs generalizing r with
  | nil => exact .refl _
  | cons x xs ih => exact (hf r x).trans (ih (f r x))

end Reload

namespace Roster

theorem serves_reload (listener : Group → L) (r : Roster) (c : Client L) (groups : List Group) :
    Serves c (r.reload listener c groups).2.2.1 := by
  have hplaced := Reload.serves_foldl (Reload.serves_place listener) groups (r.begin c)
  exact hplaced.trans (Reload.serves_foldl (f := Reload.remove) Reload.serves_release _ _)

theorem serves_clear (r : Roster) (c : Client L) : Serves c (r.clear c).2.1 :=
  Reload.serves_foldl Reload.serves_release r.members (r.begin c)

end Roster

end Serving

def Switchboard.Ranked {L : Type} (p : Ticket → Bool) (b : Switchboard L) : Prop :=
  ∀ e, ((b.callersOf e).filter (p ·.ticket)).Pairwise (·.ticket < ·.ticket)

namespace Switchboard.Ranked

variable {L : Type} {p q : Ticket → Bool} {b b' : Switchboard L}

theorem of_sublist (h : b.Ranked p) (hs : ∀ e, (b'.callersOf e).Sublist (b.callersOf e)) : b'.Ranked p :=
  fun e => (h e).sublist ((hs e).filter _)

theorem of_map (h : b.Ranked p) {f : Caller L → Caller L} (hf : ∀ c, (f c).ticket = c.ticket)
    (hb : ∀ e, b'.callersOf e = (b.callersOf e).map f) : b'.Ranked p := by
  intro e
  rw [hb, List.filter_map, List.pairwise_map]
  simpa only [Function.comp_def, hf] using h e

theorem of_append (h : b.Ranked p) (hb : b.Coherent) {c : Caller L} {e' : String}
    (hc : c.ticket = b.nextTicket)
    (hb' : ∀ e, b'.callersOf e = b.callersOf e ++ if e = e' then [c] else []) : b'.Ranked p := by
  intro e
  rw [hb', List.filter_append, List.pairwise_append]
  refine ⟨h e, ?_, fun a ha d hd => ?_⟩
  · split
    · exact (List.pairwise_singleton _ c).filter _
    · exact .nil
  · split at hd
    · obtain rfl := List.mem_singleton.mp (List.mem_filter.mp hd).1
      exact hc ▸ Seated.lt ⟨e, a, (List.mem_filter.mp ha).1, rfl⟩ hb
    · simp at hd

theorem mono (h : b.Ranked p) (hpq : ∀ e, ∀ c ∈ b.callersOf e, q c.ticket = true → p c.ticket = true) :
    b.Ranked q := by
  intro e
  have hq : (b.callersOf e).filter (q ·.ticket) =
      ((b.callersOf e).filter (p ·.ticket)).filter (q ·.ticket) := by
    rw [List.filter_filter]
    refine List.filter_congr fun c hc => ?_
    have := hpq e c hc
    cases hc' : q c.ticket <;> simp_all
  rw [hq]
  exact (h e).filter _

end Switchboard.Ranked

open Member (tickets)

section Ranks

variable {L : Type} {listener : Group → L} {c : Client L} {old : List Member} {done : List Group} {r : Reload L}
  {p : Ticket → Bool}

theorem Client.seated_of_members {ms : List Member}
    (h : ∀ m ∈ ms, ∃ d ∈ c.board.callersOf m.group.expression, d.ticket = m.ticket) :
    ∀ k ∈ tickets ms, c.board.Seated k := by
  intro k hk
  obtain ⟨m, hm, rfl⟩ := List.mem_map.mp hk
  exact ⟨_, h m hm⟩

theorem Reload.Progress.ranked_place (h : Progress listener c old done r)
    (hseated : ∀ m ∈ old, ∃ d ∈ c.board.callersOf m.group.expression, d.ticket = m.ticket)
    (hr : r.client.board.Ranked p) (g : Group) : (r.place listener g).client.board.Ranked p := by
  have hp := placed h.fit.sound listener g
  generalize r.place listener g = r' at hp
  cases hp with
  | lost _ _ _ => exact hr
  | refused _ _ => exact hr
  | added _ hs =>
    obtain ⟨b, hb, rfl⟩ := Client.of_onBoard hs
    obtain ⟨hk, -, hcallers⟩ := Switchboard.callersOf_subscribe h.fit.sound.coherent hb
    exact hr.of_append h.fit.sound.coherent hk hcallers
  | @kept before after m c' calls hold _ hm hs =>
    obtain ⟨b, hb, rfl⟩ := Client.of_onBoard hs
    obtain ⟨-, e, ⟨a, ha, hak⟩, hcallers⟩ := Switchboard.callersOf_revise h.fit.sound.coherent hb
    obtain ⟨hmold, hnew, -⟩ := h.taken hold
    obtain ⟨d, hd, hdk⟩ := hseated m hmold
    have hd' := h.mem_callersOf hd (hdk ▸ hnew)
    -- The ticket is where its member says, so that its caller is replaced in its place.
    have he : e = g.expression :=
      (Switchboard.expression_unique h.fit.sound.coherent ha hd' (hak.trans hdk.symm)).trans hm
    refine hr.of_map (f := fun a => if a.ticket = m.ticket then (g.wish listener).caller m.ticket else a)
      (fun a => ?_) fun e' => (hcallers e').trans (if_pos he)
    split
    · next heq => exact heq.symm
    · rfl

theorem Reload.Progress.ranked_foldl (hc : c.Sound) (h : Progress listener c old done r)
    (hseated : ∀ m ∈ old, ∃ d ∈ c.board.callersOf m.group.expression, d.ticket = m.ticket)
    (hr : r.client.board.Ranked p) (groups : List Group) :
    (groups.foldl (Reload.place listener) r).client.board.Ranked p := by
  have hlive := Client.seated_of_members hseated
  induction groups generalizing done r with
  | nil => exact hr
  | cons g groups ih => exact ih (h.place hc hlive g) (h.ranked_place hseated hr g)

theorem Roster.Fit.ranked_reload {r : Roster} (h : r.Fit c) (listener : Group → L)
    (hseated : ∀ m ∈ r.members, ∃ d ∈ c.board.callersOf m.group.expression, d.ticket = m.ticket)
    (hr : c.board.Ranked p) (groups : List Group) :
    (r.reload listener c groups).2.2.1.board.Ranked p := by
  have hplaced := Reload.Progress.ranked_foldl h.sound (.start listener h) hseated hr groups
  have hsound := (Reload.Fit.foldl_place h listener groups).sound
  have hreleased := Reload.Releases.foldl Reload.Releases.remove hsound
    (groups.foldl (Reload.place listener) (r.begin c)).old
  refine hplaced.of_sublist fun e => ?_
  exact (hreleased.callers e).symm ▸ List.filter_sublist

end Ranks

def Input.listener? {L : Type} : Input L → Option L
  | .subscribe w => some w.listener
  | .revise _ w => some w.listener
  | _ => none

def Listener.isGroup : Listener → Bool
  | .group _ => true
  | .script _ _ => false

/-- The callers of a client that deliver are the members of a roster as it is now, in the order of their tickets. -/
structure Roster.Attended (r : Roster) (c : Client Listener) : Prop where
  own : ∀ m ∈ r.members, m.caller .group ∈ c.board.callersOf m.group.expression
  others : ∀ e, ∀ d ∈ c.board.callersOf e, d.ticket ∉ r.tickets → d.listener.isGroup = false
  ranked : c.board.Ranked (· ∈ r.tickets)

namespace Roster.Attended

variable {r r' : Roster} {c c' : Client Listener}

theorem of_alike (h : r.Attended c) (hc : ∀ e, c'.board.callersOf e = c.board.callersOf e) : r.Attended c' where
  own := fun m hm => by rw [hc]; exact h.own m hm
  others := fun e d hd => by rw [hc] at hd; exact h.others e d hd
  ranked := fun e => by rw [hc]; exact h.ranked e

theorem of_reseats (h : r.Attended c) {k : Ticket} (hk : k ∉ r.tickets)
    {seat : Option (String × Caller Listener)} (hseat : ∀ e d, seat = some (e, d) → d.listener.isGroup = false)
    (hc : Switchboard.Reseats k seat c.board c'.board) : r.Attended c' where
  own := by
    intro m hm
    refine hc.mem_iff.mpr (.inl ⟨h.own m hm, ?_⟩)
    intro hmk
    exact hk (hmk ▸ List.mem_map_of_mem hm)
  others := by
    intro e d hd hnot
    obtain ⟨hold, -⟩ | hnew := hc.mem_iff.mp hd
    · exact h.others e d hold hnot
    · exact hseat e d hnew
  ranked := by
    intro e
    rw [hc.filter_eq (p := (· ∈ r.tickets)) (by simpa using hk)]
    exact h.ranked e

theorem seated (h : r.Attended c) : ∀ m ∈ r.members,
    ∃ d ∈ c.board.callersOf m.group.expression, d.ticket = m.ticket :=
  fun m hm => ⟨_, h.own m hm, rfl⟩

def heirs (r : Roster) (c : Client Listener) (k : Ticket) : Bool :=
  k ∈ r.tickets ∨ c.board.nextTicket ≤ k

theorem ranked_heirs (h : r.Attended c) (hc : c.Sound) : c.board.Ranked (heirs r c) := by
  refine h.ranked.mono fun e d hd hheir => ?_
  have hlt := Switchboard.Seated.lt ⟨e, d, hd, rfl⟩ hc.coherent
  simpa [heirs, Nat.not_le.mpr hlt] using hheir

theorem of_handover (h : r.Attended c) {groups : List Group} {report : Report}
    (hand : Handover .group groups r c r' report c') (hranked : c'.board.Ranked (heirs r c)) : r'.Attended c' where
  own := hand.subscribed
  others := by
    intro e d hd hnot
    have hd' : d ∈ (c'.board.callersOf e).filter (·.ticket ∉ r'.tickets) :=
      List.mem_filter.mpr ⟨hd, decide_eq_true hnot⟩
    rw [hand.others] at hd'
    obtain ⟨hold, hnot'⟩ := List.mem_filter.mp hd'
    exact h.others e d hold (of_decide_eq_true hnot')
  ranked := hranked.mono fun e d _ hd => by
    simpa [heirs] using hand.old_or_fresh (of_decide_eq_true hd)

theorem reload (h : r.Attended c) (hr : r.Fit c) (groups : List Group) :
    (r.reload .group c groups).1.Attended (r.reload .group c groups).2.2.1 :=
  h.of_handover (hr.handover .group (Client.seated_of_members h.seated) groups)
    (hr.ranked_reload .group h.seated (h.ranked_heirs hr.sound) groups)

theorem clear (h : r.Attended c) (hr : r.Fit c) : (r.clear c).1.Attended (r.clear c).2.1 := by
  have hreleased := Reload.Releases.foldl Reload.Releases.release (r := r.begin c) hr.sound r.members
  refine ⟨by simp [Roster.clear, Roster.empty], fun e d hd _ => ?_, fun e => ?_⟩
  · rw [show (r.clear c).2.1.board.callersOf e = _ from hreleased.callers e] at hd
    obtain ⟨hold, hnot⟩ := List.mem_filter.mp hd
    exact h.others e d hold (of_decide_eq_true hnot)
  · simp [Roster.clear, Roster.empty, Roster.tickets, tickets]

end Roster.Attended

namespace Session

variable {s : Session} {o : Occasion}

/-- Nobody but the roster uses its tickets, or hands in a group as a listener. -/
def Private (s : Session) : Occasion → Prop
  | .input i => (∀ k ∈ s.client.concerned i, k ∉ s.roster.tickets) ∧ ∀ x ∈ i.listener?, x.isGroup = false
  | _ => True

/-- An answer to an add gives no id that another topic holds. -/
def Fresh (s : Session) : Occasion → Prop
  | .input i => s.client.FreshId i
  | _ => True

def Along (P : Session → Occasion → Prop) (s : Session) : List Occasion → Prop
  | [] => True
  | o :: os => P s o ∧ (s.meet o).Along P os

instance decidablePrivate (s : Session) : (o : Occasion) → Decidable (s.Private o)
  | .input i => inferInstanceAs
      (Decidable ((∀ k ∈ s.client.concerned i, k ∉ s.roster.tickets) ∧ ∀ x ∈ i.listener?, x.isGroup = false))
  | .reload _ => .isTrue trivial
  | .clear => .isTrue trivial

instance decidableFresh (s : Session) : (o : Occasion) → Decidable (s.Fresh o)
  | .input i => inferInstanceAs (Decidable (s.client.FreshId i))
  | .reload _ => .isTrue trivial
  | .clear => .isTrue trivial

instance decidableAlong {P : Session → Occasion → Prop} [∀ s o, Decidable (P s o)] (s : Session) :
    (os : List Occasion) → Decidable (s.Along P os)
  | [] => .isTrue trivial
  | o :: os =>
    have := decidableAlong (P := P) (s.meet o) os
    inferInstanceAs (Decidable (P s o ∧ (s.meet o).Along P os))

theorem attended_input (h : s.roster.Attended s.client) (hs : s.roster.Fit s.client) {i : Input Listener}
    (hi : i ≠ .shutdown) (hp : s.Private (.input i)) : s.roster.Attended (s.client.step i).1 := by
  have hr := hs.sound.reseating hi
  generalize (s.client.step i).1 = c at hr
  generalize hb : c.board = b at hr
  cases hr with
  | alike ha => exact h.of_alike (hb ▸ ha.callers)
  | @subscribed w _ hseats =>
    refine h.of_reseats (fun hk => Nat.lt_irrefl _ (hs.bound _ hk)) (fun e d hseat => ?_) (hb ▸ hseats)
    obtain ⟨rfl, rfl⟩ := Prod.mk.inj (Option.some.inj hseat)
    exact hp.2 _ rfl
  | unsubscribed hseats => exact h.of_reseats (hp.1 _ rfl) (by simp) (hb ▸ hseats)
  | @revised k w _ hseats =>
    refine h.of_reseats (hp.1 _ rfl) (fun e d hseat => ?_) (hb ▸ hseats)
    obtain ⟨rfl, rfl⟩ := Prod.mk.inj (Option.some.inj hseat)
    exact hp.2 _ rfl

structure Steady (s : Session) : Prop where
  fit : s.roster.Fit s.client
  ids : s.client.link? = none → s.client.board.byBrokerId = ∅
  attended : s.client.connection.status = .disconnected ∨ s.roster.Attended s.client

namespace Steady

theorem ofSettings {check : Expression.Check} {p : Settings} (hs : Session.ofSettings check p = .ok s) : s.Steady := by
  have hfit := fit_ofSettings hs
  obtain ⟨c, hc, rfl⟩ := eq_of_ofSettings hs
  have hempty (e : String) : c.board.callersOf e = [] := by
    simp [Client.eq_of_ofSettings hc, Switchboard.callersOf, Switchboard.ofTable]
  have hids : c.board.byBrokerId = ∅ := by
    rw [Client.eq_of_ofSettings hc]
    rfl
  refine ⟨hfit, fun _ => hids, .inr ⟨by simp [Roster.empty], by simp [hempty], fun e => ?_⟩⟩
  simp [hempty]

theorem meet (h : s.Steady) (hp : s.Private o) : (s.meet o).Steady := by
  have hfit := fit_meet h.fit o
  cases o with
  | input i =>
    refine ⟨hfit, h.fit.sound.ids_step h.ids, ?_⟩
    obtain hclosed | hattended := h.attended
    · exact .inl (h.fit.sound.step_of_closed hclosed i).1
    · by_cases hi : i = .shutdown
      · subst hi
        exact .inl rfl
      · exact .inr (attended_input hattended h.fit hi hp)
  | reload groups =>
    have hserves := s.roster.serves_reload .group s.client groups
    refine ⟨hfit, hserves.ids h.fit.sound h.ids, h.attended.imp ?_ fun ha => ha.reload h.fit groups⟩
    exact hserves.closed h.fit.sound
  | clear =>
    have hserves := s.roster.serves_clear s.client
    refine ⟨hfit, hserves.ids h.fit.sound h.ids, h.attended.imp ?_ fun ha => ha.clear h.fit⟩
    exact hserves.closed h.fit.sound

theorem follow {os : List Occasion} (h : s.Steady) (hp : s.Along Private os) : (s.follow os).Steady := by
  induction os generalizing s with
  | nil => exact h
  | cons o os ih => exact ih (h.meet hp.1) hp.2

end Steady

theorem brokerIds_meet (hs : s.client.Sound) (hids : s.client.board.BrokerIds) (hf : s.Fresh o) :
    (s.meet o).client.board.BrokerIds := by
  cases o with
  | input i => exact Client.brokerIds_step hs hids hf
  | reload groups =>
    have hserves := s.roster.serves_reload .group s.client groups
    exact hserves.brokerIds hs hids
  | clear =>
    have hserves := s.roster.serves_clear s.client
    exact hserves.brokerIds hs hids

theorem brokerIds_follow {os : List Occasion} (hs : s.roster.Fit s.client) (hids : s.client.board.BrokerIds)
    (hf : s.Along Fresh os) : (s.follow os).client.board.BrokerIds := by
  induction os generalizing s with
  | nil => exact hids
  | cons o os ih => exact ih (fit_meet hs o) (brokerIds_meet hs.sound hids hf.1) hf.2

end Session

namespace Session

section Announcing

variable {s : Session} {id : BrokerId} {n : Notification}

def announce (s : Session) (id : BrokerId) (n : Notification) : Session :=
  let (s, _, tasks) := s.perform (.input (.arrival (.notification id n)))
  tasks.foldl (fun s task => (s.work task).1) s

theorem deliveries_announce (s : Session) (id : BrokerId) (n : Notification) : (s.announce id n).deliveries =
    s.deliveries ++ (s.client.board.audience id).filterMap fun x => (Task.hear x n).delivery? := by
  have hwork := deliveries_foldl_work (s.perform (.input (.arrival (.notification id n)))).1
    ((s.client.board.audience id).map (.hear · n))
  rwa [List.filterMap_map] at hwork

theorem act_eq_announce (hquiet : ∀ x ∈ s.client.board.audience id, x.isQuiet = true)
    (hlimit : (s.client.board.audience id).length ≤ taskLimit) :
    (s.act (.input (.arrival (.notification id n)))).1 = s.announce id n := by
  have hquiet : ∀ task ∈ (s.client.board.audience id).map (.hear · n), ∀ s : Session, (s.work task).2 = [] := by
    intro task htask s'
    obtain ⟨x, hx, rfl⟩ := List.mem_map.mp htask
    have hx := hquiet x hx
    cases x with
    | group g => rfl
    | script label acts => simp [work, List.isEmpty_iff.mp hx]
  have hwork := workOff_eq_foldl taskLimit (s.perform (.input (.arrival (.notification id n)))).1
    ((s.client.board.audience id).map (.hear · n))
  rw [workedOff_of_quiet hquiet _ (by simpa using hlimit)] at hwork
  exact hwork

theorem announced_amid_acts (h : (s.tasksOf (.input (.arrival (.notification id n)))).length < taskLimit) :
    ∃ own ds, (s.announce id n).deliveries = s.deliveries ++ own ∧
      (s.act (.input (.arrival (.notification id n)))).1.deliveries = s.deliveries ++ ds ∧ own.Sublist ds := by
  refine ⟨_, _, s.deliveries_announce id n, s.deliveries_act _, ?_⟩
  have hturns := (sublist_workedOff h).filterMap Task.delivery?
  change (((s.client.board.audience id).map (Task.hear · n)).filterMap Task.delivery?).Sublist _ at hturns
  rwa [List.filterMap_map] at hturns

theorem deliveries_of_mute (hmute : ∀ x ∈ s.client.board.audience id, x.isMute = true)
    (h : (s.tasksOf (.input (.arrival (.notification id n)))).length < taskLimit) :
    (s.act (.input (.arrival (.notification id n)))).1.deliveries = (s.announce id n).deliveries := by
  have hmute : ∀ task ∈ (s.client.board.audience id).map (Task.hear · n), task.isMute = true := by
    intro task htask
    obtain ⟨x, hx, rfl⟩ := List.mem_map.mp htask
    exact hmute x hx
  have hown : (s.tasksOf (.input (.arrival (.notification id n)))).filterMap Task.delivery? =
      ((s.client.board.audience id).map (Task.hear · n)).filterMap Task.delivery? := filterMap_workedOff hmute h
  rw [deliveries_act, hown, deliveries_announce, List.filterMap_map]
  rfl

end Announcing

end Session

theorem exists_map_eq {α β : Type} {f : α → β} {p : α → Prop} {bs : List β}
    (h : ∀ b ∈ bs, ∃ a, p a ∧ f a = b) : ∃ as : List α, (∀ a ∈ as, p a) ∧ as.map f = bs := by
  induction bs with
  | nil => exact ⟨[], by simp, rfl⟩
  | cons b bs ih =>
    obtain ⟨a, ha, rfl⟩ := h b List.mem_cons_self
    obtain ⟨as, has, rfl⟩ := ih fun b hb => h b (List.mem_cons_of_mem _ hb)
    exact ⟨a :: as, List.forall_mem_cons.mpr ⟨ha, has⟩, rfl⟩

section Hearing

variable {r : Roster} {c : Client Listener}

theorem Roster.Attended.exists_members (h : r.Attended c) (hr : r.Fit c) (e : String) : ∃ ms : List Member,
    ms.Perm (r.members.filter (·.group.expression = e)) ∧ ms.Pairwise (·.ticket < ·.ticket) ∧
    (Member.tickets ms).Sublist ((c.board.callersOf e).map (·.ticket)) ∧
    ∀ n, ((c.board.callersOf e).map (·.listener)).filterMap (fun x => (Task.hear x n).delivery?) =
      ms.filterMap fun m => m.group.delivery? n := by
  have hb := hr.sound.coherent
  have hnodup : r.tickets.Nodup := hr.nodup
  have hmember : ∀ d ∈ (c.board.callersOf e).filter (·.ticket ∈ r.tickets),
      ∃ m, m ∈ r.members.filter (·.group.expression = e) ∧ m.caller .group = d := by
    intro d hd
    obtain ⟨hd, hk⟩ := List.mem_filter.mp hd
    obtain ⟨m, hm, hmk⟩ := List.mem_map.mp (of_decide_eq_true hk)
    have hown := h.own m hm
    obtain rfl : m.group.expression = e := Switchboard.expression_unique hb hown hd hmk
    exact ⟨m, List.mem_filter.mpr ⟨hm, decide_eq_true rfl⟩, Switchboard.eq_of_ticket hb hown hd hmk⟩
  obtain ⟨ms, hms, heq⟩ := exists_map_eq hmember
  have hordered : ms.Pairwise (·.ticket < ·.ticket) := by
    have hranked := h.ranked e
    rw [← heq, List.pairwise_map] at hranked
    exact hranked
  refine ⟨ms, ?_, hordered, ?_, fun n => ?_⟩
  · refine (List.perm_ext_iff_of_nodup ?_ ?_).mpr fun m => ⟨hms m, fun hm => ?_⟩
    · exact hordered.imp fun hlt hab => Nat.ne_of_lt hlt (congrArg Member.ticket hab)
    · exact hnodup.of_map.filter _
    · obtain ⟨hm, he⟩ := List.mem_filter.mp hm
      have hown : m.caller .group ∈ (c.board.callersOf e).filter (·.ticket ∈ r.tickets) :=
        List.mem_filter.mpr ⟨of_decide_eq_true he ▸ h.own m hm, decide_eq_true (List.mem_map_of_mem hm)⟩
      rw [← heq] at hown
      obtain ⟨m', hm', hcaller⟩ := List.mem_map.mp hown
      have hm'r := (List.mem_filter.mp (hms m' hm')).1
      exact List.inj_on_of_nodup_map hnodup hm'r hm (congrArg Caller.ticket hcaller) ▸ hm'
  · have hsub := (List.filter_sublist (p := (·.ticket ∈ r.tickets)) (l := c.board.callersOf e)).map (·.ticket)
    rwa [← heq, List.map_map] at hsub
  · rw [List.filterMap_map]
    have hown : ms.filterMap (fun m => m.group.delivery? n) =
        ((c.board.callersOf e).filter (·.ticket ∈ r.tickets)).filterMap
          fun d => (Task.hear d.listener n).delivery? := by
      rw [← heq, List.filterMap_map]
      rfl
    rw [hown, List.filterMap_filter]
    refine List.filterMap_congr fun d hd => ?_
    by_cases hk : d.ticket ∈ r.tickets
    · simp [hk]
    · have hother := h.others e d hd hk
      cases hl : d.listener with
      | group g => simp [hl, Listener.isGroup] at hother
      | script label acts => simp [hk, hl, Task.delivery?]

end Hearing

theorem map_some_filterMap {α β : Type} {f : α → Option β} {as : List α} (h : ∀ a ∈ as, f a ≠ none) :
    (as.filterMap f).map some = as.map f := by
  induction as with
  | nil => rfl
  | cons a as ih =>
    obtain ⟨b, hb⟩ := Option.ne_none_iff_exists'.mp (h a List.mem_cons_self)
    simp [hb, ih fun x hx => h x (List.mem_cons_of_mem _ hx)]

def Switchboard.topicUnder? {L : Type} (b : Switchboard L) (id : BrokerId) : Option (Topic L) :=
  b.byBrokerId[id]?.bind fun n => b.topics[n]?

theorem Switchboard.audience_eq {L : Type} {b : Switchboard L} (hb : b.Coherent) (id : BrokerId) : b.audience id =
    match b.topicUnder? id with
    | none => []
    | some t => t.callers.map (·.listener) := by
  unfold audience topicUnder?
  cases b.byBrokerId[id]? with
  | none => rfl
  | some n =>
    cases ht : b.topics[n]? with
    | none => simp [ht]
    | some t =>
      have hcallers : t.isActive = false → t.callers = [] := fun hpending =>
        Classical.not_not.mp fun hne => by simp [(hb.proper ht).isActive hne] at hpending
      simpa [ht] using hcallers

theorem Switchboard.BrokerIds.topicUnder?_iff {L : Type} {b : Switchboard L} (h : b.BrokerIds) {id : BrokerId}
    {t : Topic L} : b.topicUnder? id = some t ↔
      ∃ n : TopicNo, b.topics[n]? = some t ∧ t.held.map (·.id) = some id := by
  rw [topicUnder?, Option.bind_eq_some_iff]
  constructor
  · rintro ⟨n, hn, ht⟩
    exact ⟨n, ht, (h.mark_iff ht).mp hn⟩
  · rintro ⟨n, ht, hid⟩
    exact ⟨n, (h.mark_iff ht).mpr hid, ht⟩

namespace Session

/-- What comes of a notification for a topic: one delivery for each group with its expression, in the order in which
their tickets joined it, by the group as it is now; and none where there is no text to show. -/
structure Announces (s : Session) (t : Topic Listener) (id : BrokerId) (n : Notification) (ms : List Member) :
    Prop where
  members : ms.Perm (s.roster.members.filter (·.group.expression = t.expression))
  ordered : ms.Pairwise (·.ticket < ·.ticket)
  joined : (tickets ms).Sublist t.tickets
  delivered : n.text? Message.textName ≠ none → ∃ ds, (s.announce id n).deliveries = s.deliveries ++ ds ∧
    ds.map some = ms.map fun m => (Message.ofNotification? n m.group).map (⟨·, m.group.autoMime⟩)
  undelivered : n.text? Message.textName = none → (s.announce id n).deliveries = s.deliveries

structure Announcing (s : Session) (id : BrokerId) (n : Notification) : Prop where
  found : ∀ t, s.client.board.topicUnder? id = some t → ∃ ms, s.Announces t id n ms
  unfound : s.client.board.topicUnder? id = none → (s.announce id n).deliveries = s.deliveries
  current : ∃ ds, (s.announce id n).deliveries = s.deliveries ++ ds ∧
    ∀ d ∈ ds, ∃ m ∈ s.roster.members, m.group.delivery? n = some d
  acted : (∀ x ∈ s.client.board.audience id, x.isQuiet = true) →
    (s.client.board.audience id).length ≤ taskLimit →
    (s.act (.input (.arrival (.notification id n)))).1 = s.announce id n
  amid : (s.tasksOf (.input (.arrival (.notification id n)))).length < taskLimit →
    ∃ own ds, (s.announce id n).deliveries = s.deliveries ++ own ∧
      (s.act (.input (.arrival (.notification id n)))).1.deliveries = s.deliveries ++ ds ∧ own.Sublist ds
  mute : (∀ x ∈ s.client.board.audience id, x.isMute = true) →
    (s.tasksOf (.input (.arrival (.notification id n)))).length < taskLimit →
    (s.act (.input (.arrival (.notification id n)))).1.deliveries = (s.announce id n).deliveries

variable {s : Session} {id : BrokerId} {n : Notification}

theorem announces_of_attended (h : s.roster.Attended s.client) (hs : s.roster.Fit s.client) {t : Topic Listener}
    (ht : s.client.board.topicUnder? id = some t) : ∃ ms, s.Announces t id n ms ∧
      (s.announce id n).deliveries = s.deliveries ++ ms.filterMap fun m => m.group.delivery? n := by
  obtain ⟨k, -, hk⟩ := Option.bind_eq_some_iff.mp ht
  have hcallers := Switchboard.callersOf_of_topic hs.sound.coherent hk
  obtain ⟨ms, hmembers, hordered, hjoined, hheard⟩ := h.exists_members hs t.expression
  have hds : (s.announce id n).deliveries = s.deliveries ++ ms.filterMap fun m => m.group.delivery? n := by
    rw [deliveries_announce, Switchboard.audience_eq hs.sound.coherent, ht, ← hheard, hcallers]
  rw [hcallers] at hjoined
  refine ⟨ms, ⟨hmembers, hordered, hjoined, fun htext => ⟨_, hds, map_some_filterMap fun m _ => ?_⟩,
    fun htext => ?_⟩, hds⟩
  · obtain ⟨message, hmessage⟩ := Message.exists_ofNotification? htext m.group
    simp [Group.delivery?, hmessage]
  · rw [hds]
    simp [Group.delivery?, Message.ofNotification?_eq_none htext]

theorem Steady.announcing (h : s.Steady) (id : BrokerId) (n : Notification) : s.Announcing id n := by
  cases ht : s.client.board.topicUnder? id with
  | none =>
    have hsame : (s.announce id n).deliveries = s.deliveries := by
      rw [deliveries_announce, Switchboard.audience_eq h.fit.sound.coherent, ht]
      simp
    exact ⟨by simp [ht], fun _ => hsame, ⟨[], by simpa using hsame, by simp⟩, act_eq_announce, announced_amid_acts,
      deliveries_of_mute⟩
  | some t =>
    obtain hclosed | hattended := h.attended
    · have hids := h.ids (Connection.link?_of_closed h.fit.sound.connection hclosed)
      simp [Switchboard.topicUnder?, hids] at ht
    · obtain ⟨ms, hms, hds⟩ := announces_of_attended (n := n) hattended h.fit ht
      refine ⟨?_, by simp [ht], ⟨_, hds, fun d hd => ?_⟩, act_eq_announce, announced_amid_acts, deliveries_of_mute⟩
      · intro t' ht'
        obtain rfl := Option.some.inj (ht.symm.trans ht')
        exact ⟨ms, hms⟩
      · obtain ⟨m, hm, hmd⟩ := List.mem_filterMap.mp hd
        exact ⟨m, (List.mem_filter.mp (hms.members.mem_iff.mp hm)).1, hmd⟩

/-- In every session whose roster has its tickets to itself, a notification is delivered by the groups as they are
now. The topic that is found under an id is the one that holds it, if the broker gives out no id twice. -/
theorem announcing_follow {check : Expression.Check} {p : Settings} (hs : Session.ofSettings check p = .ok s)
    {os : List Occasion} (hp : s.Along Private os) (id : BrokerId) (n : Notification) : (s.follow os).Announcing id n ∧
      (s.Along Fresh os → ∀ t, (s.follow os).client.board.topicUnder? id = some t ↔
        ∃ m : TopicNo, (s.follow os).client.board.topics[m]? = some t ∧ t.held.map (·.id) = some id) := by
  have h := Steady.ofSettings hs
  refine ⟨(h.follow hp).announcing id n, fun hf t => Switchboard.BrokerIds.topicUnder?_iff ?_⟩
  refine brokerIds_follow h.fit ?_ hf
  obtain ⟨c, hc, rfl⟩ := eq_of_ofSettings hs
  rw [Client.eq_of_ofSettings hc]
  exact .empty

theorem Steady.of_reaches {s' : Session} {os : List Occasion} (h : s.Steady) (hp : s.Along Private os)
    (hr : s.Reaches os s') : s'.Steady := by
  obtain ⟨notes, deliveries, rfl⟩ := hr
  have hfollow := h.follow hp
  exact ⟨hfollow.fit, hfollow.ids, hfollow.attended⟩

/-- The same holds where listeners act, if what they do is counted among what happens to the session. -/
theorem announcing_enact {check : Expression.Check} {p : Settings} (hs : Session.ofSettings check p = .ok s)
    {as : List (Act Listener)} (hp : s.Along Private (s.occasions as)) (id : BrokerId) (n : Notification) :
    (s.enact as).Announcing id n :=
  ((Steady.ofSettings hs).of_reaches hp (s.reaches_enact as)).announcing id n

def tick : Notification :=
  Notification.empty.insert Message.textName (.text "tick")

/-- A script that clears the groups when it is called does not keep the next listener from being called. -/
example : ∃ s, Session.ofSettings Expression.refusal? (.ofEndpoint "tcp://broker") = .ok s ∧
    let acts : List (Act Listener) :=
      [.input .start, .input (.arrival (.connectResult 1 (.ok 7))),
        .input (.subscribe ⟨"require(A)", [], .script "other" [.clear]⟩),
        .reload [⟨"a", "require(A)", true, false, 1, 60, []⟩], .input (.arrival (.ack 1 (.added (.ok 5)))),
        .input (.arrival (.notification 5 tick))]
    (s.enact acts).roster.members = [] ∧ (s.enact acts).deliveries.length = 1 :=
  ⟨_, rfl, by decide +kernel⟩

/-- Two groups share a topic with a script that hears before them. The next menu changes their keys and turns them
about, and while the modification is under way comes another, which the broker refuses. -/
def restlessMenu : List Occasion :=
  [.input .start, .input (.arrival (.connectResult 1 (.ok 7))), .input (.reloadKeys [⟨"k", false, [1]⟩]),
    .input (.subscribe ⟨"require(A)", [], .script "other" []⟩),
    .reload [⟨"a", "require(A)", true, false, 1, 60, []⟩, ⟨"b", "require(A)", true, false, 1, 60, []⟩],
    .input (.arrival (.ack 1 (.added (.ok 5)))),
    .reload [⟨"b", "require(A)", true, true, 2, 50, ["k"]⟩, ⟨"a", "require(A)", true, true, 3, 40, []⟩],
    .reload [⟨"a", "require(A)", true, false, 4, 30, ["k"]⟩, ⟨"b", "require(A)", true, true, 5, 20, []⟩],
    .input (.arrival (.ack 2 (.modified (.error ⟨3, "no"⟩)))), .input (.unsubscribe 1)]

theorem announcing_follow_restlessMenu : ∃ s,
    Session.ofSettings Expression.refusal? (.ofEndpoint "tcp://broker") = .ok s ∧
    s.Along Private restlessMenu ∧ s.Along Fresh restlessMenu ∧ (s.follow restlessMenu).Announcing 5 tick ∧
    ∀ t, (s.follow restlessMenu).client.board.topicUnder? 5 = some t ↔
      ∃ m : TopicNo, (s.follow restlessMenu).client.board.topics[m]? = some t ∧ t.held.map (·.id) = some 5 :=
  have hs : Session.ofSettings Expression.refusal? (.ofEndpoint "tcp://broker") = .ok _ := rfl
  have h := announcing_follow hs (by decide +kernel : Along Private _ restlessMenu) 5 tick
  ⟨_, hs, by decide +kernel, by decide +kernel, h.1, h.2 (by decide +kernel)⟩

end Session

end Herald
