import Herald.Proofs.Seats
import Herald.Session

namespace Herald

variable {L : Type}

def Group.wish (listener : Group → L) (g : Group) : Wish L :=
  ⟨g.expression, g.keyNames, listener g⟩

def Group.fault? (check : Expression.Check) (g : Group) : Option Fault :=
  (check g.expression).map (.invalidExpression g.expression)

def Member.caller (listener : Group → L) (m : Member) : Caller L :=
  (m.group.wish listener).caller m.ticket

def Member.tickets (ms : List Member) : List Ticket :=
  ms.map (·.ticket)

def Roster.tickets (r : Roster) : List Ticket :=
  Member.tickets r.members

theorem Group.fault?_congr {check : Expression.Check} {g g' : Group} (h : g'.expression = g.expression) :
    g'.fault? check = g.fault? check := by
  rw [fault?, fault?, h]

theorem subscribe_group (listener : Group → L) (c : Client L) (g : Group) :
    match g.fault? c.check with
    | none => ∃ k r, c.subscribe (g.wish listener) = (.ok k, r)
    | some fault => c.subscribe (g.wish listener) = (.error fault, c, []) := by
  rw [Client.subscribe, Switchboard.subscribe_eq, Group.fault?, Group.wish]
  cases c.check g.expression with
  | none => exact ⟨_, _, rfl⟩
  | some reason => rfl

section Subscribing

variable {listener : Group → L} {c : Client L} {g : Group}

theorem fault?_of_subscribe_ok {k : Ticket} {r : Client L × List Call}
    (hs : c.subscribe (g.wish listener) = (.ok k, r)) : g.fault? c.check = none := by
  have h := subscribe_group listener c g
  cases hf : g.fault? c.check with
  | none => rfl
  | some fault => simp [hf, hs] at h

theorem fault?_of_subscribe_error {fault : Fault} (hs : (c.subscribe (g.wish listener)).1 = .error fault) :
    g.fault? c.check = some fault := by
  have h := subscribe_group listener c g
  cases hf : g.fault? c.check with
  | none =>
    simp only [hf] at h
    obtain ⟨k, r, hok⟩ := h
    simp [hok] at hs
  | some fault' =>
    simp only [hf] at h
    rw [h] at hs
    exact congrArg some (Except.error.inj hs)

end Subscribing

namespace Reload

variable {listener : Group → L} {r r' : Reload L} {g : Group} {m : Member}

/-- All that happens when a group is taken in. A member that is taken over stands first among the old ones with
its expression; it is lost if the client does not know its ticket any more. -/
inductive Placed (listener : Group → L) (r : Reload L) (g : Group) : Reload L → Prop
  | kept {before after : List Member} {m : Member} {c : Client L} {calls : List Call} :
      r.old = before ++ m :: after → (∀ a ∈ before, a.group.expression ≠ g.expression) →
      m.group.expression = g.expression →
      r.client.revise m.ticket (g.wish listener) = (.ok (), c, calls) →
      Placed listener r g {
        { r with client := c, calls := r.calls ++ calls, old := before ++ after }.keep g m.ticket with
        report := { r.report with updated := r.report.updated ++ [g.name] } }
  | lost {before after : List Member} {m : Member} {fault : Fault} : r.old = before ++ m :: after →
      m.group.expression = g.expression →
      (r.client.revise m.ticket (g.wish listener)).1 = .error fault →
      Placed listener r g ({ r with old := before ++ after }.refuse g fault)
  | added {k : Ticket} {c : Client L} {calls : List Call} : (∀ a ∈ r.old, a.group.expression ≠ g.expression) →
      r.client.subscribe (g.wish listener) = (.ok k, c, calls) →
      Placed listener r g { { r with client := c, calls := r.calls ++ calls }.keep g k with
        report := { r.report with added := r.report.added ++ [g.name] } }
  | refused {fault : Fault} : (∀ a ∈ r.old, a.group.expression ≠ g.expression) →
      (r.client.subscribe (g.wish listener)).1 = .error fault → Placed listener r g (r.refuse g fault)

theorem placed (h : r.client.Sound) (listener : Group → L) (g : Group) :
    Placed listener r g (r.place listener g) := by
  unfold place
  cases hf : r.old.find? (·.group.expression = g.expression) with
  | none =>
    have hnone : ∀ a ∈ r.old, a.group.expression ≠ g.expression := by simpa using hf
    dsimp only [proceed]
    rcases hs : r.client.subscribe ⟨g.expression, g.keyNames, listener g⟩ with ⟨fault | k, c, calls⟩
    · obtain ⟨rfl, rfl⟩ := Client.of_unchanged Client.subscribe_unchanged hs
      simpa using Placed.refused hnone (congrArg Prod.fst hs)
    · exact .added hnone hs
  | some m =>
    obtain ⟨hm, before, after, hold, hbefore⟩ := List.find?_eq_some_iff_append.mp hf
    have herase : r.old.eraseP (·.group.expression = g.expression) = before ++ after := by
      rw [hold, List.eraseP_append_right _ (by simpa using hbefore), List.eraseP_cons_of_pos (by simpa using hm)]
    dsimp only [proceed]
    rw [herase]
    rcases hs : r.client.revise m.ticket ⟨g.expression, g.keyNames, listener g⟩ with ⟨fault | u, c, calls⟩
    · obtain ⟨rfl, rfl⟩ := Client.of_unchanged h.revise_unchanged hs
      simpa using Placed.lost hold (by simpa using hm) (congrArg Prod.fst hs)
    · exact .kept hold (by simpa using hbefore) (by simpa using hm) hs

structure Fit (r : Reload L) : Prop where
  sound : r.client.Sound
  nodup : (Member.tickets (r.members ++ r.old)).Nodup
  bound : ∀ k ∈ Member.tickets (r.members ++ r.old), k < r.client.board.nextTicket
  valid : ∀ m ∈ r.members ++ r.old, m.group.fault? r.client.check = none

namespace Fit

theorem of_subset (h : r.Fit) (hs : r'.client.Sound) (hcheck : r'.client.check = r.client.check)
    (hnext : r.client.board.nextTicket ≤ r'.client.board.nextTicket)
    (hsub : (r'.members ++ r'.old).Sublist (r.members ++ r.old)) : r'.Fit where
  sound := hs
  nodup := h.nodup.sublist (hsub.map _)
  bound := fun k hk => Nat.lt_of_lt_of_le (h.bound k ((hsub.map _).subset hk)) hnext
  valid := fun m hm => hcheck ▸ h.valid m (hsub.subset hm)

theorem place (h : r.Fit) (listener : Group → L) (g : Group) : (r.place listener g).Fit := by
  have hp := placed h.sound listener g
  generalize r.place listener g = r' at hp
  cases hp with
  | refused _ _ => exact h.of_subset h.sound rfl (Nat.le_refl _) (.refl _)
  | @lost before after m fault hold _ _ =>
    refine h.of_subset h.sound rfl (Nat.le_refl _) ?_
    rw [hold]
    exact (((List.sublist_cons_self m after).append_left before)).append_left r.members
  | @kept before after m c calls hold hbefore hm hs =>
    obtain ⟨hsound, hnext, -⟩ := h.sound.revised_ok hs
    -- The group goes by the member's ticket, so the tickets are the same in another order.
    have hperm : (Member.tickets (r.members ++ r.old)).Perm
        (Member.tickets ((r.members ++ [⟨g, m.ticket⟩]) ++ (before ++ after))) := by
      rw [hold]
      simp only [Member.tickets, List.map_append, List.map_cons, List.append_assoc, List.map_nil]
      exact List.perm_middle.append_left _
    refine ⟨hsound, hperm.nodup h.nodup, fun k hk => ?_, fun a ha => ?_⟩
    · exact hnext ▸ h.bound k (hperm.mem_iff.mpr hk)
    · change a ∈ (r.members ++ [⟨g, m.ticket⟩]) ++ (before ++ after) at ha
      have hcheck : c.check = r.client.check := Client.check_onBoard hs
      obtain ha | rfl : a ∈ r.members ++ r.old ∨ a = ⟨g, m.ticket⟩ := by grind
      · exact hcheck ▸ h.valid a ha
      · exact hcheck ▸ (Group.fault?_congr hm.symm).trans (h.valid m (by simp [hold]))
  | @added k c calls hnone hs =>
    obtain ⟨hsound, rfl, hnext, -⟩ := h.sound.subscribed hs
    have hperm : (r.client.board.nextTicket :: Member.tickets (r.members ++ r.old)).Perm
        (Member.tickets ((r.members ++ [⟨g, r.client.board.nextTicket⟩]) ++ r.old)) := by
      simp only [Member.tickets, List.map_append, List.map_cons, List.append_assoc, List.map_nil]
      exact List.perm_middle.symm
    have hnew : r.client.board.nextTicket ∉ Member.tickets (r.members ++ r.old) :=
      fun hmem => Nat.lt_irrefl _ (h.bound _ hmem)
    refine ⟨hsound, hperm.nodup (List.nodup_cons.mpr ⟨hnew, h.nodup⟩), fun k hk => ?_, fun a ha => ?_⟩
    · refine Nat.lt_of_lt_of_eq ?_ hnext.symm
      obtain rfl | hk := List.mem_cons.mp (hperm.mem_iff.mpr hk)
      · exact Nat.lt_succ_self _
      · exact Nat.lt_succ_of_lt (h.bound k hk)
    · change a ∈ (r.members ++ [⟨g, r.client.board.nextTicket⟩]) ++ r.old at ha
      have hcheck : c.check = r.client.check := Client.check_onBoard hs
      obtain ha | rfl : a ∈ r.members ++ r.old ∨ a = ⟨g, r.client.board.nextTicket⟩ := by grind
      · exact hcheck ▸ h.valid a ha
      · exact hcheck ▸ fault?_of_subscribe_ok hs

theorem foldl_place (h : r.Fit) (listener : Group → L) (groups : List Group) :
    (groups.foldl (Reload.place listener) r).Fit := by
  induction groups generalizing r with
  | nil => exact h
  | cons g groups ih => exact ih (h.place listener g)

end Fit

structure Releases (ks : List Ticket) (r r' : Reload L) : Prop where
  sound : r'.client.Sound
  check : r'.client.check = r.client.check
  nextTicket : r'.client.board.nextTicket = r.client.board.nextTicket
  callers : ∀ e, r'.client.board.callersOf e = (r.client.board.callersOf e).filter (·.ticket ∉ ks)
  members : r'.members = r.members

namespace Releases

theorem release (h : r.client.Sound) (m : Member) : Releases [m.ticket] r (r.release m) := by
  unfold Reload.release proceed
  rcases hs : r.client.unsubscribe m.ticket with ⟨fault | u, c, calls⟩
  -- A ticket that is not known has no caller.
  · obtain ⟨rfl, rfl⟩ := Client.of_unchanged Client.unsubscribe_unchanged hs
    refine ⟨h, rfl, rfl, fun e => (List.filter_eq_self.mpr fun d hd => ?_).symm, rfl⟩
    rw [decide_eq_true_eq, List.mem_singleton]
    intro hk
    obtain ⟨n, t, hn, -⟩ := (Switchboard.mem_callersOf_iff h.coherent).mp ⟨d, hd, hk⟩
    have hok := Switchboard.unsubscribe_known hn r.client.link?
    simp [Client.unsubscribe, Client.onBoard, hok] at hs
  · obtain ⟨b, hb, rfl⟩ := Client.of_onBoard hs
    obtain ⟨hnext, hcallers⟩ := Switchboard.callersOf_unsubscribe h.coherent hb
    refine ⟨(h.unsubscribed hs).1, rfl, hnext, fun e => ?_, rfl⟩
    dsimp only
    rw [hcallers]
    simp

theorem remove (h : r.client.Sound) (m : Member) : Releases [m.ticket] r (r.remove m) := by
  have hr := Releases.release h m
  exact ⟨hr.sound, hr.check, hr.nextTicket, hr.callers, hr.members⟩

theorem foldl {f : Reload L → Member → Reload L}
    (hf : ∀ {r : Reload L}, r.client.Sound → ∀ m, Releases [m.ticket] r (f r m)) (h : r.client.Sound)
    (ms : List Member) : Releases (Member.tickets ms) r (ms.foldl f r) := by
  induction ms generalizing r with
  | nil => exact ⟨h, rfl, rfl, fun e => by simp [Member.tickets], rfl⟩
  | cons m ms ih =>
    have hfirst := hf h m
    have hrest := ih hfirst.sound
    refine ⟨hrest.sound, hrest.check.trans hfirst.check, hrest.nextTicket.trans hfirst.nextTicket, fun e => ?_,
      hrest.members.trans hfirst.members⟩
    rw [List.foldl_cons, hrest.callers, hfirst.callers, List.filter_filter]
    refine List.filter_congr fun d _ => ?_
    simp [Member.tickets, Bool.and_comm]

end Releases

theorem report_foldl_remove (ms : List Member) (r : Reload L) : (ms.foldl Reload.remove r).report =
    { r.report with removed := r.report.removed ++ ms.map (·.group.name) } := by
  induction ms generalizing r with
  | nil => simp
  | cons m ms ih => simp [ih, remove, release, proceed]

end Reload

namespace Roster

variable {listener : Group → L} {r : Roster} {c : Client L}

def Fit (r : Roster) (c : Client L) : Prop :=
  (r.begin c).Fit

theorem Fit.sound (h : r.Fit c) : c.Sound :=
  Reload.Fit.sound h

theorem Fit.bound (h : r.Fit c) : ∀ k ∈ r.tickets, k < c.board.nextTicket :=
  Reload.Fit.bound h

theorem Fit.empty (hc : c.Sound) : Roster.empty.Fit c :=
  ⟨hc, .nil, by simp [begin, Roster.empty, Member.tickets], by simp [begin, Roster.empty]⟩

theorem Fit.step (h : r.Fit c) (i : Input L) : r.Fit (c.step i).1 :=
  Reload.Fit.of_subset h (h.sound.step i) (c.check_step i) (h.sound.nextTicket_le i) (.refl _)

theorem Fit.reload (h : r.Fit c) (listener : Group → L) (groups : List Group) :
    (r.reload listener c groups).1.Fit (r.reload listener c groups).2.2.1 := by
  have hplaced := Reload.Fit.foldl_place h listener groups
  have hremoved := Reload.Releases.foldl Reload.Releases.remove hplaced.sound
    (groups.foldl (Reload.place listener) (r.begin c)).old
  refine Reload.Fit.of_subset hplaced hremoved.sound hremoved.check (Nat.le_of_eq hremoved.nextTicket.symm) ?_
  exact hremoved.members ▸ List.sublist_append_left _ _

theorem Fit.clear (h : r.Fit c) : (r.clear c).1.Fit (r.clear c).2.1 :=
  .empty (Reload.Releases.foldl Reload.Releases.release h.sound r.members).sound

end Roster

namespace Session

inductive Occasion
  | input (i : Input Listener)
  | reload (groups : List Group)
  | clear

def meet (s : Session) : Occasion → Session
  | .input i => (s.perform (.input i)).1
  | .reload groups => (s.reloadGroups groups).1
  | .clear => s.clearGroups

def follow (s : Session) : List Occasion → Session
  | [] => s
  | o :: os => (s.meet o).follow os

variable {s : Session}

theorem eq_of_ofSettings {check : Expression.Check} {p : Settings} (hs : Session.ofSettings check p = .ok s) :
    ∃ c, Client.ofSettings check p = .ok c ∧ s = ⟨c, .empty, [], [], [], []⟩ := by
  unfold Session.ofSettings at hs
  cases hc : (Client.ofSettings check p : Except Fault (Client Listener)) with
  | error fault => simp [hc, bind, Except.bind] at hs
  | ok c =>
    simp only [hc, bind, Except.bind, pure, Except.pure, Except.ok.injEq] at hs
    exact ⟨c, rfl, hs.symm⟩

theorem fit_ofSettings {check : Expression.Check} {p : Settings} (hs : Session.ofSettings check p = .ok s) :
    s.roster.Fit s.client := by
  obtain ⟨c, hc, rfl⟩ := eq_of_ofSettings hs
  exact .empty (.ofSettings hc)

theorem fit_meet (h : s.roster.Fit s.client) (o : Occasion) : (s.meet o).roster.Fit (s.meet o).client := by
  cases o with
  | input i => exact h.step i
  | reload groups => exact h.reload .group groups
  | clear => exact h.clear

theorem fit_follow (h : s.roster.Fit s.client) (os : List Occasion) :
    (s.follow os).roster.Fit (s.follow os).client := by
  induction os generalizing s with
  | nil => exact h
  | cons o os ih => exact ih (fit_meet h o)

end Session

end Herald
