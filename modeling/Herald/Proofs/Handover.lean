import Herald.Proofs.Neighbours
import Herald.Proofs.Placing

namespace Herald

variable {L : Type}

def Member.carrying (ms : List Member) (e : String) : List Member :=
  ms.filter (·.group.expression = e)

def Roster.ticketsFor (r : Roster) (e : String) : List Ticket :=
  Member.tickets (Member.carrying r.members e)

namespace Member

variable {ms ns : List Member} {m : Member} {e : String}

@[simp] theorem tickets_append : tickets (ms ++ ns) = tickets ms ++ tickets ns :=
  List.map_append

@[simp] theorem tickets_cons : tickets (m :: ms) = m.ticket :: tickets ms :=
  rfl

@[simp] theorem tickets_nil : tickets [] = [] :=
  rfl

theorem carrying_append : carrying (ms ++ ns) e = carrying ms e ++ carrying ns e :=
  List.filter_append ..

theorem carrying_cons :
    carrying (m :: ms) e = if m.group.expression = e then m :: carrying ms e else carrying ms e := by
  simp [carrying, List.filter_cons]

theorem carrying_of_ne (h : m.group.expression ≠ e) : carrying (ms ++ [m]) e = carrying ms e := by
  simp [carrying, h]

theorem carrying_of_eq (h : m.group.expression = e) : carrying (ms ++ [m]) e = carrying ms e ++ [m] := by
  simp [carrying, h]

theorem filter_not_mem_append {α : Type} (f : α → Ticket) (xs : List α) (ms : List Member) (m : Member) :
    xs.filter (f · ∉ tickets (ms ++ [m])) = (xs.filter (f · ∉ tickets ms)).filter (f · ≠ m.ticket) := by
  rw [List.filter_filter]
  refine List.filter_congr fun x _ => ?_
  simp [and_comm]

theorem carrying_eq_nil (h : ∀ m ∈ ms, m.group.expression ≠ e) : carrying ms e = [] := by
  simpa [carrying] using h

theorem ticket_mem_carrying (h : m ∈ ms) : m.ticket ∈ tickets (carrying ms m.group.expression) :=
  List.mem_map_of_mem (List.mem_filter.mpr ⟨h, decide_eq_true rfl⟩)

theorem tickets_filter_subset (p : Member → Bool) (ms : List Member) : tickets (ms.filter p) ⊆ tickets ms :=
  (List.filter_sublist.map _).subset

end Member

/-- How the tickets of one expression are handed over: the new ones are the old ones as far as they go, in order, and
then fresh ones. -/
def Hands (olds lefts news : List Ticket) (next : Ticket) : Prop :=
  ∃ fresh, news ++ lefts = olds ++ fresh ∧ (lefts = [] ∨ fresh = []) ∧ ∀ k ∈ fresh, next ≤ k

namespace Hands

variable {olds lefts news : List Ticket} {next k : Ticket}

theorem start (olds : List Ticket) (next : Ticket) : Hands olds olds [] next :=
  ⟨[], by simp, .inr rfl, by simp⟩

theorem keep (h : Hands olds (k :: lefts) news next) : Hands olds lefts (news ++ [k]) next := by
  obtain ⟨fresh, heq, hnil | rfl, hfresh⟩ := h
  · cases hnil
  · exact ⟨[], by simpa using heq, .inr rfl, hfresh⟩

theorem add (h : Hands olds [] news next) (hk : next ≤ k) : Hands olds [] (news ++ [k]) next := by
  obtain ⟨fresh, heq, -, hfresh⟩ := h
  refine ⟨fresh ++ [k], ?_, .inl rfl, ?_⟩
  · rw [List.append_nil] at heq ⊢
    rw [heq, List.append_assoc]
  · intro j hj
    obtain hj | hj := List.mem_append.mp hj
    · exact hfresh j hj
    · exact List.mem_singleton.mp hj ▸ hk

theorem kept (h : Hands olds lefts news next) : news.take olds.length = olds.take news.length := by
  obtain ⟨fresh, heq, rfl | rfl, -⟩ := h
  · simp only [List.append_nil] at heq
    rw [heq, List.take_left, List.take_of_length_le (by simp)]
  · simp only [List.append_nil] at heq
    rw [← heq, List.take_left, List.take_of_length_le (by simp)]

theorem fresh (h : Hands olds lefts news next) : ∀ k ∈ news.drop olds.length, next ≤ k := by
  obtain ⟨fresh, heq, rfl | rfl, hfresh⟩ := h
  · simp only [List.append_nil] at heq
    rwa [heq, List.drop_left]
  · simp only [List.append_nil] at heq
    rw [← heq, List.drop_of_length_le (by simp)]
    exact hfresh

theorem old_or_fresh (hkept : news.take olds.length = olds.take news.length)
    (hfresh : ∀ k ∈ news.drop olds.length, next ≤ k) (hk : k ∈ news) : k ∈ olds ∨ next ≤ k := by
  rw [← List.take_append_drop olds.length news, hkept] at hk
  exact (List.mem_append.mp hk).imp List.mem_of_mem_take (hfresh k)

theorem lefts_eq (h : Hands olds lefts news next) : lefts = olds.drop news.length := by
  obtain ⟨fresh, heq, rfl | rfl, -⟩ := h
  · simp only [List.append_nil] at heq
    simp [heq]
  · simp only [List.append_nil] at heq
    simp [← heq]

end Hands

theorem Client.Sound.revise_of_seated {c : Client L} {k : Ticket} {w : Wish L} (h : c.Sound)
    (hk : c.board.Seated k) (hw : c.check w.expression = none) : ∃ r, c.revise k w = (.ok (), r) := by
  obtain ⟨e, d, hd, rfl⟩ := hk
  obtain ⟨n, t, hn, ht, -⟩ := (Switchboard.mem_callersOf_iff h.coherent).mp ⟨d, hd, rfl⟩
  obtain ⟨r, hr⟩ := Switchboard.revise_ok (w := w) c.link? h.coherent hn ht (.inr hw)
  exact ⟨({ c with board := r.1 }, r.2), by simp [Client.revise, Client.onBoard, hr]⟩

open Member (tickets carrying)

namespace Reload

variable {listener : Group → L} {c : Client L} {old : List Member} {done : List Group} {r r' : Reload L} {g : Group}
  {k : Ticket}

structure Progress (listener : Group → L) (c : Client L) (old : List Member) (done : List Group) (r : Reload L) :
    Prop where
  fit : r.Fit
  check : r.client.check = c.check
  groups : r.members.map (·.group) = done.filter fun g => (g.fault? c.check).isNone
  left : r.old = old.filter (·.ticket ∉ tickets r.members)
  handed : ∀ e, Hands (tickets (carrying old e)) (tickets (carrying r.old e)) (tickets (carrying r.members e))
    c.board.nextTicket
  next : c.board.nextTicket ≤ r.client.board.nextTicket
  own : ∀ m ∈ r.members, m.caller listener ∈ r.client.board.callersOf m.group.expression
  others : ∀ e, (r.client.board.callersOf e).filter (·.ticket ∉ tickets r.members) =
    (c.board.callersOf e).filter (·.ticket ∉ tickets r.members)
  updated : r.report.updated = (r.members.filter (·.ticket ∈ tickets old)).map (·.group.name)
  added : r.report.added = (r.members.filter (·.ticket ∉ tickets old)).map (·.group.name)
  errors : r.report.errors = done.filterMap fun g => (g.fault? c.check).map (g.name, ·)
  removed : r.report.removed = []

namespace Progress

theorem start (listener : Group → L) (hr : (Roster.mk old).Fit c) :
    Progress listener c old [] ((Roster.mk old).begin c) where
  fit := hr
  check := rfl
  groups := rfl
  left := by simp [Roster.begin]
  handed := fun e => .start _ _
  next := Nat.le_refl _
  own := by simp [Roster.begin]
  others := fun _ => rfl
  updated := rfl
  added := rfl
  errors := rfl
  removed := rfl

theorem seats (h : Progress listener c old done r) (hk : k ∉ tickets r.members) {b : Switchboard L}
    (hb : Switchboard.Reseats k (some (g.expression, Member.caller listener ⟨g, k⟩)) r.client.board b) :
    (∀ m ∈ r.members ++ [⟨g, k⟩], m.caller listener ∈ b.callersOf m.group.expression) ∧
      ∀ e, (b.callersOf e).filter (·.ticket ∉ tickets (r.members ++ [⟨g, k⟩])) =
        (c.board.callersOf e).filter (·.ticket ∉ tickets (r.members ++ [⟨g, k⟩])) := by
  constructor
  · intro m hm
    obtain hm | hm := List.mem_append.mp hm
    · refine hb.mem_iff.mpr (.inl ⟨h.own m hm, ?_⟩)
      intro hticket
      exact hk (hticket ▸ List.mem_map_of_mem hm)
    · obtain rfl := List.mem_singleton.mp hm
      exact hb.mem_iff.mpr (.inr rfl)
  · intro e
    have hsame := hb.filter_eq (p := fun j => decide (j ∉ tickets (r.members ++ [⟨g, k⟩]))) (by simp) e
    refine hsame.trans ?_
    rw [Member.filter_not_mem_append, h.others, ← Member.filter_not_mem_append]

section Taking

variable {before after : List Member} {m : Member}

theorem taken (h : Progress listener c old done r) (hold : r.old = before ++ m :: after) :
    m ∈ old ∧ m.ticket ∉ tickets r.members ∧ m.group.fault? c.check = none := by
  have hmem : m ∈ old.filter (·.ticket ∉ tickets r.members) := h.left ▸ hold ▸ by simp
  obtain ⟨hmold, hnew⟩ := List.mem_filter.mp hmem
  exact ⟨hmold, by simpa using hnew, h.check ▸ h.fit.valid m (by simp [hold])⟩

theorem mem_callersOf (h : Progress listener c old done r) {e : String} {d : Caller L}
    (hd : d ∈ c.board.callersOf e) (hnew : d.ticket ∉ tickets r.members) : d ∈ r.client.board.callersOf e := by
  have hd' : d ∈ (c.board.callersOf e).filter (·.ticket ∉ tickets r.members) :=
    List.mem_filter.mpr ⟨hd, decide_eq_true hnew⟩
  rw [← h.others] at hd'
  exact (List.mem_filter.mp hd').1

theorem revise_ok (h : Progress listener c old done r) (hlive : ∀ k ∈ tickets old, c.board.Seated k)
    (hold : r.old = before ++ m :: after) (hm : m.group.expression = g.expression) :
    ∃ s, r.client.revise m.ticket (g.wish listener) = (.ok (), s) := by
  obtain ⟨hmold, hnew, hvalid⟩ := h.taken hold
  have hg : g.fault? c.check = none := (Group.fault?_congr hm.symm).trans hvalid
  refine h.fit.sound.revise_of_seated ?_ (h.check ▸ Option.map_eq_none_iff.mp hg)
  obtain ⟨e, d, hd, hdk⟩ := hlive m.ticket (List.mem_map_of_mem hmold)
  exact ⟨e, d, h.mem_callersOf hd (hdk ▸ hnew), hdk⟩

theorem left_kept (h : Progress listener c old done r) (hold : r.old = before ++ m :: after) :
    before ++ after = old.filter (·.ticket ∉ tickets (r.members ++ [⟨g, m.ticket⟩])) := by
  have hnodup : (tickets (before ++ m :: after)).Nodup := by
    have hall := h.fit.nodup
    rw [hold, Member.tickets_append] at hall
    exact hall.of_append_right
  rw [tickets, List.map_append, List.map_cons, List.nodup_middle, List.nodup_cons, ← List.map_append] at hnodup
  rw [Member.filter_not_mem_append, ← h.left, hold, List.filter_append,
    List.filter_cons_of_neg (by simp), ← List.filter_append, List.filter_eq_self.mpr]
  intro a ha
  refine decide_eq_true fun hk => hnodup.1 ?_
  exact hk ▸ List.mem_map_of_mem ha

theorem left_added (h : Progress listener c old done r) (hk : k ∉ tickets old) :
    r.old = old.filter (·.ticket ∉ tickets (r.members ++ [⟨g, k⟩])) := by
  rw [Member.filter_not_mem_append, ← h.left, List.filter_eq_self.mpr]
  intro a ha
  rw [h.left] at ha
  refine decide_eq_true fun (hak : a.ticket = k) => hk ?_
  exact hak ▸ List.mem_map_of_mem (List.mem_filter.mp ha).1

theorem handed_kept (h : Progress listener c old done r) (hold : r.old = before ++ m :: after)
    (hbefore : ∀ a ∈ before, a.group.expression ≠ g.expression) (hm : m.group.expression = g.expression)
    (e : String) : Hands (tickets (carrying old e)) (tickets (carrying (before ++ after) e))
      (tickets (carrying (r.members ++ [⟨g, m.ticket⟩]) e)) c.board.nextTicket := by
  have hand := h.handed e
  rw [hold, Member.carrying_append, Member.carrying_cons] at hand
  rw [Member.carrying_append]
  by_cases he : g.expression = e
  · subst he
    rw [Member.carrying_eq_nil hbefore, if_pos hm, List.nil_append] at hand
    rw [Member.carrying_eq_nil hbefore, List.nil_append, Member.carrying_of_eq rfl, Member.tickets_append]
    exact hand.keep
  · rw [if_neg (hm ▸ he)] at hand
    rwa [Member.carrying_of_ne he]

theorem handed_added (h : Progress listener c old done r)
    (hnone : ∀ a ∈ r.old, a.group.expression ≠ g.expression) (hk : c.board.nextTicket ≤ k) (e : String) :
    Hands (tickets (carrying old e)) (tickets (carrying r.old e))
      (tickets (carrying (r.members ++ [⟨g, k⟩]) e)) c.board.nextTicket := by
  have hand := h.handed e
  by_cases he : g.expression = e
  · subst he
    rw [Member.carrying_eq_nil hnone] at hand ⊢
    rw [Member.carrying_of_eq rfl, Member.tickets_append]
    exact hand.add hk
  · rwa [Member.carrying_of_ne he]

end Taking

theorem place (hc : c.Sound) (hlive : ∀ k ∈ tickets old, c.board.Seated k)
    (h : Progress listener c old done r) (g : Group) :
    Progress listener c old (done ++ [g]) (r.place listener g) := by
  have hfit := h.fit.place listener g
  have hp := placed h.fit.sound listener g
  generalize r.place listener g = r' at hp hfit
  cases hp with
  | @refused fault hnone hs =>
    have hg : g.fault? c.check = some fault := h.check ▸ fault?_of_subscribe_error hs
    exact { h with
      fit := hfit
      groups := by simp [refuse, h.groups, hg]
      errors := by simp [refuse, h.errors, hg] }
  | @lost before after m fault hold hm hs =>
    obtain ⟨s, hok⟩ := h.revise_ok hlive hold hm
    simp [hok] at hs
  | @kept before after m c' calls hold hbefore hm hs =>
    obtain ⟨-, hnext, hb⟩ := h.fit.sound.revised_ok hs
    obtain ⟨hmold, hnew, hvalid⟩ := h.taken hold
    have hg : g.fault? c.check = none := (Group.fault?_congr hm.symm).trans hvalid
    have hticket : m.ticket ∈ tickets old := List.mem_map_of_mem hmold
    obtain ⟨hown, hothers⟩ := h.seats (g := g) hnew hb
    exact {
      fit := hfit
      check := (Client.check_onBoard hs).trans h.check
      groups := by simp [keep, h.groups, hg]
      left := h.left_kept hold
      handed := h.handed_kept hold hbefore hm
      next := hnext ▸ h.next
      own := hown
      others := hothers
      updated := by simp [keep, h.updated, hticket]
      added := by simp [keep, h.added, hticket]
      errors := by simp [h.errors, hg]
      removed := h.removed }
  | @added k c' calls hnone hs =>
    obtain ⟨-, rfl, hnext, hb⟩ := h.fit.sound.subscribed hs
    have hg : g.fault? c.check = none := h.check ▸ fault?_of_subscribe_ok hs
    have hnew : r.client.board.nextTicket ∉ tickets r.members := fun hmem =>
      Nat.lt_irrefl _ (h.fit.bound _ (Member.tickets_append ▸ List.mem_append_left _ hmem))
    have hold : r.client.board.nextTicket ∉ tickets old := fun hmem =>
      Nat.lt_irrefl _ (Nat.lt_of_lt_of_le ((hlive _ hmem).lt hc.coherent) h.next)
    obtain ⟨hown, hothers⟩ := h.seats (g := g) hnew hb
    exact {
      fit := hfit
      check := (Client.check_onBoard hs).trans h.check
      groups := by simp [keep, h.groups, hg]
      left := h.left_added hold
      handed := h.handed_added hnone h.next
      next := hnext ▸ Nat.le_succ_of_le h.next
      own := hown
      others := hothers
      updated := by simp [keep, h.updated, hold]
      added := by simp [keep, h.added, hold]
      errors := by simp [h.errors, hg]
      removed := h.removed }

theorem foldl_place (hc : c.Sound) (hlive : ∀ k ∈ tickets old, c.board.Seated k)
    (h : Progress listener c old done r) (groups : List Group) :
    Progress listener c old (done ++ groups) (groups.foldl (Reload.place listener) r) := by
  induction groups generalizing done r with
  | nil => simpa using h
  | cons g groups ih => simpa using ih (h.place hc hlive g)

theorem old_or_fresh (h : Progress listener c old done r) (hk : k ∈ tickets r.members) :
    k ∈ tickets old ∨ c.board.nextTicket ≤ k := by
  obtain ⟨m, hm, rfl⟩ := List.mem_map.mp hk
  have hand := h.handed m.group.expression
  have hold := Hands.old_or_fresh hand.kept hand.fresh (Member.ticket_mem_carrying hm)
  exact hold.imp_left fun hmem => Member.tickets_filter_subset _ _ hmem

theorem not_mem_iff (h : Progress listener c old done r) (hk : k < c.board.nextTicket) :
    k ∉ tickets r.members ∧ k ∉ tickets r.old ↔ k ∉ tickets old := by
  rw [← not_or, not_iff_not]
  constructor
  · rintro (hmem | hmem)
    · exact (h.old_or_fresh hmem).resolve_right (Nat.not_le.mpr hk)
    · rw [h.left] at hmem
      exact Member.tickets_filter_subset _ _ hmem
  · intro hmem
    refine Classical.or_iff_not_imp_left.mpr fun hnew => ?_
    obtain ⟨m, hm, rfl⟩ := List.mem_map.mp hmem
    rw [h.left]
    exact List.mem_map_of_mem (List.mem_filter.mpr ⟨hm, by simpa using hnew⟩)

end Progress

end Reload

theorem length_faults (check : Expression.Check) (groups : List Group) :
    (groups.filter fun g => (g.fault? check).isNone).length +
      (groups.filterMap fun g => (g.fault? check).map (g.name, ·)).length = groups.length := by
  induction groups with
  | nil => rfl
  | cons g groups ih => cases hg : g.fault? check <;> simp [hg] <;> omega

structure Handover (listener : Group → L) (groups : List Group) (r : Roster) (c : Client L) (r' : Roster)
    (report : Report) (c' : Client L) : Prop where
  groups_eq : r'.groups = groups.filter fun g => (g.fault? c.check).isNone
  distinct : r'.tickets.Nodup
  subscribed : ∀ m ∈ r'.members, m.caller listener ∈ c'.board.callersOf m.group.expression
  live : ∀ m ∈ r'.members, ∃ i, c'.board.info? m.ticket = some i ∧ i.expression = m.group.expression
  kept : ∀ e, (r'.ticketsFor e).take (r.ticketsFor e).length = (r.ticketsFor e).take (r'.ticketsFor e).length
  fresh : ∀ e, ∀ k ∈ (r'.ticketsFor e).drop (r.ticketsFor e).length, c.board.nextTicket ≤ k
  released : ∀ e, ∀ k ∈ (r.ticketsFor e).drop (r'.ticketsFor e).length, c'.board.info? k = none
  others : ∀ e, (c'.board.callersOf e).filter (·.ticket ∉ r'.tickets) =
    (c.board.callersOf e).filter (·.ticket ∉ r.tickets)
  updated : report.updated = (r'.members.filter (·.ticket ∈ r.tickets)).map (·.group.name)
  added : report.added = (r'.members.filter (·.ticket ∉ r.tickets)).map (·.group.name)
  errors : report.errors = groups.filterMap fun g => (g.fault? c.check).map (g.name, ·)
  removed : report.removed = (r.members.filter (·.ticket ∉ r'.tickets)).map (·.group.name)
  total : report.updated.length + report.added.length + report.errors.length = groups.length

theorem Handover.old_or_fresh {listener : Group → L} {groups : List Group} {r r' : Roster} {c c' : Client L}
    {report : Report} (h : Handover listener groups r c r' report c') {k : Ticket} (hk : k ∈ r'.tickets) :
    k ∈ r.tickets ∨ c.board.nextTicket ≤ k := by
  obtain ⟨m, hm, rfl⟩ := List.mem_map.mp hk
  have hold := Hands.old_or_fresh (h.kept _) (h.fresh _) (Member.ticket_mem_carrying hm)
  exact hold.imp_left fun hmem => Member.tickets_filter_subset _ _ hmem

section Finishing

variable {listener : Group → L} {c : Client L} {old : List Member} {groups : List Group} {p d : Reload L}

namespace Reload.Progress

theorem own_released (h : Progress listener c old groups p) (hd : Releases (tickets p.old) p d) :
    ∀ m ∈ p.members, m.caller listener ∈ d.client.board.callersOf m.group.expression := by
  intro m hm
  have hnodup := h.fit.nodup
  rw [Member.tickets_append, List.nodup_append] at hnodup
  rw [hd.callers]
  refine List.mem_filter.mpr ⟨h.own m hm, decide_eq_true fun hmem => ?_⟩
  exact hnodup.2.2 _ (List.mem_map_of_mem hm) _ hmem rfl

theorem others_released (h : Progress listener c old groups p) (hc : c.Sound)
    (hd : Releases (tickets p.old) p d) (e : String) :
    (d.client.board.callersOf e).filter (·.ticket ∉ tickets p.members) =
      (c.board.callersOf e).filter (·.ticket ∉ tickets old) := by
  rw [hd.callers, List.filter_comm, h.others, List.filter_filter]
  refine List.filter_congr fun a ha => ?_
  have hlt := Switchboard.Seated.lt ⟨e, a, ha, rfl⟩ hc.coherent
  rw [← Bool.decide_and, decide_eq_decide, and_comm]
  exact h.not_mem_iff hlt

theorem handover (h : Progress listener c old groups p) (hc : c.Sound) (hd : Releases (tickets p.old) p d)
    (hreport : d.report = { p.report with removed := p.report.removed ++ p.old.map (·.group.name) }) :
    Handover listener groups ⟨old⟩ c ⟨p.members⟩ d.report d.client where
  groups_eq := h.groups
  distinct := by
    have hnodup := h.fit.nodup
    rw [Member.tickets_append] at hnodup
    exact hnodup.of_append_left
  subscribed := h.own_released hd
  live := fun m hm => (Switchboard.mem_callersOf_iff_info hd.sound.coherent).mp
    (List.mem_map_of_mem (h.own_released hd m hm))
  kept := fun e => (h.handed e).kept
  fresh := fun e => (h.handed e).fresh
  released := by
    intro e k hk
    rw [Roster.ticketsFor, Roster.ticketsFor, ← (h.handed e).lefts_eq] at hk
    have hleft : k ∈ tickets p.old := Member.tickets_filter_subset _ _ hk
    rw [← Option.not_isSome_iff_eq_none, ← Switchboard.seated_iff_info hd.sound.coherent]
    rintro ⟨e', a, ha, rfl⟩
    rw [hd.callers] at ha
    simpa [hleft] using (List.mem_filter.mp ha).2
  others := h.others_released hc hd
  updated := by rw [hreport, h.updated]; rfl
  added := by rw [hreport, h.added]; rfl
  errors := by rw [hreport, h.errors]
  removed := by
    rw [hreport, h.removed, List.nil_append, h.left]
    rfl
  total := by
    have hlength := congrArg List.length h.groups
    rw [List.length_map] at hlength
    rw [hreport, h.updated, h.added, h.errors, List.length_map, List.length_map, ← length_faults c.check groups,
      ← hlength, List.length_eq_length_filter_add (l := p.members) (·.ticket ∈ tickets old)]
    simp

end Reload.Progress

end Finishing

theorem Roster.Fit.handover {r : Roster} {c : Client L} (h : r.Fit c) (listener : Group → L)
    (hlive : ∀ k ∈ r.tickets, c.board.Seated k) (groups : List Group) :
    Handover listener groups r c (r.reload listener c groups).1 (r.reload listener c groups).2.1
      (r.reload listener c groups).2.2.1 := by
  have hplaced := Reload.Progress.foldl_place h.sound hlive (.start listener h) groups
  have hreleased := Reload.Releases.foldl Reload.Releases.remove hplaced.fit.sound
    (groups.foldl (Reload.place listener) (r.begin c)).old
  have hdone := hplaced.handover h.sound hreleased (Reload.report_foldl_remove _ _)
  rw [← hreleased.members] at hdone
  exact hdone

namespace Session

variable {s : Session}

theorem handover_follow {check : Expression.Check} {p : Settings} (hs : Session.ofSettings check p = .ok s)
    {os : List Occasion}
    (hlive : ∀ m ∈ (s.follow os).roster.members, ((s.follow os).client.board.info? m.ticket).isSome = true)
    (groups : List Group) : Handover .group groups (s.follow os).roster (s.follow os).client
      ((s.follow os).reloadGroups groups).1.roster ((s.follow os).reloadGroups groups).2
      ((s.follow os).reloadGroups groups).1.client := by
  have hfit := fit_follow (fit_ofSettings hs) os
  refine hfit.handover .group (fun k hk => ?_) groups
  obtain ⟨m, hm, rfl⟩ := List.mem_map.mp hk
  exact (Switchboard.seated_iff_info hfit.sound.coherent).mpr (hlive m hm)

def firstMenu : List Occasion :=
  [.input .start, .reload [⟨"a", "require(A)", true, false, 1, 60, []⟩, ⟨"b", "require(B)", true, false, 1, 60, ["k"]⟩,
      ⟨"c", "require(A)", false, true, 1, 60, ["j"]⟩],
    .input (.subscribe ⟨"require(A)", ["k"], .script "other" []⟩), .input (.arrival (.connectResult 1 (.ok 7)))]

def secondMenu : List Group :=
  [⟨"c", "require(A)", true, false, 1, 60, ["k"]⟩, ⟨"d", "require(A", true, false, 1, 60, []⟩,
    ⟨"c", "require(A)", true, true, 5, 60, []⟩, ⟨"a", "require(A)", true, false, 1, 60, []⟩]

theorem handover_follow_secondMenu : ∃ s, Session.ofSettings Expression.refusal? (.ofEndpoint "tcp://broker") = .ok s ∧
    (∀ m ∈ (s.follow firstMenu).roster.members, ((s.follow firstMenu).client.board.info? m.ticket).isSome = true) ∧
    Handover .group secondMenu (s.follow firstMenu).roster (s.follow firstMenu).client
      ((s.follow firstMenu).reloadGroups secondMenu).1.roster ((s.follow firstMenu).reloadGroups secondMenu).2
      ((s.follow firstMenu).reloadGroups secondMenu).1.client :=
  ⟨_, rfl, by decide +kernel, handover_follow (p := .ofEndpoint "tcp://broker") rfl (by decide +kernel)
    secondMenu⟩

end Session

end Herald
