import Herald.Proofs.Announcements
import Herald.Proofs.Modification

namespace Herald

variable {L : Type}

namespace Topic

variable {t : Topic L} {c : Caller L}

theorem replace_of_mem (h : t.Proper) (hc : c ∈ t.callers) : t.replace c = t := by
  have hcallers : (t.callers.map fun d => if d.ticket = c.ticket then c else d) = t.callers := by
    refine (List.map_congr_left fun d hd => ?_).trans (List.map_id _)
    split
    · next he => exact (List.inj_on_of_nodup_map h.nodup hd hc he).symm
    · rfl
  have hnames : t.wantedNames = t.keyNames := (h.keyNames (List.ne_nil_of_mem hc)).symm
  rw [replace, hcallers]
  exact if_pos hnames

theorem confirm_of_held {i : Holding} (hh : t.held = some i) : t.confirm i.terms = t := by
  rw [confirm, hh, Option.map_some, ← hh]

end Topic

namespace Switchboard

variable {b : Switchboard L} {n : TopicNo} {t : Topic L} {check : Expression.Check} {link : Option LinkId}
  {w : Wish L} {k : Ticket}

theorem put_of_topic (ht : b.topics[n]? = some t) : b.put n t = b := by
  have htopics : b.topics.insert n t = b.topics := by
    refine Std.ExtTreeMap.ext_getElem? fun m => ?_
    by_cases hm : m = n
    · rw [hm, Std.ExtTreeMap.getElem?_insert_self, ht]
    · exact topic_insert_ne m hm
  rw [put, htopics]

theorem settle_of_settled (ht : b.topics[n]? = some t) (hc : t.isActive = true)
    (hs : t.Settled b.table link.isSome) : b.settle link n = (b, []) := by
  have hsettling := settling link b n
  generalize b.settle link n = r at hsettling
  cases hsettling with
  | missing _ => rfl
  | idle _ _ => rfl
  | removal hu _ hnil _ =>
    obtain rfl := Option.some.inj (ht.symm.trans hu)
    simp [hc] at hnil
  | confirmation hl hu hp _ hr hh _ =>
    obtain rfl := Option.some.inj (ht.symm.trans hu)
    rcases (hs hp).2 hl with hrefused | ⟨i, hi, hterms⟩
    · rw [hr] at hrefused
      cases hrefused
    · rw [← hterms, Topic.confirm_of_held hi, put_of_topic ht]
  | order hl hu hp hw =>
    obtain rfl := Option.some.inj (ht.symm.trans hu)
    rcases (hs hp).2 (by rw [hl]; rfl) with hrefused | ⟨i, hi, hterms⟩
    · cases hw with
      | add _ hr _ => simp [hr] at hrefused
      | modify _ hr _ _ => simp [hr] at hrefused
      | delete hnil _ => simp [hc] at hnil
    · have hagrees : i.terms.Agrees (t.wish b.table) := hterms ▸ .refl i.terms
      exact absurd hw (Topic.not_wants_of_agrees hc hi hagrees)

theorem revise_same (hb : b.Coherent) (hs : b.Settled link.isSome) (hw : w.caller k ∈ b.callersOf w.expression) :
    b.revise check link k w = (.ok (), b, []) := by
  obtain ⟨n, t, hn, ht, he⟩ := (mem_callersOf_iff hb).mp ⟨_, hw, rfl⟩
  have hmem : w.caller k ∈ t.callers := by rwa [← he, callersOf_of_topic hb ht] at hw
  have hkept : b.replace n (w.caller k) = b := by
    simp only [replace, ht, Topic.replace_of_mem (hb.proper ht) hmem]
    exact put_of_topic ht
  have hactive := (hb.proper ht).isActive (List.ne_nil_of_mem hmem)
  have hsettled := settle_of_settled ht hactive (hs _ _ ht List.not_mem_nil)
  rw [revise_kept (k := k) hn ht he, hkept, hsettled]

end Switchboard

namespace Client

def uses (c : Client L) : Input L → List Ticket
  | .unsubscribe k => [k]
  | .revise k _ => [k]
  | .shutdown => c.board.byTicket.keys
  | _ => []

namespace Sound

variable {c : Client L} {i : Input L} {e : String} {d : Caller L} {w : Wish L} {k : Ticket}

theorem keeps_caller (h : c.Sound) (hd : d ∈ c.board.callersOf e) (hi : d.ticket ∉ c.uses i) :
    d ∈ (c.step i).1.board.callersOf e := by
  have hlive : d.ticket ∈ c.board.byTicket.keys := by
    obtain ⟨n, -, hn, -⟩ := (Switchboard.mem_callersOf_iff h.coherent).mp ⟨d, hd, rfl⟩
    rw [Std.ExtTreeMap.mem_keys, Std.ExtTreeMap.mem_iff_isSome_getElem?, hn]
    rfl
  have hshutdown : i ≠ .shutdown := by
    rintro rfl
    exact hi hlive
  have hr := h.reseating hshutdown
  generalize (c.step i).1.board = b at hr
  cases hr with
  | alike ha => rwa [ha.callers]
  | subscribed hseats =>
    have hlt := Switchboard.Seated.lt ⟨e, d, hd, rfl⟩ h.coherent
    exact hseats.mem_iff.mpr (.inl ⟨hd, Nat.ne_of_lt hlt⟩)
  | unsubscribed hseats => exact hseats.mem_iff.mpr (.inl ⟨hd, by simpa [uses] using hi⟩)
  | revised hseats => exact hseats.mem_iff.mpr (.inl ⟨hd, by simpa [uses] using hi⟩)

theorem revise_same (h : c.Sound) (hw : w.caller k ∈ c.board.callersOf w.expression) :
    c.revise k w = (.ok (), c, []) := by
  rw [revise, Switchboard.revise_same h.coherent h.settled hw]
  rfl

end Sound

end Client

namespace Group

def accepted (check : Expression.Check) (groups : List Group) : List Group :=
  groups.filter fun g => (g.fault? check).isNone

def refusals (check : Expression.Check) (groups : List Group) : List (String × Fault) :=
  groups.filterMap fun g => (g.fault? check).map (g.name, ·)

section Accepted

variable {check : Expression.Check} {g : Group} {groups : List Group}

theorem accepted_of_some {fault : Fault} (h : g.fault? check = some fault) :
    accepted check (g :: groups) = accepted check groups := by
  simp [accepted, h]

theorem accepted_of_none (h : g.fault? check = none) :
    accepted check (g :: groups) = g :: accepted check groups := by
  simp [accepted, h]

end Accepted

/-- The same menu, or another order of it in which no two groups that are taken in share an expression. -/
def Reorders (check : Expression.Check) (groups menu : List Group) : Prop :=
  groups = menu ∨ groups.Perm menu ∧ ((accepted check groups).map (·.expression)).Nodup

end Group

inductive Finds (check : Expression.Check) : List Member → List Group → List Member → Prop
  | done : Finds check [] [] []
  | refused {old ms : List Member} {g : Group} {groups : List Group} {fault : Fault} :
      g.fault? check = some fault → Finds check old groups ms → Finds check old (g :: groups) ms
  | kept {before after ms : List Member} {m : Member} {groups : List Group} :
      m.group.fault? check = none → (∀ a ∈ before, a.group.expression ≠ m.group.expression) →
      Finds check (before ++ after) groups ms → Finds check (before ++ m :: after) (m.group :: groups) (m :: ms)

namespace Finds

variable {check : Expression.Check} {old ms : List Member} {groups : List Group}

theorem perm (h : Finds check old groups ms) : ms.Perm old := by
  induction h with
  | done => exact .nil
  | refused _ _ ih => exact ih
  | kept _ _ _ ih => exact (ih.cons _).trans List.perm_middle.symm

theorem groups_eq (h : Finds check old groups ms) : ms.map (·.group) = Group.accepted check groups := by
  induction h with
  | done => rfl
  | refused hg _ ih => rw [ih, Group.accepted_of_some hg]
  | kept hm _ _ ih => rw [List.map_cons, ih, Group.accepted_of_none hm]

theorem of_eq (h : old.map (·.group) = Group.accepted check groups) : Finds check old groups old := by
  induction groups generalizing old with
  | nil =>
    obtain rfl := List.map_eq_nil_iff.mp h
    exact .done
  | cons g groups ih =>
    cases hg : g.fault? check with
    | some fault =>
      rw [Group.accepted_of_some hg] at h
      exact .refused hg (ih h)
    | none =>
      rw [Group.accepted_of_none hg] at h
      obtain ⟨m, rest, rfl, rfl, hrest⟩ := List.map_eq_cons_iff.mp h
      -- In their own order each member is the first of those that are left.
      have hfirst : Finds check ([] ++ m :: rest) (m.group :: groups) (m :: rest) := .kept hg (by simp) (ih hrest)
      exact hfirst

theorem exists_of_perm (h : (old.map (·.group)).Perm (Group.accepted check groups))
    (hd : ((Group.accepted check groups).map (·.expression)).Nodup) : ∃ ms, Finds check old groups ms := by
  induction groups generalizing old with
  | nil =>
    obtain rfl := List.map_eq_nil_iff.mp h.eq_nil
    exact ⟨[], .done⟩
  | cons g groups ih =>
    cases hg : g.fault? check with
    | some fault =>
      rw [Group.accepted_of_some hg] at h hd
      obtain ⟨ms, hms⟩ := ih h hd
      exact ⟨ms, .refused hg hms⟩
    | none =>
      rw [Group.accepted_of_none hg] at h hd
      obtain ⟨m, hm, rfl⟩ := List.mem_map.mp (h.mem_iff.mpr List.mem_cons_self)
      obtain ⟨before, after, rfl⟩ := List.append_of_mem hm
      have hrest : ((before ++ after).map (·.group)).Perm (Group.accepted check groups) := by
        rw [List.map_append, List.map_cons] at h
        rw [List.map_append]
        exact (List.perm_middle.symm.trans h).cons_inv
      obtain ⟨hnew, hd⟩ := List.nodup_cons.mp hd
      obtain ⟨ms, hms⟩ := ih hrest hd
      refine ⟨m :: ms, .kept hg (fun a ha he => hnew ?_) hms⟩
      have hmem : a.group ∈ Group.accepted check groups :=
        hrest.mem_iff.mp (List.mem_map_of_mem (List.mem_append_left _ ha))
      exact List.mem_map.mpr ⟨a.group, hmem, he⟩

theorem exists_of_reorders {menu : List Group} (h : Group.Reorders check groups menu)
    (hold : old.map (·.group) = Group.accepted check menu) :
    ∃ ms, Finds check old groups ms ∧ (groups = menu → ms = old) := by
  by_cases he : groups = menu
  · exact ⟨old, .of_eq (he ▸ hold), fun _ => rfl⟩
  · obtain ⟨hperm, hd⟩ := h.resolve_left he
    have hpermuted : (old.map (·.group)).Perm (Group.accepted check groups) := by
      rw [hold]
      exact (hperm.filter _).symm
    obtain ⟨ms, hms⟩ := exists_of_perm hpermuted hd
    exact ⟨ms, hms, fun heq => absurd heq he⟩

end Finds

namespace Reload

variable {listener : Group → L} {r : Reload L} {g : Group}

theorem place_same (hs : r.client.Sound) {before after : List Member} {m : Member}
    (hold : r.old = before ++ m :: after) (hbefore : ∀ a ∈ before, a.group.expression ≠ m.group.expression)
    (hown : m.caller listener ∈ r.client.board.callersOf m.group.expression) :
    r.place listener m.group = { r with
      old := before ++ after
      members := r.members ++ [m]
      report := { r.report with updated := r.report.updated ++ [m.group.name] } } := by
  have hfind : r.old.find? (·.group.expression = m.group.expression) = some m := by
    rw [hold, List.find?_append, List.find?_eq_none.mpr (by simpa using hbefore)]
    simp
  have herase : r.old.eraseP (·.group.expression = m.group.expression) = before ++ after := by
    rw [hold, List.eraseP_append_right _ (by simpa using hbefore), List.eraseP_cons_of_pos (by simp)]
  have hrevise : r.client.revise m.ticket ⟨m.group.expression, m.group.keyNames, listener m.group⟩ =
      (.ok (), r.client, []) := hs.revise_same hown
  simp only [place, hfind, herase, hrevise, proceed, keep, List.append_nil]

theorem place_refused (hold : ∀ a ∈ r.old, a.group.fault? r.client.check = none) {fault : Fault}
    (hg : g.fault? r.client.check = some fault) : r.place listener g = r.refuse g fault := by
  have hfind : r.old.find? (·.group.expression = g.expression) = none := by
    apply List.find?_eq_none.mpr
    intro a ha he
    rw [Group.fault?_congr (of_decide_eq_true he).symm, hold a ha] at hg
    cases hg
  have hsubscribe := subscribe_group listener r.client g
  simp only [hg, Group.wish] at hsubscribe
  simp only [place, hfind, hsubscribe, proceed, List.append_nil]

def found (r : Reload L) (groups : List Group) (ms : List Member) : Reload L :=
  { r with
    old := []
    members := r.members ++ ms
    report := { r.report with
      updated := r.report.updated ++ ms.map (·.group.name)
      errors := r.report.errors ++ Group.refusals r.client.check groups } }

theorem foldl_place_finds (hs : r.client.Sound)
    (hown : ∀ m ∈ r.old, m.caller listener ∈ r.client.board.callersOf m.group.expression)
    (hvalid : ∀ m ∈ r.old, m.group.fault? r.client.check = none) {groups : List Group} {ms : List Member}
    (h : Finds r.client.check r.old groups ms) : groups.foldl (Reload.place listener) r = r.found groups ms := by
  -- Each group finds its member among those that are left, in the reload as far as it has come.
  generalize hold : r.old = old at h
  generalize hcheck : r.client.check = check at h
  induction h generalizing r with
  | done =>
    obtain ⟨c, calls, old, members, report⟩ := r
    obtain rfl : old = [] := hold
    simp [found, Group.refusals]
  | @refused old ms g groups fault hg _ ih =>
    have hrest := ih (r := r.refuse g fault) hs hown hvalid hold hcheck
    rw [List.foldl_cons, place_refused hvalid (hcheck ▸ hg), hrest]
    simp [found, refuse, Group.refusals, hcheck, hg]
  | @kept before after ms m groups hm hbefore _ ih =>
    have hsub (a : Member) (ha : a ∈ before ++ after) : a ∈ r.old := by grind
    rw [List.foldl_cons, place_same hs hold hbefore (hown m (by simp [hold]))]
    refine (ih ?_ ?_ ?_ ?_ ?_).trans ?_
    · exact hs
    · exact fun a ha => hown a (hsub a ha)
    · exact fun a ha => hvalid a (hsub a ha)
    · rfl
    · exact hcheck
    · simp [found, Group.refusals, hcheck, hm]

end Reload

theorem Roster.Fit.reload_finds {r : Roster} {c : Client L} (h : r.Fit c) {listener : Group → L}
    (hown : ∀ m ∈ r.members, m.caller listener ∈ c.board.callersOf m.group.expression) {groups : List Group}
    {ms : List Member} (hms : Finds c.check r.members groups ms) : r.reload listener c groups =
      (⟨ms⟩, ⟨(Group.accepted c.check groups).map (·.name), [], [], Group.refusals c.check groups⟩, c, []) := by
  have hvalid : ∀ m ∈ r.members, m.group.fault? c.check = none := fun m hm => h.valid m (by simpa [begin] using hm)
  have hplaced := Reload.foldl_place_finds (r := r.begin c) h.sound hown hvalid hms
  have hnames : ms.map (·.group.name) = (Group.accepted c.check groups).map (·.name) := by
    rw [← hms.groups_eq, List.map_map]
    rfl
  rw [Roster.reload, hplaced]
  simp [Reload.found, begin, hnames]

namespace Session

/-- The menu that the roster has taken in last. A clear leaves it like an empty one. -/
def lastMenu (menu : List Group) : List Occasion → List Group
  | [] => menu
  | .input _ :: os => lastMenu menu os
  | .reload groups :: os => lastMenu groups os
  | .clear :: os => lastMenu [] os

def lastReport (s : Session) (report : Report) : List Occasion → Report
  | [] => report
  | .input i :: os => (s.meet (.input i)).lastReport report os
  | .reload groups :: os => (s.meet (.reload groups)).lastReport (s.reloadGroups groups).2 os
  | .clear :: os => (s.meet .clear).lastReport ⟨[], [], [], []⟩ os

def Exclusive (s : Session) : Occasion → Prop
  | .input i => ∀ k ∈ s.client.uses i, k ∉ s.roster.tickets
  | _ => True

instance decidableExclusive (s : Session) : (o : Occasion) → Decidable (s.Exclusive o)
  | .input i => inferInstanceAs (Decidable (∀ k ∈ s.client.uses i, k ∉ s.roster.tickets))
  | .reload _ => .isTrue trivial
  | .clear => .isTrue trivial

theorem check_ofSettings {s : Session} {check : Expression.Check} {p : Settings}
    (hs : Session.ofSettings check p = .ok s) : s.client.check = check := by
  obtain ⟨c, hc, rfl⟩ := eq_of_ofSettings hs
  rw [Client.eq_of_ofSettings hc]

theorem check_meet (s : Session) (o : Occasion) : (s.meet o).client.check = s.client.check := by
  cases o with
  | input i => exact s.client.check_step i
  | reload groups =>
    have hserves := s.roster.serves_reload .group s.client groups
    exact hserves.check
  | clear =>
    have hserves := s.roster.serves_clear s.client
    exact hserves.check

theorem check_follow (s : Session) (os : List Occasion) : (s.follow os).client.check = s.client.check := by
  induction os generalizing s with
  | nil => rfl
  | cons o os ih => exact (ih _).trans (s.check_meet o)

structure Holds (s : Session) (menu : List Group) (report : Report) : Prop where
  fit : s.roster.Fit s.client
  own : ∀ m ∈ s.roster.members, m.caller .group ∈ s.client.board.callersOf m.group.expression
  groups : s.roster.groups = Group.accepted s.client.check menu
  errors : report.errors = Group.refusals s.client.check menu

namespace Holds

variable {s : Session} {menu groups : List Group} {report : Report}

theorem ofSettings {check : Expression.Check} {p : Settings} (hs : Session.ofSettings check p = .ok s) :
    s.Holds [] ⟨[], [], [], []⟩ := by
  have hfit := fit_ofSettings hs
  obtain ⟨c, -, rfl⟩ := eq_of_ofSettings hs
  exact ⟨hfit, by simp [Roster.empty], rfl, rfl⟩

theorem input (h : s.Holds menu report) {i : Input Listener} (hi : s.Exclusive (.input i)) :
    (s.meet (.input i)).Holds menu report where
  fit := fit_meet h.fit (.input i)
  own := by
    intro m hm
    refine h.fit.sound.keeps_caller (h.own m hm) fun hused => ?_
    exact hi m.ticket hused (List.mem_map_of_mem hm)
  groups := check_meet s (.input i) ▸ h.groups
  errors := check_meet s (.input i) ▸ h.errors

theorem reload (h : s.Holds menu report) (groups : List Group) :
    (s.meet (.reload groups)).Holds groups (s.reloadGroups groups).2 := by
  have hlive : ∀ k ∈ s.roster.tickets, s.client.board.Seated k :=
    Client.seated_of_members fun m hm => ⟨_, h.own m hm, rfl⟩
  have hand := h.fit.handover .group hlive groups
  have hcheck := check_meet s (.reload groups)
  exact ⟨fit_meet h.fit (.reload groups), hand.subscribed, hcheck ▸ hand.groups_eq, hcheck ▸ hand.errors⟩

theorem clear (h : s.Holds menu report) : (s.meet .clear).Holds [] ⟨[], [], [], []⟩ :=
  ⟨fit_meet h.fit .clear, by simp [meet, clearGroups, Roster.clear, Roster.empty], rfl, rfl⟩

theorem follow (h : s.Holds menu report) {os : List Occasion} (hos : s.Along Exclusive os) :
    (s.follow os).Holds (lastMenu menu os) (s.lastReport report os) := by
  induction os generalizing s menu report with
  | nil => exact h
  | cons o os ih =>
    cases o with
    | input i => exact ih (h.input hos.1) hos.2
    | reload groups => exact ih (h.reload groups) hos.2
    | clear => exact ih h.clear hos.2

theorem reload_finds (h : s.Holds menu report) {ms : List Member}
    (hms : Finds s.client.check s.roster.members groups ms) : s.reloadGroups groups = ({ s with roster := ⟨ms⟩ },
      ⟨(Group.accepted s.client.check groups).map (·.name), [], [], Group.refusals s.client.check groups⟩) := by
  simp only [reloadGroups, h.fit.reload_finds h.own hms, List.append_nil]

end Holds

structure Silent (s : Session) (menu : List Group) (last : Report) (groups : List Group) : Prop where
  unchanged : (s.reloadGroups groups).1 = { s with roster := (s.reloadGroups groups).1.roster }
  kept : (s.reloadGroups groups).1.roster.members.Perm s.roster.members
  groups_eq : (s.reloadGroups groups).1.roster.groups = Group.accepted s.client.check groups
  report : (s.reloadGroups groups).2 =
    ⟨(Group.accepted s.client.check groups).map (·.name), [], [], Group.refusals s.client.check groups⟩
  refused : (s.reloadGroups groups).2.errors.Perm last.errors
  again : groups = menu → (s.reloadGroups groups).1 = s ∧ (s.reloadGroups groups).2.errors = last.errors

theorem Holds.silent {s : Session} {menu groups : List Group} {last : Report} (h : s.Holds menu last)
    (hg : Group.Reorders s.client.check groups menu) : s.Silent menu last groups := by
  obtain ⟨ms, hms, hsame⟩ := Finds.exists_of_reorders hg h.groups
  have hperm : groups.Perm menu := hg.elim (fun he => he ▸ .refl _) And.left
  have hreload := h.reload_finds hms
  constructor <;> rw [hreload]
  · exact hms.perm
  · exact hms.groups_eq
  · rw [h.errors]
    exact hperm.filterMap _
  · intro he
    rw [hsame he, h.errors, he]
    exact ⟨rfl, rfl⟩

theorem silent_follow {s : Session} {check : Expression.Check} {p : Settings}
    (hs : Session.ofSettings check p = .ok s) {os : List Occasion} (hos : s.Along Exclusive os)
    {groups : List Group} (hg : Group.Reorders check groups (lastMenu [] os)) :
    (s.follow os).Silent (lastMenu [] os) (s.lastReport ⟨[], [], [], []⟩ os) groups := by
  refine ((Holds.ofSettings hs).follow hos).silent ?_
  rwa [check_follow, check_ofSettings hs]

def mixedMenu : List Occasion :=
  [.input .start, .reload [⟨"a", "require(A)", true, false, 1, 60, []⟩, ⟨"b", "require(B", true, false, 1, 60, []⟩,
      ⟨"c", "require(C)", false, true, 1, 60, ["k"]⟩, ⟨"d", "require(D)", true, false, 1, 60, []⟩],
    .input (.arrival (.connectResult 1 (.ok 7))), .input (.subscribe ⟨"require(A)", ["j"], .script "other" []⟩),
    .input (.arrival (.ack 1 (.added (.ok 5)))), .input (.arrival (.ack 2 (.added (.error ⟨3, "no"⟩)))),
    .input (.unsubscribe 4)]

theorem silent_follow_mixedMenu : ∃ s,
    Session.ofSettings Expression.refusal? (.ofEndpoint "tcp://broker") = .ok s ∧ s.Along Exclusive mixedMenu ∧
    Group.Reorders Expression.refusal? (lastMenu [] mixedMenu).reverse (lastMenu [] mixedMenu) ∧
    (s.follow mixedMenu).Silent (lastMenu [] mixedMenu) (s.lastReport ⟨[], [], [], []⟩ mixedMenu)
      (lastMenu [] mixedMenu).reverse :=
  have hg : Group.Reorders Expression.refusal? (lastMenu [] mixedMenu).reverse (lastMenu [] mixedMenu) :=
    .inr ⟨List.reverse_perm _, by decide +kernel⟩
  ⟨_, rfl, by decide +kernel, hg, silent_follow (p := .ofEndpoint "tcp://broker") rfl (by decide +kernel) hg⟩

end Session

end Herald
