import Herald.Proofs.Convergence
import Herald.Proofs.KeyReload
/-!
The callers of a topic leave one after another, in the order of their tickets, and after each departure the topic is
settled under the keys of those who are left. Nothing but the last departure is heard by the broker if nobody who is
left wants other keys than all of them together. If somebody does, what goes out for them is all that goes out.
-/

namespace Herald

variable {L : Type}

namespace Key.Selection

variable {s other third : Selection} {usage : Usage}

theorem isEmpty_changeTo_iff : (s.changeTo other usage).isEmpty = true ↔
    (∀ e ∈ s.entries, other.matchesEntry e = true) ∧ ∀ e ∈ other.entries, s.matchesEntry e = true := by
  constructor
  · exact fun h => ⟨fun _ => matchesEntry_of_isEmpty h, fun _ => matchesEntry_of_isEmpty (isEmpty_changeTo_comm h)⟩
  · rintro ⟨h, h'⟩
    have hnone {a b : Selection} (hab : ∀ e ∈ a.entries, b.matchesEntry e = true) : a.surplus b usage = ∅ := by
      refine Std.ExtTreeSet.ext_mem fun k => iff_of_false (fun hk => ?_) Std.ExtTreeSet.not_mem_empty
      obtain ⟨e, he, hm, -⟩ := mem_surplus.mp hk
      simp [hab e he] at hm
    simp [Change.isEmpty, changeTo, hnone h, hnone h']

theorem matchesEntry_trans (h : ∀ e ∈ s.entries, other.matchesEntry e = true)
    (h' : ∀ e ∈ other.entries, third.matchesEntry e = true) : ∀ e ∈ s.entries, third.matchesEntry e = true := by
  intro e he
  obtain ⟨f, hf, hhash, hprivate⟩ := matchesEntry_iff.mp (h e he)
  obtain ⟨g, hg, hhash', hprivate'⟩ := matchesEntry_iff.mp (h' f hf)
  exact matchesEntry_iff.mpr ⟨g, hg, hhash'.trans hhash, hprivate'.trans hprivate⟩

theorem isEmpty_changeTo_trans (h : (s.changeTo other usage).isEmpty = true)
    (h' : (other.changeTo third usage).isEmpty = true) : (s.changeTo third usage).isEmpty = true := by
  rw [isEmpty_changeTo_iff] at h h' ⊢
  exact ⟨matchesEntry_trans h.1 h'.1, matchesEntry_trans h'.2 h.2⟩

end Key.Selection

namespace Terms

variable {a b c : Terms}

def Agrees (a b : Terms) : Prop :=
  (a.amendment b).isEmpty = true

instance (a b : Terms) : Decidable (a.Agrees b) :=
  inferInstanceAs (Decidable ((a.amendment b).isEmpty = true))

theorem agrees_iff : a.Agrees b ↔ a.expression = b.expression ∧
    (a.selection.changeTo b.selection .receive).isEmpty = true ∧ a.insecure = b.insecure := by
  simp [Agrees, Amendment.isEmpty, amendment, and_assoc]

theorem Agrees.symm (h : a.Agrees b) : b.Agrees a := by
  obtain ⟨he, hk, hi⟩ := agrees_iff.mp h
  exact agrees_iff.mpr ⟨he.symm, Key.Selection.isEmpty_changeTo_comm hk, hi.symm⟩

theorem Agrees.trans (h : a.Agrees b) (h' : b.Agrees c) : a.Agrees c := by
  obtain ⟨he, hk, hi⟩ := agrees_iff.mp h
  obtain ⟨he', hk', hi'⟩ := agrees_iff.mp h'
  exact agrees_iff.mpr ⟨he.trans he', Key.Selection.isEmpty_changeTo_trans hk hk', hi.trans hi'⟩

end Terms

namespace Holding

def Alike (i i' : Holding) : Prop :=
  i.id = i'.id ∧ i.terms.Agrees i'.terms

theorem Alike.agrees_iff {i i' : Holding} (h : i.Alike i') (wish : Terms) :
    i.terms.Agrees wish ↔ i'.terms.Agrees wish :=
  ⟨h.2.symm.trans, h.2.trans⟩

variable {held held' : Option Holding}

theorem eq_none_of_rel (h : Option.Rel Alike held none) : held = none := by
  cases h
  rfl

theorem eq_some_of_rel {i' : Holding} (h : Option.Rel Alike held (some i')) :
    ∃ i, held = some i ∧ i.Alike i' := by
  cases h with
  | some halike => exact ⟨_, rfl, halike⟩

theorem delete_eq (h : Option.Rel Alike held held') :
    (held.map fun i => Order.delete i.id) = held'.map fun i => .delete i.id := by
  cases h with
  | none => rfl
  | some halike => rw [Option.map_some, Option.map_some, halike.1]

theorem news_iff (h : Option.Rel Alike held held') (wish : Terms) :
    (∀ i ∈ held, ¬ i.terms.Agrees wish) ↔ ∀ i ∈ held', ¬ i.terms.Agrees wish := by
  cases h with
  | none => rfl
  | some halike => simpa using not_congr (halike.agrees_iff wish)

end Holding

namespace Topic

def beyond (t : Topic L) (k : Ticket) : List (Caller L) :=
  t.callers.filter (k < ·.ticket)

def namesBeyond (t : Topic L) (k : Ticket) : List String :=
  ((t.beyond k).flatMap (·.keyNames)).eraseDups

def wishBeyond (t : Topic L) (table : Key.Table) (k : Ticket) : Terms :=
  .wanted t.expression (t.namesBeyond k) table

/-- Somebody is left, and wants something that the broker has to be told. A refused topic has to be told nothing
until a departure has changed its key names. -/
structure Asks (t : Topic L) (table : Key.Table) (k : Ticket) : Prop where
  left : t.beyond k ≠ []
  renewed : t.refused = true → ∃ j ∈ t.tickets, j ≤ k ∧ t.namesBeyond j ≠ t.keyNames
  news : ∀ i ∈ t.held, ¬ i.terms.Agrees (t.wishBeyond table k)

structure AsksFirst (t : Topic L) (table : Key.Table) (k : Ticket) : Prop where
  mem : k ∈ t.tickets
  asks : t.Asks table k
  before : ∀ j ∈ t.tickets, j < k → ¬ t.Asks table j

def Uniform (t : Topic L) (table : Key.Table) : Prop :=
  ∀ k ∈ t.tickets, ¬ t.Asks table k

instance (t : Topic L) (table : Key.Table) (k : Ticket) : Decidable (t.Asks table k) :=
  decidable_of_iff (t.beyond k ≠ [] ∧
      (t.refused = true → ∃ j ∈ t.tickets, j ≤ k ∧ t.namesBeyond j ≠ t.keyNames) ∧
      ∀ i ∈ t.held, ¬ i.terms.Agrees (t.wishBeyond table k))
    ⟨fun ⟨hleft, hrenewed, hnews⟩ => ⟨hleft, hrenewed, hnews⟩, fun h => ⟨h.left, h.renewed, h.news⟩⟩

instance (t : Topic L) (table : Key.Table) : Decidable (t.Uniform table) :=
  inferInstanceAs (Decidable (∀ k ∈ t.tickets, ¬ t.Asks table k))

/-- What is ordered while callers leave one after another. It is one order at most, for there is no answer to it. -/
def parting (table : Key.Table) : Topic L → List Ticket → Option Order
  | _, [] => none
  | t, k :: ks =>
    match (t.leave k).need table true with
    | .nothing => (t.leave k).parting table ks
    | .removal => none
    | .confirmation terms => ((t.leave k).confirm terms).parting table ks
    | .order _ order => some order

def share (t : Topic L) (table : Key.Table) (ks : List Ticket) : Option Order :=
  t.parting table (ks.filter (· ∈ t.tickets))

def farewell (t : Topic L) (table : Key.Table) : Option Order :=
  t.parting table t.tickets.mergeSort

/-- What is ordered for a topic whose callers all leave, in the order of their tickets: the deletion of what is held
if they are uniform, and otherwise what is first asked for. The broker may have been confirmed other terms by then,
that agree with those it has. -/
inductive Parts (t : Topic L) (table : Key.Table) : Option Order → Prop
  | busy : t.pending ≠ none → Parts t table none
  | clean : t.pending = none → t.callers ≠ [] → t.Uniform table → Parts t table (t.held.map fun i => .delete i.id)
  | add {k : Ticket} : t.pending = none → t.AsksFirst table k → t.held = none →
      Parts t table (some (.add t.expression (t.wishBeyond table k).ring (t.wishBeyond table k).insecure))
  | modify {k : Ticket} {i : Holding} {terms : Terms} : t.pending = none → t.AsksFirst table k → t.held = some i →
      i.terms.Agrees terms → Parts t table (some (.modify i.id (terms.amendment (t.wishBeyond table k))))

def due (t : Topic L) : Option BrokerId :=
  if t.callers ≠ [] ∧ t.pending = none then t.brokerId? else none

def Alike (t : Topic L) : Prop :=
  ∀ c ∈ t.callers, ∀ d ∈ t.callers, c.keyNames = d.keyNames

instance (t : Topic L) : Decidable t.Alike :=
  inferInstanceAs (Decidable (∀ c ∈ t.callers, ∀ d ∈ t.callers, c.keyNames = d.keyNames))

section Beyond

variable {t u : Topic L} {table : Key.Table} {j k : Ticket}

theorem mem_tickets_iff : k ∈ t.tickets ↔ ∃ c ∈ t.callers, c.ticket = k :=
  List.mem_map

theorem tickets_ne_nil (h : k ∈ t.tickets) : t.callers ≠ [] := by
  obtain ⟨c, hc, -⟩ := mem_tickets_iff.mp h
  exact List.ne_nil_of_mem hc

theorem beyond_eq_nil (h : t.beyond k = []) (hjk : k ≤ j) : t.beyond j = [] := by
  rw [beyond, List.filter_eq_nil_iff] at h ⊢
  exact fun c hc hlt => h c hc (by simpa using Nat.lt_of_le_of_lt hjk (by simpa using hlt))

theorem uniform_of_last (h : t.beyond k = []) (hfirst : ∀ j ∈ t.tickets, k ≤ j) : t.Uniform table :=
  fun j hj hasks => hasks.left (beyond_eq_nil h (hfirst j hj))

theorem leave_first (hfirst : ∀ j ∈ t.tickets, k ≤ j) : (t.leave k).callers = t.beyond k := by
  rw [leave_callers, beyond]
  refine List.filter_congr fun c hc => ?_
  have hle := hfirst c.ticket (mem_tickets_iff.mpr ⟨c, hc, rfl⟩)
  exact decide_eq_decide.mpr ⟨fun hne => Nat.lt_of_le_of_ne hle hne.symm, Nat.ne_of_gt⟩

theorem leave_refused (h : (t.leave k).callers ≠ []) :
    (t.leave k).refused = true ↔ t.refused = true ∧ (t.leave k).keyNames = t.keyNames := by
  unfold leave at h ⊢
  dsimp only at h ⊢
  split at h
  · next hnone => exact absurd (List.isEmpty_iff.mp hnone) h
  · next hsome =>
    rw [if_neg hsome]
    unfold refresh
    split
    · next hnames => simp
    · next hnames => simpa using fun _ => hnames

structure Follows (t : Topic L) (k : Ticket) (u : Topic L) : Prop where
  mem : k ∈ t.tickets
  first : ∀ j ∈ t.tickets, k ≤ j
  expression : u.expression = t.expression
  callers : u.callers = t.beyond k
  keyNames : u.keyNames = t.namesBeyond k
  refused : u.refused = true ↔ t.refused = true ∧ t.namesBeyond k = t.keyNames
  held : Option.Rel Holding.Alike t.held u.held

namespace Follows

theorem mem_tickets (h : t.Follows k u) : j ∈ u.tickets ↔ j ∈ t.tickets ∧ k < j := by
  rw [mem_tickets_iff, mem_tickets_iff, h.callers, beyond]
  simp only [List.mem_filter, decide_eq_true_eq]
  constructor
  · rintro ⟨c, ⟨hc, hlt⟩, rfl⟩
    exact ⟨⟨c, hc, rfl⟩, hlt⟩
  · rintro ⟨⟨c, hc, rfl⟩, hlt⟩
    exact ⟨c, ⟨hc, hlt⟩, rfl⟩

theorem beyond_eq (h : t.Follows k u) (hj : k ≤ j) : u.beyond j = t.beyond j := by
  rw [beyond, h.callers, beyond, beyond, List.filter_filter]
  refine List.filter_congr fun c _ => ?_
  rw [← Bool.decide_and, decide_eq_decide]
  exact and_iff_left_of_imp (Nat.lt_of_le_of_lt hj)

theorem namesBeyond_eq (h : t.Follows k u) (hj : k ≤ j) : u.namesBeyond j = t.namesBeyond j := by
  rw [namesBeyond, h.beyond_eq hj, namesBeyond]

theorem wishBeyond_eq (h : t.Follows k u) (hj : k ≤ j) : u.wishBeyond table j = t.wishBeyond table j := by
  rw [wishBeyond, h.namesBeyond_eq hj, h.expression, wishBeyond]

theorem renewed_iff (h : t.Follows k u) (hj : k < j) :
    (u.refused = true → ∃ i ∈ u.tickets, i ≤ j ∧ u.namesBeyond i ≠ u.keyNames) ↔
      (t.refused = true → ∃ i ∈ t.tickets, i ≤ j ∧ t.namesBeyond i ≠ t.keyNames) := by
  constructor
  · intro hu hr
    by_cases hsame : t.namesBeyond k = t.keyNames
    · obtain ⟨i, hi, hij, hne⟩ := hu (h.refused.mpr ⟨hr, hsame⟩)
      obtain ⟨hi, hki⟩ := h.mem_tickets.mp hi
      rw [h.namesBeyond_eq (Nat.le_of_lt hki), h.keyNames, hsame] at hne
      exact ⟨i, hi, hij, hne⟩
    · exact ⟨k, h.mem, Nat.le_of_lt hj, hsame⟩
  · intro ht hr
    obtain ⟨hr, hsame⟩ := h.refused.mp hr
    obtain ⟨i, hi, hij, hne⟩ := ht hr
    have hki : k < i := by
      refine Nat.lt_of_le_of_ne (h.first i hi) ?_
      rintro rfl
      exact hne hsame
    refine ⟨i, h.mem_tickets.mpr ⟨hi, hki⟩, hij, ?_⟩
    rwa [h.namesBeyond_eq (Nat.le_of_lt hki), h.keyNames, hsame]

theorem asks_iff (h : t.Follows k u) (hj : k < j) : u.Asks table j ↔ t.Asks table j := by
  have hle := Nat.le_of_lt hj
  have hleft : u.beyond j ≠ [] ↔ t.beyond j ≠ [] := by rw [h.beyond_eq hle]
  have hnews : (∀ i ∈ u.held, ¬ i.terms.Agrees (u.wishBeyond table j)) ↔
      ∀ i ∈ t.held, ¬ i.terms.Agrees (t.wishBeyond table j) := by
    rw [h.wishBeyond_eq hle, Holding.news_iff h.held]
  exact ⟨fun ⟨a, b, c⟩ => ⟨hleft.mp a, (h.renewed_iff hj).mp b, hnews.mp c⟩,
    fun ⟨a, b, c⟩ => ⟨hleft.mpr a, (h.renewed_iff hj).mpr b, hnews.mpr c⟩⟩

theorem not_asks_of_refused (h : t.Follows k u) (hr : u.refused = true) : ¬ t.Asks table k := by
  intro hasks
  obtain ⟨hr, hsame⟩ := h.refused.mp hr
  obtain ⟨j, hj, hjk, hnames⟩ := hasks.renewed hr
  obtain rfl : j = k := Nat.le_antisymm hjk (h.first j hj)
  exact hnames hsame

theorem asksFirst (h : t.Follows k u) (hk : ¬ t.Asks table k) (hu : u.AsksFirst table j) : t.AsksFirst table j := by
  obtain ⟨hj, hkj⟩ := h.mem_tickets.mp hu.mem
  refine ⟨hj, (h.asks_iff hkj).mp hu.asks, fun i hi hij hasks => ?_⟩
  obtain rfl | hki := Nat.eq_or_lt_of_le (h.first i hi)
  · exact hk hasks
  · exact hu.before i (h.mem_tickets.mpr ⟨hi, hki⟩) hij ((h.asks_iff hki).mpr hasks)

theorem uniform (h : t.Follows k u) (hk : ¬ t.Asks table k) (hu : u.Uniform table) : t.Uniform table := by
  intro j hj hasks
  obtain rfl | hkj := Nat.eq_or_lt_of_le (h.first j hj)
  · exact hk hasks
  · exact hu j (h.mem_tickets.mpr ⟨hj, hkj⟩) ((h.asks_iff hkj).mpr hasks)

theorem parts (h : t.Follows k u) (hp : t.pending = none) (hp' : u.pending = none) (hk : ¬ t.Asks table k)
    {order : Option Order} (hu : u.Parts table order) : t.Parts table order := by
  have hheld := h.held
  cases hu with
  | busy hne => exact absurd hp' hne
  | clean _ _ huniform =>
    exact Holding.delete_eq hheld ▸ .clean hp (tickets_ne_nil h.mem) (h.uniform hk huniform)
  | add _ hfirst hnone =>
    have hle := Nat.le_of_lt (h.mem_tickets.mp hfirst.mem).2
    rw [hnone] at hheld
    rw [h.expression, h.wishBeyond_eq hle]
    exact .add hp (h.asksFirst hk hfirst) (Holding.eq_none_of_rel hheld)
  | modify _ hfirst hsome hterms =>
    have hle := Nat.le_of_lt (h.mem_tickets.mp hfirst.mem).2
    rw [hsome] at hheld
    obtain ⟨i, hi, halike⟩ := Holding.eq_some_of_rel hheld
    rw [h.wishBeyond_eq hle, ← halike.1]
    exact .modify hp (h.asksFirst hk hfirst) hi (halike.2.trans hterms)

end Follows

end Beyond

section Parting

variable {t : Topic L} {table : Key.Table} {k : Ticket} {ks : List Ticket}

theorem follows_leave (hmem : k ∈ t.tickets) (hfirst : ∀ j ∈ t.tickets, k ≤ j) (hleft : (t.leave k).callers ≠ []) :
    t.Follows k (t.leave k) where
  mem := hmem
  first := hfirst
  expression := t.leave_expression k
  callers := leave_first hfirst
  keyNames := by rw [((t.leave_eq k).2.2.2.2.1 hleft).2, wantedNames, leave_first hfirst, namesBeyond]
  refused := by
    rw [leave_refused hleft, ((t.leave_eq k).2.2.2.2.1 hleft).2, wantedNames, leave_first hfirst, namesBeyond]
  held := by
    rw [leave_held]
    cases t.held with
    | none => exact .none
    | some i => exact .some ⟨rfl, Terms.amendment_self _⟩

theorem Follows.confirm {u : Topic L} (h : t.Follows k u) {i : Holding} (hi : u.held = some i) {terms : Terms}
    (hagrees : i.terms.Agrees terms) : t.Follows k (u.confirm terms) := by
  refine { h with held := ?_ }
  have hheld := h.held
  rw [hi] at hheld
  obtain ⟨i', hi', halike⟩ := Holding.eq_some_of_rel hheld
  rw [Topic.confirm, hi', hi]
  exact .some ⟨halike.1, halike.2.trans hagrees⟩

theorem wish_leave (h : t.Follows k (t.leave k)) : (t.leave k).wish table = t.wishBeyond table k := by
  rw [wish, h.expression, h.keyNames, wishBeyond]

theorem asksFirst_leave (hu : t.Follows k (t.leave k)) (hleft : (t.leave k).callers ≠ [])
    (hr : (t.leave k).refused = false) (hnews : ∀ i ∈ t.held, ¬ i.terms.Agrees ((t.leave k).wish table)) :
    t.AsksFirst table k where
  mem := hu.mem
  asks := by
    refine ⟨hu.callers ▸ hleft, fun hrefused => ⟨k, hu.mem, Nat.le_refl k, fun hsame => ?_⟩, ?_⟩
    · exact Bool.eq_false_iff.mp hr (hu.refused.mpr ⟨hrefused, hsame⟩)
    · exact wish_leave hu ▸ hnews
  before := fun j hj hjk => absurd hjk (Nat.not_lt.mpr (hu.first j hj))

theorem parts_parting (hp : t.pending = none) (hsorted : ks.Pairwise (· < ·)) (hks : ∀ j, j ∈ ks ↔ j ∈ t.tickets)
    (hc : t.callers ≠ []) (ha : t.isActive = true) : t.Parts table (t.parting table ks) := by
  -- The callers leave in the order of their tickets; the induction is on those who are still to go.
  induction ks generalizing t with
  | nil =>
    obtain ⟨c, hmem⟩ := List.exists_mem_of_ne_nil _ hc
    simpa using (hks c.ticket).mpr (mem_tickets_iff.mpr ⟨c, hmem, rfl⟩)
  | cons k ks ih =>
    obtain ⟨hlt, hsorted⟩ := List.pairwise_cons.mp hsorted
    have hmem : k ∈ t.tickets := (hks k).mp (.head _)
    have hfirst (j : Ticket) (hj : j ∈ t.tickets) : k ≤ j := by
      obtain rfl | hj := List.mem_cons.mp ((hks j).mpr hj)
      · exact Nat.le_refl _
      · exact Nat.le_of_lt (hlt j hj)
    have hpending : (t.leave k).pending = none := (t.leave_pending k).trans hp
    have hleft := t.leave_isActive_iff k ha
    have hclean (hidle : (t.leave k).isActive = false) : t.Parts table (t.held.map fun i => .delete i.id) := by
      have hnone : (t.leave k).callers = [] := by simpa [hidle] using hleft
      exact .clean hp hc (uniform_of_last ((leave_first hfirst).symm.trans hnone) hfirst)
    have hfollows (hactive : (t.leave k).isActive = true) := follows_leave hmem hfirst (hleft.mp hactive)
    -- A departure without an order leaves a topic to which the induction hypothesis applies.
    have hgo {u : Topic L} (hu : t.Follows k u) (hp' : u.pending = none) (hactive : (t.leave k).isActive = true)
        (ha' : u.isActive = (t.leave k).isActive) (hquiet : ¬ t.Asks table k) :
        t.Parts table (u.parting table ks) := by
      refine hu.parts hp hp' hquiet (ih hp' hsorted (fun j => ?_) ?_ (ha'.trans hactive))
      · rw [hu.mem_tickets, ← hks, List.mem_cons]
        exact ⟨fun hj => ⟨.inr hj, hlt j hj⟩, fun h => h.1.resolve_left (Nat.ne_of_gt h.2)⟩
      · rw [hu.callers, ← leave_first hfirst]
        exact hleft.mp hactive
    have hneeds := (t.leave k).needs table true
    unfold parting
    generalize (t.leave k).need table true = need at hneeds
    cases hneeds with
    | busy hne => exact absurd hpending hne
    | removal _ hidle hh =>
      rw [leave_held] at hh
      simpa [hh] using hclean hidle
    | refused hactive hr =>
      exact hgo (hfollows hactive) hpending hactive rfl ((hfollows hactive).not_asks_of_refused hr)
    | @confirmation i _ hactive hr hh hempty =>
      refine hgo ((hfollows hactive).confirm hh hempty) hpending hactive rfl fun hasks => ?_
      rw [leave_held] at hh
      exact hasks.news i hh (wish_leave (hfollows hactive) ▸ hempty)
    | order _ hwants =>
      cases hwants with
      | add hactive hr hh =>
        rw [leave_held] at hh
        rw [wish_leave (hfollows hactive)]
        exact .add hp (asksFirst_leave (hfollows hactive) (hleft.mp hactive) hr (by simp [hh])) hh
      | @modify i hactive hr hh hempty =>
        rw [leave_held] at hh
        have hnews : ∀ i ∈ t.held, ¬ i.terms.Agrees ((t.leave k).wish table) := by
          simpa [hh, Terms.Agrees] using hempty
        have hasks := asksFirst_leave (hfollows hactive) (hleft.mp hactive) hr hnews
        rw [wish_leave (hfollows hactive)]
        exact .modify hp hasks hh (Terms.amendment_self _)
      | delete hidle hh =>
        rw [leave_held] at hh
        simpa [hh] using hclean hidle

theorem mem_sort : k ∈ t.tickets.mergeSort ↔ k ∈ t.tickets :=
  (t.tickets.mergeSort_perm _).mem_iff

theorem pairwise_sort (h : t.tickets.Nodup) : t.tickets.mergeSort.Pairwise (· < ·) := by
  have hle : t.tickets.mergeSort.Pairwise fun j k => decide (j ≤ k) = true :=
    List.pairwise_mergeSort (by simpa using fun _ _ _ => Nat.le_trans) (by simpa using Nat.le_total) _
  have hne : t.tickets.mergeSort.Nodup := (t.tickets.mergeSort_perm _).nodup_iff.mpr h
  exact hle.imp₂ (fun _ _ hle hne => Nat.lt_of_le_of_ne (of_decide_eq_true hle) hne) hne

theorem share_eq_farewell (h : t.tickets.Nodup) (hsorted : ks.Pairwise (· < ·)) (hks : ∀ j ∈ t.tickets, j ∈ ks) :
    t.share table ks = t.farewell table := by
  have hpairwise : (ks.filter (· ∈ t.tickets)).Pairwise (· < ·) := hsorted.filter _
  have hperm : (ks.filter (· ∈ t.tickets)).Perm t.tickets.mergeSort := by
    refine (List.perm_ext_iff_of_nodup (hpairwise.imp Nat.ne_of_lt) ((pairwise_sort h).imp Nat.ne_of_lt)).mpr
      fun j => ?_
    rw [List.mem_filter, decide_eq_true_iff, mem_sort]
    exact and_iff_right_of_imp (hks j)
  rw [share, farewell,
    hperm.eq_of_pairwise (fun _ _ _ _ hlt hgt => absurd hgt (Nat.lt_asymm hlt)) hpairwise (pairwise_sort h)]

theorem share_of_not_mem (h : k ∉ t.tickets) : t.share table (k :: ks) = t.share table ks := by
  rw [share, List.filter_cons_of_neg (by simpa using h), share]

theorem parting_of_pending (h : t.pending ≠ none) : t.parting table ks = none := by
  induction ks generalizing t with
  | nil => rfl
  | cons k ks ih =>
    have hleave : (t.leave k).pending ≠ none := by rwa [leave_pending]
    have hneed : (t.leave k).need table true = .nothing := if_pos (Option.isSome_iff_ne_none.mpr hleave)
    rw [parting, hneed]
    exact ih hleave

theorem parts_farewell (hp : t.Proper) (ho : t.isActive = true → t.callers ≠ []) (hs : t.Settled table true) :
    t.Parts table (t.farewell table) := by
  by_cases hpending : t.pending = none
  · have ha := (hs hpending).1
    exact parts_parting hpending (pairwise_sort hp.nodup) (fun _ => mem_sort) (ho ha) ha
  · rw [farewell, parting_of_pending hpending]
    exact .busy hpending

theorem toList_parting (request : RequestNo) : (t.parting table (k :: ks)).toList =
    ((t.leave k).need table true).order?.toList ++
      (((t.leave k).meet request ((t.leave k).need table true)).bind (·.parting table ks)).toList := by
  rw [parting]
  cases (t.leave k).need table true with
  | nothing => rfl
  | removal => rfl
  | confirmation terms => rfl
  | order errand order =>
    have hpending : ({ t.leave k with pending := some ⟨request, errand⟩ } : Topic L).pending ≠ none := by simp
    rw [meet, Option.bind_some, parting_of_pending hpending]
    rfl

theorem tickets_meet {request : RequestNo} {need : Need} {u : Topic L} (h : t.meet request need = some u) :
    u.tickets = t.tickets := by
  cases need with
  | removal => simp [meet] at h
  | _ =>
    obtain rfl := Option.some.inj h
    rfl

theorem toList_share (hmem : k ∈ t.tickets) (hk : k ∉ ks) (request : RequestNo) :
    (t.share table (k :: ks)).toList = ((t.leave k).need table true).order?.toList ++
      (((t.leave k).meet request ((t.leave k).need table true)).bind (·.share table ks)).toList := by
  rw [share, List.filter_cons_of_pos (by simpa using hmem), toList_parting request]
  congr 2
  refine Option.bind_congr fun u hu => ?_
  have hsame (j : Ticket) (hj : j ∈ ks) : decide (j ∈ t.tickets) = decide (j ∈ u.tickets) := by
    have hne : j ≠ k := fun h => hk (h ▸ hj)
    simp [tickets_meet hu, tickets_leave, hne]
  rw [share, List.filter_congr hsame]

end Parting

section Uniform

variable {t : Topic L} {table : Key.Table} {order : Option Order}

theorem Parts.eq_due (h : t.Parts table order) (hu : t.callers ≠ [] → t.pending = none → t.Uniform table) :
    order = t.due.map .delete := by
  cases h with
  | busy hp => simp [due, hp]
  | clean hp hc _ =>
    rw [due, if_pos ⟨hc, hp⟩, brokerId?, Option.map_map]
    rfl
  | add hp hfirst _ => exact absurd hfirst.asks (hu (tickets_ne_nil hfirst.mem) hp _ hfirst.mem)
  | modify hp hfirst _ _ => exact absurd hfirst.asks (hu (tickets_ne_nil hfirst.mem) hp _ hfirst.mem)

theorem Parts.uniform (h : t.Parts table order) (hp : t.pending = none)
    (hd : ∀ o ∈ order, ∃ id, o = .delete id) : t.Uniform table := by
  cases h with
  | busy hne => exact absurd hp hne
  | clean _ _ hu => exact hu
  | add _ _ _ => simp at hd
  | modify _ _ _ _ => simp at hd

theorem names_of_alike {cs : List (Caller L)} {names : List String} (h : ∀ c ∈ cs, c.keyNames = names)
    (hne : cs ≠ []) : (cs.flatMap (·.keyNames)).eraseDups = names.eraseDups := by
  obtain ⟨c, cs, rfl⟩ := List.exists_cons_of_ne_nil hne
  have hrest : (cs.flatMap (·.keyNames)).removeAll names = [] := by
    rw [List.removeAll, List.filter_eq_nil_iff]
    intro name hmem
    obtain ⟨d, hd, hname⟩ := List.mem_flatMap.mp hmem
    simpa [h d (.tail _ hd)] using hname
  rw [List.flatMap_cons, h c (.head _), List.eraseDups_append, hrest]
  simp

theorem uniform_of_alike (hp : t.Proper) (hs : t.Settled table true) (hpending : t.pending = none) (h : t.Alike) :
    t.Uniform table := by
  intro k hk hasks
  obtain ⟨c, hc, -⟩ := mem_tickets_iff.mp hk
  have hne : t.callers ≠ [] := List.ne_nil_of_mem hc
  have hsame (j : Ticket) (hleft : t.beyond j ≠ []) : t.namesBeyond j = t.keyNames := by
    have hbeyond (d : Caller L) (hd : d ∈ t.beyond j) : d.keyNames = c.keyNames :=
      h d (List.mem_of_mem_filter hd) c hc
    rw [hp.keyNames hne, wantedNames, names_of_alike (fun d hd => h d hd c hc) hne, namesBeyond,
      names_of_alike hbeyond hleft]
  obtain hr | ⟨i, hi, hterms⟩ := (hs hpending).2 rfl
  · obtain ⟨j, -, hjk, hne⟩ := hasks.renewed hr
    exact hne (hsame j fun hnone => hasks.left (beyond_eq_nil hnone hjk))
  · refine hasks.news i hi ?_
    rw [hterms, wish, wishBeyond, hsame k hasks.left]
    exact Terms.amendment_self _

end Uniform

end Topic

end Herald
