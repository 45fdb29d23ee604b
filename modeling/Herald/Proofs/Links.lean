import Herald.Proofs.Tending
import Mathlib.Logic.ExistsUnique

namespace Herald

variable {L : Type}

namespace Input

/-- The link that a result brings, of whatever attempt it claims to be. -/
def brings : Input L → List LinkId
  | .arrival (.connectResult _ (.ok link)) => [link]
  | _ => []

def settles (attempt : AttemptNo) : Input L → Bool
  | .arrival (.connectResult answered _) => answered == attempt
  | i => i.ends

end Input

namespace Connection

def drops (c : Connection) : Input L → List LinkId
  | .arrival (.connectionLost _) => c.link?.toList
  | _ => []

theorem link?_dialled (c : Connection) : c.dialled.link? = c.link? := rfl

theorem link?_succeed (c : Connection) (link : LinkId) : (c.succeed link).1.link? = some link := rfl

theorem link?_close (c : Connection) : c.close.1.link? = none := rfl

theorem closed?_close (c : Connection) : c.close.2.filterMap Call.closed? = c.link?.toList := by
  cases hl : c.link? <;> simp [close, hl, Call.closed?]

theorem attempt?_close (c : Connection) : c.close.2.filterMap Call.attempt? = [] := by
  cases hl : c.link? <;> simp [close, hl, Call.attempt?]

section Inputs

variable {i : Input L}

theorem idle_of_isAloof (h : i.isAloof = true) (c : Connection) (attempt : AttemptNo) :
    i.brings = [] ∧ c.drops i = [] ∧ i.settles attempt = false := by
  cases i with
  | arrival a => cases a <;> simp_all [Input.isAloof, Input.brings, drops, Input.settles, Input.ends]
  | _ => simp_all [Input.isAloof, Input.brings, drops, Input.settles, Input.ends]

theorem idle_of_dials (h : i.dials = true) (c : Connection) (attempt : AttemptNo) :
    i.brings = [] ∧ c.drops i = [] ∧ i.settles attempt = false := by
  cases i with
  | arrival a => cases a <;> simp_all [Input.dials, Input.brings, drops, Input.settles, Input.ends]
  | _ => simp_all [Input.dials, Input.brings, drops, Input.settles, Input.ends]

theorem settles_of_ends (h : i.ends = true) (c : Connection) (attempt : AttemptNo) :
    i.brings = [] ∧ c.drops i = [] ∧ i.settles attempt = true := by
  cases i <;> simp_all [Input.brings, drops, Input.settles, Input.ends]

end Inputs

namespace Tending

variable {c : Connection} {i : Input L} {r : Connection × List Call} {attempt : AttemptNo}

theorem links_eq (t : c.Tending i r) : c.link?.toList ++ i.brings =
    r.1.link?.toList ++ (c.drops i ++ r.2.filterMap Call.closed?) := by
  cases t with
  | aloof hi =>
    obtain ⟨hb, hd, -⟩ := idle_of_isAloof hi c 0
    simp [hb, hd]
  | idle hi _ =>
    obtain ⟨hb, hd, -⟩ := idle_of_dials hi c 0
    simp [hb, hd]
  | dialled hi _ _ =>
    obtain ⟨hb, hd, -⟩ := idle_of_dials hi c 0
    simp [hb, hd, link?_dialled, Call.closed?]
  | made link _ hl => simp [hl, link?_succeed, Input.brings, drops]
  | missed failure _ hl =>
    have hnone : (c.fail failure).1.link? = none := hl
    simp [hl, hnone, Input.brings, drops, Call.closed?]
  | turnedAway link _ => simp [Input.brings, drops, Call.closed?]
  | stale failure _ => simp [Input.brings, drops]
  | lost failure hl _ =>
    have hnone : c.cut.link? = none := rfl
    simp [hl, hnone, link?_dialled, Input.brings, drops, Call.closed?]
  | spared failure hl => simp [hl, Input.brings, drops]
  | closed hi =>
    obtain ⟨hb, hd, -⟩ := settles_of_ends hi c 0
    simp [hb, hd, link?_close, closed?_close]

theorem numbers (t : c.Tending i r) : ∃ k, r.1.nextAttempt = c.nextAttempt + k ∧
    r.2.filterMap Call.attempt? = List.range' c.nextAttempt k := by
  cases t with
  | dialled _ _ _ => exact ⟨1, rfl, rfl⟩
  | lost _ _ _ => exact ⟨1, rfl, rfl⟩
  | closed _ => exact ⟨0, rfl, c.attempt?_close⟩
  | _ => exact ⟨0, rfl, rfl⟩

theorem iff_settled_of_ne {answered : AttemptNo} {result : Except LinkFailure LinkId} {calls : List Call}
    (ha : c.awaited ≠ some answered) (hcalls : calls.filterMap Call.attempt? = []) :
    let i : Input L := .arrival (.connectResult answered result)
    c.awaited = some attempt ↔
      attempt ∈ calls.filterMap Call.attempt? ∨ c.awaited = some attempt ∧ i.settles attempt = false := by
  have hne : c.awaited = some attempt → answered ≠ attempt := fun h he => ha (he ▸ h)
  simpa [hcalls, Input.settles] using hne

theorem awaited_iff (t : c.Tending i r) : r.1.awaited = some attempt ↔
    attempt ∈ r.2.filterMap Call.attempt? ∨ c.awaited = some attempt ∧ i.settles attempt = false := by
  cases t with
  | aloof hi => simp [(idle_of_isAloof hi c attempt).2.2]
  | idle hi _ => simp [(idle_of_dials hi c attempt).2.2]
  | dialled _ _ ha => simpa [Connection.dialled, ha, Call.attempt?] using eq_comm
  | made link ha _ => simp [succeed, ha, Input.settles]
  | missed failure ha _ => simp [fail, ha, Input.settles, Call.attempt?]
  | turnedAway link ha => exact iff_settled_of_ne ha rfl
  | stale failure ha => exact iff_settled_of_ne ha rfl
  | lost failure _ ha => simpa [Connection.dialled, cut, ha, Call.attempt?] using eq_comm
  | spared failure _ => simp [Input.settles, Input.ends]
  | closed hi =>
    rw [c.attempt?_close]
    simp [(settles_of_ends hi c attempt).2.2, close]

end Tending

end Connection

namespace Client

variable {c : Client L} {i : Input L} {attempt : AttemptNo}

def brought (inputs : List (Input L)) : List LinkId :=
  inputs.flatMap Input.brings

def lostOf (c : Client L) (inputs : List (Input L)) : List LinkId :=
  c.gather (fun c i => c.connection.drops i) inputs

def closedOf (c : Client L) (inputs : List (Input L)) : List LinkId :=
  c.gather (fun c i => (c.step i).2.calls.filterMap Call.closed?) inputs

def attempts (c : Client L) (i : Input L) : List AttemptNo :=
  (c.step i).2.calls.filterMap Call.attempt?

def attemptsOf (c : Client L) (inputs : List (Input L)) : List AttemptNo :=
  c.gather attempts inputs

def Awaits (c : Client L) (inputs : List (Input L)) (attempt : AttemptNo) : Prop :=
  c.Since (fun c i => attempt ∈ c.attempts i) (Input.settles attempt) inputs

section Step

theorem tended_closed? (c : Client L) (i : Input L) :
    (c.tended i).2.filterMap Call.closed? = (c.step i).2.calls.filterMap Call.closed? :=
  Call.filterMap_filter_tends (by intro call h; cases call <;> simp_all [Call.tends, Call.closed?]) _

theorem tended_attempt? (c : Client L) (i : Input L) :
    (c.tended i).2.filterMap Call.attempt? = c.attempts i :=
  Call.filterMap_filter_tends (by intro call h; cases call <;> simp_all [Call.tends, Call.attempt?]) _

theorem Sound.links_eq (h : c.Sound) (i : Input L) : c.link?.toList ++ i.brings =
    (c.step i).1.link?.toList ++
      (c.connection.drops i ++ (c.step i).2.calls.filterMap Call.closed?) := by
  rw [← tended_closed?]
  exact (h.tending i).links_eq

theorem Sound.awaited_iff (h : c.Sound) (i : Input L) : (c.step i).1.connection.awaited = some attempt ↔
    attempt ∈ c.attempts i ∨ c.connection.awaited = some attempt ∧ i.settles attempt = false := by
  rw [← tended_attempt?]
  exact (h.tending i).awaited_iff

end Step

section Run

/-- A link is live, lost or closed as often as it was live before or has been brought since. -/
theorem Sound.balance_links (h : c.Sound) (inputs : List (Input L)) (link : LinkId) :
    c.link?.toList.count link + (brought inputs).count link =
      (c.run inputs).link?.toList.count link +
        ((c.lostOf inputs).count link + (c.closedOf inputs).count link) := by
  induction inputs generalizing c with
  | nil => rfl
  | cons i inputs ih =>
    have hstep := congrArg (List.count link) (h.links_eq i)
    have hrest := ih (h.step i)
    -- Each count of the run is the sum of that of the step and that of the rest.
    simp only [brought, lostOf, closedOf, gather, List.flatMap_cons, List.count_append] at hstep hrest ⊢
    simp only [Client.run]
    omega

theorem Sound.attemptsOf_eq (h : c.Sound) (inputs : List (Input L)) :
    ∃ k, (c.run inputs).connection.nextAttempt = c.connection.nextAttempt + k ∧
      c.attemptsOf inputs = List.range' c.connection.nextAttempt k := by
  refine h.gather_range' (fun c => c.connection.nextAttempt) (fun {c} hc i => ?_) inputs
  have hnumbers := (hc.tending i).numbers
  rwa [tended_attempt?] at hnumbers

theorem Sound.awaits_iff (h : c.Sound) (hnone : c.connection.awaited = none) (inputs : List (Input L)) :
    c.Awaits inputs attempt ↔ (c.run inputs).connection.awaited = some attempt := by
  induction inputs using List.reverseRecOn with
  | nil => simp [Awaits, not_since_nil, Client.run, hnone]
  | append_singleton inputs i ih =>
    rw [Awaits, since_concat, run_concat, (h.run inputs).awaited_iff i, ← ih, Awaits]

end Run

inductive Fate
  | live
  | lost
  | closed
  deriving DecidableEq, Repr

def Meets (c : Client L) (inputs : List (Input L)) (link : LinkId) : Fate → Prop
  | .live => (c.run inputs).link? = some link
  | .lost => link ∈ c.lostOf inputs
  | .closed => (c.closedOf inputs).count link = 1

structure Tidy (c : Client L) (inputs : List (Input L)) : Prop where
  fate : ∀ link ∈ brought inputs, ∃! fate, c.Meets inputs link fate
  closed : ∀ link ∈ c.closedOf inputs, link ∈ brought inputs ∧ c.Meets inputs link .closed
  awaited : ∀ a b, c.Awaits inputs a → c.Awaits inputs b → a = b
  attempts : (c.attemptsOf inputs).Pairwise (· < ·)

theorem meets_iff (c : Client L) (inputs : List (Input L)) (link : LinkId) (fate : Fate) :
    c.Meets inputs link fate ↔ match fate with
      | .live => (c.run inputs).link?.toList.count link = 1
      | .lost => 0 < (c.lostOf inputs).count link
      | .closed => (c.closedOf inputs).count link = 1 := by
  cases fate with
  | live =>
    cases hl : (c.run inputs).link? with
    | none => simp [Meets, hl]
    | some live => simp [Meets, hl, List.count_singleton]
  | lost => exact List.count_pos_iff.symm
  | closed => exact Iff.rfl

theorem existsUnique_fate {inputs : List (Input L)} {link : LinkId}
    (h : (c.run inputs).link?.toList.count link +
      ((c.lostOf inputs).count link + (c.closedOf inputs).count link) = 1) :
    ∃! fate, c.Meets inputs link fate := by
  have hunique (fate other : Fate) (hfate : c.Meets inputs link fate) (hother : c.Meets inputs link other) :
      other = fate := by
    rw [meets_iff] at hfate hother
    cases fate <;> cases other <;> simp only [reduceCtorEq] at hfate hother ⊢ <;> omega
  have hcases : (c.run inputs).link?.toList.count link = 1 ∨ 0 < (c.lostOf inputs).count link ∨
      (c.closedOf inputs).count link = 1 := by omega
  obtain ⟨fate, hfate⟩ : ∃ fate, c.Meets inputs link fate := by
    rcases hcases with hlive | hlost | hclosed
    · exact ⟨.live, (c.meets_iff inputs link .live).mpr hlive⟩
    · exact ⟨.lost, (c.meets_iff inputs link .lost).mpr hlost⟩
    · exact ⟨.closed, hclosed⟩
  exact ⟨fate, hfate, fun other hother => hunique fate other hfate hother⟩

/-- After every step of a run that is given each link once, each has met one fate, and links and attempts are tidy. -/
theorem tidy_run {check : Expression.Check} {s : Settings} (hc : Client.ofSettings check s = .ok c)
    {inputs : List (Input L)} (hd : (brought inputs).Nodup) {xs : List (Input L)} (hxs : xs <+: inputs) :
    c.Tidy xs := by
  have h := Sound.ofSettings hc
  have hlink : c.link? = none := by
    rw [eq_of_ofSettings hc]
    rfl
  have hawaited : c.connection.awaited = none := by
    rw [eq_of_ofSettings hc]
    rfl
  have hnodup : (brought xs).Nodup := by
    obtain ⟨ys, rfl⟩ := hxs
    rw [brought, List.flatMap_append] at hd
    exact (List.nodup_append.mp hd).1
  have hbalance (link : LinkId) := h.balance_links xs link
  simp only [hlink, Option.toList_none, List.count_nil, Nat.zero_add] at hbalance
  -- With nothing live at first, the three counts of a link add up to how often it was brought: once at most.
  have hmost (link : LinkId) : (brought xs).count link ≤ 1 := List.nodup_iff_count.mp hnodup link
  exact {
    fate := by
      intro link hmem
      have hpos : 0 < (brought xs).count link := List.count_pos_iff.mpr hmem
      have hone := hmost link
      have hsum := hbalance link
      exact existsUnique_fate (by omega)
    closed := by
      intro link hmem
      have hpos : 0 < (c.closedOf xs).count link := List.count_pos_iff.mpr hmem
      have hone := hmost link
      have hsum := hbalance link
      have hbrought : 0 < (brought xs).count link := by omega
      have hclosed : (c.closedOf xs).count link = 1 := by omega
      exact ⟨List.count_pos_iff.mp hbrought, hclosed⟩
    awaited := by
      intro a b ha hb
      have ha := (h.awaits_iff hawaited xs).mp ha
      have hb := (h.awaits_iff hawaited xs).mp hb
      exact Option.some.inj (ha.symm.trans hb)
    attempts := by
      obtain ⟨k, -, hk⟩ := h.attemptsOf_eq xs
      rw [hk]
      exact List.pairwise_lt_range' }

def strayLinks : List (Input Nat) :=
  [.start, .arrival (.connectResult 1 (.ok 7)), .arrival (.connectResult 1 (.ok 8)),
    .arrival (.connectionLost ⟨104, "reset"⟩), .arrival (.connectResult 9 (.ok 9)),
    .arrival (.connectResult 2 (.ok 10)), .arrival (.connectionLost ⟨32, "pipe"⟩), .disconnect,
    .arrival (.connectResult 3 (.ok 11)), .start]

theorem tidy_run_strayLinks : ∃ c, Client.ofSettings Expression.refusal? (.ofEndpoint "tcp://broker") = .ok c ∧
    (brought strayLinks).Nodup ∧ c.lostOf strayLinks = [7, 10] ∧ c.closedOf strayLinks = [8, 9, 11] ∧
    c.attemptsOf strayLinks = [1, 2, 3] ∧ strayLinks.take 7 <+: strayLinks ∧ c.Tidy (strayLinks.take 7) ∧
    c.Tidy strayLinks :=
  have hd : (brought strayLinks).Nodup := by decide
  have htidy {xs : List (Input Nat)} (hxs : xs <+: strayLinks) :=
    tidy_run (s := .ofEndpoint "tcp://broker") rfl hd hxs
  ⟨_, rfl, hd, by decide +kernel, by decide +kernel, by decide +kernel, List.take_prefix _ _,
    htidy (List.take_prefix _ _), htidy (List.prefix_refl _)⟩

end Client

end Herald
