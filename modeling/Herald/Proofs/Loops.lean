import Herald.Proofs.Untiring
/-!
Retries side by side. A failure asks for one retry, and the timer of the retry starts the next attempt: that is one loop.
Whoever starts the client anew while a retry is waited for sets another loop going beside it, and nothing else does.
-/

namespace Herald

variable {L : Type}

def Input.isStart : Input L → Bool
  | .start => true
  | _ => false

namespace Input

variable {i : Input L}

theorem isStart_of_dials (h : i.dials = true) (ht : i.isTimer = false) : i.isStart = true := by
  cases i with
  | arrival a => cases a <;> simp_all [dials, isTimer]
  | _ => simp_all [dials, isStart]

theorem isTimer_of_isStart (h : i.isStart = true) : i.isTimer = false := by
  cases i <;> simp_all [isStart, isTimer]

theorem isTimer_of_ends (h : i.ends = true) : i.isTimer = false := by
  cases i <;> simp_all [ends, isTimer]

end Input

namespace Connection

def engaged (c : Connection) : Nat :=
  if c.awaited.isSome || c.link?.isSome then 1 else 0

theorem engaged_le (c : Connection) : c.engaged ≤ 1 := by
  unfold engaged
  split <;> simp

theorem engaged_of_awaited {c : Connection} {attempt : AttemptNo} (h : c.awaited = some attempt) :
    c.engaged = 1 := by
  simp [engaged, h]

theorem engaged_of_link {c : Connection} {link : LinkId} (h : c.link? = some link) : c.engaged = 1 := by
  simp [engaged, h]

theorem engaged_of_none {c : Connection} (ha : c.awaited = none) (hl : c.link? = none) : c.engaged = 0 := by
  simp [engaged, ha, hl]

theorem loops_of_dials {c : Connection} {i : Input L} {k m : Nat} (hs : c.Sound) (hi : i.dials = true)
    (hdown : c.status.isDown = true) (ha : c.awaited = none) (hk : i.isTimer = true → 0 < k)
    (h : k + c.engaged ≤ 1 + m) :
    (if i.isTimer then k - 1 else k) + c.dialled.engaged ≤ 1 + (m + if i.isStart && decide (0 < k) then 1 else 0) := by
  have hengaged : c.dialled.engaged = 1 := engaged_of_awaited rfl
  have hnone : c.engaged = 0 := engaged_of_none ha (hs.link?_eq_none_of_isDown hdown)
  rw [hengaged]
  cases htimer : i.isTimer with
  | true =>
    have hpos := hk htimer
    simp only [if_true]
    omega
  | false =>
    have hstart : i.isStart = true := Input.isStart_of_dials hi htimer
    by_cases hpos : 0 < k
    · simp [hstart, hpos]
      omega
    · simp [hpos]
      omega

end Connection

namespace Client

variable {c : Client L} {i : Input L} {k : Nat}

/-- The retries that wait for their timers after a step, given how many did before it. -/
def left (c : Client L) (k : Nat) (i : Input L) : Nat :=
  (if i.isTimer then k - 1 else k) + (c.delays i).length

def waiting (c : Client L) (k : Nat) : List (Input L) → Nat
  | [] => k
  | i :: is => (c.step i).1.waiting (c.left k i) is

/-- Every timer of a run answers a retry, and no retry is answered twice. -/
def Timely (c : Client L) (k : Nat) : List (Input L) → Prop
  | [] => True
  | i :: is => (i.isTimer = true → 0 < k) ∧ (c.step i).1.Timely (c.left k i) is

instance decidableTimely (c : Client L) (k : Nat) : (inputs : List (Input L)) → Decidable (c.Timely k inputs)
  | [] => .isTrue trivial
  | i :: is =>
    have := decidableTimely (c.step i).1 (c.left k i) is
    inferInstanceAs (Decidable ((i.isTimer = true → 0 < k) ∧ (c.step i).1.Timely (c.left k i) is))

def isHasty (c : Client L) (k : Nat) (i : Input L) : Bool :=
  i.isStart && decide (0 < k) && !(c.attempts i).isEmpty

def hasty (c : Client L) (k : Nat) : List (Input L) → Nat
  | [] => 0
  | i :: is => (if c.isHasty k i then 1 else 0) + (c.step i).1.hasty (c.left k i) is

end Client

namespace Connection.Tending

variable {c : Connection} {i : Input L} {r : Connection × List Call} {k m : Nat}

theorem loops_le (t : c.Tending i r) (hs : c.Sound) (hk : i.isTimer = true → 0 < k) (h : k + c.engaged ≤ 1 + m) :
    (if i.isTimer then k - 1 else k) + (r.2.filterMap Call.delay?).length + r.1.engaged ≤
      1 + (m + if i.isStart && decide (0 < k) && !(r.2.filterMap Call.attempt?).isEmpty then 1 else 0) := by
  have hkept (hi : i.isTimer = false) (calls : List Call) (hcalls : calls.filterMap Call.delay? = []) :
      (if i.isTimer then k - 1 else k) + (calls.filterMap Call.delay?).length + c.engaged ≤ 1 + m := by
    simpa [hi, hcalls] using h
  cases t with
  | aloof hi => exact Nat.le_trans (hkept (Input.dials_of_isAloof hi).2 [] rfl) (by omega)
  | idle _ _ =>
    have hleft : (if i.isTimer then k - 1 else k) ≤ k := by split <;> omega
    simp only [List.filterMap_nil, List.length_nil]
    omega
  | dialled hi hdown ha =>
    have hloops := loops_of_dials hs hi hdown ha hk h
    simpa [List.filterMap_cons, Call.delay?, Call.attempt?] using hloops
  | made link ha _ =>
    have hengaged := engaged_of_awaited ha
    have hnow : (c.succeed link).1.engaged = 1 := engaged_of_link (c.link?_succeed link)
    simpa [Input.isTimer, Input.isStart, hnow, hengaged] using h
  | missed failure ha hl =>
    have hengaged := engaged_of_awaited ha
    have hfree : (c.fail failure).1.engaged = 0 := engaged_of_none rfl hl
    simpa [Input.isTimer, Input.isStart, Call.delay?, hfree, hengaged] using h
  | turnedAway link _ => exact hkept rfl [.disconnect link] rfl
  | stale failure _ => exact hkept rfl [] rfl
  | lost failure hl _ =>
    have hengaged := engaged_of_link hl
    have hnow : c.cut.dialled.engaged = 1 := engaged_of_awaited rfl
    simpa [Input.isTimer, Input.isStart, List.filterMap_cons, Call.delay?, hnow, hengaged] using h
  | spared failure _ => exact hkept rfl [] rfl
  | closed hi =>
    have hfree : c.close.1.engaged = 0 := engaged_of_none rfl c.link?_close
    have hnone : c.close.2.filterMap Call.delay? = [] := by
      cases hl : c.link? <;> simp [close, hl, Call.delay?]
    have hi := Input.isTimer_of_ends hi
    simp only [hi, hfree, hnone, Bool.false_eq_true, if_false, List.length_nil]
    omega

theorem engaged_of_attempts (t : c.Tending i r) (h : r.2.filterMap Call.attempt? ≠ []) : r.1.engaged = 1 := by
  cases t with
  | dialled _ _ _ => exact engaged_of_awaited rfl
  | lost _ _ _ => exact engaged_of_awaited rfl
  | closed _ => exact absurd c.attempt?_close h
  | _ => exact absurd rfl h

end Connection.Tending

namespace Client

variable {c : Client L} {i : Input L} {k : Nat}

section Run

variable {inputs : List (Input L)}

theorem waiting_append (c : Client L) (k : Nat) (xs ys : List (Input L)) :
    c.waiting k (xs ++ ys) = (c.run xs).waiting (c.waiting k xs) ys := by
  induction xs generalizing c k with
  | nil => rfl
  | cons i xs ih => exact ih (c.step i).1 (c.left k i)

theorem hasty_append (c : Client L) (k : Nat) (xs ys : List (Input L)) :
    c.hasty k (xs ++ ys) = c.hasty k xs + (c.run xs).hasty (c.waiting k xs) ys := by
  induction xs generalizing c k with
  | nil => exact (Nat.zero_add _).symm
  | cons i xs ih => rw [List.cons_append, hasty, ih, hasty, Nat.add_assoc, run, waiting]

theorem Timely.of_append {xs ys : List (Input L)} (h : c.Timely k (xs ++ ys)) : c.Timely k xs := by
  induction xs generalizing c k with
  | nil => trivial
  | cons i xs ih => exact ⟨h.1, ih h.2⟩

theorem exists_hasty (h : c.hasty k inputs ≠ 0) : ∃ xs i ys, inputs = xs ++ i :: ys ∧
    (c.run xs).isHasty (c.waiting k xs) i = true := by
  induction inputs generalizing c k with
  | nil => exact absurd rfl h
  | cons i inputs ih =>
    cases hi : c.isHasty k i with
    | true => exact ⟨[], i, inputs, rfl, hi⟩
    | false =>
      rw [hasty, hi, if_neg Bool.false_ne_true, Nat.zero_add] at h
      obtain ⟨xs, j, ys, rfl, hj⟩ := ih h
      exact ⟨i :: xs, j, ys, rfl, hj⟩

theorem Sound.loops_step (h : c.Sound) {m : Nat} (hk : i.isTimer = true → 0 < k)
    (hle : k + c.connection.engaged ≤ 1 + m) :
    c.left k i + (c.step i).1.connection.engaged ≤ 1 + (m + if c.isHasty k i then 1 else 0) := by
  rw [left, isHasty, ← tended_delay?, ← tended_attempt?]
  exact (h.tending i).loops_le h.connection hk hle

theorem Sound.loops_run (h : c.Sound) {m : Nat} (ht : c.Timely k inputs)
    (hle : k + c.connection.engaged ≤ 1 + m) :
    c.waiting k inputs + (c.run inputs).connection.engaged ≤ 1 + (m + c.hasty k inputs) := by
  induction inputs generalizing c k m with
  | nil => exact hle
  | cons i inputs ih =>
    rw [hasty, ← Nat.add_assoc m]
    exact ih (h.step i) ht.2 (h.loops_step ht.1 hle)

end Run

/-- One retry at most is ever waited for, and an attempt starts only when none is. -/
structure OneLoop (c : Client L) (inputs : List (Input L)) : Prop where
  single : ∀ xs, xs <+: inputs → c.waiting 0 xs ≤ 1
  patient : ∀ xs i ys, inputs = xs ++ i :: ys → (c.run xs).attempts i ≠ [] → c.waiting 0 (xs ++ [i]) = 0

theorem OneLoop.hasty_eq_zero {inputs : List (Input L)} (h : c.OneLoop inputs) : c.hasty 0 inputs = 0 := by
  refine Classical.byContradiction fun hne => ?_
  obtain ⟨xs, i, ys, rfl, hi⟩ := exists_hasty hne
  simp only [isHasty, Bool.and_eq_true, decide_eq_true_eq, Bool.not_eq_true', List.isEmpty_eq_false_iff] at hi
  obtain ⟨⟨hstart, hpos⟩, hattempts⟩ := hi
  have hleft := h.patient xs i ys rfl hattempts
  have htimer : i.isTimer = false := Input.isTimer_of_isStart hstart
  rw [waiting_append, waiting, waiting, left, htimer, if_neg Bool.false_ne_true] at hleft
  omega

theorem oneLoop_run {check : Expression.Check} {s : Settings} (hc : Client.ofSettings check s = .ok c)
    {inputs : List (Input L)} (ht : c.Timely 0 inputs) : c.waiting 0 inputs ≤ 1 + c.hasty 0 inputs ∧
      (c.OneLoop inputs ↔ c.hasty 0 inputs = 0) := by
  have h := Sound.ofSettings hc
  have hfresh : 0 + c.connection.engaged ≤ 1 + 0 := by
    rw [Nat.zero_add]
    exact c.connection.engaged_le
  have hloops {xs : List (Input L)} (hxs : xs <+: inputs) :
      c.waiting 0 xs + (c.run xs).connection.engaged ≤ 1 + c.hasty 0 xs ∧ c.hasty 0 xs ≤ c.hasty 0 inputs := by
    obtain ⟨ys, rfl⟩ := hxs
    have hle := h.loops_run ht.of_append hfresh
    rw [Nat.zero_add] at hle
    exact ⟨hle, hasty_append c 0 xs ys ▸ Nat.le_add_right _ _⟩
  refine ⟨Nat.le_of_add_right_le (hloops (List.prefix_refl _)).1, OneLoop.hasty_eq_zero, fun hnone => ?_⟩
  refine ⟨fun xs hxs => ?_, fun xs i ys heq hattempts => ?_⟩
  · have hle := hloops hxs
    omega
  · have hxs : xs ++ [i] <+: inputs := ⟨ys, by simp [heq]⟩
    have hle := hloops hxs
    have hengaged : (c.run (xs ++ [i])).connection.engaged = 1 := by
      rw [← tended_attempt?] at hattempts
      rw [run_concat]
      exact ((h.run xs).tending i).engaged_of_attempts hattempts
    omega

def patientCaller : List (Input Nat) :=
  [.start, .start, .arrival (.connectResult 1 (.error ⟨111, "refused"⟩)), .arrival .retryDue, .start,
    .arrival (.connectResult 2 (.error ⟨111, "refused"⟩)), .arrival .retryDue, .arrival (.connectResult 3 (.ok 7)),
    .arrival (.connectionLost ⟨104, "reset"⟩), .arrival (.connectResult 4 (.error ⟨111, "refused"⟩))]

theorem oneLoop_run_patientCaller : ∃ c, Client.ofSettings Expression.refusal? (.ofEndpoint "tcp://broker") = .ok c ∧
    c.Timely 0 patientCaller ∧ c.waiting 0 patientCaller = 1 ∧ c.OneLoop patientCaller :=
  have hone {c : Client Nat} (hc : Client.ofSettings Expression.refusal? (.ofEndpoint "tcp://broker") = .ok c)
      (ht : c.Timely 0 patientCaller) := oneLoop_run hc ht
  ⟨_, rfl, by decide +kernel, by decide +kernel, (hone rfl (by decide +kernel)).2.mpr (by decide +kernel)⟩

/-- The caller starts the client again instead of waiting for the retry. -/
def hastyCaller : List (Input Nat) :=
  [.start, .arrival (.connectResult 1 (.error ⟨111, "refused"⟩)), .start,
    .arrival (.connectResult 2 (.error ⟨111, "refused"⟩))]

theorem twoLoops_hastyCaller : ∃ c, Client.ofSettings Expression.refusal? (.ofEndpoint "tcp://broker") = .ok c ∧
    c.Timely 0 hastyCaller ∧ c.waiting 0 hastyCaller = 2 ∧ ¬ c.OneLoop hastyCaller := by
  have htwo : waiting ⟨Expression.refusal?, .ofSettings (.ofEndpoint "tcp://broker"), .ofTable .empty⟩ 0
      hastyCaller = 2 := by decide +kernel
  refine ⟨_, rfl, by decide +kernel, htwo, fun h => ?_⟩
  have hone := h.single hastyCaller (List.prefix_refl _)
  omega

end Client

end Herald
