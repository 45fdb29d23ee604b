import Herald.Proofs.Untiring
import Mathlib.Algebra.Order.Ring.Nat

namespace Herald

variable {L : Type}

namespace Delay

theorem min_times (d : Delay) (factor : UInt32) {ceiling : Delay} (h : ceiling ≤ longest) :
    min (d.times factor) ceiling = min (d * factor.toNat) ceiling := by
  -- Where the product is cut off, it is past the ceiling as well.
  rw [times, min_assoc, min_eq_right h]

theorem ofMillis_le_longest (ms : UInt64) : ofMillis ms ≤ longest := by
  have hms : ms.toNat < 18446744073709551616 := ms.toNat_lt
  have hle : ms.toNat * 1000000 ≤ 18446744073709551616 * 1000000000 - 1 := by omega
  exact hle

theorem ofMillis_pos {ms : UInt64} (h : ms ≠ 0) : 0 < ofMillis ms :=
  Nat.mul_pos (Nat.pos_of_ne_zero fun hz => h (UInt64.toNat_inj.mp hz)) (by decide)

theorem ofMillis_mono {a b : UInt64} (h : a ≤ b) : ofMillis a ≤ ofMillis b :=
  Nat.mul_le_mul_right perMillisecond (UInt64.le_iff_toNat_le.mp h)

end Delay

namespace Settings

variable {s : Settings} {k : Nat}

/-- The delay after the failure that `k` others precede. -/
def delay (s : Settings) (k : Nat) : Delay :=
  min (Delay.ofMillis s.initialDelay * s.factor.toNat ^ k) (Delay.ofMillis s.maxDelay)

def paced (s : Settings) (k : Nat) : Backoff :=
  { s.backoff with current := s.delay k }

structure Growing (s : Settings) : Prop where
  positive : 0 < Delay.ofMillis s.initialDelay
  bounded : Delay.ofMillis s.initialDelay ≤ Delay.ofMillis s.maxDelay
  factor : 2 ≤ s.factor.toNat

theorem growing_of_validate (h : s.validate = .ok ()) : s.Growing := by
  have hnone : s.flaw? = none := by
    cases hf : s.flaw? with
    | none => rfl
    | some flaw => simp [validate, hf] at h
  unfold flaw? at hnone
  split at hnone; · contradiction
  split at hnone; · contradiction
  split at hnone; · contradiction
  split at hnone; · contradiction
  next _ hinitial hmax hfactor =>
  exact {
    positive := Delay.ofMillis_pos hinitial
    bounded := Delay.ofMillis_mono (UInt64.not_lt.mp hmax)
    factor := UInt32.le_iff_toNat_le.mp (UInt32.not_lt.mp hfactor) }

namespace Growing

theorem delay_zero (h : s.Growing) : s.delay 0 = .ofMillis s.initialDelay := by
  simp [delay, h.bounded]

theorem delay_succ (h : s.Growing) (k : Nat) :
    min (s.delay k * s.factor.toNat) (.ofMillis s.maxDelay) = s.delay (k + 1) := by
  have hceiling : Delay.ofMillis s.maxDelay ≤ Delay.ofMillis s.maxDelay * s.factor.toNat :=
    Nat.le_mul_of_pos_right _ (Nat.lt_of_lt_of_le Nat.two_pos h.factor)
  -- What the ceiling has cut off before would be cut off again.
  rw [delay, delay, ← Nat.mul_min_mul_right, min_assoc, min_eq_right hceiling, Nat.mul_assoc, ← Nat.pow_succ]

theorem delay_pos (h : s.Growing) (k : Nat) : 0 < s.delay k := by
  have hfactor : 0 < s.factor.toNat ^ k := Nat.pow_pos (Nat.lt_of_lt_of_le Nat.two_pos h.factor)
  exact lt_min (Nat.mul_pos h.positive hfactor) (h.positive.trans_le h.bounded)

theorem delay_lt_or_eq (h : s.Growing) (k : Nat) : s.delay k < s.delay (k + 1) ∨
    s.delay k = .ofMillis s.maxDelay ∧ s.delay (k + 1) = .ofMillis s.maxDelay := by
  have hle : s.delay k ≤ .ofMillis s.maxDelay := min_le_right _ _
  have hlt : s.delay k < s.delay k * s.factor.toNat := (Nat.lt_mul_iff_one_lt_right (h.delay_pos k)).mpr h.factor
  rw [← h.delay_succ k]
  obtain heq | hbelow := hle.eq_or_lt
  · exact .inr ⟨heq, min_eq_right (heq ▸ hlt.le)⟩
  · exact .inl (lt_min hlt hbelow)

theorem paced_zero (h : s.Growing) : s.paced 0 = s.backoff := by
  rw [paced, h.delay_zero]
  rfl

theorem reset_paced (h : s.Growing) : (s.paced k).reset = s.paced 0 :=
  h.paced_zero.symm

theorem advance_paced (h : s.Growing) : (s.paced k).advance = s.paced (k + 1) := by
  have hnext : min ((s.delay k).times s.factor) (.ofMillis s.maxDelay) = s.delay (k + 1) := by
    rw [Delay.min_times _ _ (Delay.ofMillis_le_longest _), h.delay_succ]
  rw [paced, paced, ← hnext]
  rfl

end Growing

end Settings

namespace Client

theorem growing_of_ofSettings {check : Expression.Check} {s : Settings} {c : Client L}
    (hc : Client.ofSettings check s = .ok c) : s.Growing := by
  refine Settings.growing_of_validate ?_
  unfold Client.ofSettings at hc
  cases hv : s.validate with
  | error fault => simp [hv, bind, Except.bind] at hc
  | ok u => rfl

variable {c : Client L} {i : Input L} {s : Settings} {k : Nat}

def tally (c : Client L) (k : Nat) (i : Input L) : Nat :=
  if c.succeeds i then 0 else if (c.fails i).isSome then k + 1 else k

def streak (c : Client L) (k : Nat) : List (Input L) → Nat
  | [] => k
  | i :: is => (c.step i).1.streak (c.tally k i) is

def delaysOf (c : Client L) (inputs : List (Input L)) : List Delay :=
  c.gather delays inputs

inductive Pace (c : Client L) (i : Input L) : Backoff → List Delay → Prop
  | kept : c.succeeds i = false → c.fails i = none → Pace c i c.connection.backoff []
  | reset : c.succeeds i = true → c.fails i = none → Pace c i c.connection.backoff.reset []
  | advanced {failure : LinkFailure} : c.succeeds i = false → c.fails i = some failure →
      Pace c i c.connection.backoff.advance [c.connection.backoff.current]

theorem pace_of_tending {r : Connection × List Call} (t : c.connection.Tending i r) :
    c.Pace i r.1.backoff (r.2.filterMap Call.delay?) := by
  -- Only results of attempts succeed or fail.
  have hkept (hi : (i.isAloof || i.dials || i.ends) = true) : c.Pace i c.connection.backoff [] := by
    cases i with
    | arrival a =>
      cases a with
      | connectResult attempt result => exact Bool.noConfusion hi
      | _ => exact .kept rfl rfl
    | _ => exact .kept rfl rfl
  cases t with
  | aloof hi => exact hkept (by simp [hi])
  | idle hi _ => exact hkept (by simp [hi])
  | dialled hi _ _ => exact hkept (by simp [hi])
  | made link ha _ => exact .reset (by simp [succeeds, ha]) rfl
  | missed failure ha _ => exact .advanced rfl (if_pos ha)
  | turnedAway link ha => exact .kept (by simp [succeeds, ha]) rfl
  | stale failure ha => exact .kept rfl (by simp [fails, ha])
  | lost failure _ _ => exact .kept rfl rfl
  | spared failure _ => exact .kept rfl rfl
  | closed hi =>
    have hnone : c.connection.close.2.filterMap Call.delay? = [] := by
      cases hl : c.connection.link? <;> simp [Connection.close, hl, Call.delay?]
    rw [hnone]
    exact hkept (by simp [hi])

theorem Sound.pace (h : c.Sound) (i : Input L) :
    c.Pace i (c.step i).1.connection.backoff (c.delays i) := by
  rw [← tended_delay?]
  exact pace_of_tending (h.tending i)

namespace Pace

variable {b : Backoff} {delays : List Delay}

theorem backoff_eq (p : c.Pace i b delays) (hs : s.Growing) (hk : c.connection.backoff = s.paced k) :
    b = s.paced (c.tally k i) := by
  cases p with
  | kept hsucceeds hfails => simpa [tally, hsucceeds, hfails] using hk
  | reset hsucceeds _ => simpa [tally, hsucceeds, hk] using hs.reset_paced
  | advanced hsucceeds hfails => simpa [tally, hsucceeds, hfails, hk] using hs.advance_paced

theorem delays_eq (p : c.Pace i b delays) (hk : c.connection.backoff = s.paced k) :
    delays = if (c.fails i).isSome then [s.delay k] else [] := by
  cases p with
  | kept _ hfails => simp [hfails]
  | reset _ hfails => simp [hfails]
  | advanced _ hfails => simp [hfails, hk, Settings.paced]

theorem delay_eq {d : Delay} (p : c.Pace i b [d]) (hk : c.connection.backoff = s.paced k) :
    d = s.delay k ∧ c.tally k i = k + 1 := by
  cases p with
  | advanced hsucceeds hfails => simp [tally, hsucceeds, hfails, hk, Settings.paced]

theorem delays_eq_nil_iff (p : c.Pace i b delays) : delays = [] ↔ c.fails i = none := by
  cases p <;> simp_all

end Pace

theorem Sound.backoff_run (h : c.Sound) (hs : s.Growing) (hk : c.connection.backoff = s.paced k)
    (inputs : List (Input L)) : (c.run inputs).connection.backoff = s.paced (c.streak k inputs) := by
  induction inputs generalizing c k with
  | nil => exact hk
  | cons i inputs ih => exact ih (h.step i) ((h.pace i).backoff_eq hs hk)

theorem streak_append (c : Client L) (k : Nat) (xs ys : List (Input L)) :
    c.streak k (xs ++ ys) = (c.run xs).streak (c.streak k xs) ys := by
  induction xs generalizing c k with
  | nil => rfl
  | cons i xs ih => exact ih (c.step i).1 (c.tally k i)

theorem Sound.streak_of_delaysOf (h : c.Sound) {inputs : List (Input L)} (hnone : c.delaysOf inputs = []) :
    c.streak k inputs = if c.ever succeeds inputs then 0 else k := by
  induction inputs generalizing c k with
  | nil => rfl
  | cons i inputs ih =>
    obtain ⟨hi, hrest⟩ := List.append_eq_nil_iff.mp hnone
    have hfails := (h.pace i).delays_eq_nil_iff.mp hi
    rw [streak, ih (h.step i) hrest, ever]
    cases hsucceeds : c.succeeds i <;> simp [tally, hsucceeds, hfails]

/-- How a run spaces its attempts. Every failure asks for the delay that its place in the streak gives; between two
delays that follow each other lies a success, or the second is longer, or both are the ceiling. -/
structure Paced (s : Settings) (c : Client L) (inputs : List (Input L)) : Prop where
  exact : ∀ xs i ys, inputs = xs ++ i :: ys → (c.run xs).delays i =
    if ((c.run xs).fails i).isSome then [s.delay (c.streak 0 xs)] else []
  positive : ∀ d ∈ c.delaysOf inputs, 0 < d
  next : ∀ xs i ys j zs d e, inputs = xs ++ i :: ys ++ j :: zs → (c.run xs).delays i = [d] →
    (c.run (xs ++ [i])).delaysOf ys = [] → (c.run (xs ++ i :: ys)).delays j = [e] →
      if (c.run (xs ++ [i])).ever succeeds ys then e = .ofMillis s.initialDelay
      else d < e ∨ d = .ofMillis s.maxDelay ∧ e = .ofMillis s.maxDelay

section Run

variable (h : c.Sound) (hs : s.Growing) (hk : c.connection.backoff = s.paced k)
include h hs hk

theorem Sound.delays_run (inputs : List (Input L)) (i : Input L) : (c.run inputs).delays i =
    if ((c.run inputs).fails i).isSome then [s.delay (c.streak k inputs)] else [] :=
  ((h.run inputs).pace i).delays_eq (h.backoff_run hs hk inputs)

theorem Sound.delays_pos (inputs : List (Input L)) : ∀ d ∈ c.delaysOf inputs, 0 < d := by
  induction inputs generalizing c k with
  | nil => simp [delaysOf, gather]
  | cons i inputs ih =>
    intro d hd
    obtain hd | hd := List.mem_append.mp hd
    · rw [(h.pace i).delays_eq hk] at hd
      split at hd
      · exact List.mem_singleton.mp hd ▸ hs.delay_pos k
      · simp at hd
    · exact ih (h.step i) ((h.pace i).backoff_eq hs hk) d hd

theorem Sound.delay_eq {inputs : List (Input L)} {i : Input L} {d : Delay} (hd : (c.run inputs).delays i = [d]) :
    d = s.delay (c.streak k inputs) ∧ c.streak k (inputs ++ [i]) = c.streak k inputs + 1 := by
  have hpace := (h.run inputs).pace i
  rw [hd] at hpace
  obtain ⟨hdelay, htally⟩ := hpace.delay_eq (h.backoff_run hs hk inputs)
  exact ⟨hdelay, (c.streak_append k inputs [i]).trans htally⟩

end Run

theorem paced_run {check : Expression.Check} (hc : Client.ofSettings check s = .ok c) (inputs : List (Input L)) :
    c.Paced s inputs := by
  have h := Sound.ofSettings hc
  have hs := growing_of_ofSettings hc
  have hk : c.connection.backoff = s.paced 0 := by
    rw [eq_of_ofSettings hc, hs.paced_zero]
    rfl
  exact {
    exact := fun xs i _ _ => h.delays_run hs hk xs i
    positive := h.delays_pos hs hk inputs
    next := by
      intro xs i ys j _ d e _ hd hbetween he
      obtain ⟨hdelay, hstreak⟩ := h.delay_eq hs hk hd
      -- Nothing but a success can have changed the streak between the two.
      have hlast : c.streak 0 (xs ++ i :: ys) =
          if (c.run (xs ++ [i])).ever succeeds ys then 0 else c.streak 0 xs + 1 := by
        rw [List.append_cons, streak_append, hstreak, (h.run _).streak_of_delaysOf hbetween]
      rw [hdelay, (h.delay_eq hs hk he).1, hlast]
      split
      · exact hs.delay_zero
      · exact hs.delay_lt_or_eq _ }

def failuresInARow : List (Input Nat) :=
  [.start, .arrival (.connectResult 1 (.error ⟨111, "refused"⟩)), .arrival .retryDue,
    .arrival (.connectResult 1 (.error ⟨111, "refused"⟩)), .start, .arrival .retryDue,
    .arrival (.connectResult 2 (.error ⟨111, "refused"⟩)), .arrival .retryDue,
    .arrival (.connectResult 3 (.error ⟨111, "refused"⟩)), .arrival .retryDue, .arrival (.connectResult 4 (.ok 7)),
    .arrival (.connectionLost ⟨104, "reset"⟩), .arrival (.connectResult 5 (.error ⟨111, "refused"⟩))]

/-- Delays as long and a factor as great as can be set: the second product is beyond the longest delay. -/
def steep : Settings :=
  ⟨"tcp://broker", 10000, 18446744073709551615, 4294967295⟩

theorem paced_run_steep : ∃ c, Client.ofSettings Expression.refusal? steep = .ok c ∧
    c.delaysOf failuresInARow = [10000000000, 42949672950000000000, 18446744073709551615000000, 10000000000] ∧
    c.Paced steep failuresInARow :=
  ⟨_, rfl, by decide +kernel, paced_run (s := steep) rfl failuresInARow⟩

end Client

end Herald
