import Herald.Key.Hash

namespace Herald.Key

inductive Role
  | producer
  | consumer
  deriving DecidableEq, Repr

inductive Datum
  | secret (bytes : List UInt8)
  | hash (hash : Hash)
  deriving DecidableEq, Repr

structure Credential where
  role : Role
  datum : Datum
  deriving DecidableEq, Repr

namespace Role

def rank : Role → Nat
  | .producer => 0
  | .consumer => 1

def name : Role → String
  | .producer => "producer"
  | .consumer => "consumer"

end Role

namespace Datum

def rank : Datum → Nat
  | .secret _ => 0
  | .hash h => h.bytes.length + 1

def bytes : Datum → List UInt8
  | .secret bytes => bytes
  | .hash h => h.bytes

theorem eq_of_rank_of_bytes {a b : Datum} (hr : a.rank = b.rank) (hb : a.bytes = b.bytes) : a = b := by
  cases a <;> cases b <;> simp_all [rank, bytes]
  next h k =>
    cases h
    cases k
    simp_all

end Datum

namespace Credential

def order : Credential → Credential → Ordering :=
  compareLex (compareOn fun c => c.role.rank)
    (compareLex (compareOn fun c => c.datum.rank) (compareOn fun c => c.datum.bytes))

instance : Std.TransCmp order :=
  inferInstanceAs (Std.TransCmp (compareLex (compareOn fun c : Credential => c.role.rank)
    (compareLex (compareOn fun c => c.datum.rank) (compareOn fun c => c.datum.bytes))))

instance : Std.LawfulEqCmp order where
  eq_of_compare {a b} h := by
    simp only [order, compareLex, compareOn, Ordering.then_eq_eq, Std.LawfulEqCmp.compare_eq_iff_eq] at h
    obtain ⟨hrole, hrank, hbytes⟩ := h
    have hdatum := Datum.eq_of_rank_of_bytes hrank hbytes
    cases a with
    | mk r d =>
      cases b with
      | mk r' d' => cases r <;> cases r' <;> simp_all [Role.rank]

instance : Ord Credential := ⟨order⟩

instance : Std.TransOrd Credential := inferInstanceAs (Std.TransCmp order)

instance : Std.LawfulEqOrd Credential := inferInstanceAs (Std.LawfulEqCmp order)

end Credential

abbrev Ring := Std.ExtTreeSet Credential

structure Change where
  removed : Ring
  added : Ring

namespace Change

def isEmpty (c : Change) : Bool :=
  c.removed.isEmpty && c.added.isEmpty

end Change

namespace Ring

/-- Removals come first, so that a credential both removed and added is there in the end. -/
def apply (r : Ring) (c : Change) : Ring :=
  r \ c.removed ∪ c.added

theorem mem_apply {r : Ring} {c : Change} {k : Credential} :
    k ∈ r.apply c ↔ k ∈ c.added ∨ k ∈ r ∧ k ∉ c.removed := by
  rw [apply, Std.ExtTreeSet.mem_union_iff, Std.ExtTreeSet.mem_diff_iff, or_comm]

end Ring

end Herald.Key
