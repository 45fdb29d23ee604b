import Herald.Proofs.KeyChange
import Herald.Proofs.Lines
import Herald.Proofs.Runs
/-!
A model of the broker: the orders it has yet to answer, and its subscriptions by id. An order takes effect
when its answer is delivered, and the end of a connection takes everything away. Along every run of the client
the subscriptions of the broker are those that the client believes to hold.
-/

namespace Herald

structure Subscription where
  expression : String
  keys : Key.Ring
  insecure : Bool

def Subscription.amend (s : Subscription) (a : Amendment) : Subscription where
  expression := a.expression.getD s.expression
  keys := s.keys.apply a.keys
  insecure := a.insecure.getD s.insecure

def Terms.subscription (t : Terms) : Subscription :=
  ⟨t.expression, t.ring, t.insecure⟩

structure Broker where
  orders : Std.ExtTreeMap RequestNo Order
  subscriptions : Std.ExtTreeMap BrokerId Subscription

namespace Broker

def empty : Broker :=
  ⟨∅, ∅⟩

def receive (k : Broker) : List Call → Broker
  | [] => k
  | .order _ request order :: calls => { k with orders := k.orders.insert request order }.receive calls
  | _ :: calls => k.receive calls

def perform (order : Order) (ack : Ack) (subscriptions : Std.ExtTreeMap BrokerId Subscription) :
    Std.ExtTreeMap BrokerId Subscription :=
  match order, ack with
  | .add expression keys insecure, .added (.ok id) => subscriptions.insert id ⟨expression, keys, insecure⟩
  | .modify id amendment, .modified (.ok ()) => subscriptions.modify id (·.amend amendment)
  | .delete id, .deleted _ => subscriptions.erase id
  | _, _ => subscriptions

def answer (k : Broker) (request : RequestNo) (ack : Ack) : Broker :=
  match k.orders[request]? with
  | none => k
  | some order => ⟨k.orders.erase request, perform order ack k.subscriptions⟩

variable {L : Type}

def step (k : Broker) (i : Input L) (calls : List Call) : Broker :=
  if i.closes then empty
  else
    match i with
    | .arrival (.ack request ack) => (k.answer request ack).receive calls
    | _ => k.receive calls

def after (k : Broker) (c : Client L) : List (Input L) → Broker
  | [] => k
  | i :: is => (k.step i (c.step i).2.calls).after (c.step i).1 is

/-- The answer to an outstanding add gives no id that a subscription has. -/
def Admits (k : Broker) : Input L → Prop
  | .arrival (.ack request (.added (.ok id))) => request ∈ k.orders → id ∉ k.subscriptions
  | _ => True

instance (k : Broker) (i : Input L) : Decidable (k.Admits i) := by
  unfold Admits
  split <;> infer_instance

def AdmitsAll (k : Broker) (c : Client L) : List (Input L) → Prop
  | [] => True
  | i :: is => k.Admits i ∧ (k.step i (c.step i).2.calls).AdmitsAll (c.step i).1 is

instance decidableAdmitsAll (k : Broker) (c : Client L) :
    (inputs : List (Input L)) → Decidable (k.AdmitsAll c inputs)
  | [] => .isTrue trivial
  | i :: is =>
    have := decidableAdmitsAll (k.step i (c.step i).2.calls) (c.step i).1 is
    inferInstanceAs (Decidable (k.Admits i ∧ (k.step i (c.step i).2.calls).AdmitsAll (c.step i).1 is))

theorem receive_of_no_order (k : Broker) {calls : List Call} (h : ∀ call ∈ calls, call.isOrder = false) :
    k.receive calls = k := by
  induction calls with
  | nil => rfl
  | cons call calls ih =>
    have hcalls := ih fun call hmem => h call (.tail _ hmem)
    cases call with
    | order link request order => simpa [Call.isOrder] using h _ (.head _)
    | connect attempt endpoint => exact hcalls
    | retry delay => exact hcalls
    | disconnect link => exact hcalls
    | notify link n keys insecure => exact hcalls

theorem receive_subscriptions (k : Broker) (calls : List Call) :
    (k.receive calls).subscriptions = k.subscriptions := by
  induction calls generalizing k with
  | nil => rfl
  | cons call calls ih => cases call <;> exact ih _

theorem receive_append (k : Broker) (first others : List Call) :
    k.receive (first ++ others) = (k.receive first).receive others := by
  induction first generalizing k with
  | nil => rfl
  | cons call calls ih => cases call <;> exact ih _

end Broker

def Input.secrets {L : Type} : Input L → List (List UInt8)
  | .reloadKeys records =>
    match Key.Table.ofRecords records with
    | .ok table => table.secrets
    | .error _ => []
  | _ => []

section Amending

variable {old new : Terms}

theorem Terms.subscription_amend
    (hc : Key.NoCollision (old.table.secrets ++ new.table.secrets)) :
    old.subscription.amend (old.amendment new) = new.subscription := by
  have hkeys : old.ring.apply (old.amendment new).keys = new.ring := Key.Selection.ring_apply_changeTo hc
  unfold Subscription.amend Terms.subscription
  rw [hkeys]
  congr 1
  · by_cases he : old.expression = new.expression <;> simp [Terms.amendment, he]
  · by_cases hi : old.insecure = new.insecure <;> simp [Terms.amendment, hi]

theorem Terms.subscription_eq_of_isEmpty
    (hc : Key.NoCollision (old.table.secrets ++ new.table.secrets))
    (h : (old.amendment new).isEmpty = true) : new.subscription = old.subscription := by
  simp only [Amendment.isEmpty, Bool.and_eq_true, Option.isNone_iff_eq_none] at h
  obtain ⟨⟨he, hk⟩, hi⟩ := h
  have hring : old.ring = new.ring := Key.Selection.ring_eq_of_changeTo_isEmpty hc hk
  have hexp : old.expression = new.expression := by simpa [Terms.amendment] using he
  have hins : old.insecure = new.insecure := by simpa [Terms.amendment] using hi
  simp [Terms.subscription, hring, hexp, hins]

end Amending

end Herald
