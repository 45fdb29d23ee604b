import Herald.Proofs.Watch

namespace Herald

variable {L : Type}

namespace Switchboard

variable {link : Option LinkId} {b b' : Switchboard L} {calls : List Call} {n : TopicNo} {t : Topic L}

theorem settle_of_order {l : LinkId} {errand : Errand} {order : Order} (ht : b.topics[n]? = some t)
    (h : t.need b.table true = .order errand order) : b.settle (some l) n = b.send l n t errand order := by
  simp [settle, ht, h]

theorem Move.link_eq (m : Move link b b' calls) {l : LinkId} {r : RequestNo} {o : Order}
    (h : .order l r o ∈ calls) : link = some l := by
  rcases m.requests_eq with ⟨rfl, -, -⟩ | ⟨n, hs⟩
  · simp at h
  · cases hs with
    | order hl _ _ _ =>
      obtain ⟨rfl, -, -⟩ := Call.order.inj (List.mem_singleton.mp h)
      exact hl
    | _ => simp at h

theorem Moves.link_eq (m : Moves link b b' calls) {l : LinkId} {r : RequestNo} {o : Order}
    (h : .order l r o ∈ calls) : link = some l := by
  induction m with
  | refl => simp at h
  | step m _ ih => exact (List.mem_append.mp h).elim m.link_eq ih

theorem acknowledge_link_eq (hb : b.Coherent) {request : RequestNo} {ack : Ack} {l : LinkId} {r : RequestNo}
    {o : Order} (h : .order l r o ∈ (b.acknowledge link request ack).2.1) : link = some l := by
  have ha := acknowledging hb link request ack
  generalize b.acknowledge link request ack = s at ha h
  cases ha with
  | unknown _ => simp at h
  | known _ _ _ _ _ => exact (Moves.settle link _ _).link_eq h

end Switchboard

namespace Client

variable {c c' : Client L} {i : Input L} {calls : List Call}

theorem Change.link_eq (hch : Change c c' i calls) (hb : c.board.Coherent) {l : LinkId} {r : RequestNo}
    {o : Order} (h : .order l r o ∈ calls) : (if i.closes then c.link? else c'.link?) = some l := by
  cases hch with
  | rest _ _ hno _ _ _ => simpa [Call.isOrder] using hno _ h
  | serve _ hcl hm _ hc =>
    rw [hcl, if_neg Bool.false_ne_true, Sound.link?_of_connection hc]
    exact hm.link_eq h
  | rekey _ _ hc =>
    rw [Sound.link?_of_connection hc, ite_self]
    exact (Switchboard.rekey_moves _ _ _).link_eq h
  | ack _ hc =>
    rw [Sound.link?_of_connection hc, ite_self]
    exact Switchboard.acknowledge_link_eq hb h
  | down hcl hm hno _ _ _ =>
    rw [if_pos hcl]
    rcases List.mem_append.mp h with h | h
    · exact hm.link_eq h
    · simpa [Call.isOrder] using hno _ h
  | up _ hl _ _ =>
    rw [if_neg (by simp [Input.closes]), hl]
    exact (Switchboard.reconnected_moves _ _).link_eq h

end Client

end Herald
