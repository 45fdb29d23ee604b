import Herald.Proofs.Runs

namespace Herald

variable {L : Type}

namespace Switchboard

def AtRest (b : Switchboard L) : Prop :=
  ∀ (n : TopicNo) (t : Topic L), b.topics[n]? = some t → t.pending = none ∧ t.refused = false

theorem exists_info_iff {b : Switchboard L} (h : b.Coherent) {e : String} :
    (∃ k i, b.info? k = some i ∧ i.expression = e) ↔
      ∃ (n : TopicNo) (t : Topic L), b.topics[n]? = some t ∧ t.callers ≠ [] ∧ t.expression = e := by
  constructor
  · rintro ⟨k, i, hi, rfl⟩
    cases hk : b.byTicket[k]? with
    | none => simp [info?, hk] at hi
    | some n =>
      obtain ⟨t, ht, hmem⟩ := (h.tickets k n).mp hk
      simp only [info?, hk, ht, bind, Option.bind, pure, Option.some.injEq] at hi
      refine ⟨n, t, ht, ?_, congrArg TopicInfo.expression hi⟩
      rintro hc
      simp [Topic.tickets, hc] at hmem
  · rintro ⟨n, t, ht, hc, rfl⟩
    obtain ⟨c, hc⟩ := List.exists_mem_of_ne_nil _ hc
    have hk : b.byTicket[c.ticket]? = some n :=
      (h.tickets.mark_iff ht).mpr (List.mem_map_of_mem hc)
    exact ⟨c.ticket, t.info, by simp [info?, hk, ht], rfl⟩

section Idle

variable {b : Switchboard L} {n : TopicNo} {t : Topic L}

theorem Coherent.idle (h : b.Coherent) (ho : b.Occupied) (hs : b.Settled true) (ht : b.topics[n]? = some t)
    (hp : t.pending = none) : t.isActive = true ∧
      (t.refused = true ∨ ∃ i, t.held = some i ∧ i.terms = .wanted t.expression t.wantedNames b.table) := by
  obtain ⟨hactive, hsync⟩ := hs n t ht (by simp) hp
  rw [← (h.proper ht).keyNames (ho n t ht hactive)]
  exact ⟨hactive, hsync rfl⟩

theorem AtRest.held (hr : b.AtRest) (h : b.Coherent) (ho : b.Occupied) (hs : b.Settled true)
    (ht : b.topics[n]? = some t) :
    t.callers ≠ [] ∧ ∃ i, t.held = some i ∧ i.terms = .wanted t.expression t.wantedNames b.table := by
  obtain ⟨hp, href⟩ := hr n t ht
  obtain ⟨hactive, hrefused | hheld⟩ := h.idle ho hs ht hp
  · simp [href] at hrefused
  · exact ⟨ho n t ht hactive, hheld⟩

theorem AtRest.terms (hr : b.AtRest) (h : b.Coherent) (ho : b.Occupied) (hs : b.Settled true)
    (ht : b.topics[n]? = some t) {i : Holding} (hi : t.held = some i) :
    i.terms = .wanted t.expression t.wantedNames b.table := by
  obtain ⟨-, j, hj, hterms⟩ := hr.held h ho hs ht
  rw [hi] at hj
  exact Option.some.inj hj ▸ hterms

theorem AtRest.expression (hr : b.AtRest) (h : b.Coherent) (ho : b.Occupied) (hs : b.Settled true)
    (ht : b.topics[n]? = some t) {i : Holding} (hi : t.held = some i) :
    i.terms.expression = t.expression :=
  congrArg Terms.expression (hr.terms h ho hs ht hi)

end Idle

end Switchboard

namespace Client

end Client

end Herald
