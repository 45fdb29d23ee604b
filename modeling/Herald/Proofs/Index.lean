import Herald.Switchboard

namespace Herald

variable {L K : Type} [Ord K] [Std.TransOrd K]

def Indexes (topics : Std.ExtTreeMap TopicNo (Topic L)) (index : Std.ExtTreeMap K TopicNo)
    (marks : Topic L → K → Prop) : Prop :=
  ∀ k n, index[k]? = some n ↔ ∃ t, topics[n]? = some t ∧ marks t k

namespace Indexes

variable {topics : Std.ExtTreeMap TopicNo (Topic L)} {index : Std.ExtTreeMap K TopicNo}
  {marks : Topic L → K → Prop} {n : TopicNo} {t t' : Topic L} {k a : K}

theorem empty : Indexes (∅ : Std.ExtTreeMap TopicNo (Topic L)) (∅ : Std.ExtTreeMap K TopicNo) marks := by
  intro k n
  simp

theorem mark_iff (h : Indexes topics index marks) (ht : topics[n]? = some t) :
    index[k]? = some n ↔ marks t k := by
  rw [h k n]
  constructor
  · rintro ⟨u, hu, hk⟩
    rw [ht] at hu
    obtain rfl := Option.some.inj hu
    exact hk
  · exact fun hk => ⟨t, ht, hk⟩

theorem not_mark (h : Indexes topics index marks) (hn : topics[n]? = none) : index[k]? ≠ some n := by
  intro hk
  obtain ⟨t, ht, -⟩ := (h k n).mp hk
  simp [hn] at ht

theorem mark_unique (h : Indexes topics index marks) {m : TopicNo} {u : Topic L}
    (ht : topics[n]? = some t) (hu : topics[m]? = some u) (htk : marks t k) (huk : marks u k) : n = m := by
  have hn := (h.mark_iff ht).mpr htk
  have hm := (h.mark_iff hu).mpr huk
  rw [hn] at hm
  exact Option.some.inj hm

theorem insert_of (h : Indexes topics index marks) {index' : Std.ExtTreeMap K TopicNo}
    (hi : ∀ (k : K) (m : TopicNo),
      index'[k]? = some m ↔ m = n ∧ marks t' k ∨ m ≠ n ∧ index[k]? = some m) :
    Indexes (topics.insert n t') index' marks := by
  intro k m
  rw [hi, h k m, Std.ExtTreeMap.getElem?_insert]
  by_cases hm : n = m
  · subst hm
    simp
  · simp [hm, Ne.symm hm]

theorem insert_same (h : Indexes topics index marks) (hm : ∀ k, marks t' k ↔ index[k]? = some n) :
    Indexes (topics.insert n t') index marks := by
  apply h.insert_of
  intro k m
  by_cases e : m = n
  · subst e
    simp [hm]
  · simp [e]

theorem insert_bare (h : Indexes topics index marks) (hn : topics[n]? = none) (hm : ∀ k, ¬ marks t' k) :
    Indexes (topics.insert n t') index marks :=
  h.insert_same fun k => ⟨fun hk => absurd hk (hm k), fun hk => absurd hk (h.not_mark hn)⟩

theorem insert_marked [Std.LawfulEqOrd K] (h : Indexes topics index marks)
    (ha : ∀ m : TopicNo, index[a]? = some m → m = n)
    (hm : ∀ k : K, marks t' k ↔ k = a ∨ index[k]? = some n) :
    Indexes (topics.insert n t') (index.insert a n) marks := by
  apply h.insert_of
  intro k m
  rw [Std.ExtTreeMap.getElem?_insert, hm]
  by_cases hk : a = k
  · subst hk
    constructor
    · intro e
      exact .inl ⟨by simpa using e.symm, .inl rfl⟩
    · rintro (⟨rfl, -⟩ | ⟨hne, e⟩)
      · simp
      · exact absurd (ha m e) hne
  · by_cases e : m = n
    · subst e
      simp [hk, Ne.symm hk]
    · simp [hk, e]

theorem insert_unmarked [Std.LawfulEqOrd K] (h : Indexes topics index marks) (ha : index[a]? = some n)
    (hm : ∀ k : K, marks t' k ↔ k ≠ a ∧ index[k]? = some n) :
    Indexes (topics.insert n t') (index.erase a) marks := by
  apply h.insert_of
  intro k m
  rw [Std.ExtTreeMap.getElem?_erase, hm]
  by_cases hk : a = k
  · subst hk
    simp [ha, eq_comm]
  · by_cases e : m = n
    · subst e
      simp [hk, Ne.symm hk]
    · simp [hk, e]

theorem insert_moved [Std.LawfulEqOrd K] (h : Indexes topics index marks) {z : K}
    (ha : ∀ k : K, index[k]? = some n ↔ k = a) (hz : index[z]? = none) (hm : ∀ k : K, marks t' k ↔ k = z) :
    Indexes (topics.insert n t') ((index.erase a).insert z n) marks := by
  apply h.insert_of
  intro k m
  rw [Std.ExtTreeMap.getElem?_insert, Std.ExtTreeMap.getElem?_erase, hm]
  by_cases hk : z = k
  · subst hk
    simp [hz, eq_comm]
  · by_cases hk' : a = k
    · subst hk'
      have hold : index[a]? = some n := (ha a).mpr rfl
      simp only [Std.LawfulEqOrd.compare_eq_iff_eq, hk, if_false, Std.compare_self, if_true, Ne.symm hk, hold,
        reduceCtorEq, Option.some.injEq, and_false, false_or, false_iff, not_and]
      exact fun hne e => hne e.symm
    · have hne : index[k]? ≠ some n := fun e => hk' ((ha k).mp e).symm
      simp only [Std.LawfulEqOrd.compare_eq_iff_eq, hk, hk', if_false, Ne.symm hk, and_false, false_or]
      exact ⟨fun e => ⟨fun hmn => hne (hmn ▸ e), e⟩, And.right⟩

theorem erase_of (h : Indexes topics index marks) {index' : Std.ExtTreeMap K TopicNo}
    (hi : ∀ (k : K) (m : TopicNo), index'[k]? = some m ↔ m ≠ n ∧ index[k]? = some m) :
    Indexes (topics.erase n) index' marks := by
  intro k m
  rw [hi, h k m, Std.ExtTreeMap.getElem?_erase]
  by_cases hm : n = m
  · subst hm
    simp
  · simp [hm, Ne.symm hm]

theorem erase_bare (h : Indexes topics index marks) (hn : ∀ k : K, index[k]? ≠ some n) :
    Indexes (topics.erase n) index marks := by
  apply h.erase_of
  intro k m
  constructor
  · intro hk
    refine ⟨?_, hk⟩
    rintro rfl
    exact hn k hk
  · exact And.right

theorem erase_marked [Std.LawfulEqOrd K] (h : Indexes topics index marks)
    (ha : ∀ k : K, index[k]? = some n ↔ k = a) : Indexes (topics.erase n) (index.erase a) marks := by
  apply h.erase_of
  intro k m
  rw [Std.ExtTreeMap.getElem?_erase]
  by_cases hk : a = k
  · subst hk
    simp [(ha a).mpr rfl, eq_comm]
  · simp only [Std.LawfulEqOrd.compare_eq_iff_eq, hk, if_false]
    constructor
    · intro hm
      refine ⟨?_, hm⟩
      rintro rfl
      exact hk ((ha k).mp hm).symm
    · exact And.right

end Indexes

end Herald
