import Herald.Proofs.Resolution

namespace Herald.Key

namespace Change

def nothing : Change :=
  ⟨∅, ∅⟩

def remove (c : Change) (credentials : List Credential) : Change :=
  { c with removed := c.removed.insertMany credentials }

def add (c : Change) (credentials : List Credential) : Change :=
  { c with added := c.added.insertMany credentials }

def swap (c : Change) : Change :=
  ⟨c.added, c.removed⟩

@[simp] theorem mem_removed_remove {c : Change} {l : List Credential} {k : Credential} :
    k ∈ (c.remove l).removed ↔ k ∈ c.removed ∨ k ∈ l := by
  simp [remove]

end Change

def Lacks (l : List Entry) (e : Entry) : Prop :=
  ∀ f ∈ l, f.hash = e.hash → f.isPrivate ≠ e.isPrivate

/-- A hash that only one side has is removed or added. One that both sides have is left alone, unless it is
private on one side and public on the other. -/
def walk (usage : Usage) (c : Change) : List Entry → List Entry → Change
  | [], [] => c
  | e :: old, [] => walk usage (c.remove (e.credentials usage)) old []
  | [], f :: new => walk usage (c.add (f.credentials usage)) [] new
  | e :: old, f :: new =>
    match compare e.hash f.hash with
    | .lt => walk usage (c.remove (e.credentials usage)) old (f :: new)
    | .gt => walk usage (c.add (f.credentials usage)) (e :: old) new
    | .eq =>
      if e.isPrivate = f.isPrivate then walk usage c old new
      else walk usage ((c.remove (e.credentials usage)).add (f.credentials usage)) old new
termination_by old new => old.length + new.length

section Walking

variable {usage : Usage} {c : Change} {old new l : List Entry} {e f : Entry} {k : Credential}

theorem lacks_cons_of_lt (h : compare e.hash f.hash = .lt) : Lacks (e :: l) f ↔ Lacks l f := by
  have hne : e.hash ≠ f.hash := fun heq => by simp [heq] at h
  simp [Lacks, hne]

theorem lacks_of_lt (h : ∀ f ∈ l, compare e.hash f.hash = .lt) : Lacks l e := by
  intro f hf heq
  have hlt := h f hf
  simp [heq] at hlt

theorem lt_of_lt_head (h : compare e.hash f.hash = .lt)
    (hl : (f :: l).Pairwise fun e f => compare e.hash f.hash = .lt) : ∀ g ∈ f :: l, compare e.hash g.hash = .lt := by
  intro g hg
  obtain rfl | hg := List.mem_cons.mp hg
  · exact h
  · exact Std.TransCmp.lt_trans h ((List.pairwise_cons.mp hl).1 g hg)

theorem exists_lacks_cons_iff (h : ∀ g ∈ old, compare f.hash g.hash = .lt) :
    (∃ g ∈ old, Lacks (f :: new) g ∧ k ∈ g.credentials usage) ↔
      ∃ g ∈ old, Lacks new g ∧ k ∈ g.credentials usage :=
  exists_congr fun g => and_congr_right fun hg => by rw [lacks_cons_of_lt (h g hg)]

theorem walk_of_lt (h : compare e.hash f.hash = .lt) : walk usage c (e :: old) (f :: new) =
    walk usage (c.remove (e.credentials usage)) old (f :: new) := by
  rw [walk, h]

theorem walk_of_gt (h : compare e.hash f.hash = .gt) : walk usage c (e :: old) (f :: new) =
    walk usage (c.add (f.credentials usage)) (e :: old) new := by
  rw [walk, h]

theorem walk_of_eq (h : compare e.hash f.hash = .eq) : walk usage c (e :: old) (f :: new) =
    if e.isPrivate = f.isPrivate then walk usage c old new
    else walk usage ((c.remove (e.credentials usage)).add (f.credentials usage)) old new := by
  rw [walk, h]

theorem walk_swap (usage : Usage) (c : Change) (old new : List Entry) :
    (walk usage c old new).swap = walk usage c.swap new old := by
  fun_induction walk usage c old new with
  | case1 c => rw [walk]
  | case2 c e old ih => rw [ih, walk]; rfl
  | case3 c f new ih => rw [ih, walk]; rfl
  | case4 c e old f new h ih => rw [ih, walk_of_gt (Std.OrientedCmp.gt_of_lt h)]; rfl
  | case5 c e old f new h ih => rw [ih, walk_of_lt (Std.OrientedCmp.lt_of_gt h)]; rfl
  | case6 c e old f new h hp ih =>
    rw [ih, walk_of_eq (Std.OrientedCmp.eq_symm h), if_pos hp.symm]
  | case7 c e old f new h hp ih =>
    rw [ih, walk_of_eq (Std.OrientedCmp.eq_symm h), if_neg (Ne.symm hp)]
    rfl

theorem mem_removed_walk (hold : old.Pairwise fun e f => compare e.hash f.hash = .lt)
    (hnew : new.Pairwise fun e f => compare e.hash f.hash = .lt) :
    k ∈ (walk usage c old new).removed ↔
      k ∈ c.removed ∨ ∃ e ∈ old, Lacks new e ∧ k ∈ e.credentials usage := by
  fun_induction walk usage c old new with
  | case1 c => simp
  | case2 c e old ih =>
    rw [ih (List.pairwise_cons.mp hold).2 hnew, Change.mem_removed_remove]
    simp [Lacks, or_assoc]
  | case3 c f new ih =>
    rw [ih hold (List.pairwise_cons.mp hnew).2]
    simp [Change.add]
  | case4 c e old f new h ih =>
    have hlacks : Lacks (f :: new) e := lacks_of_lt (lt_of_lt_head h hnew)
    rw [ih (List.pairwise_cons.mp hold).2 hnew, Change.mem_removed_remove]
    simp [hlacks, or_assoc]
  | case5 c e old f new h ih =>
    have hlater := lt_of_lt_head (Std.OrientedCmp.lt_of_gt h) hold
    rw [ih hold (List.pairwise_cons.mp hnew).2, exists_lacks_cons_iff hlater]
    rfl
  | case6 c e old f new h hp ih =>
    have heq : e.hash = f.hash := Hash.compare_eq_iff.mp h
    obtain ⟨hhead, hold⟩ := List.pairwise_cons.mp hold
    have hmatch : ¬Lacks (f :: new) e := fun hl => hl f (.head _) heq.symm hp.symm
    have hlater : ∀ g ∈ old, compare f.hash g.hash = .lt := heq ▸ hhead
    rw [ih hold (List.pairwise_cons.mp hnew).2]
    simp only [List.mem_cons, exists_eq_or_imp, hmatch, false_and, false_or, exists_lacks_cons_iff hlater]
  | case7 c e old f new h hp ih =>
    have heq : e.hash = f.hash := Hash.compare_eq_iff.mp h
    obtain ⟨hhead, hold⟩ := List.pairwise_cons.mp hold
    have hlacks : Lacks (f :: new) e := by
      intro g hg hhash
      obtain rfl | hg := List.mem_cons.mp hg
      · exact Ne.symm hp
      · exact lacks_of_lt (heq ▸ (List.pairwise_cons.mp hnew).1) g hg hhash
    have hlater : ∀ g ∈ old, compare f.hash g.hash = .lt := heq ▸ hhead
    rw [ih hold (List.pairwise_cons.mp hnew).2]
    simp only [Change.add, Change.mem_removed_remove, List.mem_cons, exists_eq_or_imp, hlacks, true_and,
      or_assoc, exists_lacks_cons_iff hlater]

theorem mem_added_walk (hold : old.Pairwise fun e f => compare e.hash f.hash = .lt)
    (hnew : new.Pairwise fun e f => compare e.hash f.hash = .lt) :
    k ∈ (walk usage c old new).added ↔
      k ∈ c.added ∨ ∃ f ∈ new, Lacks old f ∧ k ∈ f.credentials usage := by
  have hswap : (walk usage c old new).added = (walk usage c.swap new old).removed :=
    congrArg Change.removed (walk_swap usage c old new)
  rw [hswap, mem_removed_walk hnew hold]
  rfl

end Walking

namespace Selection

variable {s other : Selection} {usage : Usage}

def walkTo (s other : Selection) (usage : Usage) : Change :=
  walk usage .nothing s.resolved other.resolved

theorem matchesEntry_eq_false_iff {e : Entry} :
    other.matchesEntry e = false ↔ Lacks other.entries e := by
  rw [← Bool.not_eq_true, matchesEntry_iff]
  simp [Lacks]

theorem walkTo_eq_changeTo (s other : Selection) (usage : Usage) :
    s.walkTo other usage = s.changeTo other usage := by
  have hremoved : (s.walkTo other usage).removed = s.surplus other usage := by
    apply Std.ExtTreeSet.ext_mem
    intro k
    rw [walkTo, mem_removed_walk s.pairwise_resolved other.pairwise_resolved, mem_surplus,
      resolved_eq_entries, resolved_eq_entries]
    simp [Change.nothing, matchesEntry_eq_false_iff]
  have hadded : (s.walkTo other usage).added = other.surplus s usage := by
    apply Std.ExtTreeSet.ext_mem
    intro k
    rw [walkTo, mem_added_walk s.pairwise_resolved other.pairwise_resolved, mem_surplus,
      resolved_eq_entries, resolved_eq_entries]
    simp [Change.nothing, matchesEntry_eq_false_iff]
  rw [changeTo, ← hremoved, ← hadded]

theorem ring_eq_added (s : Selection) (usage : Usage) :
    s.ring usage = ((⟨s.table, []⟩ : Selection).walkTo s usage).added := by
  have hnone : (⟨s.table, []⟩ : Selection).entries = [] := by simp [entries, byHash, named]
  apply Std.ExtTreeSet.ext_mem
  intro k
  rw [walkTo_eq_changeTo, changeTo, mem_surplus, mem_ring]
  simp [matchesEntry_eq_false_iff, hnone, Lacks]

/-- The change that the cursors find takes the ring of the old names exactly to that of the new, and both
rings are found in the same way. -/
theorem walkTo_carries_ring (old new : Selection) (usage : Usage)
    (h : NoCollision (old.table.secrets ++ new.table.secrets)) :
    (old.ring usage).apply (old.changeTo new usage) = new.ring usage ∧
      old.changeTo new usage = old.walkTo new usage ∧
      ∀ s ∈ [old, new], s.ring usage = ((⟨s.table, []⟩ : Selection).walkTo s usage).added :=
  ⟨ring_apply_changeTo h, (walkTo_eq_changeTo old new usage).symm, fun s _ => s.ring_eq_added usage⟩

def aliased : Selection where
  table := ⟨.ofList [("a", Entry.ofRecord ⟨"a", true, [1]⟩),
    ("b", Entry.ofRecord ⟨"b", false, (Hash.ofSecret [1]).bytes⟩), ("c", Entry.ofRecord ⟨"c", false, [7]⟩)]⟩
  names := ["b", "a", "z", "c", "a"]

def demoted : Selection where
  table := ⟨.ofList [("a", Entry.ofRecord ⟨"a", false, (Hash.ofSecret [1]).bytes⟩),
    ("c", Entry.ofRecord ⟨"c", true, [2]⟩)]⟩
  names := ["c", "z", "a"]

theorem walkTo_carries_ring_demoted :
    NoCollision (aliased.table.secrets ++ demoted.table.secrets) ∧
      (aliased.ring .receive).apply (aliased.changeTo demoted .receive) = demoted.ring .receive ∧
      aliased.changeTo demoted .receive = aliased.walkTo demoted .receive ∧
      ∀ s ∈ [aliased, demoted],
        s.ring .receive = ((⟨s.table, []⟩ : Selection).walkTo s .receive).added :=
  have h : NoCollision (aliased.table.secrets ++ demoted.table.secrets) := by decide +kernel
  ⟨h, walkTo_carries_ring aliased demoted .receive h⟩

end Selection

end Herald.Key
