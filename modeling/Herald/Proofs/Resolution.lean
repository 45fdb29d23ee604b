import Herald.Proofs.KeyChange
import Mathlib.Data.List.Destutter
import Mathlib.Data.List.Sort

namespace Herald.Key

namespace Hash

theorem compare_bytes_eq_lt_iff {l m : List UInt8} : compare l m = .lt ↔ List.Lex (· < ·) l m := by
  induction l generalizing m with
  | nil => cases m <;> simp
  | cons x l ih =>
    cases m with
    | nil => simp
    | cons y m =>
      rw [List.compare_cons_cons, List.cons_lex_cons_iff, Ordering.then_eq_lt, ih,
        Std.compare_eq_lt, Std.compare_eq_iff_eq]

theorem compare_eq_lt_iff {a b : Hash} : compare a b = .lt ↔
    a.bytes.length < b.bytes.length ∨
      a.bytes.length = b.bytes.length ∧ List.Lex (· < ·) a.bytes b.bytes := by
  have hcompare : compare a b =
      (compare a.bytes.length b.bytes.length).then (compare a.bytes b.bytes) := rfl
  rw [hcompare, Ordering.then_eq_lt, Nat.compare_eq_lt, Nat.compare_eq_eq, compare_bytes_eq_lt_iff]

/-- Length counts before content, so a high byte does not put a short hash behind a longer one. -/
example : compare (⟨[0xff]⟩ : Hash) ⟨[0, 0]⟩ = .lt := by decide

theorem isStrictTotalOrder_compare : IsStrictTotalOrder Hash fun a b => compare a b = .lt where
  trichotomous a b hab hba := by
    cases h : compare a b with
    | lt => exact absurd h hab
    | eq => exact compare_eq_iff.mp h
    | gt => exact absurd (Std.OrientedCmp.lt_of_gt h) hba
  irrefl a h := by simp at h
  trans _ _ _ hab hbc := Std.TransCmp.lt_trans hab hbc

structure Orders (cmp : Hash → Hash → Ordering) : Prop where
  lt_iff : ∀ a b, cmp a b = .lt ↔
    a.bytes.length < b.bytes.length ∨
      a.bytes.length = b.bytes.length ∧ List.Lex (· < ·) a.bytes b.bytes
  eq_iff : ∀ a b, cmp a b = .eq ↔ a = b
  gt_iff : ∀ a b, cmp a b = .gt ↔ cmp b a = .lt
  total : IsStrictTotalOrder Hash fun a b => cmp a b = .lt

theorem orders_compare : Orders compare where
  lt_iff _ _ := compare_eq_lt_iff
  eq_iff _ _ := compare_eq_iff
  gt_iff _ _ := Std.OrientedCmp.gt_iff_lt
  total := isStrictTotalOrder_compare

end Hash

namespace Entry

def order : Entry → Entry → Ordering :=
  compareLex (compareOn Entry.hash) (fun e f => compareOn Entry.isPrivate f e)

instance : Std.TransCmp order :=
  inferInstanceAs (Std.TransCmp
    (compareLex (compareOn Entry.hash) (fun e f => compareOn Entry.isPrivate f e)))

def sort (l : List Entry) : List Entry :=
  l.mergeSort fun e f => (order e f).isLE

def first (l : List Entry) (h : Hash) : Option Entry :=
  (l.find? fun e => e.hash = h && e.isPrivate).or (l.find? fun e => e.hash = h)

section Sorting

variable {e f : Entry} {l : List Entry} {h : Hash}

theorem isLE_order : (order e f).isLE = true ↔
    compare e.hash f.hash = .lt ∨ e.hash = f.hash ∧ (f.isPrivate = true → e.isPrivate = true) := by
  have heq : compare e.hash f.hash = .eq ↔ e.hash = f.hash := Hash.compare_eq_iff
  unfold order compareLex compareOn
  cases hc : compare e.hash f.hash with
  | lt => simp
  | eq =>
    simp only [heq.mp hc, reduceCtorEq, true_and, false_or]
    cases e.isPrivate <;> cases f.isPrivate <;> decide
  | gt =>
    rw [hc] at heq
    simp_all

theorem isLE_order_trans (e f g : Entry) (hef : (order e f).isLE = true) (hfg : (order f g).isLE = true) :
    (order e g).isLE = true :=
  Std.TransCmp.isLE_trans hef hfg

theorem isLE_order_total (e f : Entry) : ((order e f).isLE || (order f e).isLE) = true := by
  have hswap : order f e = (order e f).swap := Std.OrientedCmp.eq_swap
  rw [hswap]
  cases order e f <;> rfl

theorem pairwise_sort (l : List Entry) : (sort l).Pairwise fun e f => (order e f).isLE = true :=
  List.pairwise_mergeSort isLE_order_trans isLE_order_total l

theorem sort_perm (l : List Entry) : (sort l).Perm l :=
  List.mergeSort_perm l _

theorem filter_sort {p : Entry → Bool}
    (hp : ∀ e f, p e = true → p f = true → (order e f).isLE = true) (l : List Entry) :
    (sort l).filter p = l.filter p := by
  have hpair : (l.filter p).Pairwise fun e f => (order e f).isLE = true := by
    rw [List.pairwise_filter]
    exact List.pairwise_of_forall fun e f he hf => hp e f he hf
  have hsub : (l.filter p).Sublist (sort l) :=
    List.sublist_mergeSort isLE_order_trans isLE_order_total hpair List.filter_sublist
  have hsub' : (l.filter p).Sublist ((sort l).filter p) := by simpa using hsub.filter p
  exact (hsub'.eq_of_length ((sort_perm l).filter p).length_eq.symm).symm

theorem find?_sort_hash (l : List Entry) (h : Hash) (isPrivate : Bool) :
    (sort l).find? (fun e => e.hash = h && e.isPrivate == isPrivate) =
      l.find? fun e => e.hash = h && e.isPrivate == isPrivate := by
  rw [← List.head?_filter, ← List.head?_filter]
  refine congrArg List.head? (filter_sort (fun e f he hf => ?_) l)
  simp only [Bool.and_eq_true, decide_eq_true_eq, beq_iff_eq] at he hf
  exact isLE_order.mpr (.inr ⟨he.1.trans hf.1.symm, fun hp => by rw [he.2, ← hf.2, hp]⟩)

theorem first_eq_or (l : List Entry) (h : Hash) :
    first l h = (l.find? fun e => e.hash = h && e.isPrivate == true).or
      (l.find? fun e => e.hash = h && e.isPrivate == false) := by
  induction l with
  | nil => rfl
  | cons e l ih =>
    by_cases he : e.hash = h
    · cases hp : e.isPrivate <;> simp [first, he, hp]
    · simpa [first, he] using ih

theorem find?_of_sorted (hl : l.Pairwise fun e f => (order e f).isLE = true) :
    l.find? (fun e => e.hash = h) = first l h := by
  unfold first
  induction l with
  | nil => rfl
  | cons e l ih =>
    obtain ⟨hhead, htail⟩ := List.pairwise_cons.mp hl
    by_cases he : e.hash = h
    · cases hp : e.isPrivate with
      | true => simp [he, hp]
      | false =>
        -- A public head has no private entry of its hash after it.
        have hnone : l.find? (fun f => f.hash = h && f.isPrivate) = none := by
          refine List.find?_eq_none.mpr fun f hf hpriv => ?_
          have hle := isLE_order.mp (hhead f hf)
          simp only [Bool.and_eq_true, decide_eq_true_eq] at hpriv
          simp [he, hp, hpriv.1, hpriv.2] at hle
        simp [he, hp, hnone]
    · simpa [he] using ih htail

theorem find?_sort (l : List Entry) (h : Hash) : (sort l).find? (fun e => e.hash = h) = first l h := by
  rw [find?_of_sorted (pairwise_sort l), first_eq_or, first_eq_or, find?_sort_hash, find?_sort_hash]

theorem first_concat (l : List Entry) (e : Entry) (h : Hash) :
    first (l ++ [e]) h = if e.hash = h then some (prefer (first l h) e) else first l h := by
  unfold first
  rw [List.find?_append, List.find?_append]
  by_cases he : e.hash = h
  · cases hp : l.find? fun e => e.hash = h && e.isPrivate with
    | some f =>
      have hf := List.find?_some hp
      simp only [Bool.and_eq_true, decide_eq_true_eq] at hf
      simp [he, prefer, hf.2]
    | none =>
      cases ha : l.find? fun e => e.hash = h with
      | none => cases hpriv : e.isPrivate <;> simp [he, prefer, hpriv]
      | some f =>
        have hf : f.isPrivate = false := by
          have hh := List.find?_some ha
          have hno := List.find?_eq_none.mp hp f (List.mem_of_find?_eq_some ha)
          simpa [of_decide_eq_true hh] using hno
        cases hpriv : e.isPrivate <;> simp [he, prefer, hpriv, hf]
  · simp [he]

theorem isPrivate_first (he : first l h = some e) :
    e.isPrivate = true ↔ ∃ f ∈ l, f.hash = h ∧ f.isPrivate = true := by
  unfold first at he
  cases hp : l.find? fun f => f.hash = h && f.isPrivate with
  | some f =>
    obtain rfl : f = e := by simpa [hp] using he
    have hf : f.hash = h ∧ f.isPrivate = true := by simpa using List.find?_some hp
    exact iff_of_true hf.2 ⟨f, List.mem_of_find?_eq_some hp, hf⟩
  | none =>
    have hnone : ∀ f ∈ l, f.hash = h → f.isPrivate = false := by simpa using List.find?_eq_none.mp hp
    have hfind : l.find? (fun f => f.hash = h) = some e := by simpa [hp] using he
    have hhash : e.hash = h := by simpa using List.find?_some hfind
    refine iff_of_false ?_ ?_
    · simp [hnone e (List.mem_of_find?_eq_some hfind) hhash]
    · rintro ⟨f, hf, hfh, hpriv⟩
      simp [hnone f hf hfh] at hpriv

def distinct (l : List Entry) : List Entry :=
  l.destutter fun e f => e.hash ≠ f.hash

theorem lt_of_ne_next (hl : (e :: f :: l).Pairwise fun e f => (order e f).isLE = true)
    (hne : e.hash ≠ f.hash) : ∀ g ∈ f :: l, compare e.hash g.hash = .lt := by
  obtain ⟨hhead, htail⟩ := List.pairwise_cons.mp hl
  have hnext : compare e.hash f.hash = .lt := by simpa [hne] using isLE_order.mp (hhead f (.head _))
  intro g hg
  obtain rfl | hg := List.mem_cons.mp hg
  · exact hnext
  · obtain hlt | ⟨heq, -⟩ := isLE_order.mp ((List.pairwise_cons.mp htail).1 g hg)
    · exact Std.TransCmp.lt_trans hnext hlt
    · exact heq ▸ hnext

theorem find?_distinct (l : List Entry) (h : Hash) :
    (distinct l).find? (fun e => e.hash = h) = l.find? fun e => e.hash = h := by
  unfold distinct
  cases l with
  | nil => rfl
  | cons a l =>
    rw [List.destutter_cons']
    induction l generalizing a with
    | nil => rfl
    | cons b l ih =>
      by_cases hab : a.hash = b.hash
      · rw [List.destutter'_cons_neg l (by simpa using hab), ih a]
        by_cases ha : a.hash = h
        · simp [ha]
        · simp [ha, hab ▸ ha]
      · rw [List.destutter'_cons_pos l (by simpa using hab)]
        by_cases ha : a.hash = h <;> simp [ha, ih b]

theorem pairwise_distinct (hl : l.Pairwise fun e f => (order e f).isLE = true) :
    (distinct l).Pairwise fun e f => compare e.hash f.hash = .lt := by
  unfold distinct
  cases l with
  | nil => exact .nil
  | cons a l =>
    rw [List.destutter_cons']
    induction l generalizing a with
    | nil => simp
    | cons b l ih =>
      obtain ⟨hhead, htail⟩ := List.pairwise_cons.mp hl
      by_cases hab : a.hash = b.hash
      · rw [List.destutter'_cons_neg l (by simpa using hab)]
        exact ih a (List.pairwise_cons.mpr
          ⟨fun g hg => hhead g (.tail _ hg), (List.pairwise_cons.mp htail).2⟩)
      · rw [List.destutter'_cons_pos l (by simpa using hab), List.pairwise_cons]
        exact ⟨fun g hg => lt_of_ne_next hl hab g ((List.destutter'_sublist _ _ _).subset hg), ih b htail⟩

theorem nodup_hashes (hl : l.Pairwise fun e f => compare e.hash f.hash = .lt) :
    (l.map Entry.hash).Nodup := by
  rw [List.Nodup, List.pairwise_map]
  refine hl.imp fun hlt heq => ?_
  simp [heq] at hlt

theorem mem_iff_find? (hl : l.Pairwise fun e f => compare e.hash f.hash = .lt) :
    e ∈ l ↔ l.find? (fun f => f.hash = e.hash) = some e := by
  constructor
  · intro he
    cases hf : l.find? fun f => f.hash = e.hash with
    | none => simpa using List.find?_eq_none.mp hf e he
    | some f =>
      have hhash : f.hash = e.hash := by simpa using List.find?_some hf
      rw [List.inj_on_of_nodup_map (nodup_hashes hl) (List.mem_of_find?_eq_some hf) he hhash]
  · exact List.mem_of_find?_eq_some

end Sorting

end Entry

namespace Selection

variable {s : Selection} {e : Entry}

theorem byHash_eq_first (s : Selection) (h : Hash) : s.byHash[h]? = Entry.first s.named h := by
  have hfold (l : List Entry) : (l.foldl (fun kept e => kept.insert e.hash (.prefer kept[e.hash]? e))
      (∅ : Std.ExtTreeMap Hash Entry))[h]? = Entry.first l h := by
    induction l using List.reverseRecOn with
    | nil => simp [Entry.first]
    | append_singleton l e ih =>
      rw [List.foldl_concat, Std.ExtTreeMap.getElem?_insert, Entry.first_concat, ih]
      by_cases he : e.hash = h
      · simp [he, ih]
      · simp [he]
  exact hfold s.named

theorem exists_entry (he : e ∈ s.named) : ∃ f ∈ s.entries, f.hash = e.hash := by
  cases hf : s.byHash[e.hash]? with
  | none =>
    rw [byHash_eq_first, Entry.first, Option.or_eq_none_iff] at hf
    simpa using List.find?_eq_none.mp hf.2 e he
  | some f =>
    have hhash := (s.byHash_spec _ _ hf).1
    exact ⟨f, mem_entries.mpr (hhash ▸ hf), hhash⟩

theorem isPrivate_iff (he : e ∈ s.entries) :
    e.isPrivate = true ↔ ∃ f ∈ s.named, f.hash = e.hash ∧ f.isPrivate = true := by
  rw [mem_entries, byHash_eq_first] at he
  exact Entry.isPrivate_first he

def resolved (s : Selection) : List Entry :=
  Entry.distinct (Entry.sort s.named)

theorem pairwise_resolved (s : Selection) :
    s.resolved.Pairwise fun e f => compare e.hash f.hash = .lt :=
  Entry.pairwise_distinct (Entry.pairwise_sort s.named)

theorem mem_resolved :
    e ∈ s.resolved ↔ Entry.first s.named e.hash = some e := by
  rw [Entry.mem_iff_find? s.pairwise_resolved, resolved, Entry.find?_distinct, Entry.find?_sort]

theorem pairwise_entries (s : Selection) :
    s.entries.Pairwise fun e f => compare e.hash f.hash = .lt := by
  rw [entries, List.pairwise_map]
  refine Std.ExtTreeMap.ordered_keys_toList.imp_of_mem ?_
  rintro ⟨h, e⟩ ⟨k, f⟩ he hf hlt
  rw [Std.ExtTreeMap.mem_toList_iff_getElem?_eq_some] at he hf
  rw [(s.byHash_spec h e he).1, (s.byHash_spec k f hf).1]
  exact hlt

theorem resolved_eq_entries (s : Selection) : s.resolved = s.entries := by
  have hirrefl : Std.Irrefl fun e f : Entry => compare e.hash f.hash = .lt :=
    ⟨fun e => Hash.isStrictTotalOrder_compare.irrefl e.hash⟩
  have hanti : Std.Antisymm fun e f : Entry => compare e.hash f.hash = .lt :=
    ⟨fun e _ hef hfe => absurd (Std.TransCmp.lt_trans hef hfe) (hirrefl.irrefl e)⟩
  refine s.pairwise_resolved.eq_of_mem_iff s.pairwise_entries fun e => ?_
  rw [mem_resolved, ← byHash_eq_first, mem_entries]

/-- One entry for each hash that a name stands for, in the order of the hashes, and a private one exactly
if some name stands for a private key of that hash. -/
structure Resolves (s : Selection) (l : List Entry) : Prop where
  named : ∀ e ∈ l, ∃ name ∈ s.names, s.table.lookup name = some e
  increasing : l.Pairwise fun e f => compare e.hash f.hash = .lt
  once : ∀ name ∈ s.names, ∀ e, s.table.lookup name = some e → (l.map Entry.hash).count e.hash = 1
  isPrivate : ∀ e ∈ l, e.isPrivate = true ↔
    ∃ name ∈ s.names, ∃ f, s.table.lookup name = some f ∧ f.hash = e.hash ∧ f.isPrivate = true

theorem count_hash (he : e ∈ s.named) : (s.entries.map Entry.hash).count e.hash = 1 := by
  obtain ⟨f, hf, hash⟩ := exists_entry he
  exact List.count_eq_one_of_mem (Entry.nodup_hashes s.pairwise_entries) (List.mem_map.mpr ⟨f, hf, hash⟩)

theorem resolves_entries (s : Selection) :
    Hash.Orders compare ∧ s.entries = s.resolved ∧ s.Resolves s.entries := by
  refine ⟨Hash.orders_compare, s.resolved_eq_entries.symm, ?_⟩
  exact {
    named := fun e he => mem_named.mp (named_of_mem he)
    increasing := s.pairwise_entries
    once := fun name hname e hlookup => count_hash (mem_named.mpr ⟨name, hname, hlookup⟩)
    isPrivate := fun e he => (isPrivate_iff he).trans exists_named }

end Selection

end Herald.Key
