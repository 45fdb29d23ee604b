import Herald.Key.Selection

namespace Herald.Key

def Table.secrets (t : Table) : List (List UInt8) :=
  t.entries.toList.filterMap (·.2.secret)

theorem Table.mem_secrets {t : Table} {secret : List UInt8} :
    secret ∈ t.secrets ↔ ∃ name e, t.lookup name = some e ∧ e.secret = some secret := by
  simp [secrets, lookup, Std.ExtTreeMap.mem_toList_iff_getElem?_eq_some]

def NoCollision (secrets : List (List UInt8)) : Prop :=
  ∀ s ∈ secrets, ∀ s' ∈ secrets, Hash.ofSecret s = Hash.ofSecret s' → s = s'

instance (secrets : List (List UInt8)) : Decidable (NoCollision secrets) :=
  inferInstanceAs (Decidable (∀ s ∈ secrets, ∀ s' ∈ secrets, Hash.ofSecret s = Hash.ofSecret s' → s = s'))

theorem NoCollision.mono {secrets more : List (List UInt8)} (h : NoCollision more)
    (hsub : ∀ s ∈ secrets, s ∈ more) : NoCollision secrets :=
  fun s hs s' hs' heq => h s (hsub s hs) s' (hsub s' hs') heq

namespace Entry

variable {e f : Entry} {usage : Usage} {k : Credential}

theorem mem_credentials : k ∈ e.credentials usage ↔
    k.datum = .hash e.hash ∧ k.role = (match usage with | .publish => .consumer | .receive => .producer) ∨
      ∃ s, e.secret = some s ∧ k.datum = .secret s ∧
        k.role = (match usage with | .publish => .producer | .receive => .consumer) := by
  obtain ⟨role, datum⟩ := k
  cases usage <;> cases he : e.secret <;> simp [credentials, he, and_comm, or_comm]

theorem hash_eq_of_mem (he : k ∈ e.credentials usage) (hf : k ∈ f.credentials usage) :
    e.hash = f.hash := by
  rcases mem_credentials.mp he with ⟨hd, -⟩ | ⟨s, hs, hd, -⟩
  · rcases mem_credentials.mp hf with ⟨hd', -⟩ | ⟨s', -, hd', -⟩
    · rw [hd] at hd'
      exact Datum.hash.inj hd'
    · rw [hd] at hd'
      cases hd'
  · rcases mem_credentials.mp hf with ⟨hd', -⟩ | ⟨s', hs', hd', -⟩
    · rw [hd] at hd'
      cases hd'
    · rw [hd] at hd'
      cases hd'
      rw [e.hash_of_secret s hs, f.hash_of_secret s hs']

theorem credentials_eq (hash : e.hash = f.hash) (secret : e.secret = f.secret) :
    e.credentials usage = f.credentials usage := by
  cases usage <;> simp [credentials, hash, secret]

theorem hash_prefer {kept : Option Entry} (h : ∀ k ∈ kept, k.hash = e.hash) :
    (prefer kept e).hash = e.hash := by
  cases kept with
  | none => rfl
  | some k =>
    simp only [prefer]
    split
    · rfl
    · exact h k rfl

theorem prefer_eq (kept : Option Entry) (e : Entry) : prefer kept e = e ∨ kept = some (prefer kept e) := by
  cases kept with
  | none => exact .inl rfl
  | some k =>
    simp only [prefer]
    split
    · exact .inl rfl
    · exact .inr rfl

end Entry

namespace Selection

variable {s other : Selection} {usage : Usage} {e f : Entry} {k : Credential}

theorem mem_named : e ∈ s.named ↔ ∃ name ∈ s.names, s.table.lookup name = some e :=
  List.mem_filterMap

theorem exists_named {p : Entry → Prop} : (∃ e ∈ s.named, p e) ↔
    ∃ name ∈ s.names, ∃ e, s.table.lookup name = some e ∧ p e := by
  constructor
  · rintro ⟨e, he, hp⟩
    obtain ⟨name, hname, hlookup⟩ := mem_named.mp he
    exact ⟨name, hname, e, hlookup, hp⟩
  · rintro ⟨name, hname, e, hlookup, hp⟩
    exact ⟨e, mem_named.mpr ⟨name, hname, hlookup⟩, hp⟩

theorem byHash_spec (s : Selection) :
    ∀ (h : Hash) (e : Entry), s.byHash[h]? = some e → e.hash = h ∧ e ∈ s.named := by
  have hfold (l : List Entry) (kept : Std.ExtTreeMap Hash Entry)
      (hkept : ∀ (h : Hash) (e : Entry), kept[h]? = some e → e.hash = h ∧ e ∈ s.named)
      (hl : ∀ e ∈ l, e ∈ s.named) (h : Hash) (e : Entry)
      (he : (l.foldl (fun kept e => kept.insert e.hash (.prefer kept[e.hash]? e)) kept)[h]? = some e) :
      e.hash = h ∧ e ∈ s.named := by
    induction l generalizing kept with
    | nil => exact hkept h e he
    | cons f l ih =>
      refine ih _ ?_ (fun e he => hl e (.tail _ he)) he
      intro h e he
      rw [Std.ExtTreeMap.getElem?_insert] at he
      by_cases hf : f.hash = h
      · simp only [Std.LawfulEqOrd.compare_eq_iff_eq, hf, if_true, Option.some.injEq] at he
        subst he
        have hhash : ∀ k ∈ kept[h]?, k.hash = f.hash := fun k hk => hf ▸ (hkept h k hk).1
        refine ⟨(Entry.hash_prefer hhash).trans hf, ?_⟩
        rcases Entry.prefer_eq kept[h]? f with heq | heq
        · rw [heq]
          exact hl f (.head _)
        · exact (hkept h _ heq).2
      · simp only [Std.LawfulEqOrd.compare_eq_iff_eq, hf, if_false] at he
        exact hkept h e he
  exact hfold s.named ∅ (by simp) fun e he => he

theorem mem_entries : e ∈ s.entries ↔ s.byHash[e.hash]? = some e := by
  simp only [entries, List.mem_map, Prod.exists, Std.ExtTreeMap.mem_toList_iff_getElem?_eq_some]
  constructor
  · rintro ⟨h, f, hf, rfl⟩
    rwa [(s.byHash_spec h f hf).1]
  · exact fun h => ⟨e.hash, e, h, rfl⟩

theorem named_of_mem (he : e ∈ s.entries) : e ∈ s.named :=
  (s.byHash_spec _ _ (mem_entries.mp he)).2

theorem entries_unique (he : e ∈ s.entries) (hf : f ∈ s.entries) (h : e.hash = f.hash) : e = f := by
  rw [mem_entries] at he hf
  rw [h, hf] at he
  exact (Option.some.inj he).symm

theorem mem_ring : k ∈ s.ring usage ↔ ∃ e ∈ s.entries, k ∈ e.credentials usage := by
  simp [ring]

theorem matchesEntry_iff : other.matchesEntry e = true ↔
    ∃ f ∈ other.entries, f.hash = e.hash ∧ f.isPrivate = e.isPrivate := by
  unfold matchesEntry
  constructor
  · intro h
    cases hf : other.byHash[e.hash]? with
    | none => simp [hf] at h
    | some f =>
      have hhash := (other.byHash_spec _ _ hf).1
      exact ⟨f, mem_entries.mpr (hhash ▸ hf), hhash, by simpa [hf] using h⟩
  · rintro ⟨f, hf, hhash, hp⟩
    rw [mem_entries, hhash] at hf
    simp [hf, hp]

theorem mem_surplus : k ∈ s.surplus other usage ↔
    ∃ e ∈ s.entries, other.matchesEntry e = false ∧ k ∈ e.credentials usage := by
  simp [surplus, and_assoc]

theorem surplus_subset (h : k ∈ s.surplus other usage) : k ∈ s.ring usage := by
  obtain ⟨e, he, -, hk⟩ := mem_surplus.mp h
  exact mem_ring.mpr ⟨e, he, hk⟩

theorem not_mem_surplus (he : e ∈ s.entries) (hm : other.matchesEntry e = true)
    (hk : k ∈ e.credentials usage) : k ∉ s.surplus other usage := by
  intro h
  obtain ⟨f, hf, hn, hkf⟩ := mem_surplus.mp h
  obtain rfl := entries_unique he hf (Entry.hash_eq_of_mem hk hkf)
  rw [hm] at hn
  cases hn

theorem changeTo_self (s : Selection) (usage : Usage) : (s.changeTo s usage).isEmpty = true := by
  have hnone : s.surplus s usage = ∅ := by
    refine Std.ExtTreeSet.ext_mem fun k => iff_of_false (fun h => ?_) Std.ExtTreeSet.not_mem_empty
    obtain ⟨e, he, hn, -⟩ := mem_surplus.mp h
    rw [matchesEntry_iff.mpr ⟨e, he, rfl, rfl⟩] at hn
    cases hn
  simp [Change.isEmpty, changeTo, hnone]

theorem secret_mem (he : e ∈ s.entries) {secret : List UInt8} (hs : e.secret = some secret) :
    secret ∈ s.table.secrets := by
  obtain ⟨name, -, hname⟩ := mem_named.mp (named_of_mem he)
  exact Table.mem_secrets.mpr ⟨name, e, hname, hs⟩

theorem credentials_eq_of_matches (hc : NoCollision (s.table.secrets ++ other.table.secrets))
    (he : e ∈ s.entries) (hf : f ∈ other.entries) (hash : e.hash = f.hash)
    (priv : e.isPrivate = f.isPrivate) : e.credentials usage = f.credentials usage := by
  apply Entry.credentials_eq hash
  cases hs : e.secret with
  | none =>
    cases hs' : f.secret with
    | none => rfl
    | some s' => simp [Entry.isPrivate, hs, hs'] at priv
  | some a =>
    cases hs' : f.secret with
    | none => simp [Entry.isPrivate, hs, hs'] at priv
    | some a' =>
      rw [e.hash_of_secret a hs, f.hash_of_secret a' hs'] at hash
      exact congrArg some (hc a (List.mem_append_left _ (secret_mem he hs)) a'
        (List.mem_append_right _ (secret_mem hf hs')) hash)

theorem ring_apply_changeTo (hc : NoCollision (s.table.secrets ++ other.table.secrets)) :
    (s.ring usage).apply (s.changeTo other usage) = other.ring usage := by
  apply Std.ExtTreeSet.ext_mem
  intro k
  rw [Ring.mem_apply]
  constructor
  · rintro (h | ⟨h, hn⟩)
    · exact surplus_subset h
    · obtain ⟨e, he, hk⟩ := mem_ring.mp h
      cases hm : other.matchesEntry e with
      | false => exact absurd (mem_surplus.mpr ⟨e, he, hm, hk⟩) hn
      | true =>
        obtain ⟨f, hf, hash, priv⟩ := matchesEntry_iff.mp hm
        rw [credentials_eq_of_matches hc he hf hash.symm priv.symm] at hk
        exact mem_ring.mpr ⟨f, hf, hk⟩
  · intro h
    obtain ⟨f, hf, hk⟩ := mem_ring.mp h
    cases hm : s.matchesEntry f with
    | false => exact .inl (mem_surplus.mpr ⟨f, hf, hm, hk⟩)
    | true =>
      obtain ⟨e, he, hash, priv⟩ := matchesEntry_iff.mp hm
      have hm' : other.matchesEntry e = true := matchesEntry_iff.mpr ⟨f, hf, hash.symm, priv.symm⟩
      rw [← credentials_eq_of_matches hc he hf hash priv] at hk
      exact .inr ⟨mem_ring.mpr ⟨e, he, hk⟩, not_mem_surplus he hm' hk⟩

theorem ring_eq_of_changeTo_isEmpty (hc : NoCollision (s.table.secrets ++ other.table.secrets))
    (h : (s.changeTo other usage).isEmpty = true) : s.ring usage = other.ring usage := by
  rw [← ring_apply_changeTo hc]
  simp only [Change.isEmpty, Bool.and_eq_true, Std.ExtTreeSet.isEmpty_iff] at h
  apply Std.ExtTreeSet.ext_mem
  intro k
  simp [Ring.mem_apply, h.1, h.2]

end Selection

end Herald.Key
