import Herald.Proofs.KeyWalk
import Herald.Proofs.Modification

namespace Herald

variable {L : Type}

namespace Key

namespace Ring

def union (rings : List Ring) : Ring :=
  rings.foldr (· ∪ ·) ∅

theorem mem_union {rings : List Ring} {k : Credential} : k ∈ union rings ↔ ∃ r ∈ rings, k ∈ r := by
  induction rings with
  | nil => simp [union]
  | cons r rings ih =>
    have hcons : union (r :: rings) = r ∪ union rings := rfl
    rw [hcons, Std.ExtTreeSet.mem_union_iff, ih]
    simp

end Ring

def Credential.keyHash (k : Credential) : Hash :=
  match k.datum with
  | .secret secret => .ofSecret secret
  | .hash h => h

namespace Entry

variable {e f : Entry} {usage : Usage} {k : Credential}

theorem keyHash_of_mem (h : k ∈ e.credentials usage) : k.keyHash = e.hash := by
  rcases mem_credentials.mp h with ⟨hd, -⟩ | ⟨secret, hs, hd, -⟩
  · rw [Credential.keyHash, hd]
  · rw [Credential.keyHash, hd, e.hash_of_secret secret hs]

theorem credentials_subset (hash : e.hash = f.hash) (secret : ∀ s, e.secret = some s → f.secret = some s)
    (h : k ∈ e.credentials usage) : k ∈ f.credentials usage := by
  rw [mem_credentials] at h ⊢
  rcases h with ⟨hd, hrole⟩ | ⟨s, hs, hd, hrole⟩
  · exact .inl ⟨hash ▸ hd, hrole⟩
  · exact .inr ⟨s, secret s hs, hd, hrole⟩

end Entry

namespace Selection

variable {s old new : Selection} {usage : Usage} {e f : Entry} {k : Credential}

theorem secret_mem_of_named (he : e ∈ s.named) {secret : List UInt8} (hs : e.secret = some secret) :
    secret ∈ s.table.secrets := by
  obtain ⟨name, -, hname⟩ := mem_named.mp he
  exact Table.mem_secrets.mpr ⟨name, e, hname, hs⟩

theorem secret_of_entry (hc : NoCollision s.table.secrets) (he : e ∈ s.named) (hf : f ∈ s.entries)
    (hash : f.hash = e.hash) {secret : List UInt8} (hs : e.secret = some secret) : f.secret = some secret := by
  -- The entry taken for a hash is private if any of that hash is, and there is one secret for it.
  have hp : f.isPrivate = true := (isPrivate_iff hf).mpr ⟨e, he, hash.symm, by simp [Entry.isPrivate, hs]⟩
  obtain ⟨taken, ht⟩ := Option.isSome_iff_exists.mp hp
  have heq : Hash.ofSecret taken = Hash.ofSecret secret := by
    rw [← f.hash_of_secret taken ht, hash, e.hash_of_secret secret hs]
  rw [ht, hc taken (secret_mem hf ht) secret (secret_mem_of_named he hs) heq]

theorem mem_ring_iff_named (hc : NoCollision s.table.secrets) :
    k ∈ s.ring usage ↔ ∃ e ∈ s.named, k ∈ e.credentials usage := by
  rw [mem_ring]
  constructor
  · rintro ⟨e, he, hk⟩
    exact ⟨e, named_of_mem he, hk⟩
  · rintro ⟨e, he, hk⟩
    obtain ⟨f, hf, hash⟩ := exists_entry he
    exact ⟨f, hf, Entry.credentials_subset hash.symm (fun _ => secret_of_entry hc he hf hash) hk⟩

theorem isEmpty_ring_iff_named : (s.ring usage).isEmpty = true ↔ s.named = [] := by
  rw [isEmpty_ring_iff]
  constructor
  · intro hnone
    apply List.eq_nil_iff_forall_not_mem.mpr
    intro e he
    obtain ⟨f, hf, -⟩ := exists_entry he
    rw [hnone] at hf
    cases hf
  · intro hnone
    apply List.eq_nil_iff_forall_not_mem.mpr
    intro e he
    have hnamed := named_of_mem he
    rw [hnone] at hnamed
    cases hnamed

end Selection

namespace Table

variable {table : Table} {usage : Usage}

structure United (table : Table) (usage : Usage) : Prop where
  mem : ∀ (names : List String) (k : Credential), k ∈ Selection.ring ⟨table, names⟩ usage ↔
    ∃ name ∈ names, ∃ e, table.lookup name = some e ∧ k ∈ e.credentials usage
  walked : ∀ names : List String, Selection.ring ⟨table, names⟩ usage =
    (Selection.walkTo ⟨table, []⟩ ⟨table, names⟩ usage).added
  sameKnown : ∀ names names' : List String, (∀ name, table.lookup name ≠ none → (name ∈ names ↔ name ∈ names')) →
    Selection.ring ⟨table, names⟩ usage = Selection.ring ⟨table, names'⟩ usage
  append : ∀ names names' : List String, Selection.ring ⟨table, names ++ names'⟩ usage =
    Selection.ring ⟨table, names⟩ usage ∪ Selection.ring ⟨table, names'⟩ usage
  isEmpty : ∀ names : List String, (Selection.ring ⟨table, names⟩ usage).isEmpty = true ↔
    ∀ name ∈ names, table.lookup name = none

theorem mem_ring_iff (h : NoCollision table.secrets) (names : List String) (k : Credential) :
    k ∈ Selection.ring ⟨table, names⟩ usage ↔
      ∃ name ∈ names, ∃ e, table.lookup name = some e ∧ k ∈ e.credentials usage := by
  rw [Selection.mem_ring_iff_named h, Selection.exists_named]

theorem ring_congr (h : NoCollision table.secrets) {names names' : List String}
    (hnames : ∀ name, table.lookup name ≠ none → (name ∈ names ↔ name ∈ names')) :
    Selection.ring ⟨table, names⟩ usage = Selection.ring ⟨table, names'⟩ usage := by
  apply Std.ExtTreeSet.ext_mem
  intro k
  rw [mem_ring_iff h, mem_ring_iff h]
  constructor
  · rintro ⟨name, hname, e, hlookup, hk⟩
    exact ⟨name, (hnames name (by simp [hlookup])).mp hname, e, hlookup, hk⟩
  · rintro ⟨name, hname, e, hlookup, hk⟩
    exact ⟨name, (hnames name (by simp [hlookup])).mpr hname, e, hlookup, hk⟩

theorem ring_append (h : NoCollision table.secrets) (names names' : List String) :
    Selection.ring ⟨table, names ++ names'⟩ usage =
      Selection.ring ⟨table, names⟩ usage ∪ Selection.ring ⟨table, names'⟩ usage := by
  apply Std.ExtTreeSet.ext_mem
  intro k
  rw [Std.ExtTreeSet.mem_union_iff, mem_ring_iff h, mem_ring_iff h, mem_ring_iff h]
  simp only [List.mem_append, or_and_right, exists_or]

theorem united (h : NoCollision table.secrets) (usage : Usage) : table.United usage where
  mem := mem_ring_iff h
  walked names := Selection.ring_eq_added ⟨table, names⟩ usage
  sameKnown _ _ := ring_congr h
  append := ring_append h
  isEmpty names := by
    rw [Selection.isEmpty_ring_iff_named]
    exact List.filterMap_eq_nil_iff

end Table

end Key

namespace Topic

variable {t : Topic L} {table : Key.Table} {usage : Key.Usage}

theorem ring_wantedNames (h : Key.NoCollision table.secrets) : Key.Selection.ring ⟨table, t.wantedNames⟩ usage =
    Key.Ring.union (t.callers.map fun c => Key.Selection.ring ⟨table, c.keyNames⟩ usage) := by
  apply Std.ExtTreeSet.ext_mem
  intro k
  rw [Key.Table.mem_ring_iff h, Key.Ring.mem_union]
  constructor
  · rintro ⟨name, hname, e, hlookup, hk⟩
    obtain ⟨c, hc, hown⟩ := mem_wantedNames.mp hname
    exact ⟨_, List.mem_map_of_mem hc, (Key.Table.mem_ring_iff h _ k).mpr ⟨name, hown, e, hlookup, hk⟩⟩
  · rintro ⟨r, hr, hk⟩
    obtain ⟨c, hc, rfl⟩ := List.mem_map.mp hr
    obtain ⟨name, hname, e, hlookup, hk⟩ := (Key.Table.mem_ring_iff h _ k).mp hk
    exact ⟨name, mem_wantedNames.mpr ⟨c, hc, hname⟩, e, hlookup, hk⟩

end Topic

namespace Client

variable {c : Client L}

def Shares (c : Client L) (table : Key.Table) (usage : Key.Usage) : Prop :=
  ∀ (n : TopicNo) (t : Topic L), c.board.topics[n]? = some t → t.callers ≠ [] →
    Key.Selection.ring ⟨table, t.keyNames⟩ usage =
      Key.Ring.union (t.callers.map fun d => Key.Selection.ring ⟨table, d.keyNames⟩ usage)

theorem Sound.shares (hs : c.Sound) {table : Key.Table} (h : Key.NoCollision table.secrets) (usage : Key.Usage) :
    c.Shares table usage := by
  intro n t ht hc
  rw [(hs.coherent.proper ht).keyNames hc]
  exact Topic.ring_wantedNames h

theorem united_run {check : Expression.Check} {s : Settings} (hc : Client.ofSettings check s = .ok c)
    (inputs : List (Input L)) {table : Key.Table} (h : Key.NoCollision table.secrets) (usage : Key.Usage) :
    table.United usage ∧ (c.run inputs).Shares table usage :=
  ⟨Key.Table.united h usage, ((Sound.ofSettings hc).run inputs).shares h usage⟩

def sharedRing : List (Input Nat) :=
  [.subscribe ⟨"require(A)", ["b", "z"], 0⟩, .subscribe ⟨"require(A)", ["a", "c", "b"], 1⟩]

theorem united_run_sharedRing : ∃ c, Client.ofSettings Expression.refusal? (.ofEndpoint "tcp://broker") = .ok c ∧
    Key.NoCollision Key.Selection.aliased.table.secrets ∧ Key.Selection.aliased.table.United .receive ∧
    (c.run sharedRing).Shares Key.Selection.aliased.table .receive :=
  have h : Key.NoCollision Key.Selection.aliased.table.secrets := by decide +kernel
  ⟨_, rfl, h, united_run (s := .ofEndpoint "tcp://broker") rfl sharedRing h .receive⟩

end Client

namespace Key

namespace Selection

variable {s old new : Selection} {usage : Usage} {e f : Entry} {k : Credential}

def IsPrivate (s : Selection) (h : Hash) : Prop :=
  ∃ e ∈ s.named, e.hash = h ∧ e.isPrivate = true

def IsPublic (s : Selection) (h : Hash) : Prop :=
  (∃ e ∈ s.named, e.hash = h) ∧ ¬ s.IsPrivate h

def Switches (old new : Selection) (h : Hash) : Prop :=
  old.IsPrivate h ∧ new.IsPublic h ∨ old.IsPublic h ∧ new.IsPrivate h

theorem isPrivate_or_isPublic (he : e ∈ s.entries) :
    e.isPrivate = true ∧ s.IsPrivate e.hash ∨ e.isPrivate = false ∧ s.IsPublic e.hash := by
  cases hp : e.isPrivate with
  | true => exact .inl ⟨rfl, (isPrivate_iff he).mp hp⟩
  | false =>
    have hnot : ¬ s.IsPrivate e.hash := fun h => by simp [(isPrivate_iff he).mpr h] at hp
    exact .inr ⟨rfl, ⟨e, named_of_mem he, rfl⟩, hnot⟩

theorem switches_of_ne (he : e ∈ old.entries) (hf : f ∈ new.entries) (hash : f.hash = e.hash)
    (hp : f.isPrivate ≠ e.isPrivate) : Switches old new e.hash := by
  rcases isPrivate_or_isPublic he with ⟨hpe, hold⟩ | ⟨hpe, hold⟩
  · rcases isPrivate_or_isPublic hf with ⟨hpf, -⟩ | ⟨-, hnew⟩
    · exact absurd (hpf.trans hpe.symm) hp
    · exact .inl ⟨hold, hash ▸ hnew⟩
  · rcases isPrivate_or_isPublic hf with ⟨-, hnew⟩ | ⟨hpf, -⟩
    · exact .inr ⟨hold, hash ▸ hnew⟩
    · exact absurd (hpf.trans hpe.symm) hp

theorem switches_of_mem (hk : k ∈ old.surplus new usage) (hnew : k ∈ new.ring usage) :
    Switches old new k.keyHash := by
  obtain ⟨e, he, hlacks, hke⟩ := mem_surplus.mp hk
  obtain ⟨f, hf, hkf⟩ := mem_ring.mp hnew
  have hash : f.hash = e.hash := Entry.hash_eq_of_mem hkf hke
  rw [Entry.keyHash_of_mem hke]
  exact switches_of_ne he hf hash (matchesEntry_eq_false_iff.mp hlacks f hf hash)

/-- A change that does what it has to and otherwise only what a key that changes sides needs. -/
structure Least (old new : Selection) (usage : Usage) (c : Change) : Prop where
  removed_subset : ∀ k ∈ c.removed, k ∈ old.ring usage
  added_subset : ∀ k ∈ c.added, k ∈ new.ring usage
  removes : ∀ k ∈ old.ring usage, k ∉ new.ring usage → k ∈ c.removed
  adds : ∀ k ∈ new.ring usage, k ∉ old.ring usage → k ∈ c.added
  switches : ∀ k ∈ c.removed, k ∈ c.added ∨ k ∈ new.ring usage → Switches old new k.keyHash
  isEmpty : c.isEmpty = true ↔ old.ring usage = new.ring usage

theorem least_changeTo (hc : NoCollision (old.table.secrets ++ new.table.secrets)) (usage : Usage) :
    Least old new usage (old.changeTo new usage) := by
  have hmem (k : Credential) : k ∈ new.ring usage ↔ k ∈ new.surplus old usage ∨
      k ∈ old.ring usage ∧ k ∉ old.surplus new usage := by
    rw [← ring_apply_changeTo hc, Ring.mem_apply]
    rfl
  refine ⟨fun k => surplus_subset, fun k => surplus_subset, ?_, ?_, ?_, ?_⟩
  · intro k hold hnew
    by_contra hkept
    exact hnew ((hmem k).mpr (.inr ⟨hold, hkept⟩))
  · intro k hnew hold
    rcases (hmem k).mp hnew with hadded | ⟨hkept, -⟩
    · exact hadded
    · exact absurd hkept hold
  · rintro k hk (hadded | hnew)
    · exact switches_of_mem hk (surplus_subset hadded)
    · exact switches_of_mem hk hnew
  · exact ⟨ring_eq_of_changeTo_isEmpty hc, isEmpty_changeTo_of_ring⟩

theorem least_walkTo (old new : Selection) (usage : Usage) :
    old.changeTo new usage = old.walkTo new usage ∧
      (old.walkTo new usage).added = (new.walkTo old usage).removed ∧
      (old.walkTo new usage).removed = (new.walkTo old usage).added ∧
      (NoCollision (old.table.secrets ++ new.table.secrets) → Least old new usage (old.walkTo new usage)) := by
  have hswap := walk_swap usage .nothing new.resolved old.resolved
  refine ⟨(walkTo_eq_changeTo old new usage).symm, (congrArg Change.added hswap).symm,
    (congrArg Change.removed hswap).symm, fun hc => ?_⟩
  rw [walkTo_eq_changeTo]
  exact least_changeTo hc usage

theorem least_walkTo_demoted :
    aliased.changeTo demoted .receive = aliased.walkTo demoted .receive ∧
      (aliased.walkTo demoted .receive).added = (demoted.walkTo aliased .receive).removed ∧
      (aliased.walkTo demoted .receive).removed = (demoted.walkTo aliased .receive).added ∧
      Least aliased demoted .receive (aliased.walkTo demoted .receive) :=
  have hc : NoCollision (aliased.table.secrets ++ demoted.table.secrets) := by decide +kernel
  have h := least_walkTo aliased demoted .receive
  ⟨h.1, h.2.1, h.2.2.1, h.2.2.2 hc⟩

end Selection

end Key

end Herald
