import Herald.Proofs.Transit
import Herald.Proofs.WrittenText
import Herald.Key.Table
import Mathlib.Data.List.Nodup

namespace Herald

namespace Json

theorem bind_ok {ε α β : Type} {x : Except ε α} {a : α} {f : α → Except ε β} (h : x = .ok a) : (x >>= f) = f a := by
  rw [h]
  rfl

theorem mapM_map_pure {α β : Type} {m : Type → Type} [Monad m] [LawfulMonad m] {f : α → β} {g : β → m α}
    (h : ∀ a, g (f a) = pure a) (l : List α) : (l.map f).mapM g = pure l := by
  have hpure : g ∘ f = pure := funext h
  rw [List.mapM_map, hpure, List.mapM_pure, List.map_id']

section Readers

theorem inWord_natCast {n : Nat} (h : n < UInt64.size) : InWord n := by
  have hmin : Int64.minValue.toInt ≤ 0 := by decide
  exact ⟨Int.le_trans hmin (Int.natCast_nonneg n), Int.ofNat_lt.mpr h⟩

theorem word_ofInt {bits n : Nat} (h : n < 1 <<< bits) : Reader.word bits (.ofInt n) = .ok n := by
  simp [Reader.word, Node.ofInt, h]

theorem word32_ofInt (n : UInt32) : Reader.word32 (.ofInt n.toNat) = .ok n := by
  rw [Reader.word32, word_ofInt n.toNat_lt]
  exact congrArg Except.ok UInt32.ofNat_toNat

theorem word64_ofInt (n : UInt64) : Reader.word64 (.ofInt n.toNat) = .ok n := by
  rw [Reader.word64, word_ofInt n.toNat_lt]
  exact congrArg Except.ok UInt64.ofNat_toNat

theorem bytes_ofBytes (b : List UInt8) : Reader.bytes (.ofBytes b) = .ok b := by
  refine mapM_map_pure (fun byte => ?_) b
  rw [word_ofInt byte.toNat_lt]
  exact congrArg Except.ok UInt8.ofNat_toNat

theorem optional_ofOption (s : Option String) : Reader.text.optional (Node.ofOption .ofText s) = .ok s := by
  cases s <;> rfl

theorem list_text (l : List String) : Reader.text.list (.list (l.map .ofText)) = .ok l :=
  mapM_map_pure (g := Reader.text) (fun _ => rfl) l

theorem written_word32 (n : UInt32) : (Node.ofInt n.toNat).Written :=
  .int (inWord_natCast (Nat.lt_trans n.toNat_lt (by decide)))

theorem written_word64 (n : UInt64) : (Node.ofInt n.toNat).Written :=
  .int (inWord_natCast n.toNat_lt)

theorem written_ofBytes (b : List UInt8) : (Node.ofBytes b).Written := by
  refine .list fun n hn => ?_
  obtain ⟨byte, -, rfl⟩ := List.mem_map.mp hn
  exact .int (inWord_natCast (Nat.lt_trans byte.toNat_lt (by decide)))

theorem written_ofOption (s : Option String) : (Node.ofOption .ofText s).Written := by
  cases s with
  | none => exact .null
  | some s => exact .text s

theorem written_list_text (l : List String) : (Node.list (l.map .ofText)).Written := by
  refine .list fun n hn => ?_
  obtain ⟨s, -, rfl⟩ := List.mem_map.mp hn
  exact .text s

end Readers

structure Part where
  {α : Type}
  field : Field α
  node : Node
  value : α
  reads : field.read node = .ok value
  written : node.Written

namespace Part

variable {parts : List Part} {p : Part}

def name (p : Part) : String :=
  p.field.name

def slot (p : Part) : Slot :=
  p.field.slot

def member (p : Part) : String × Node :=
  (p.name, p.node)

theorem check_slot (p : Part) : p.slot.check p.node = .ok () :=
  bind_ok p.reads

theorem find?_slot (hd : (parts.map name).Nodup) (hp : p ∈ parts) :
    (parts.map slot).find? (·.name = p.name) = some p.slot := by
  induction parts with
  | nil => exact absurd hp List.not_mem_nil
  | cons q parts ih =>
    obtain ⟨hnew, hd⟩ := List.nodup_cons.mp hd
    obtain rfl | hp := List.mem_cons.mp hp
    · exact List.find?_cons_of_pos (decide_eq_true rfl)
    · have hne : q.name ≠ p.name := fun heq => hnew (heq ▸ List.mem_map_of_mem hp)
      rw [List.map_cons, List.find?_cons_of_neg (by simpa using show ¬q.slot.name = p.name from hne), ih hd hp]

theorem membersOfObject_parts {slots : List Slot} (hslots : ∀ p ∈ parts, slots.find? (·.name = p.name) = some p.slot)
    (hd : (parts.map name).Nodup) (seen : List (String × Node)) (hseen : ∀ p ∈ parts, seen.lookup p.name = none) :
    membersOfObject slots seen ((parts.map member).map named) = .ok ((parts.map member).reverse ++ seen) := by
  induction parts generalizing seen with
  | nil => rfl
  | cons p parts ih =>
    obtain ⟨hp, hslots⟩ := List.forall_mem_cons.mp hslots
    obtain ⟨hnew, hd⟩ := List.nodup_cons.mp hd
    obtain ⟨hfresh, hseen⟩ := List.forall_mem_cons.mp hseen
    -- No later part has the name of this one, so none of them is taken for a repetition.
    have hnext : ∀ q ∈ parts, (p.member :: seen).lookup q.name = none := by
      intro q hq
      have hne : q.name ≠ p.name := fun heq => hnew (heq ▸ List.mem_map_of_mem hq)
      rw [member, List.lookup_cons, beq_eq_false_iff_ne.mpr hne]
      exact hseen q hq
    have hstep : membersOfObject slots seen (named p.member :: (parts.map member).map named) =
        membersOfObject slots (p.member :: seen) ((parts.map member).map named) := by
      simp [membersOfObject, named, member, hp, hfresh, bind_ok p.check_slot]
    rw [List.map_cons, List.map_cons, hstep, ih hslots hd _ hnext, List.reverse_cons, List.append_assoc]
    rfl

theorem lookup_of_mem {members : List (String × Node)} (hd : (members.map (·.1)).Nodup) {m : String × Node}
    (hm : m ∈ members) : members.lookup m.1 = some m.2 := by
  induction members with
  | nil => exact absurd hm List.not_mem_nil
  | cons k members ih =>
    obtain ⟨hnew, hd⟩ := List.nodup_cons.mp hd
    obtain rfl | hm := List.mem_cons.mp hm
    · exact List.lookup_cons_self
    · have hne : m.1 ≠ k.1 := fun heq => hnew (List.mem_map.mpr ⟨m, hm, heq⟩)
      rw [List.lookup_cons, beq_eq_false_iff_ne.mpr hne]
      exact ih hd hm

theorem exists_members (parts : List Part) (hd : (parts.map name).Nodup) (type : String) :
    ∃ members, membersOf type (parts.map slot) (record (parts.map member)) = .ok members ∧
      parts.Forall fun p => p.field.get members = .ok p.value := by
  have hread := membersOfObject_parts (fun _ hp => find?_slot hd hp) hd [] (fun _ _ => rfl)
  refine ⟨_, hread, List.forall_iff_forall_mem.mpr fun p hp => ?_⟩
  have hlookup : ((parts.map member).reverse ++ []).lookup p.field.name = some p.node := by
    rw [List.append_nil]
    refine lookup_of_mem (m := p.member) ?_ (List.mem_reverse.mpr (List.mem_map_of_mem hp))
    rw [List.map_reverse, List.map_map]
    exact List.nodup_reverse.mpr hd
  rw [Field.get, hlookup]
  exact p.reads

theorem written_record (parts : List Part) : (record (parts.map member)).Written := by
  refine .record fun m hm => ?_
  obtain ⟨p, -, rfl⟩ := List.mem_map.mp hm
  exact p.written

end Part

end Json

open Json

namespace Settings

def parts (s : Settings) : List Part :=
  [⟨endpointField, .ofText s.endpoint, s.endpoint, rfl, .text _⟩,
    ⟨initialDelayField, .ofInt s.initialDelay.toNat, s.initialDelay, word64_ofInt _, written_word64 _⟩,
    ⟨maxDelayField, .ofInt s.maxDelay.toNat, s.maxDelay, word64_ofInt _, written_word64 _⟩,
    ⟨factorField, .ofInt s.factor.toNat, s.factor, word32_ofInt _, written_word32 _⟩]

theorem reader_toNode (s : Settings) : reader s.toNode = .ok s := by
  have hd : [endpointField.name, initialDelayField.name, maxDelayField.name, factorField.name].Nodup := by decide
  obtain ⟨members, hmembers, hendpoint, hinitial, hmax, hfactor⟩ :=
    Part.exists_members s.parts hd "ClientConfig"
  exact (bind_ok hmembers).trans <| (bind_ok hendpoint).trans <| (bind_ok hinitial).trans <|
    (bind_ok hmax).trans <| bind_ok hfactor

theorem readText_render (s : Settings) : readText reader s.toNode.render = .ok s :=
  (Part.written_record s.parts).readText_render s.reader_toNode

theorem ofJson_render (s : Settings) : ofJson s.toNode.render = (do s.validate; return s) := by
  rw [ofJson, s.readText_render]

end Settings

namespace Group

def parts (g : Group) : List Part :=
  [⟨nameField, .ofText g.name, g.name, rfl, .text _⟩,
    ⟨expressionField, .ofText g.expression, g.expression, rfl, .text _⟩,
    ⟨inMenuField, .bool g.inMenu, g.inMenu, rfl, .bool _⟩,
    ⟨autoMimeField, .bool g.autoMime, g.autoMime, rfl, .bool _⟩,
    ⟨minTimeField, .ofInt g.minTime.toNat, g.minTime, word32_ofInt _, written_word32 _⟩,
    ⟨maxTimeField, .ofInt g.maxTime.toNat, g.maxTime, word32_ofInt _, written_word32 _⟩,
    ⟨keyNamesField, .list (g.keyNames.map .ofText), g.keyNames, list_text _, written_list_text _⟩]

theorem reader_toNode (g : Group) : reader g.toNode = .ok g := by
  have hd : [nameField.name, expressionField.name, inMenuField.name, autoMimeField.name, minTimeField.name,
      maxTimeField.name, keyNamesField.name].Nodup := by decide
  obtain ⟨members, hmembers, hname, hexpression, hinMenu, hautoMime, hminTime, hmaxTime, hkeyNames⟩ :=
    Part.exists_members g.parts hd "GroupRecord"
  exact (bind_ok hmembers).trans <| (bind_ok hname).trans <| (bind_ok hexpression).trans <|
    (bind_ok hinMenu).trans <| (bind_ok hautoMime).trans <| (bind_ok hminTime).trans <|
    (bind_ok hmaxTime).trans <| bind_ok hkeyNames

theorem readText_render (g : Group) : readText reader g.toNode.render = .ok g :=
  (Part.written_record g.parts).readText_render g.reader_toNode

end Group

namespace Key.Record

def parts (r : Record) : List Part :=
  [⟨nameField, .ofText r.name, r.name, rfl, .text _⟩,
    ⟨isPrivateField, .bool r.isPrivate, r.isPrivate, rfl, .bool _⟩,
    ⟨dataField, .ofBytes r.data, r.data, bytes_ofBytes _, written_ofBytes _⟩]

theorem reader_toNode (r : Record) : reader r.toNode = .ok r := by
  have hd : [nameField.name, isPrivateField.name, dataField.name].Nodup := by decide
  obtain ⟨members, hmembers, hname, hprivate, hdata⟩ := Part.exists_members r.parts hd "KeyRecord"
  exact (bind_ok hmembers).trans <| (bind_ok hname).trans <| (bind_ok hprivate).trans <| bind_ok hdata

theorem readText_render (r : Record) : readText reader r.toNode.render = .ok r :=
  (Part.written_record r.parts).readText_render r.reader_toNode

end Key.Record

namespace Message

def parts (m : Message) : List Part :=
  [⟨groupField, .ofText m.group, m.group, rfl, .text _⟩,
    ⟨userField, .ofText m.user, m.user, rfl, .text _⟩,
    ⟨textField, .ofText m.text, m.text, rfl, .text _⟩,
    ⟨timeoutField, .ofInt m.timeout.toNat, m.timeout, word32_ofInt _, written_word32 _⟩,
    ⟨mimeTypeField, .ofOption .ofText m.mimeType, m.mimeType, optional_ofOption _, written_ofOption _⟩,
    ⟨mimeArgsField, .ofOption .ofText m.mimeArgs, m.mimeArgs, optional_ofOption _, written_ofOption _⟩,
    ⟨messageIdField, .ofOption .ofText m.messageId, m.messageId, optional_ofOption _, written_ofOption _⟩,
    ⟨inReplyToField, .ofOption .ofText m.inReplyTo, m.inReplyTo, optional_ofOption _, written_ofOption _⟩,
    ⟨threadIdField, .ofOption .ofText m.threadId, m.threadId, optional_ofOption _, written_ofOption _⟩]

theorem reader_toNode (m : Message) : reader m.toNode = .ok m := by
  have hd : [groupField.name, userField.name, textField.name, timeoutField.name, mimeTypeField.name,
      mimeArgsField.name, messageIdField.name, inReplyToField.name, threadIdField.name].Nodup := by decide
  obtain ⟨members, hmembers, hgroup, huser, htext, htimeout, hmimeType, hmimeArgs, hmessageId, hinReplyTo, hthreadId⟩ :=
    Part.exists_members m.parts hd "TickerMessage"
  exact (bind_ok hmembers).trans <| (bind_ok hgroup).trans <| (bind_ok huser).trans <| (bind_ok htext).trans <|
    (bind_ok htimeout).trans <| (bind_ok hmimeType).trans <| (bind_ok hmimeArgs).trans <|
    (bind_ok hmessageId).trans <| (bind_ok hinReplyTo).trans <| bind_ok hthreadId

theorem readText_render (m : Message) : readText reader m.toNode.render = .ok m :=
  (Part.written_record m.parts).readText_render m.reader_toNode

end Message

namespace Value

variable {v : Value}

def narrowed : Value → Value
  | .int64 n =>
    if Int32.minValue.toInt ≤ n.toInt ∧ n.toInt ≤ Int32.maxValue.toInt then .int32 (.ofInt n.toInt) else .int64 n
  | v => v

theorem text?_narrowed (v : Value) : v.narrowed.text? = v.text? := by
  cases v with
  | int64 n =>
    rw [narrowed]
    split <;> rfl
  | _ => rfl

theorem int?_narrowed (v : Value) : v.narrowed.int? = v.int? := by
  cases v with
  | int64 n =>
    rw [narrowed]
    split
    · next hnarrow => exact congrArg some (Int32.toInt_ofInt_of_le hnarrow.1 (Int.lt_add_one_of_le hnarrow.2))
    · rfl
  | _ => rfl

theorem narrowed_eq_bytes_iff {b : List UInt8} : v.narrowed = .bytes b ↔ v = .bytes b := by
  cases v with
  | int64 n =>
    rw [narrowed]
    split <;> simp
  | _ => rfl

theorem ofInt_int32 (n : Int32) : ofInt n.toInt = some (.int32 n) := by
  rw [ofInt, if_pos ⟨n.minValue_le_toInt, n.toInt_le⟩, Int32.ofInt_toInt]

theorem ofInt_int64 (n : Int64) : ofInt n.toInt = some (narrowed (.int64 n)) := by
  rw [ofInt, narrowed]
  split
  · rfl
  · rw [if_pos ⟨n.minValue_le_toInt, n.toInt_le⟩, Int64.ofInt_toInt]

theorem byte?_ofInt (b : UInt8) : byte? (.ofInt b.toNat) = some b := by
  have hb : (b.toNat : Int) < 256 := Int.ofNat_lt.mpr b.toNat_lt
  rw [Node.ofInt, byte?, if_pos ⟨Int.natCast_nonneg _, hb⟩, Int.toNat_natCast, UInt8.ofNat_toNat]

theorem ofNode?_toNode (h : ∀ x, v ≠ .real x) : ofNode? v.toNode = some v.narrowed := by
  cases v with
  | int32 n => exact ofInt_int32 n
  | int64 n => exact ofInt_int64 n
  | real x => exact absurd rfl (h x)
  | text s => rfl
  | bytes b =>
    have hbytes : (b.map fun byte => Node.ofInt byte.toNat).mapM byte? = some b := mapM_map_pure byte?_ofInt b
    rw [toNode, Node.ofBytes, ofNode?, hbytes]
    rfl

theorem accepts_toNode (v : Value) : v.toNode.accepts true = true := by
  cases v with
  | bytes b =>
    rw [toNode, Node.ofBytes, Node.accepts]
    induction b with
    | nil => rfl
    | cons byte b ih => exact ih
  | _ => rfl

theorem nesting_toNode (v : Value) : v.toNode.nesting ≤ 1 := by
  cases v with
  | bytes b =>
    have hflat : Node.nestingItems (b.map fun byte => Node.ofInt byte.toNat) = 0 := by
      induction b with
      | nil => rfl
      | cons byte b ih => exact (Nat.zero_max _).trans ih
    exact Nat.succ_le_succ (Nat.le_of_eq hflat)
  | _ => exact Nat.zero_le 1

theorem reader_toNode (h : ∀ x, v ≠ .real x) : reader 2 v.toNode = .ok v.narrowed := by
  have hdepth : 2 + v.toNode.nesting < 128 := by
    have := v.nesting_toNode
    omega
  rw [reader, if_pos ⟨v.accepts_toNode, hdepth⟩, ofNode?_toNode h]

theorem written_toNode (h : ∀ x, v ≠ .real x) : v.toNode.Written := by
  cases v with
  | int32 n =>
    have hmin : Int64.minValue.toInt ≤ Int32.minValue.toInt := by decide
    have hmax : Int32.maxValue.toInt < UInt64.size := by decide
    exact .int ⟨Int.le_trans hmin n.minValue_le_toInt, Int.lt_of_le_of_lt n.toInt_le hmax⟩
  | int64 n =>
    have hmax : Int64.maxValue.toInt < UInt64.size := by decide
    exact .int ⟨n.minValue_le_toInt, Int.lt_of_le_of_lt n.toInt_le hmax⟩
  | real x => exact absurd rfl (h x)
  | text s => exact .text s
  | bytes b => exact written_ofBytes b

end Value

namespace Notification

variable {n : Notification}

def NoDoubles (n : Notification) : Prop :=
  ∀ name x, n.get? name ≠ some (.real x)

def narrowed (n : Notification) : Notification :=
  ⟨n.attributes.map fun _ v => v.narrowed⟩

theorem get?_narrowed (n : Notification) (name : String) :
    n.narrowed.get? name = (n.get? name).map Value.narrowed :=
  Std.ExtTreeMap.getElem?_map

theorem mem_toList_iff {name : String} {v : Value} : (name, v) ∈ n.toList ↔ n.get? name = some v :=
  Std.ExtTreeMap.mem_toList_iff_getElem?_eq_some

theorem NoDoubles.of_mem (h : n.NoDoubles) {a : String × Value} (ha : a ∈ n.toList) (x : Binary64) : a.2 ≠ .real x :=
  fun heq => h a.1 x (heq ▸ mem_toList_iff.mp ha)

theorem membersReader_named {attributes : List (String × Value)} (h : ∀ a ∈ attributes, ∀ x, a.2 ≠ .real x)
    (found : Notification) :
    membersReader 2 found ((attributes.map fun (name, v) => (name, v.toNode)).map named) =
      .ok ((attributes.map fun a => (a.1, some a.2.narrowed)).foldl (fun n f => n.put f.1 f.2) found) := by
  induction attributes generalizing found with
  | nil => rfl
  | cons a attributes ih =>
    obtain ⟨ha, hattributes⟩ := List.forall_mem_cons.mp h
    exact (bind_ok (Value.reader_toNode ha)).trans (ih hattributes _)

theorem foldl_put_toList (n : Notification) :
    (n.toList.map fun a => (a.1, some a.2.narrowed)).foldl (fun n f => n.put f.1 f.2) empty = n.narrowed := by
  have hd : ((n.toList.map fun a => (a.1, some a.2.narrowed)).map (·.1)).Nodup := by
    rw [List.map_map]
    exact Std.ExtTreeMap.map_fst_toList_eq_keys (t := n.attributes) ▸ Std.ExtTreeMap.nodup_keys
  refine ext_get? fun name => ?_
  rw [get?_foldl_put hd, get?_narrowed, get?_empty]
  cases hf : (n.toList.map fun a => (a.1, some a.2.narrowed)).find? (·.1 = name) with
  | none =>
    have hnone : n.get? name = none := by
      refine Option.eq_none_iff_forall_not_mem.mpr fun v hv => ?_
      have hmem := List.mem_map_of_mem (f := fun a => (a.1, some a.2.narrowed)) (mem_toList_iff.mpr hv)
      exact List.find?_eq_none.mp hf _ hmem (decide_eq_true rfl)
    rw [hnone]
    rfl
  | some f =>
    obtain ⟨a, ha, rfl⟩ := List.mem_map.mp (List.mem_of_find?_eq_some hf)
    have hname : a.1 = name := by simpa using List.find?_some hf
    rw [← hname, mem_toList_iff.mp ha]
    rfl

def attributesNode (n : Notification) : Node :=
  record (n.toList.map fun (name, v) => (name, v.toNode))

theorem attributesReader_toNode (h : n.NoDoubles) : attributesReader n.attributesNode = .ok n.narrowed :=
  (membersReader_named (fun _ ha => h.of_mem ha) empty).trans (congrArg Except.ok n.foldl_put_toList)

theorem written_attributesNode (h : n.NoDoubles) : n.attributesNode.Written := by
  refine .record fun m hm => ?_
  obtain ⟨a, ha, rfl⟩ := List.mem_map.mp hm
  exact Value.written_toNode (h.of_mem ha)

def parts (h : n.NoDoubles) : List Part :=
  [⟨attributesField, n.attributesNode, n.narrowed, attributesReader_toNode h, written_attributesNode h⟩]

theorem reader_toNode (h : n.NoDoubles) : reader n.toNode = .ok n.narrowed := by
  have hd : [attributesField.name].Nodup := by decide
  obtain ⟨members, hmembers, hattributes⟩ := Part.exists_members (parts h) hd "Notification"
  exact (bind_ok hmembers).trans hattributes

theorem readText_render (h : n.NoDoubles) : readText reader n.toNode.render = .ok n.narrowed :=
  (Part.written_record (parts h)).readText_render (reader_toNode h)

theorem text?_narrowed (n : Notification) (name : String) : n.narrowed.text? name = n.text? name := by
  rw [text?, text?, get?_narrowed]
  cases n.get? name with
  | none => rfl
  | some v => exact v.text?_narrowed

theorem int?_narrowed (n : Notification) (name : String) : n.narrowed.int? name = n.int? name := by
  rw [int?, int?, get?_narrowed]
  cases n.get? name with
  | none => rfl
  | some v => exact v.int?_narrowed

theorem get?_narrowed_eq_bytes_iff {name : String} {b : List UInt8} :
    n.narrowed.get? name = some (.bytes b) ↔ n.get? name = some (.bytes b) := by
  rw [get?_narrowed]
  cases n.get? name with
  | none => rfl
  | some v => simpa using Value.narrowed_eq_bytes_iff

end Notification

namespace Json

/-- Whatever a record holds, its text reads back as the record. Settings that come from a text are checked as well, and
in a notification whole numbers come back in the narrowest type, by which no attribute reads differently. -/
theorem readText_written :
    (∀ s : Settings, readText Settings.reader s.toNode.render = .ok s ∧
      (Settings.ofJson s.toNode.render = .ok s ↔ s.validate = .ok ()) ∧
      ∀ fault, Settings.ofJson s.toNode.render = .error fault ↔ s.validate = .error fault) ∧
    (∀ g : Group, readText Group.reader g.toNode.render = .ok g) ∧
    (∀ r : Key.Record, readText Key.Record.reader r.toNode.render = .ok r) ∧
    (∀ m : Message, readText Message.reader m.toNode.render = .ok m) ∧
    ∀ n : Notification, n.NoDoubles → readText Notification.reader n.toNode.render = .ok n.narrowed ∧
      ∀ name, n.narrowed.get? name = (n.get? name).map Value.narrowed ∧
        n.narrowed.text? name = n.text? name ∧ n.narrowed.int? name = n.int? name ∧
        ∀ b, n.narrowed.get? name = some (.bytes b) ↔ n.get? name = some (.bytes b) := by
  refine ⟨fun s => ⟨s.readText_render, ?_, fun fault => ?_⟩, Group.readText_render, Key.Record.readText_render,
    Message.readText_render, fun n h => ⟨Notification.readText_render h, fun name => ?_⟩⟩
  · rw [s.ofJson_render]
    cases s.validate with
    | error fault => exact ⟨nofun, nofun⟩
    | ok checked => exact ⟨fun _ => rfl, fun _ => rfl⟩
  · rw [s.ofJson_render]
    cases s.validate with
    | error fault' => exact ⟨fun h => congrArg _ (Except.error.inj h), fun h => congrArg _ (Except.error.inj h)⟩
    | ok checked => exact ⟨nofun, nofun⟩
  · exact ⟨n.get?_narrowed name, n.text?_narrowed name, n.int?_narrowed name,
      fun _ => Notification.get?_narrowed_eq_bytes_iff⟩

def twoNumbers : Notification :=
  Notification.empty |>.insert "near" (.int64 5) |>.insert "far" (.int64 4294967296)

theorem readText_written_twoNumbers : twoNumbers.NoDoubles ∧ ∃ n,
    readText Notification.reader twoNumbers.toNode.render = .ok n ∧
      n.get? "near" = some (.int32 5) ∧ n.get? "far" = some (.int64 4294967296) := by
  have hnone : twoNumbers.NoDoubles := by
    intro name x
    simp only [twoNumbers, Notification.get?_insert, Notification.get?_empty]
    split
    · simp
    · split <;> simp
  have hmin : Int32.minValue.toInt = -2147483648 := by decide
  have hmax : Int32.maxValue.toInt = 2147483647 := by decide
  obtain ⟨-, -, -, -, hnotifications⟩ := readText_written
  obtain ⟨hread, hattributes⟩ := hnotifications twoNumbers hnone
  refine ⟨hnone, _, hread, ?_, ?_⟩
  · rw [(hattributes "near").1]
    simp [twoNumbers, Value.narrowed, hmax, hmin]
  · rw [(hattributes "far").1]
    simp [twoNumbers, Value.narrowed, hmax]

end Json

end Herald
