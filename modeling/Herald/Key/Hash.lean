import Herald.Digest.Sha256
import Herald.Text.Hex
import Std.Data.ExtTreeSet

namespace Herald.Key

structure Hash where
  bytes : List UInt8
  deriving DecidableEq, Repr

namespace Hash

def ofSecret (secret : List UInt8) : Hash :=
  ⟨Digest.sha256 secret⟩

def hex (h : Hash) : String :=
  Text.Hex.encode h.bytes

def ofHex (s : String) : Except Text.Hex.Flaw Hash :=
  Hash.mk <$> Text.Hex.decode s

def label (h : Hash) : String :=
  s!"KeyHash({Text.Hex.encode (h.bytes.take 4)}...)"

def order : Hash → Hash → Ordering :=
  compareLex (compareOn fun h => h.bytes.length) (compareOn Hash.bytes)

instance : Std.TransCmp order :=
  inferInstanceAs (Std.TransCmp (compareLex (compareOn fun h : Hash => h.bytes.length) (compareOn Hash.bytes)))

instance : Std.LawfulEqCmp order where
  eq_of_compare {a b} h := by
    simp only [order, compareLex, compareOn, Ordering.then_eq_eq] at h
    cases a
    cases b
    simpa [Std.LawfulEqCmp.compare_eq_iff_eq] using h.2

instance : Ord Hash := ⟨order⟩

instance : Std.TransOrd Hash := inferInstanceAs (Std.TransCmp order)

instance : Std.LawfulEqOrd Hash := inferInstanceAs (Std.LawfulEqCmp order)

def sort (hashes : List Hash) : List Hash :=
  hashes.mergeSort fun a b => (compare a b).isLE

theorem ofHex_hex (h : Hash) : ofHex h.hex = .ok h := by
  rw [ofHex, hex, Text.Hex.decode_encode]
  rfl

theorem compare_eq_iff {a b : Hash} : compare a b = .eq ↔ a = b :=
  Std.LawfulEqOrd.compare_eq_iff_eq

end Hash

end Herald.Key
