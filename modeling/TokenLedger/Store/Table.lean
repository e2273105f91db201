import TokenLedger.Store.Key
import TokenLedger.Text.Utf8

/-! Committed state. Every key that was ever written has an entry with the height of the commit that
wrote it last; an entry without a value stands for a deleted record. -/

namespace TokenLedger

/-- Values by the texts of their keys, in the order of these texts. -/
abbrev Table (α : Type) := Std.ExtTreeMap String α

structure Entry where
  version : UInt64
  value : Option Bytes
  deriving DecidableEq

structure Store where
  /-- The number of commits that wrote anything. -/
  height : UInt64
  entries : Table Entry
  deriving DecidableEq

namespace Store

def empty : Store := ⟨0, ∅⟩

instance : Inhabited Store := ⟨empty⟩

/-- The version of the entry of a key, 0 where there is none. -/
def version (s : Store) (k : String) : UInt64 :=
  match s.entries[k]? with
  | some e => e.version
  | none => 0

/-- The live value of a key. -/
def value? (s : Store) (k : String) : Option Bytes := s.entries[k]?.bind (·.value)

def under (p : String) {α : Type} (t : Table α) : Table α :=
  t.filter fun k _ => p.toList.isPrefixOf k.toList

end Store
end TokenLedger
