import TokenLedger.Store.Table
import TokenLedger.Json.Record

/-! Snapshots: documents that hold a whole store. They are written with an indentation of two spaces
and a line for each member; values are spelled as hexadecimal digits. -/

namespace TokenLedger

namespace Entry

open Json in
def fields : List Field :=
  [.required "version" .uint64, .required "value" (.optional .hex)]

def layout : Json.Layout Entry where
  name := "Entry"
  fields := fields
  ofRow := fun (version, value, _) => ⟨version, value⟩
  toRow e := (e.version, e.value, ())

end Entry

namespace Snapshot

open Json

def fields : List Field :=
  [.required "height" .uint64, .required "entries" (.entries Entry.layout.codec)]

/-- The records of a store. Of two entries with one key the later one counts. -/
def layout : Json.Layout Store where
  name := "Committed"
  fields := fields
  ofRow := fun (height, entries, _) => ⟨height, .ofList entries⟩
  toRow s := (s.height, s.entries.toList, ())

/-- The store that a snapshot holds. -/
def load (b : Bytes) : Except Json.Error Store := layout.codec.decode b

def line (depth : Nat) : Bytes := 10 :: List.replicate (2 * depth) 32

/-- Members on lines of their own, one deeper than the brackets around them. -/
def block (depth : Nat) (members : List Bytes) : Bytes :=
  if members.isEmpty then [Octet.objectOpen, Octet.objectClose]
  else Octet.objectOpen :: Codec.separated (members.map (line (depth + 1) ++ ·)) ++ line depth
    ++ [Octet.objectClose]

/-- A member with a space behind the colon. -/
def member (k : String) (v : Bytes) : Bytes := writeText k ++ Octet.colon :: 32 :: v

def writeEntry (e : Entry) : Bytes :=
  block 2 [member "version" (Codec.uint64.write e.version),
    member "value" ((Codec.optional Codec.hex).write e.value)]

def save (s : Store) : Bytes :=
  block 0 [member "height" (Codec.uint64.write s.height),
    member "entries" (block 1 (s.entries.toList.map fun (k, e) => member k (writeEntry e)))]

end Snapshot
end TokenLedger
