import TokenLedger.Json.Reader

/-! Documents of any form. Objects list their members by key and hold each key once: of two members
with one key the later one counts. An object whose first key is `embedded` is not an object: it stands
for the document in its text. -/

namespace TokenLedger.Json

open Octet

inductive Value where
  | null
  | boolean (b : Bool)
  | integer (n : Int)
  | float (x : Binary64)
  | text (s : String)
  | list (items : List Value)
  | object (members : List (String × Value))
  deriving Repr

namespace Value

instance : Inhabited Value := ⟨.null⟩

mutual

/-- Equality of values: a whole number differs from a float, and the two zeros are one float. -/
def same : Value → Value → Bool
  | .null, .null => true
  | .boolean a, .boolean b => a == b
  | .integer a, .integer b => a == b
  | .float a, .float b => a.same b
  | .text a, .text b => a == b
  | .list a, .list b => sameItems a b
  | .object a, .object b => sameMembers a b
  | _, _ => false

def sameItems : List Value → List Value → Bool
  | [], [] => true
  | a :: as, b :: bs => same a b && sameItems as bs
  | _, _ => false

def sameMembers : List (String × Value) → List (String × Value) → Bool
  | [], [] => true
  | (j, a) :: as, (k, b) :: bs => j == k && same a b && sameMembers as bs
  | _, _ => false

end

/-- Puts a member in its place, instead of one with the same key. -/
def insert (k : String) (v : Value) : List (String × Value) → List (String × Value)
  | [] => [(k, v)]
  | (j, w) :: ms =>
    if k < j then (k, v) :: (j, w) :: ms
    else if k = j then (k, v) :: ms
    else (j, w) :: insert k v ms

def member? (k : String) : Value → Option Value
  | .object ms => ms.lookup k
  | _ => none

def maxDepth : Nat := 128

/-- The key of a text that holds a whole document. -/
def embedded : String := "$serde_json::private::RawValue"

def objectEnd : Reader Unit := do
  match ← peek with
  | none => throw (.unfinished .object)
  | some objectClose => advance
  | some comma => throw .trailingComma
  | some _ => throw .trailingText

mutual

/-- Reads a value in which lists and objects are nested less than `depth` deep; `fuel` bounds the
number of values in it. -/
def read : (fuel depth : Nat) → Reader Value
  | 0, _ => throw .tooDeep
  | fuel + 1, depth => do
    match ← peekValue with
    | letterN => do nullWord; return .null
    | letterT => do trueWord; return .boolean true
    | letterF => do falseWord; return .boolean false
    | quote => do advance; return .text (← textBody)
    | listOpen => do
      advance
      if depth ≤ 1 then throw .tooDeep
      return .list (← readItems fuel (depth - 1) true)
    | objectOpen => do
      advance
      if depth ≤ 1 then throw .tooDeep
      readObject fuel (depth - 1)
    | b =>
      if startsNumber b then
        match ← number with
        | .integer n => return .integer n
        | .float x => return .float x
      else throw .expectedValue

def readItems : (fuel depth : Nat) → Bool → Reader (List Value)
  | 0, _, _ => throw .tooDeep
  | fuel + 1, depth, first => do
    if ← listContinues first then
      let v ← read fuel depth
      return v :: (← readItems fuel depth false)
    else do advance; return []

/-- The rest of an object. Its kind is known by the first key, and an embedded document is nested as if
it stood alone. -/
def readObject : (fuel depth : Nat) → Reader Value
  | 0, _ => throw .tooDeep
  | fuel + 1, depth => do
    match ← nextKey true with
    | none => do advance; return .object []
    | some k => do
      colonMark
      if k = embedded then
        let v ← (read fuel maxDepth).document (Text.utf8 (← readText))
        objectEnd
        return v
      else
        let v ← read fuel depth
        return .object (← readMembers fuel depth (insert k v []))

def readMembers : (fuel depth : Nat) → List (String × Value) → Reader (List (String × Value))
  | 0, _, _ => throw .tooDeep
  | fuel + 1, depth, ms => do
    match ← nextKey false with
    | some k => do
      colonMark
      let v ← read fuel depth
      readMembers fuel depth (insert k v ms)
    | none => do advance; return ms

end

/-- The value that a document holds. Each value takes an octet, and an embedded document is shorter than
the one around it, so the fuel cannot run out. -/
def ofBytes (depth : Nat) (s : Bytes) : Except Error Value :=
  (read (2 * s.length + 2) depth).document s

end Value
end TokenLedger.Json
