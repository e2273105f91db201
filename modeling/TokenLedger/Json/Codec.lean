import TokenLedger.Json.Skip

/-! How values of the program's own types are read from documents and written to them. -/

namespace TokenLedger.Json

open Octet

/-- A reader of a type and a writer for it, with what the writer refuses. -/
structure Codec (α : Type) where
  read : Reader α
  write : α → Bytes
  check : α → Except Error Unit := fun _ => .ok ()

/-- The value that a whole document holds. -/
def Codec.decode {α : Type} (c : Codec α) (s : Bytes) : Except Error α := c.read.document s

/-- The value that the text of a document holds. -/
def Codec.decodeText {α : Type} (c : Codec α) (s : String) : Except Error α := c.decode (Text.utf8 s)

/-- The document of a value, unless the writer refuses it. -/
def Codec.encode {α : Type} (c : Codec α) (a : α) : Except Error Bytes := do
  c.check a
  return c.write a

def digitBytes (n : Nat) : Bytes := Text.utf8 (toString n)

/-- The octets of a character inside a text. -/
def escape (c : Char) : Bytes :=
  match c with
  | '"' => [backslash, quote]
  | '\\' => [backslash, backslash]
  | '\x08' => [backslash, 98]
  | '\x0c' => [backslash, letterF]
  | '\n' => [backslash, letterN]
  | '\r' => [backslash, 114]
  | '\t' => [backslash, letterT]
  | c =>
    if c.toNat < 32 then
      [backslash, letterU, 48, 48, Hex.digit (c.toNat / 16), Hex.digit (c.toNat % 16)]
    else String.utf8EncodeChar c

def writeText (s : String) : Bytes := quote :: s.toList.flatMap escape ++ [quote]

namespace Codec

def text : Codec String where
  read := readText
  write := writeText

def boolean : Codec Bool where
  read := do
    match ← peekValue with
    | letterT => do trueWord; return true
    | letterF => do falseWord; return false
    | _ => refuse "a boolean"
  write b := if b then [116, 114, 117, 101] else [102, 97, 108, 115, 101]

def readNumber {α : Type} (expected : String) (f : Number → Except Error α) : Reader α := do
  let b ← peekValue
  if startsNumber b then f (← number) else refuse expected

def int64 : Codec Int64 where
  read := readNumber "i64" fun
    | .integer n =>
      if Int64.minValue.toInt ≤ n ∧ n ≤ Int64.maxValue.toInt then .ok (Int64.ofInt n)
      else .error (.wrongValue (.integer n) "i64")
    | .float x => .error (.wrongType (.float x) "i64")
  write n := Text.utf8 (toString n.toInt)

def uint64 : Codec UInt64 where
  read := readNumber "u64" fun
    | .integer n =>
      if 0 ≤ n ∧ n < UInt64.size then .ok (UInt64.ofNat n.toNat)
      else .error (.wrongValue (.integer n) "u64")
    | .float x => .error (.wrongType (.float x) "u64")
  write n := digitBytes n.toNat

def binary64 : Codec Binary64 where
  read := readNumber "f64" fun
    | .integer n => match Binary64.ofDecimal? (n < 0) n.natAbs 0 with
      | some x => .ok x
      | none => .error .numberRange
    | .float x => .ok x
  write x := Text.utf8 (Decimal.Style.document.text x)

/-- An amount is written as a number, once its text has been read as a value of a document. It is read
from the octets of any value, without the quotes around them. -/
def amount : Codec Amount where
  read := do
    let t ← raw
    match Amount.ofChars (Text.strip (· == '"') t.toList) with
    | .ok a => return a
    | .error e => throw (.amount e)
  write a := Text.utf8 a.text
  check a := do let _ ← raw.document (Text.utf8 a.text)

/-- The name of a variant inside an object that has it as its only key. -/
def readVariantName : Reader String := do
  match ← peek with
  | none => throw (.unfinished .object)
  | some quote => do advance; textBody
  | some objectClose => throw .expectedValue
  | some _ => throw .keyNotText

/-- A value that is known by a name. An object may stand for it whose only member has this name and
holds nothing. -/
def variant {α : Type} (ofName? : String → Option α) (known : List String) (name : α → String) :
    Codec α where
  read := do
    let find (n : String) : Reader α := match ofName? n with
      | some a => pure a
      | none => throw (.unknownVariant n known)
    match ← peekValue with
    | quote => do advance; find (← textBody)
    | objectOpen => do
      advance
      let a ← find (← readVariantName)
      colonMark
      match ← peekValue with
      | letterN => nullWord
      | _ => refuse "unit"
      match ← peek with
      | none => throw (.unfinished .object)
      | some objectClose => do advance; return a
      | some _ => throw .expectedValue
    | _ => throw .expectedValue
  write a := writeText (name a)

def optional {α : Type} (c : Codec α) : Codec (Option α) where
  read := do
    match ← peek with
    | some letterN => do nullWord; return none
    | _ => return some (← c.read)
  write
    | none => [110, 117, 108, 108]
    | some a => c.write a
  check
    | none => .ok ()
    | some a => c.check a

def hex : Codec Bytes where
  read := do
    match Hex.decode (Text.utf8 (← readText)) with
    | .ok b => return b
    | .error e => throw (.hex e)
  write b := quote :: Hex.encode b ++ [quote]

/-- The elements of a list up to its closing bracket. -/
def readElements {α : Type} (c : Codec α) : (fuel : Nat) → Bool → Reader (List α)
  | 0, _ => throw (.unfinished .list)
  | fuel + 1, first => do
    if ← listContinues first then
      let a ← c.read
      return a :: (← readElements c fuel false)
    else do advance; return []

def separated : List Bytes → Bytes
  | [] => []
  | [b] => b
  | b :: bs => b ++ comma :: separated bs

def list {α : Type} (c : Codec α) : Codec (List α) where
  read := do
    match ← peekValue with
    | listOpen => do advance; readElements c ((← get).length + 1) true
    | _ => refuse "a sequence"
  write as := listOpen :: separated (as.map c.write) ++ [listClose]
  check as := as.forM c.check

def member (k : String) (v : Bytes) : Bytes := writeText k ++ colon :: v

def readEntries {α : Type} (c : Codec α) : (fuel : Nat) → Bool → Reader (List (String × α))
  | 0, _ => throw (.unfinished .object)
  | fuel + 1, first => do
    match ← nextKey first with
    | some k => do
      colonMark
      let a ← c.read
      return (k, a) :: (← readEntries c fuel false)
    | none => do advance; return []

/-- An object with keys of any kind, as its members in order. -/
def entries {α : Type} (c : Codec α) : Codec (List (String × α)) where
  read := do
    match ← peekValue with
    | objectOpen => do advance; readEntries c ((← get).length + 1) true
    | _ => refuse "a map"
  write ms := objectOpen :: separated (ms.map fun (k, a) => member k (c.write a)) ++ [objectClose]
  check ms := ms.forM fun (_, a) => c.check a

end Codec
end TokenLedger.Json
