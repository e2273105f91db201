import TokenLedger.Json.Codec

/-! Records: objects with known keys. A record is also read from the list of its values in the order of
its fields. Unknown keys are passed over, no key may come twice, and a field that is not there takes
its default value if it has one. -/

namespace TokenLedger.Json

open Octet

structure Field where
  name : String
  Val : Type
  codec : Codec Val
  default? : Option Val

/-- A field that every document must hold. -/
abbrev Field.required {α : Type} (name : String) (c : Codec α) : Field := ⟨name, α, c, none⟩

/-- A field that is `d` in documents that do not hold it. -/
abbrev Field.withDefault {α : Type} (name : String) (c : Codec α) (d : α) : Field := ⟨name, α, c, some d⟩

@[reducible] def Row : List Field → Type
  | [] => Unit
  | f :: fs => f.Val × Row fs

@[reducible] def Draft : List Field → Type
  | [] => Unit
  | f :: fs => Option f.Val × Draft fs

namespace Draft

def empty : (fs : List Field) → Draft fs
  | [] => ()
  | _ :: fs => (none, empty fs)

/-- Reads the value of the field with the key `k` into its place. -/
def accept? (k : String) : (fs : List Field) → Draft fs → Option (Reader (Draft fs))
  | [], _ => none
  | f :: fs, (v, d) =>
    if f.name = k then some do
      if v.isSome then throw (.duplicateField k)
      colonMark
      return (some (← f.codec.read), d)
    else (accept? k fs d).map fun r => return (v, ← r)

/-- The row, with defaults where nothing was read. -/
def finish : (fs : List Field) → Draft fs → Except Error (Row fs)
  | [], _ => .ok ()
  | f :: fs, (v, d) => do
    match v.or f.default? with
    | some v => return (v, ← finish fs d)
    | none => .error (.missingField f.name)

end Draft

/-- The members of a record up to its closing brace. -/
def readMembers (fs : List Field) : (fuel : Nat) → Bool → Draft fs → Reader (Draft fs)
  | 0, _, _ => throw (.unfinished .object)
  | fuel + 1, first, d => do
    match ← nextKey first with
    | none => do advance; return d
    | some k => do
      let d ← match d.accept? k fs with
        | some r => r
        | none => do
          colonMark
          skip
          pure d
      readMembers fs fuel false d

/-- The values of a record in the order of its fields, from the one with number `n` on. -/
def readRow (expected : String) : (fs : List Field) → Nat → Bool → Reader (Row fs)
  | [], _, _ => return ()
  | f :: fs, n, first => do
    if ← listContinues first then
      let v ← f.codec.read
      return (v, ← readRow expected fs (n + 1) false)
    else match f.default? with
      | some v => return (v, ← readRow expected fs (n + 1) first)
      | none => throw (.wrongLength n expected)

def writeMembers : (fs : List Field) → Row fs → List Bytes
  | [], _ => []
  | f :: fs, (v, r) => Codec.member f.name (f.codec.write v) :: writeMembers fs r

def checkMembers : (fs : List Field) → Row fs → Except Error Unit
  | [], _ => .ok ()
  | f :: fs, (v, r) => do
    f.codec.check v
    checkMembers fs r

/-- A type whose values are rows of fields. -/
structure Layout (α : Type) where
  name : String
  fields : List Field
  ofRow : Row fields → α
  toRow : α → Row fields

namespace Layout

variable {α : Type}

def expected (l : Layout α) : String := "struct " ++ l.name

def expectedLength (l : Layout α) : String :=
  l.expected ++ " with " ++ toString l.fields.length ++ " elements"

def read (l : Layout α) : Reader α := do
  match ← peekValue with
  | listOpen => do
    advance
    let r ← readRow l.expectedLength l.fields 0 true
    listEnd
    return l.ofRow r
  | objectOpen => do
    advance
    let d ← readMembers l.fields ((← get).length + 1) true (Draft.empty l.fields)
    return l.ofRow (← Draft.finish l.fields d)
  | _ => refuse l.expected

def write (l : Layout α) (a : α) : Bytes :=
  objectOpen :: Codec.separated (writeMembers l.fields (l.toRow a)) ++ [objectClose]

def codec (l : Layout α) : Codec α where
  read := l.read
  write := l.write
  check a := checkMembers l.fields (l.toRow a)

end Layout
end TokenLedger.Json
