import TokenLedger.Amount
import TokenLedger.Text.Hex
import TokenLedger.Decimal.Shortest

/-! Why a document cannot be read. A message names the construct that is broken or, where the document
is well formed, what stands in it and what should. It does not go on with the line and the column of the
place. -/

namespace TokenLedger.Json

/-- The construct that the end of a document cuts off. -/
inductive Part where
  | value
  | text
  | list
  | object
  deriving DecidableEq, Repr

/-- A value that stands where another kind of value belongs. -/
inductive Found where
  | null
  | boolean (b : Bool)
  | integer (n : Int)
  | float (x : Binary64)
  | text (s : String)
  | sequence
  | map
  deriving DecidableEq, Repr

inductive Error where
  | unfinished (part : Part)
  | expectedColon
  | expectedListEnd
  | expectedObjectEnd
  | expectedWord
  | expectedValue
  | badEscape
  | badNumber
  | numberRange
  | badUnicode
  | controlCharacter
  | keyNotText
  | loneSurrogate
  | trailingComma
  | trailingText
  | shortEscape
  | tooDeep
  | wrongType (found : Found) (expected : String)
  | wrongValue (found : Found) (expected : String)
  | wrongLength (length : Nat) (expected : String)
  | missingField (name : String)
  | duplicateField (name : String)
  | unknownVariant (name : String) (known : List String)
  | amount (e : Amount.Unreadable)
  | hex (e : Hex.Error)
  deriving DecidableEq, Repr

def Part.phrase : Part → String
  | .value => "a value"
  | .text => "a string"
  | .list => "a list"
  | .object => "an object"

def Found.phrase : Found → String
  | .null => "null"
  | .boolean b => "boolean `" ++ (if b then "true" else "false") ++ "`"
  | .integer n => "integer `" ++ toString n ++ "`"
  | .float x => "floating point `" ++ Decimal.Style.document.text x ++ "`"
  | .text s => "string " ++ Text.quote s
  | .sequence => "sequence"
  | .map => "map"

/-- A number of lines or columns: digits that fit in 64 bits. -/
def isOrdinal (s : List Char) : Bool :=
  !s.isEmpty && Decimal.allDigits s && Decimal.natural s < UInt64.size

def beforePosition : List Char := " at line ".toList

def isPosition (s : List Char) : Bool :=
  let t := s.drop beforePosition.length
  let u := t.dropWhile Char.isDigit
  beforePosition.isPrefixOf s && isOrdinal (t.takeWhile Char.isDigit)
    && " column ".toList.isPrefixOf u && isOrdinal (u.drop " column ".length)

/-- The text without a position at its end: a position belongs to the reader of the document, not to
the reason that it quotes. -/
def withoutPosition : List Char → List Char
  | [] => []
  | c :: s => if isPosition (c :: s) then [] else c :: withoutPosition s

def Error.message : Error → String
  | .unfinished p => "EOF while parsing " ++ p.phrase
  | .expectedColon => "expected `:`"
  | .expectedListEnd => "expected `,` or `]`"
  | .expectedObjectEnd => "expected `,` or `\x7d`"
  | .expectedWord => "expected ident"
  | .expectedValue => "expected value"
  | .badEscape => "invalid escape"
  | .badNumber => "invalid number"
  | .numberRange => "number out of range"
  | .badUnicode => "invalid unicode code point"
  | .controlCharacter => "control character (\\u0000-\\u001F) found while parsing a string"
  | .keyNotText => "key must be a string"
  | .loneSurrogate => "lone leading surrogate in hex escape"
  | .trailingComma => "trailing comma"
  | .trailingText => "trailing characters"
  | .shortEscape => "unexpected end of hex escape"
  | .tooDeep => "recursion limit exceeded"
  | .wrongType f e => "invalid type: " ++ f.phrase ++ ", expected " ++ e
  | .wrongValue f e => "invalid value: " ++ f.phrase ++ ", expected " ++ e
  | .wrongLength n e => "invalid length " ++ toString n ++ ", expected " ++ e
  | .missingField n => "missing field `" ++ n ++ "`"
  | .duplicateField n => "duplicate field `" ++ n ++ "`"
  | .unknownVariant n known =>
    "unknown variant `" ++ n ++ "`, expected one of "
      ++ ", ".intercalate (known.map fun k => "`" ++ k ++ "`")
  | .amount e => String.ofList (withoutPosition e.message.toList)
  | .hex e => e.message

end TokenLedger.Json
