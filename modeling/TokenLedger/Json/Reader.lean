import TokenLedger.Json.Error
import TokenLedger.Text.Utf8

/-! Reading documents octet by octet: blanks, words, texts and numbers. A reader takes the octets that
it understands from the front and leaves the rest. -/

namespace TokenLedger.Json

abbrev Reader := StateT Bytes (Except Error)

namespace Octet

@[match_pattern] abbrev quote : UInt8 := 34
@[match_pattern] abbrev plus : UInt8 := 43
@[match_pattern] abbrev comma : UInt8 := 44
@[match_pattern] abbrev minus : UInt8 := 45
@[match_pattern] abbrev point : UInt8 := 46
@[match_pattern] abbrev zero : UInt8 := 48
@[match_pattern] abbrev colon : UInt8 := 58
@[match_pattern] abbrev listOpen : UInt8 := 91
@[match_pattern] abbrev backslash : UInt8 := 92
@[match_pattern] abbrev listClose : UInt8 := 93
@[match_pattern] abbrev letterF : UInt8 := 102
@[match_pattern] abbrev letterN : UInt8 := 110
@[match_pattern] abbrev letterT : UInt8 := 116
@[match_pattern] abbrev letterU : UInt8 := 117
@[match_pattern] abbrev objectOpen : UInt8 := 123
@[match_pattern] abbrev objectClose : UInt8 := 125

def isBlank (b : UInt8) : Bool := b == 32 || b == 10 || b == 9 || b == 13
def isDigit (b : UInt8) : Bool := 48 ≤ b && b ≤ 57
def isExponentMark (b : UInt8) : Bool := b == 69 || b == 101

end Octet

open Octet

/-- Passes over blanks and shows the octet behind them. -/
def peek : Reader (Option UInt8) := do
  modify (·.dropWhile isBlank)
  return (← get).head?

/-- The same, where a value is to begin. -/
def peekValue : Reader UInt8 := do
  match ← peek with
  | some b => return b
  | none => throw (.unfinished .value)

def advance : Reader Unit := modify List.tail

/-- The octets of a word, one after the other. -/
def word : Bytes → Reader Unit
  | [] => pure ()
  | w :: ws => do
    match ← get with
    | [] => throw (.unfinished .value)
    | b :: s => if b = w then do set s; word ws else throw .expectedWord

def nullWord : Reader Unit := word [110, 117, 108, 108]
def trueWord : Reader Unit := word [116, 114, 117, 101]
def falseWord : Reader Unit := word [102, 97, 108, 115, 101]

def hexDigit (b : UInt8) : Except Error Nat :=
  match Hex.value b 0 with
  | .ok n => .ok n
  | .error _ => .error .badEscape

/-- The number that four digits spell in base 16. -/
def hexQuad (a b c d : UInt8) : Except Error Nat := do
  return ((((← hexDigit a) * 16 + (← hexDigit b)) * 16 + (← hexDigit c)) * 16 + (← hexDigit d))

def isHighSurrogate (n : Nat) : Bool := 0xD800 ≤ n && n < 0xDC00
def isLowSurrogate (n : Nat) : Bool := 0xDC00 ≤ n && n < 0xE000

/-- The octet that an escape of one letter stands for. -/
def escaped? : UInt8 → Option UInt8
  | 34 => some 34
  | 92 => some 92
  | 47 => some 47
  | 98 => some 8
  | 102 => some 12
  | 110 => some 10
  | 114 => some 13
  | 116 => some 9
  | _ => none

def codePoint (n : Nat) : Bytes := String.utf8EncodeChar (Char.ofNat n)

/-- Puts octets in front of the content of a text. -/
def prepend (b : Bytes) (r : Except Error (Bytes × Bytes)) : Except Error (Bytes × Bytes) :=
  r.map fun (t, s) => (b ++ t, s)

/-- The content of a text behind its opening quote, and the octets behind its closing quote. -/
def content : Bytes → Except Error (Bytes × Bytes)
  | [] => .error (.unfinished .text)
  | quote :: s => .ok ([], s)
  | backslash :: letterU :: a :: b :: c :: d :: s => do
    let n ← hexQuad a b c d
    if isLowSurrogate n then .error .loneSurrogate
    else if isHighSurrogate n then
      match s with
      | backslash :: letterU :: a :: b :: c :: d :: s => do
        let m ← hexQuad a b c d
        if isLowSurrogate m then
          prepend (codePoint (0x10000 + (n - 0xD800) * 0x400 + (m - 0xDC00))) (content s)
        else .error .loneSurrogate
      | [] | [backslash] => .error (.unfinished .text)
      | backslash :: letterU :: _ => .error (.unfinished .text)
      | _ => .error .shortEscape
    else prepend (codePoint n) (content s)
  | backslash :: letterU :: _ => .error (.unfinished .text)
  | [backslash] => .error (.unfinished .text)
  | backslash :: b :: s =>
    match escaped? b with
    | some c => prepend [c] (content s)
    | none => .error .badEscape
  | b :: s => if b < 32 then .error .controlCharacter else prepend [b] (content s)

/-- A text behind its opening quote. -/
def textBody : Reader String := do
  let (t, s) ← content (← get)
  set s
  match Text.ofUtf8? t with
  | some t => return t
  | none => throw .badUnicode

/-- A number as it is written: a sign, digits, and perhaps a fraction and an exponent. -/
structure Literal where
  negative : Bool
  whole : Bytes
  fraction : Option Bytes
  exponent : Option Int
  deriving DecidableEq, Repr

inductive Number where
  | integer (n : Int)
  | float (x : Binary64)
  deriving DecidableEq, Repr

/-- The digits at the front. -/
def digits : Reader Bytes := do
  let s ← get
  set (s.dropWhile isDigit)
  return s.takeWhile isDigit

def natural (ds : Bytes) : Nat := ds.foldl (fun n b => 10 * n + (b.toNat - 48)) 0

/-- The digits of a whole number, without a leading zero. -/
def wholePart : Reader Bytes := do
  match ← get with
  | [] => throw (.unfinished .value)
  | zero :: s =>
    if (s.head?.map isDigit).getD false then throw .badNumber
    set s
    return [zero]
  | b :: _ => if isDigit b then digits else throw .badNumber

/-- At least one digit: behind a point, or behind the mark of an exponent and its sign. -/
def someDigits : Reader Bytes := do
  match ← get with
  | [] => throw (.unfinished .value)
  | b :: _ => if isDigit b then digits else throw .badNumber

def fractionPart : Reader (Option Bytes) := do
  match ← get with
  | point :: s => do set s; return some (← someDigits)
  | _ => return none

def exponentPart : Reader (Option Int) := do
  match ← get with
  | b :: s =>
    if isExponentMark b then
      match s with
      | plus :: s => do set s; return some (natural (← someDigits))
      | minus :: s => do set s; return some (-(natural (← someDigits) : Int))
      | s => do set s; return some (natural (← someDigits))
    else return none
  | [] => return none

def literal : Reader Literal := do
  let negative ← match ← get with
    | minus :: s => do set s; pure true
    | _ => pure false
  let whole ← wholePart
  let fraction ← fractionPart
  return ⟨negative, whole, fraction, ← exponentPart⟩

/-- The number `n` followed by as many of the digits as keep it below `UInt64.size`, and how many digits
are left. -/
def significand (n : Nat) : Bytes → Nat × Nat
  | [] => (n, 0)
  | b :: ds =>
    let m := 10 * n + (b.toNat - 48)
    if m < UInt64.size then significand m ds else (n, ds.length + 1)

/-- The value of a number: whole numbers that fit in a 64-bit word are exact, all others are read as
a significand of at most 64 bits and a power of ten. -/
def Literal.value (l : Literal) : Except Error Number :=
  let (n, skipped) := significand 0 l.whole
  let float (n : Nat) (e : Int) : Except Error Number :=
    match Binary64.ofDecimal? l.negative n e with
    | some x => .ok (.float x)
    | none => .error .numberRange
  match l.fraction, l.exponent with
  | none, none =>
    if skipped ≠ 0 then float n skipped
    else if !l.negative then .ok (.integer n)
    else if n = 0 ∨ -n < Int64.minValue.toInt then float n 0
    else .ok (.integer (-n))
  | fraction, exponent =>
    let ds := fraction.getD []
    let (m, dropped) := significand n ds
    float m (skipped - (ds.length - dropped : Nat) + exponent.getD 0)

def number : Reader Number := do (← literal).value

def startsNumber (b : UInt8) : Bool := b == minus || isDigit b

/-- The error for a value that is not of the expected kind; the value itself may be broken. -/
def mismatch (expected : String) : Reader Error := do
  match ← peekValue with
  | letterN => do nullWord; return .wrongType .null expected
  | letterT => do trueWord; return .wrongType (.boolean true) expected
  | letterF => do falseWord; return .wrongType (.boolean false) expected
  | quote => do advance; return .wrongType (.text (← textBody)) expected
  | listOpen => return .wrongType .sequence expected
  | objectOpen => return .wrongType .map expected
  | b =>
    if startsNumber b then
      match ← number with
      | .integer n => return .wrongType (.integer n) expected
      | .float x => return .wrongType (.float x) expected
    else return .expectedValue

def refuse {α : Type} (expected : String) : Reader α := do throw (← mismatch expected)

/-- A text as a value. -/
def readText : Reader String := do
  match ← peekValue with
  | quote => do advance; textBody
  | _ => refuse "a string"

/-- Whether a list goes on, behind its opening bracket (`first`) or behind an element. -/
def listContinues (first : Bool) : Reader Bool := do
  match ← peek with
  | none => throw (.unfinished .list)
  | some listClose => return false
  | some b =>
    if first then return true
    else if b = comma then
      advance
      if (← peekValue) = listClose then throw .trailingComma else return true
    else throw .expectedListEnd

/-- The end of a list that need not go on. -/
def listEnd : Reader Unit := do
  match ← peek with
  | none => throw (.unfinished .list)
  | some listClose => advance
  | some comma => do
    advance
    throw (if (← peek) = some listClose then .trailingComma else .trailingText)
  | some _ => throw .trailingText

/-- The next key of an object, behind its opening brace (`first`) or behind a member. -/
def nextKey (first : Bool) : Reader (Option String) := do
  match ← peek with
  | none => throw (.unfinished .object)
  | some objectClose => return none
  | some b =>
    if first then
      if b = quote then do advance; return some (← textBody) else throw .keyNotText
    else if b = comma then do
      advance
      match ← peekValue with
      | quote => do advance; return some (← textBody)
      | objectClose => throw .trailingComma
      | _ => throw .keyNotText
    else throw .expectedObjectEnd

def colonMark : Reader Unit := do
  match ← peek with
  | none => throw (.unfinished .object)
  | some colon => advance
  | some _ => throw .expectedColon

/-- The whole document, with nothing but blanks behind the value. -/
def Reader.document {α : Type} (r : Reader α) (s : Bytes) : Except Error α := do
  let (x, rest) ← r.run s
  if rest.all isBlank then return x else .error .trailingText

end TokenLedger.Json
