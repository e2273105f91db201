import TokenLedger.Json.Reader

/-! Passing over values whose content does not matter. Only the form is checked: texts need not be
UTF-8, escapes need not name characters, and numbers may be of any size. -/

namespace TokenLedger.Json

open Octet

def textRest : Bytes → Except Error Bytes
  | [] => .error (.unfinished .text)
  | quote :: s => .ok s
  | backslash :: letterU :: a :: b :: c :: d :: s => do
    let _ ← hexQuad a b c d
    textRest s
  | backslash :: letterU :: _ => .error (.unfinished .text)
  | [backslash] => .error (.unfinished .text)
  | backslash :: b :: s => if (escaped? b).isSome then textRest s else .error .badEscape
  | b :: s => if b < 32 then .error .controlCharacter else textRest s

def skipText : Reader Unit := do set (← textRest (← get))

/-- Whatever is wrong with a number that is passed over, it is a bad number. -/
def skipNumber : Reader Unit := fun s =>
  match literal s with
  | .ok (_, s) => .ok ((), s)
  | .error _ => .error .badNumber

def skipKey : Reader Unit := do
  match ← peek with
  | none => throw (.unfinished .object)
  | some quote => do advance; skipText
  | some _ => throw .keyNotText
  colonMark

mutual

/-- Passes over a value; `fuel` bounds the number of values and members in it. -/
def skipValue : (fuel : Nat) → Reader Unit
  | 0 => throw .tooDeep
  | fuel + 1 => do
    match ← peekValue with
    | letterN => nullWord
    | letterT => trueWord
    | letterF => falseWord
    | quote => do advance; skipText
    | listOpen => do
      advance
      match ← peek with
      | none => throw (.unfinished .list)
      | some listClose => advance
      | some _ => skipItems fuel
    | objectOpen => do
      advance
      match ← peek with
      | none => throw (.unfinished .object)
      | some objectClose => advance
      | some _ => skipMembers fuel
    | b => if startsNumber b then skipNumber else throw .expectedValue

def skipItems : (fuel : Nat) → Reader Unit
  | 0 => throw .tooDeep
  | fuel + 1 => do
    skipValue fuel
    match ← peek with
    | none => throw (.unfinished .list)
    | some listClose => advance
    | some comma => do advance; skipItems fuel
    | some _ => throw .expectedListEnd

/-- Passes over the rest of an object that begins with a member. -/
def skipMembers : (fuel : Nat) → Reader Unit
  | 0 => throw .tooDeep
  | fuel + 1 => do
    skipKey
    skipValue fuel
    match ← peek with
    | none => throw (.unfinished .object)
    | some objectClose => advance
    | some comma => do advance; skipMembers fuel
    | some _ => throw .expectedObjectEnd

end

/-- Passes over a value. Each value takes an octet, so the fuel cannot run out. -/
def skip : Reader Unit := do skipValue (2 * (← get).length + 2)

def raw : Reader String := do
  let _ ← peek
  let s ← get
  skip
  let rest ← get
  match Text.ofUtf8? (s.take (s.length - rest.length)) with
  | some t => return t
  | none => throw .badUnicode

end TokenLedger.Json
