/-! Decimal numerals: digits with at most one point, and perhaps an exponent that fits in a signed
64-bit word. -/

namespace TokenLedger.Decimal

def allDigits (s : List Char) : Bool := s.all Char.isDigit

/-- The number that a string of digits spells; 0 for the empty one. -/
def natural (s : List Char) : Nat := Nat.ofDigitChars 10 s 0

def fixedDigits : Nat → Nat → List Char
  | 0, _ => []
  | w + 1, n => fixedDigits w (n / 10) ++ [(n % 10).digitChar]

@[simp] theorem length_fixedDigits (w n : Nat) : (fixedDigits w n).length = w := by
  induction w generalizing n with
  | zero => rfl
  | succ w ih => simp [fixedDigits, ih]

@[simp] theorem natural_toDigits (n : Nat) : natural (Nat.toDigits 10 n) = n := by simp [natural]

/-- A string of digits behind an optional sign, in the range of a signed 64-bit word. -/
def int64? (s : List Char) : Option Int :=
  let (negative, ds) := match s with
    | '-' :: ds => (true, ds)
    | '+' :: ds => (false, ds)
    | ds => (false, ds)
  if ds.isEmpty || !allDigits ds then none
  else
    let n : Int := if negative then -natural ds else natural ds
    if Int64.minValue.toInt ≤ n ∧ n ≤ Int64.maxValue.toInt then some n else none

structure Numeral where
  whole : List Char
  fraction : List Char
  exponent : Int
  deriving DecidableEq, Repr

/-- What stands before the first member of `p`, and what stands behind it if there is one. -/
def splitFirst (p : Char → Bool) (s : List Char) : List Char × Option (List Char) :=
  match s.dropWhile (!p ·) with
  | [] => (s, none)
  | _ :: t => (s.takeWhile (!p ·), some t)

def mantissa? (s : List Char) : Option (List Char × List Char) :=
  let (whole, fraction) := splitFirst (· == '.') s
  let fraction := fraction.getD []
  if (whole.isEmpty && fraction.isEmpty) || !allDigits whole || !allDigits fraction then none
  else some (whole, fraction)

def Numeral.ofChars? (s : List Char) : Option Numeral := do
  let (m, e) := splitFirst (fun c => c == 'e' || c == 'E') s
  let exponent ← match e with
    | none => some 0
    | some e => int64? e
  let (whole, fraction) ← mantissa? m
  return ⟨whole, fraction, exponent⟩

def Numeral.digits (n : Numeral) : List Char := n.whole ++ n.fraction

/-- The digits from the first to the last one that is not zero. -/
def Numeral.significant (n : Numeral) : List Char :=
  ((n.digits.dropWhile (· == '0')).reverse.dropWhile (· == '0')).reverse

/-- The place of the point: the value is `0.significant * 10 ^ place`. -/
def Numeral.place (n : Numeral) : Int :=
  n.whole.length - (n.digits.takeWhile (· == '0')).length + n.exponent

end TokenLedger.Decimal
