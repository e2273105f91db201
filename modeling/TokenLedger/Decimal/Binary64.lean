/-! The finite values of the 64-bit binary floating point format, and its arithmetic: each result is
the exact one rounded to the nearest value, a tie to the even mantissa. -/

namespace TokenLedger

namespace Binary64

/-- The first bit of the 53 that a mantissa has. -/
def hidden : Nat := 1 <<< 52

/-- The pairs of a mantissa and a binary exponent that name a value in exactly one way. -/
def Fits (mantissa : Nat) (exponent : Int) : Prop :=
  mantissa < 2 * hidden ∧ -1074 ≤ exponent ∧ exponent ≤ 971 ∧ (hidden ≤ mantissa ∨ exponent = -1074)

instance (m : Nat) (e : Int) : Decidable (Fits m e) := by unfold Fits; infer_instance

end Binary64

/-- The value `mantissa * 2 ^ exponent`, with a sign. -/
structure Binary64 where
  negative : Bool
  mantissa : Nat
  exponent : Int
  fits : Binary64.Fits mantissa exponent
  deriving DecidableEq, Repr

namespace Binary64

def zero (negative : Bool) : Binary64 := ⟨negative, 0, -1074, by decide⟩

instance : Inhabited Binary64 := ⟨zero false⟩

def ofParts? (negative : Bool) (mantissa : Nat) (exponent : Int) : Option Binary64 :=
  if h : Fits mantissa exponent then some ⟨negative, mantissa, exponent, h⟩ else none

def isZero (x : Binary64) : Bool := x.mantissa == 0

def neg (x : Binary64) : Binary64 := { x with negative := !x.negative }

def num (x : Binary64) : Nat := x.mantissa <<< x.exponent.toNat
def den (x : Binary64) : Nat := 1 <<< (-x.exponent).toNat

/-- The whole number nearest to `n / d`, of two the even one. -/
def roundDiv (n d : Nat) : Nat :=
  let q := n / d
  let r := n % d
  if d < 2 * r ∨ (2 * r = d ∧ q % 2 = 1) then q + 1 else q

def scaled (n d : Nat) (e : Int) : Nat := roundDiv (n <<< (-e).toNat) (d <<< e.toNat)

/-- The binary exponent at which `n / d` has 53 significant bits, or the least one there is. -/
def exponentFor (n d : Nat) : Int :=
  let e : Int := Nat.log2 n - Nat.log2 d - 52
  let e := if (n <<< (-e).toNat) / (d <<< e.toNat) < hidden then e - 1 else e
  max e (-1074)

/-- The value nearest to `n / d`; none beyond the largest one. -/
def round (negative : Bool) (n d : Nat) : Option Binary64 :=
  if n = 0 then some (zero negative)
  else
    let e := exponentFor n d
    let m := scaled n d e
    if m = 2 * hidden then ofParts? negative hidden (e + 1) else ofParts? negative m e

def ofNat? (n : Nat) : Option Binary64 := round false n 1

def mul? (x y : Binary64) : Option Binary64 :=
  round (x.negative != y.negative) (x.num * y.num) (x.den * y.den)

def div? (x y : Binary64) : Option Binary64 :=
  round (x.negative != y.negative) (x.num * y.den) (x.den * y.num)

/-- Equality of the numbers: the two zeros are equal. -/
def same (x y : Binary64) : Bool := x == y || (x.isZero && y.isZero)

def inUnit (x : Binary64) : Bool := x.isZero || (!x.negative && x.num ≤ x.den)

def pow10? (k : Nat) : Option Binary64 := ofNat? (Nat.pow 10 k)

/-- `x` divided `n` times by the value nearest to `10 ^ 308`. -/
def lower : Nat → Binary64 → Option Binary64
  | 0, x => some x
  | n + 1, x => if x.isZero then some x else do lower n (← x.div? (← pow10? 308))

/-- `significand * 10 ^ exponent` by one multiplication or division, after divisions by `10 ^ 308`
where the exponent is below -308; none if the result is too large. -/
def ofDecimal? (negative : Bool) (significand : Nat) (exponent : Int) : Option Binary64 := do
  let x ← ofNat? significand
  let k := exponent.natAbs
  let y ←
    if 0 ≤ exponent then
      if k ≤ 308 then x.mul? (← pow10? k) else if x.isZero then some x else none
    else do (← lower (k / 308) x).div? (← pow10? (k % 308))
  return if negative then y.neg else y

end Binary64
end TokenLedger
