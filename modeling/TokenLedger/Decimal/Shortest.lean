import TokenLedger.Decimal.Binary64

/-! The shortest decimal that rounds to a given value, and the ways of laying out its digits. -/

namespace TokenLedger.Decimal

inductive Tie where
  | toEven
  | up
  deriving DecidableEq, Repr

/-- The positive value `4 * mantissa`, counted in quarters of its last binary place, and the ends of
the interval of reals that round to it. -/
structure Interval where
  low : Nat
  mid : Nat
  high : Nat
  closed : Bool
  exponent : Int
  deriving DecidableEq, Repr

def Interval.of (x : Binary64) : Interval where
  low := 4 * x.mantissa - (if x.mantissa = Binary64.hidden ∧ x.exponent ≠ -1074 then 1 else 2)
  mid := 4 * x.mantissa
  high := 4 * x.mantissa + 2
  closed := x.mantissa % 2 == 0
  exponent := x.exponent - 2

/-- A point `n` of the grid with step `10 ^ k` is at `n * step`, and a real `r` of the interval at
`r * unit`. -/
def Interval.step (i : Interval) (k : Int) : Nat := Nat.pow 10 k.toNat <<< (-i.exponent).toNat
def Interval.unit (i : Interval) (k : Int) : Nat := Nat.pow 10 (-k).toNat <<< i.exponent.toNat

def Interval.contains (i : Interval) (k : Int) (n : Nat) : Bool :=
  let p := n * i.step k
  if i.closed then i.low * i.unit k ≤ p && p ≤ i.high * i.unit k
  else i.low * i.unit k < p && p < i.high * i.unit k

/-- The point of the grid `10 ^ k` that lies in the interval, the nearer one of two. -/
def Interval.point? (i : Interval) (tie : Tie) (k : Int) : Option Nat :=
  let s := i.step k
  let n := i.mid * i.unit k / s
  match i.contains k n, i.contains k (n + 1) with
  | false, false => none
  | true, false => some n
  | false, true => some (n + 1)
  | true, true =>
    let twice := 2 * (i.mid * i.unit k)
    let half := (2 * n + 1) * s
    if twice < half then some n
    else if half < twice then some (n + 1)
    else match tie with
      | .up => some (n + 1)
      | .toEven => some (if n % 2 = 0 then n else n + 1)

/-- The first grid from `10 ^ k` downwards that has a point in the interval. -/
def Interval.search (i : Interval) (tie : Tie) : Nat → Int → Nat × Int
  | 0, k => (0, k)
  | fuel + 1, k =>
    match i.point? tie k with
    | some n => (n, k)
    | none => i.search tie fuel (k - 1)

/-- An exponent of ten that is no smaller than the one of the leading digit of `x`. -/
def topExponent (x : Binary64) : Int :=
  let bits : Int := Nat.log2 x.mantissa + x.exponent + 1
  (bits * 30103) / 100000 + 1

/-- The digits of the shortest decimal that rounds to `x`, the last of them not zero, and the place
of the point: the value is `0.d₁d₂… * 10 ^ place`. -/
def shortest (tie : Tie) (x : Binary64) : List Char × Int :=
  let (n, k) := (Interval.of x).search tie 20 (topExponent x)
  let ds := Nat.toDigits 10 n
  ((ds.reverse.dropWhile (· == '0')).reverse, ds.length + k)

/-- How a value is laid out: the exponents of its leading digit that are written positionally, whether
a whole number keeps a point, and the choice between two nearest decimals. -/
structure Style where
  positional : Int → Bool
  wholePoint : Bool
  tie : Tie

def Style.document : Style := ⟨fun e => -5 ≤ e && e ≤ 15, true, .toEven⟩

def Style.plain : Style := ⟨fun _ => true, false, .up⟩

def zeros (n : Nat) : List Char := List.replicate n '0'

def Style.fixed (s : Style) (ds : List Char) (place : Int) : List Char :=
  if place ≤ 0 then ['0', '.'] ++ zeros (-place).toNat ++ ds
  else
    let p := place.toNat
    if ds.length ≤ p then ds ++ zeros (p - ds.length) ++ (if s.wholePoint then ['.', '0'] else [])
    else ds.take p ++ '.' :: ds.drop p

def scientific (ds : List Char) (place : Int) : List Char :=
  let e := place - 1
  ds.take 1 ++ (if ds.length ≤ 1 then [] else '.' :: ds.drop 1)
    ++ 'e' :: (if e < 0 then '-' else '+') :: Nat.toDigits 10 e.natAbs

def Style.chars (s : Style) (x : Binary64) : List Char :=
  (if x.negative then ['-'] else []) ++
    if x.isZero then '0' :: (if s.wholePoint then ['.', '0'] else [])
    else
      let (ds, place) := shortest s.tie x
      if s.positional (place - 1) then s.fixed ds place else scientific ds place

def Style.text (s : Style) (x : Binary64) : String := String.ofList (s.chars x)

end TokenLedger.Decimal
