import TokenLedger.Text.Utf8

/-! The curve `-x² + y² = 1 + d x² y²` over the integers modulo `2 ^ 255 - 19`, and the octets by which
its points are known. -/

namespace TokenLedger.Edwards25519

def p : Nat := (1 <<< 255) - 19

/-- The prime order of the group that the base point generates. -/
def order : Nat := (1 <<< 252) + 27742317777372353535851937790883648493

def add (a b : Nat) : Nat := (a + b) % p
def sub (a b : Nat) : Nat := (a + (p - b % p)) % p
def mul (a b : Nat) : Nat := a * b % p

/-- `a ^ e`, for an exponent of at most `bits` bits. -/
def pow : (bits : Nat) → Nat → Nat → Nat
  | 0, _, _ => 1
  | bits + 1, a, e =>
    let r := pow bits (mul a a) (e / 2)
    if e % 2 = 1 then mul a r else r

def inverse (a : Nat) : Nat := pow 255 a (p - 2)

def d : Nat := mul (p - 121665) (inverse 121666)

def rootOfMinusOne : Nat := pow 255 2 ((p - 1) / 4)

/-- The non-negative square root of `u / v`: the even one of the two. -/
def squareRoot? (u v : Nat) : Option Nat :=
  let v3 := mul (mul v v) v
  let r := mul (mul u v3) (pow 255 (mul u (mul v3 (mul v3 v))) ((p - 5) / 8))
  let check := mul v (mul r r)
  let even (x : Nat) := if x % 2 = 0 then x else p - x
  if check = u % p then some (even r)
  else if check = sub 0 u then some (even (mul r rootOfMinusOne))
  else none

/-- The point `(x / z, y / z)`, with `x * y = t * z`. -/
structure Point where
  x : Nat
  y : Nat
  z : Nat
  t : Nat
  deriving DecidableEq, Repr

namespace Point

def neutral : Point := ⟨0, 1, 1, 0⟩

def ofAffine (x y : Nat) : Point := ⟨x, y, 1, mul x y⟩

def neg (a : Point) : Point := ⟨sub 0 a.x, a.y, a.z, sub 0 a.t⟩

protected def add (a b : Point) : Point :=
  let m := mul (sub a.y a.x) (sub b.y b.x)
  let n := mul (add a.y a.x) (add b.y b.x)
  let c := mul (mul a.t (mul 2 d)) b.t
  let w := mul (mul a.z 2) b.z
  let e := sub n m
  let f := sub w c
  let g := add w c
  let h := add n m
  ⟨mul e f, mul g h, mul f g, mul e h⟩

/-- `n` times a point, for `n` of at most `bits` bits. -/
def times : (bits : Nat) → Nat → Point → Point
  | 0, _, _ => neutral
  | bits + 1, n, a =>
    let r := times bits (n / 2) (a.add a)
    if n % 2 = 1 then a.add r else r

def isNeutral (a : Point) : Bool := a.x % p == 0 && a.y % p == a.z % p

/-- Eight times the point is the neutral element. -/
def isSmall (a : Point) : Bool := (times 4 8 a).isNeutral

/-- The octets of `y`, least significant first, with the parity of `x` in the last bit. -/
def encode (a : Point) : Bytes :=
  let i := inverse a.z
  let x := mul a.x i
  let y := mul a.y i
  Text.littleEndian 32 (y + (x % 2) <<< 255)

/-- The point with the given octets. The number `y` need not be reduced, and the sign of `x = 0` may
be either. -/
def decode? (s : Bytes) : Option Point :=
  let n := Text.ofLittleEndian s
  let y := n % (1 <<< 255) % p
  let yy := mul y y
  (squareRoot? (sub yy 1) (add (mul d yy) 1)).map fun x =>
    ofAffine (if (n >>> 255) % 2 = 1 then sub 0 x else x) y

/-- The point of prime order with `y = 4 / 5` and even `x`. -/
def base : Point := (decode? (0x58 :: List.replicate 31 0x66)).getD neutral

end Point
end TokenLedger.Edwards25519
