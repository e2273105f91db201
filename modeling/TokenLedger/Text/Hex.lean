import TokenLedger.Text.Utf8
import TokenLedger.Text.Quoted

/-! Octets as pairs of hexadecimal digits: written in lower case, read in either case. -/

namespace TokenLedger.Hex

inductive Error where
  | oddLength
  | badDigit (octet : UInt8) (position : Nat)
  deriving DecidableEq, Repr

def Error.message : Error → String
  | .oddLength => "Odd number of digits"
  | .badDigit b i =>
    "Invalid character '" ++ String.ofList (Text.quotedChar '\'' (Char.ofNat b.toNat))
      ++ "' at position " ++ toString i

def digit (n : Nat) : UInt8 := UInt8.ofNat (if n < 10 then 48 + n else 87 + n)

def encode : Bytes → Bytes
  | [] => []
  | b :: s => digit (b.toNat / 16) :: digit (b.toNat % 16) :: encode s

/-- The value of the digit `b`, which stands at position `i`. -/
def value (b : UInt8) (i : Nat) : Except Error Nat :=
  if 48 ≤ b && b ≤ 57 then .ok (b.toNat - 48)
  else if 97 ≤ b && b ≤ 102 then .ok (b.toNat - 87)
  else if 65 ≤ b && b ≤ 70 then .ok (b.toNat - 55)
  else .error (.badDigit b i)

/-- The octets that the pairs of digits from position `i` on stand for. -/
def decodeFrom (i : Nat) : Bytes → Except Error Bytes
  | a :: b :: s => do
    let hi ← value a i
    let lo ← value b (i + 1)
    return UInt8.ofNat (hi * 16 + lo) :: (← decodeFrom (i + 2) s)
  | _ => .ok []

def decode (s : Bytes) : Except Error Bytes :=
  if s.length % 2 = 1 then .error .oddLength else decodeFrom 0 s

@[simp] theorem length_encode (s : Bytes) : (encode s).length = 2 * s.length := by
  induction s with
  | nil => rfl
  | cons b s ih => simp [encode, ih]; omega

theorem value_digit {n : Nat} (h : n < 16) (i : Nat) : value (digit n) i = .ok n := by
  have : ∀ n < 16, ∀ i, value (digit n) i = .ok n := by
    intro n hn i
    rcases n with _|_|_|_|_|_|_|_|_|_|_|_|_|_|_|_|n <;> first | rfl | omega
  exact this n h i

theorem decodeFrom_encode (s : Bytes) (i : Nat) : decodeFrom i (encode s) = .ok s := by
  induction s generalizing i with
  | nil => rfl
  | cons b s ih =>
    have hb := b.toNat_lt
    have h₁ : value (digit (b.toNat / 16)) i = .ok (b.toNat / 16) := value_digit (by omega) i
    have h₂ : value (digit (b.toNat % 16)) (i + 1) = .ok (b.toNat % 16) := value_digit (by omega) _
    have h₃ : b.toNat / 16 * 16 + b.toNat % 16 = b.toNat := by omega
    simp only [encode, decodeFrom, h₁, h₂, ih, bind, Except.bind, pure, Except.pure, h₃]
    simp

/-- What is written is read back. -/
@[simp] theorem decode_encode (s : Bytes) : decode (encode s) = .ok s := by
  simp [decode, decodeFrom_encode]

/-- The digits as a text. -/
def text (s : Bytes) : String := String.ofList ((encode s).map fun b => Char.ofNat b.toNat)

end TokenLedger.Hex
