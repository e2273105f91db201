/-! Octets, and UTF-8 as their reading. `chars?` takes the shortest forms of Unicode scalar values and
nothing else; `littleEndian` spells a number, least significant octet first. -/

namespace TokenLedger

/-- Documents, hashed messages and digests are octets in order. -/
abbrev Bytes := List UInt8

namespace Text

/-- The UTF-8 form of a text. -/
def utf8 (s : String) : Bytes := s.toList.flatMap String.utf8EncodeChar

@[simp] theorem utf8_append (s t : String) : utf8 (s ++ t) = utf8 s ++ utf8 t := by
  simp [utf8]

/-- The scalar value `n`, provided that it needs a form as long as the one that starts at `least`. -/
def scalar? (least n : Nat) : Option Char :=
  if h : least ≤ n ∧ n.isValidChar then some (Char.ofNatAux n h.2) else none

def isTail (b : UInt8) : Bool := 0x80 ≤ b && b < 0xC0

def tailBits (b : UInt8) : Nat := b.toNat - 0x80

/-- The characters of a UTF-8 text; none if an octet is out of place. -/
def chars? : Bytes → Option (List Char)
  | [] => some []
  | a :: s =>
    if a < 0x80 then (chars? s).map (Char.ofNat a.toNat :: ·)
    else match s with
      | [] => none
      | b :: s =>
        if !isTail b || a < 0xC0 then none
        else if a < 0xE0 then do
          let c ← scalar? 0x80 ((a.toNat - 0xC0) * 64 + tailBits b)
          return c :: (← chars? s)
        else match s with
          | [] => none
          | c :: s =>
            if !isTail c then none
            else if a < 0xF0 then do
              let x ← scalar? 0x800 (((a.toNat - 0xE0) * 64 + tailBits b) * 64 + tailBits c)
              return x :: (← chars? s)
            else match s with
              | [] => none
              | d :: s =>
                if !isTail d || 0xF8 ≤ a then none
                else do
                  let x ← scalar? 0x10000
                    ((((a.toNat - 0xF0) * 64 + tailBits b) * 64 + tailBits c) * 64 + tailBits d)
                  return x :: (← chars? s)

def ofUtf8? (b : Bytes) : Option String := (chars? b).map String.ofList

def littleEndian : Nat → Nat → Bytes
  | 0, _ => []
  | n + 1, v => UInt8.ofNat v :: littleEndian n (v / 256)

@[simp] theorem length_littleEndian (n v : Nat) : (littleEndian n v).length = n := by
  induction n generalizing v with
  | zero => rfl
  | succ n ih => simp [littleEndian, ih]

def ofLittleEndian : Bytes → Nat
  | [] => 0
  | b :: s => b.toNat + 256 * ofLittleEndian s

theorem ofLittleEndian_littleEndian (n v : Nat) :
    ofLittleEndian (littleEndian n v) = v % Nat.pow 256 n := by
  induction n generalizing v with
  | zero => simp [littleEndian, ofLittleEndian, Nat.mod_one]
  | succ n ih =>
    have hm : v % (256 * Nat.pow 256 n) = v % 256 + 256 * (v / 256 % Nat.pow 256 n) := Nat.mod_mul
    have hp : Nat.pow 256 (n + 1) = 256 * Nat.pow 256 n := Nat.mul_comm ..
    rw [littleEndian, ofLittleEndian, ih, hp, hm]
    simp

end Text
end TokenLedger
