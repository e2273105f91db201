import TokenLedger.Text.Utf8

/-! The SHA-2 hash functions. Both members of the family are one construction over words of a width:
a message is padded to whole blocks of 16 words, and each block is mixed into a state of 8 words. -/

namespace TokenLedger.Sha2

/-- What distinguishes the members of the family: the rotations in the four mixing functions (the last
amount of a `small` one is a shift), the round constants and the initial state. -/
structure Family (w : Nat) where
  big₀ : Nat × Nat × Nat
  big₁ : Nat × Nat × Nat
  small₀ : Nat × Nat × Nat
  small₁ : Nat × Nat × Nat
  rounds : List (BitVec w)
  start : List (BitVec w)

structure State (w : Nat) where
  a : BitVec w
  b : BitVec w
  c : BitVec w
  d : BitVec w
  e : BitVec w
  f : BitVec w
  g : BitVec w
  h : BitVec w
  deriving DecidableEq

variable {w : Nat}

def State.words (s : State w) : List (BitVec w) := [s.a, s.b, s.c, s.d, s.e, s.f, s.g, s.h]

def State.ofWords : List (BitVec w) → State w
  | [a, b, c, d, e, f, g, h] => ⟨a, b, c, d, e, f, g, h⟩
  | _ => ⟨0, 0, 0, 0, 0, 0, 0, 0⟩

def State.add (s t : State w) : State w :=
  ⟨s.a + t.a, s.b + t.b, s.c + t.c, s.d + t.d, s.e + t.e, s.f + t.f, s.g + t.g, s.h + t.h⟩

def rotations (r : Nat × Nat × Nat) (x : BitVec w) : BitVec w :=
  x.rotateRight r.1 ^^^ x.rotateRight r.2.1 ^^^ x.rotateRight r.2.2

def shifted (r : Nat × Nat × Nat) (x : BitVec w) : BitVec w :=
  x.rotateRight r.1 ^^^ x.rotateRight r.2.1 ^^^ (x >>> r.2.2)

def choice (x y z : BitVec w) : BitVec w := (x &&& y) ^^^ (~~~x &&& z)
def majority (x y z : BitVec w) : BitVec w := (x &&& y) ^^^ (x &&& z) ^^^ (y &&& z)

namespace Family

variable (F : Family w)

/-- One round with the constant `k` and the schedule word `m`. -/
def round (s : State w) (k m : BitVec w) : State w :=
  let t₁ := s.h + rotations F.big₁ s.e + choice s.e s.f s.g + k + m
  let t₂ := rotations F.big₀ s.a + majority s.a s.b s.c
  ⟨t₁ + t₂, s.a, s.b, s.c, s.d + t₁, s.e, s.f, s.g⟩

/-- The word of the schedule that follows 16 given ones. -/
def next (ms : List (BitVec w)) : BitVec w :=
  shifted F.small₁ (ms.getD 14 0) + ms.getD 9 0 + shifted F.small₀ (ms.getD 1 0) + ms.getD 0 0

/-- The rounds with the constants `ks`; `ms` holds the next 16 words of the schedule. -/
def run : List (BitVec w) → List (BitVec w) → State w → State w
  | [], _, s => s
  | k :: ks, ms, s => run ks (ms.tail ++ [F.next ms]) (F.round s k (ms.headD 0))

def compress (s : State w) (block : List (BitVec w)) : State w := s.add (F.run F.rounds block s)

/-- Mixes the first `n` blocks of 16 words into the state. -/
def absorb : (n : Nat) → List (BitVec w) → State w → State w
  | 0, _, s => s
  | n + 1, ms, s => absorb n (ms.drop 16) (F.compress s (ms.take 16))

end Family

/-- The low `n` octets of a number, most significant first. -/
def bigEndian (n v : Nat) : Bytes := (Text.littleEndian n v).reverse

/-- The first `n` words of `w` bits that octets spell, most significant octet first. -/
def wordsOf (w : Nat) : (n : Nat) → Bytes → List (BitVec w)
  | 0, _ => []
  | n + 1, s =>
    BitVec.ofNat w (Text.ofLittleEndian (s.take (w / 8)).reverse) :: wordsOf w n (s.drop (w / 8))

/-- The message, a mark, zeros, and the length of the message in bits, in whole blocks of `2 * w`
octets. -/
def pad (w : Nat) (message : Bytes) : Bytes :=
  let used := message.length + 1 + w / 4
  let zeros := (2 * w - used % (2 * w)) % (2 * w)
  message ++ 0x80 :: List.replicate zeros 0 ++ bigEndian (w / 4) (8 * message.length)

def Family.hash (F : Family w) (message : Bytes) : Bytes :=
  let s := pad w message
  let s := F.absorb (s.length / (2 * w)) (wordsOf w (8 * s.length / w) s) (.ofWords F.start)
  s.words.flatMap fun m => bigEndian (w / 8) m.toNat

def sha256Family : Family 32 where
  big₀ := (2, 13, 22)
  big₁ := (6, 11, 25)
  small₀ := (7, 18, 3)
  small₁ := (17, 19, 10)
  start :=
  [0x6a09e667, 0xbb67ae85, 0x3c6ef372, 0xa54ff53a, 0x510e527f, 0x9b05688c, 0x1f83d9ab, 0x5be0cd19]
  rounds :=
  [0x428a2f98, 0x71374491, 0xb5c0fbcf, 0xe9b5dba5, 0x3956c25b, 0x59f111f1, 0x923f82a4, 0xab1c5ed5,
   0xd807aa98, 0x12835b01, 0x243185be, 0x550c7dc3, 0x72be5d74, 0x80deb1fe, 0x9bdc06a7, 0xc19bf174,
   0xe49b69c1, 0xefbe4786, 0x0fc19dc6, 0x240ca1cc, 0x2de92c6f, 0x4a7484aa, 0x5cb0a9dc, 0x76f988da,
   0x983e5152, 0xa831c66d, 0xb00327c8, 0xbf597fc7, 0xc6e00bf3, 0xd5a79147, 0x06ca6351, 0x14292967,
   0x27b70a85, 0x2e1b2138, 0x4d2c6dfc, 0x53380d13, 0x650a7354, 0x766a0abb, 0x81c2c92e, 0x92722c85,
   0xa2bfe8a1, 0xa81a664b, 0xc24b8b70, 0xc76c51a3, 0xd192e819, 0xd6990624, 0xf40e3585, 0x106aa070,
   0x19a4c116, 0x1e376c08, 0x2748774c, 0x34b0bcb5, 0x391c0cb3, 0x4ed8aa4a, 0x5b9cca4f, 0x682e6ff3,
   0x748f82ee, 0x78a5636f, 0x84c87814, 0x8cc70208, 0x90befffa, 0xa4506ceb, 0xbef9a3f7, 0xc67178f2]

def sha512Family : Family 64 where
  big₀ := (28, 34, 39)
  big₁ := (14, 18, 41)
  small₀ := (1, 8, 7)
  small₁ := (19, 61, 6)
  start :=
  [0x6a09e667f3bcc908, 0xbb67ae8584caa73b, 0x3c6ef372fe94f82b, 0xa54ff53a5f1d36f1,
   0x510e527fade682d1, 0x9b05688c2b3e6c1f, 0x1f83d9abfb41bd6b, 0x5be0cd19137e2179]
  rounds :=
  [0x428a2f98d728ae22, 0x7137449123ef65cd, 0xb5c0fbcfec4d3b2f, 0xe9b5dba58189dbbc,
   0x3956c25bf348b538, 0x59f111f1b605d019, 0x923f82a4af194f9b, 0xab1c5ed5da6d8118,
   0xd807aa98a3030242, 0x12835b0145706fbe, 0x243185be4ee4b28c, 0x550c7dc3d5ffb4e2,
   0x72be5d74f27b896f, 0x80deb1fe3b1696b1, 0x9bdc06a725c71235, 0xc19bf174cf692694,
   0xe49b69c19ef14ad2, 0xefbe4786384f25e3, 0x0fc19dc68b8cd5b5, 0x240ca1cc77ac9c65,
   0x2de92c6f592b0275, 0x4a7484aa6ea6e483, 0x5cb0a9dcbd41fbd4, 0x76f988da831153b5,
   0x983e5152ee66dfab, 0xa831c66d2db43210, 0xb00327c898fb213f, 0xbf597fc7beef0ee4,
   0xc6e00bf33da88fc2, 0xd5a79147930aa725, 0x06ca6351e003826f, 0x142929670a0e6e70,
   0x27b70a8546d22ffc, 0x2e1b21385c26c926, 0x4d2c6dfc5ac42aed, 0x53380d139d95b3df,
   0x650a73548baf63de, 0x766a0abb3c77b2a8, 0x81c2c92e47edaee6, 0x92722c851482353b,
   0xa2bfe8a14cf10364, 0xa81a664bbc423001, 0xc24b8b70d0f89791, 0xc76c51a30654be30,
   0xd192e819d6ef5218, 0xd69906245565a910, 0xf40e35855771202a, 0x106aa07032bbd1b8,
   0x19a4c116b8d2d0c8, 0x1e376c085141ab53, 0x2748774cdf8eeb99, 0x34b0bcb5e19b48a8,
   0x391c0cb3c5c95a63, 0x4ed8aa4ae3418acb, 0x5b9cca4f7763e373, 0x682e6ff3d6b2b8a3,
   0x748f82ee5defb2fc, 0x78a5636f43172f60, 0x84c87814a1f0ab72, 0x8cc702081a6439ec,
   0x90befffa23631e28, 0xa4506cebde82bde9, 0xbef9a3f7b2c67915, 0xc67178f2e372532b,
   0xca273eceea26619c, 0xd186b8c721c0c207, 0xeada7dd6cde0eb1e, 0xf57d4f7fee6ed178,
   0x06f067aa72176fba, 0x0a637dc5a2c898a6, 0x113f9804bef90dae, 0x1b710b35131c471b,
   0x28db77f523047d84, 0x32caab7b40c72493, 0x3c9ebe0a15c9bebc, 0x431d67c49c100d4c,
   0x4cc5d4becb3e42b6, 0x597f299cfc657e2a, 0x5fcb6fab3ad6faec, 0x6c44198c4a475817]

end TokenLedger.Sha2

namespace TokenLedger

/-- The 32 octets of SHA-256. -/
def sha256 (message : Bytes) : Bytes := Sha2.sha256Family.hash message

def sha512 (message : Bytes) : Bytes := Sha2.sha512Family.hash message

end TokenLedger
