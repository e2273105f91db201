import TokenLedger.Crypto.Sha2
import TokenLedger.Crypto.Edwards25519

/-! Signatures on the Edwards curve over `2 ^ 255 - 19` with SHA-512. Verification is strict: the second
half of a signature is reduced, neither the key nor the first half is a point of small order, and the
equation holds without a cofactor. -/

namespace TokenLedger.Ed25519

open Edwards25519

def challenge (s : Bytes) : Nat := Text.ofLittleEndian (sha512 s) % order

def clamp (n : Nat) : Nat := n % (1 <<< 254) / 8 * 8 + (1 <<< 254)

def expand (secret : Bytes) : Nat × Bytes :=
  let h := sha512 secret
  (clamp (Text.ofLittleEndian (h.take 32)) % order, h.drop 32)

/-- The 32 octets of the public key. -/
def publicKey (secret : Bytes) : Bytes := (Point.base.times 256 (expand secret).1).encode

/-- The 64 octets of the signature of a message. -/
def sign (secret message : Bytes) : Bytes :=
  let (a, nonces) := expand secret
  let key := publicKey secret
  let r := challenge (nonces ++ message)
  let R := (Point.base.times 256 r).encode
  let k := challenge (R ++ key ++ message)
  R ++ Text.littleEndian 32 ((r + k * a) % order)

def isKey (key : Bytes) : Bool := (Point.decode? key).isSome

/-- Whether 64 octets sign a message under a key. -/
def verify (key message signature : Bytes) : Bool :=
  let R := signature.take 32
  let s := Text.ofLittleEndian (signature.drop 32)
  match Point.decode? key, Point.decode? R with
  | some A, some r =>
    let k := challenge (R ++ key ++ message)
    s < order && !r.isSmall && !A.isSmall
      && ((Point.base.times 256 s).add (A.neg.times 256 k)).encode == R
  | _, _ => false

end TokenLedger.Ed25519
