import TokenLedger.Failure
import TokenLedger.Crypto.Ed25519
import TokenLedger.Record.Transfer
import TokenLedger.Text.Blank

/-! Who may do what: roles of callers, and signatures of senders over the digests of their
transfers. -/

namespace TokenLedger

def requireRole (held : Option Role) (required : Role) : Except Failure Unit :=
  if held = some required then .ok () else .error (.roleMissing held required)

/-- A check of a signature over a digest: key, digest and signature are hexadecimal digits. -/
abbrev Verifier := (key digest signature : String) → Except Failure Unit

namespace Credential

/-- The octets that digits spell. White space around them and one mark `0x` do not count. -/
def decode (c : Credential) (s : String) : Except Failure Bytes :=
  let digits := Text.withoutMark (Text.trim s.toList)
  match Hex.decode (Text.utf8 (String.ofList digits)) with
  | .ok b => .ok b
  | .error e => .error (.undecodableHex c e)

def decodeSized (c : Credential) (n : Nat) (s : String) : Except Failure Bytes := do
  let b ← c.decode s
  if b.length = n then return b else throw (.wrongSize c n b.length)

end Credential

def ed25519Verifier : Verifier := fun key digest signature => do
  let k ← Credential.publicKey.decodeSized 32 key
  let d ← Credential.digest.decode digest
  let s ← Credential.signature.decodeSized 64 signature
  unless Ed25519.isKey k do throw (.malformedKey key)
  unless Ed25519.verify k d s do throw (.invalidSignature key)

def sameLetters (s t : List Char) : Bool := s.map Char.toLower == t.map Char.toLower

/-- Accepts a transfer that its sender has signed. The digest must be the one of this transfer, so a
signature over other fields is of no use. -/
def authorise (verify : Verifier) (t : Transfer) (digest signature : String) :
    Except Failure Unit := do
  let expected := Hex.text t.digest
  let supplied := Text.withoutMark (Text.trim digest.toList)
  unless sameLetters supplied expected.toList do
    throw (.digestMismatch (String.ofList supplied) t.id)
  verify t.sender expected signature

end TokenLedger
