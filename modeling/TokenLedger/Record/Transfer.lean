import TokenLedger.Record.Token
import TokenLedger.Crypto.Sha2

/-! Requests to move, issue or destroy tokens, and the digest that the sender signs. -/

namespace TokenLedger

structure Transfer where
  kind : String
  token : String
  sender : String
  receiver : String
  /-- The receiver need not be registered. -/
  anyReceiver : Bool
  /-- The sender need not be registered. -/
  anySender : Bool
  amount : Amount
  id : String
  date : Timestamp
  deriving DecidableEq, Repr

namespace Transfer

open Json in
def fields : List Field :=
  [.withDefault "Type" .text "", .required "Token" .text, .withDefault "From" .text "",
   .withDefault "To" .text "", .withDefault "AvoidCheckTo" .boolean false,
   .withDefault "AvoidCheckFrom" .boolean false, .required "Amount" .amount,
   .withDefault "Id" .text "", .withDefault "Date" .int64 0]

def layout : Json.Layout Transfer where
  name := "Transfer"
  fields := fields
  ofRow := fun (kind, token, sender, receiver, anyReceiver, anySender, amount, id, date, _) =>
    ⟨kind, token, sender, receiver, anyReceiver, anySender, amount, id, date⟩
  toRow t :=
    (t.kind, t.token, t.sender, t.receiver, t.anyReceiver, t.anySender, t.amount, t.id, t.date, ())

def codec : Json.Codec Transfer := layout.codec

/-- The kind under which a single transfer is recorded. -/
def recordedKind : String := "Transfer"

def framed (s : String) : Bytes :=
  let b := Text.utf8 s
  Text.littleEndian 8 b.length ++ b

/-- What is hashed: the fields that decide the effect of a transfer, and its identity. -/
def message (t : Transfer) : Bytes :=
  Text.utf8 "coinbal-transfer-v1" ++ framed t.id ++ framed t.token ++ framed t.sender
    ++ framed t.receiver ++ Text.littleEndian 8 t.amount.units
    ++ Text.littleEndian 8 t.date.toUInt64.toNat

/-- The digest that the sender signs to authorise the transfer. -/
def digest (t : Transfer) : Bytes := sha256 t.message

end Transfer
end TokenLedger
