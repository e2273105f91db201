import TokenLedger.Record.Balance
import TokenLedger.Record.Transfer

/-! What an operation that changes balances or tokens answers: the records that it wrote and the
transfers that it carried out. -/

namespace TokenLedger

structure Envelope where
  balances : Option (Std.ExtTreeMap Account Balance)
  tokens : Option (Std.ExtTreeMap String Token)
  transfers : Option (Std.ExtTreeMap String Transfer)
  deriving DecidableEq

namespace Envelope

def empty : Envelope := ⟨none, none, none⟩

def withBalance (e : Envelope) (b : Balance) : Envelope :=
  { e with balances := some ((e.balances.getD ∅).insert b.account b) }

def withToken (e : Envelope) (t : Token) : Envelope :=
  { e with tokens := some ((e.tokens.getD ∅).insert t.symbol t) }

/-- Transfers are listed by their ids: of two with one id the later one is kept. -/
def withTransfer (e : Envelope) (t : Transfer) : Envelope :=
  { e with transfers := some ((e.transfers.getD ∅).insert t.id t) }

open Json in
/-- A part of the envelope as an object, or nothing. -/
def writePart {κ α : Type} [Ord κ] [Std.TransOrd κ] (key : κ → String) (c : Codec α) :
    Option (Std.ExtTreeMap κ α) → Bytes
  | none => (Codec.optional c).write none
  | some m => (Codec.entries c).write (m.toList.map fun (k, a) => (key k, a))

open Json in
def checkPart {κ α : Type} [Ord κ] [Std.TransOrd κ] (key : κ → String) (c : Codec α) :
    Option (Std.ExtTreeMap κ α) → Except Error Unit
  | none => .ok ()
  | some m => (Codec.entries c).check (m.toList.map fun (k, a) => (key k, a))

open Json in
def write (e : Envelope) : Bytes :=
  Octet.objectOpen :: Codec.separated
    [Codec.member "UpdateBalances" (writePart Account.text Balance.codec e.balances),
      Codec.member "UpdateTokens" (writePart id Token.codec e.tokens),
      Codec.member "Transactions" (writePart id Transfer.codec e.transfers)]
    ++ [Octet.objectClose]

/-- The document of an envelope, unless one of its records cannot be written. -/
def encode (e : Envelope) : Except Json.Error Bytes := do
  checkPart Account.text Balance.codec e.balances
  checkPart id Token.codec e.tokens
  checkPart id Transfer.codec e.transfers
  return e.write

end Envelope
end TokenLedger
