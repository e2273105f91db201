import TokenLedger.Store.Key
import TokenLedger.Record.Token

/-! What the ledger records about an account. -/

namespace TokenLedger

structure Balance where
  address : String
  token : String
  amount : Amount
  credit : Binary64
  lockUpDate : Timestamp
  deriving DecidableEq, Repr

namespace Balance

/-- The balance of an account of which nothing is recorded. -/
def zero (a : Account) : Balance := ⟨a.address, a.token, .zero, .zero false, 0⟩

def account (b : Balance) : Account := ⟨b.address, b.token⟩

@[simp] theorem account_zero (a : Account) : (zero a).account = a := rfl

open Json in
def fields : List Field :=
  [.required "Address" .text, .required "Token" .text, .withDefault "Amount" .amount .zero,
   .withDefault "Credit" .binary64 (.zero false), .withDefault "LockUpDate" .int64 0]

def layout : Json.Layout Balance where
  name := "Balance"
  fields := fields
  ofRow := fun (address, token, amount, credit, lockUpDate, _) =>
    ⟨address, token, amount, credit, lockUpDate⟩
  toRow b := (b.address, b.token, b.amount, b.credit, b.lockUpDate, ())

def codec : Json.Codec Balance := layout.codec

end Balance
end TokenLedger
