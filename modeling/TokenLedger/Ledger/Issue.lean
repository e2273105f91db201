import TokenLedger.Ledger.Action
import TokenLedger.Ledger.Lookup
import TokenLedger.Record.Envelope

/-! Issuing tokens and destroying them: the supply of a token and the balance of an account change
together. -/

namespace TokenLedger

def Query.suppliedToken (m : Movement) (r : Transfer) : Query Token := do
  if r.amount.isZero then throw (.nothingMoved m)
  let t ← Query.token r.token
  unless t.type.admits r.amount do throw (.fractionalMovement m t.type r.amount)
  return t

def saveSupply (r : Transfer) (t : Token) (b : Balance) : Action Envelope := do
  .save (.balance b)
  .save (.token t)
  return ((Envelope.empty.withBalance b).withToken t).withTransfer r

/-- Issues an amount to the receiver of the request. -/
def mint (r : Transfer) : Action Envelope := do
  let t ← Query.suppliedToken .mint r
  let b ← Query.balance ⟨r.receiver, t.symbol⟩ true
  let held ← liftM (b.amount.add r.amount)
  let supply ← liftM (t.supply.add r.amount)
  saveSupply r { t with supply } { b with amount := held }

/-- Destroys an amount that the sender of the request holds. -/
def burn (r : Transfer) : Action Envelope := do
  let t ← Query.suppliedToken .burn r
  let b ← Query.balance ⟨r.sender, t.symbol⟩ true
  let held ← liftM (b.amount.sub r.amount)
  let supply ← liftM (t.supply.sub r.amount)
  saveSupply r { t with supply } { b with amount := held }

end TokenLedger
