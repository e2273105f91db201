import TokenLedger.Ledger.Action
import TokenLedger.Ledger.Lookup
import TokenLedger.Record.Envelope

/-! Listing tokens, describing them anew and removing them. -/

namespace TokenLedger

def Token.requireIntegralSupply (t : Token) : Except Failure Unit :=
  unless t.type.admits t.supply do throw (.fractionalSupply t.type t.supply)

/-- Lists a token and gives its whole supply to an address. A symbol that was removed can be listed
again once nobody holds any of it. -/
def registerToken (t : Token) (holder : String) : Action Envelope := do
  if (← Query.token? t.symbol).isSome then throw (.tokenListed t.symbol)
  let held := (← Query.balancesOfToken t.symbol).filter (!·.amount.isZero)
  unless held.isEmpty do throw (.tokenHeld t.symbol held.length)
  liftM t.requireIntegralSupply
  .save (.token t)
  let b := { Balance.zero ⟨holder, t.symbol⟩ with amount := t.supply }
  .save (.balance b)
  return (Envelope.empty.withToken t).withBalance b

/-- Removes a token from the list. Balances of it stay where they are. -/
def removeToken (symbol : String) : Action Unit := do
  let t ← Query.token symbol
  .save (.unlist t.symbol)

def Query.requireIntegralHoldings (t : Token) : Query Unit := do
  for b in ← balancesOfToken t.symbol do
    unless b.amount.isIntegral do throw (.fractionalHolding b.address b.amount t.symbol t.type)

def updateToken (t : Token) : Action Envelope := do
  let current ← Query.token t.symbol
  let t := { t with supply := current.supply }
  liftM t.requireIntegralSupply
  if t.type.isIntegral && !current.type.isIntegral then Query.requireIntegralHoldings t
  .save (.token t)
  return Envelope.empty.withToken t

end TokenLedger
