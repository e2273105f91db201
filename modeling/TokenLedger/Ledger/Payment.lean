import TokenLedger.Ledger.Action
import TokenLedger.Ledger.Lookup
import TokenLedger.Record.Envelope

/-! Transfers, one at a time and in batches. A request works on a set of balances that it has touched,
and nothing of it is written before all of it has succeeded. -/

namespace TokenLedger

abbrev Touched := Std.ExtTreeMap Account Balance

/-- The balance of an account as the request has left it, or as it is recorded. -/
def Touched.balance (m : Touched) (a : Account) (registered : Bool) : Query Balance :=
  match m[a]? with
  | some b => pure b
  | none => Query.balance a registered

def Touched.put (m : Touched) (b : Balance) : Touched := m.insert b.account b

def Touched.flush (m : Touched) : Action Unit := m.toList.forM fun (_, b) => .save (.balance b)

def Query.transferableToken (symbol : String) (date : Timestamp) (amount : Amount) :
    Query Token := do
  let t ← Query.token symbol
  if date < t.lockUpDate then throw (.lockedUp t.symbol t.lockUpDate date)
  unless t.type.admits amount do throw (.fractionalMovement .transfer t.type amount)
  return t

def Touched.transfer (m : Touched) (t : Transfer) : Query Touched := do
  let _ ← Query.transferableToken t.token t.date t.amount
  let sender ← m.balance ⟨t.sender, t.token⟩ !t.anySender
  let receiver ← m.balance ⟨t.receiver, t.token⟩ !t.anyReceiver
  let sent ← liftM (sender.amount.sub t.amount)
  let received ← liftM (receiver.amount.add t.amount)
  return (m.put { sender with amount := sent }).put { receiver with amount := received }

/-- Moves an amount from the sender to the receiver, who are two. Whether the sender agrees is not
asked here. -/
def transfer (t : Transfer) : Action Envelope := do
  if t.sender = t.receiver then throw .selfTransfer
  if t.amount.isZero then throw (.nothingMoved .transfer)
  let m ← Touched.transfer ∅ t
  m.flush
  let e := Envelope.empty.withTransfer { t with kind := Transfer.recordedKind }
  return { e with balances := some m }

/-- Whether a transfer has an effect. -/
def Transfer.isEffective (t : Transfer) : Bool := t.sender != t.receiver && !t.amount.isZero

def Touched.transferAll (m : Touched) (ts : List Transfer) : Query Touched :=
  (ts.filter (·.isEffective)).foldlM transfer m

/-- Carries out a batch of transfers, or none of them. -/
def multitransfer (ts : List Transfer) : Action Envelope := do
  let m ← Touched.transferAll ∅ ts
  m.flush
  let e := (ts.filter (·.isEffective)).foldl Envelope.withTransfer .empty
  return { e with balances := some m }

end TokenLedger
