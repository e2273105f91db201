import TokenLedger.Ledger.Account
import TokenLedger.Ledger.Authority
import TokenLedger.Ledger.Issue
import TokenLedger.Ledger.Listing
import TokenLedger.Ledger.Payment
import TokenLedger.Ledger.Instruction

/-! The ledger as its callers see it: the name of an operation and texts as arguments go in, a document
comes out. -/

namespace TokenLedger

/-- A ledger with its check of signatures and the register of its actors. -/
structure Contract where
  verify : Verifier
  isActor : ActorRegister

def Operation.permit (op : Operation) (role : Option Role) : Except Failure Unit :=
  if op.requiresAdmin then
    match requireRole role .admin with
    | .ok _ => .ok ()
    | .error f => .error (.callForbidden op.name f.message)
  else .ok ()

/-- The document of an answer, unless the writer refuses it. -/
def payload (r : Except Json.Error Bytes) : Except Failure Bytes :=
  match r with
  | .ok b => .ok b
  | .error e => .error (.unencodable e)

open Json in
def Question.answer : Question → Query Bytes
  | .token symbol => do liftM (payload (Token.codec.encode (← Query.token symbol)))
  | .tokensOfType type => do
    liftM (payload ((Codec.list Token.codec).encode (← Query.tokensOfType type)))
  | .symbolsOfType type => do
    liftM (payload ((Codec.list .text).encode (← Query.symbolsOfType type)))
  | .addressExists address => do
    Query.requireAddress address
    return []
  | .wallet address type => do
    let bySymbol : Table Balance := .ofList (← Query.wallet address type)
    liftM (payload ((Codec.entries Balance.codec).encode bySymbol.toList))
  | .balanceOf address symbol => do
    liftM (payload (Balance.codec.encode (← Query.balanceOf address symbol)))
  | .scores actor => do liftM (payload (Scores.codec.encode (← Query.scores actor)))
  | .balancesOfAddress address => do
    liftM (payload ((Codec.list Balance.codec).encode (← Query.balancesOfAddress address)))
  | .balancesOfToken symbol => do
    liftM (payload ((Codec.list Balance.codec).encode (← Query.balancesOfToken symbol)))
  | .holders symbol => do liftM (payload ((Codec.list .text).encode (← Query.holders symbol)))

def Order.carryOut (c : Contract) : Order → Action Envelope
  | .registerToken t holder => TokenLedger.registerToken t holder
  | .updateToken t => TokenLedger.updateToken t
  | .transfer t digest signature => do
    liftM (authorise c.verify t digest signature)
    TokenLedger.transfer t
  | .multitransfer ts => TokenLedger.multitransfer ts
  | .mint r => TokenLedger.mint r
  | .burn r => TokenLedger.burn r

def Filing.carryOut (c : Contract) : Filing → Action Unit
  | .removeToken symbol => TokenLedger.removeToken symbol
  | .registerAddress address => TokenLedger.registerAddress address
  | .initialiseBalance address symbol => do let _ ← TokenLedger.initialiseBalance address symbol
  | .initialiseScores actor s => TokenLedger.initialiseScores actor s
  | .updateScores actor s => TokenLedger.updateScores c.isActor actor s

/-- The document of the answer is encoded when all has been written. -/
def Instruction.carryOut (c : Contract) : Instruction → Action Bytes
  | .ask q => liftM q.answer
  | .order o => do liftM (payload (← o.carryOut c).encode)
  | .file f => do
    f.carryOut c
    return []

namespace Contract

def operate (c : Contract) (op : Operation) (args : List String) : Action Bytes := do
  (← liftM (Instruction.read op args)).carryOut c

def request (c : Contract) (role : Option Role) (name : String) (args : List String) :
    Action Bytes := do
  let op ← liftM (Operation.parse name)
  liftM (op.permit role)
  c.operate op args

/-- Carries out a request within a transaction. -/
def invoke (c : Contract) (s : Store) (t : Transaction) (role : Option Role) (name : String)
    (args : List String) : Except Failure Bytes × Transaction :=
  (c.request role name args).perform s t

/-- Carries out a request in a transaction of its own, which is committed unless it fails. -/
def execute (c : Contract) (s : Store) (role : Option Role) (name : String) (args : List String) :
    Except Failure Bytes × Store :=
  match c.invoke s .empty role name args with
  | (.ok payload, t) => match t.commit s with
    | .ok s' => (.ok payload, s')
    | .error f => (.error f, s)
  | (.error f, _) => (.error f, s)

end Contract
end TokenLedger
