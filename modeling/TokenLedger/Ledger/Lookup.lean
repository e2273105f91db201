import TokenLedger.Ledger.Change

/-! Questions to the ledger: about wallets, tokens, balances and scores, one by one and in lists. -/

namespace TokenLedger.Query

variable {α : Type}

/-- The value of a stored document. -/
def decoded (c : Json.Codec α) (k : Key) (b : Bytes) : Query α :=
  match c.decode b with
  | .ok a => pure a
  | .error e => throw (.undecodable k.encode e)

def record? (c : Json.Codec α) (k : Key) : Query (Option α) := do
  match ← get k with
  | some b => return some (← decoded c k b)
  | none => return none

/-- Records in the order of their keys. -/
def records (c : Json.Codec α) (hits : List (Key × Bytes)) : Query (List α) :=
  hits.mapM fun (k, b) => decoded c k b

def addressExists (address : String) : Query Bool := do return (← get (.wallet address)).isSome

def requireAddress (address : String) : Query Unit := do
  unless ← addressExists address do throw (.addressUnknown address)

def token? (symbol : String) : Query (Option Token) := record? Token.codec (.token symbol)

def token (symbol : String) : Query Token := do
  match ← token? symbol with
  | some t => return t
  | none => throw (.tokenUnknown symbol)

/-- The listed tokens of a type. Tokens that go by another name of the type are not among them. -/
def tokensOfType (type : TokenType) : Query (List Token) := do
  records Token.codec (← select (.text .tokens "TokenType" type.name))

def symbolsOfType (type : TokenType) : Query (List String) := do
  return (← tokensOfType type).map (·.symbol)

/-- The balance of an account, zero where nothing is recorded. With `registered` the address must have
a wallet. -/
def balance (a : Account) (registered : Bool) : Query Balance := do
  if registered then requireAddress a.address
  return (← record? Balance.codec a.key).getD (.zero a)

def balanceOf (address symbol : String) : Query Balance := balance ⟨address, symbol⟩ true

/-- The recorded balances of an address. -/
def balancesOfAddress (address : String) : Query (List Balance) := do
  records Balance.codec (← scan .balances [address])

/-- The recorded balances of a token. -/
def balancesOfToken (symbol : String) : Query (List Balance) := do
  records Balance.codec (← select (.text .balances "Token" symbol))

def holders (symbol : String) : Query (List String) := do
  return (← balancesOfToken symbol).map (·.address)

/-- What an address holds of each token of a type. -/
def wallet (address : String) (type : TokenType) : Query (List (String × Balance)) := do
  (← symbolsOfType type).mapM fun s => return (s, ← balanceOf address s)

def scores (actor : String) : Query Scores := do
  match ← record? Scores.codec (.scores actor) with
  | some s => return s
  | none => throw (.scoresUnknown actor)

end TokenLedger.Query
