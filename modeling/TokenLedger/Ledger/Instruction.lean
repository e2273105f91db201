import TokenLedger.Ledger.Operation
import TokenLedger.Record.Scores
import TokenLedger.Record.Transfer

/-! Requests to the ledger, read from the name of an operation and texts as its arguments. -/

namespace TokenLedger

/-- The value of an argument that spells a document. -/
def Argument.read {α : Type} (a : Argument) (c : Json.Codec α) (s : String) : Except Failure α :=
  match c.decodeText s with
  | .ok x => .ok x
  | .error e => .error (.malformed a e)

def TokenType.parse (s : String) : Except Failure TokenType :=
  match ofName? s with
  | some t => .ok t
  | none => .error (.unknownTokenType s)

def Role.parse (s : String) : Except Failure Role :=
  match ofName? s with
  | some r => .ok r
  | none => .error (.unknownRole s)

def Operation.parse (s : String) : Except Failure Operation :=
  match ofName? s with
  | some op => .ok op
  | none => .error (.unknownOperation s)

inductive Question where
  | token (symbol : String)
  | tokensOfType (type : TokenType)
  | symbolsOfType (type : TokenType)
  | addressExists (address : String)
  | wallet (address : String) (type : TokenType)
  | balanceOf (address symbol : String)
  | scores (actor : String)
  | balancesOfAddress (address : String)
  | balancesOfToken (symbol : String)
  | holders (symbol : String)

/-- A request that is answered with an envelope. -/
inductive Order where
  | registerToken (t : Token) (holder : String)
  | updateToken (t : Token)
  | transfer (t : Transfer) (digest signature : String)
  | multitransfer (ts : List Transfer)
  | mint (r : Transfer)
  | burn (r : Transfer)

/-- A request that writes and is answered with nothing. -/
inductive Filing where
  | removeToken (symbol : String)
  | registerAddress (address : String)
  | initialiseBalance (address symbol : String)
  | initialiseScores (actor : String) (s : Scores)
  | updateScores (actor : String) (s : Scores)

/-- A request whose arguments have been read. -/
inductive Instruction where
  | ask (q : Question)
  | order (o : Order)
  | file (f : Filing)

def Instruction.read : Operation → List String → Except Failure Instruction
  | .registerToken, [token, address] =>
    return .order (.registerToken (← Argument.token.read Token.codec token) address)
  | .removeToken, [symbol] => return .file (.removeToken symbol)
  | .updateTokenInfo, [token] =>
    return .order (.updateToken (← Argument.token.read Token.codec token))
  | .getToken, [symbol] => return .ask (.token symbol)
  | .getTokenInfoByType, [type] => return .ask (.tokensOfType (← TokenType.parse type))
  | .getTokenListByType, [type] => return .ask (.symbolsOfType (← TokenType.parse type))
  | .registerAddress, [address] => return .file (.registerAddress address)
  | .checkAddressExist, [address] => return .ask (.addressExists address)
  | .getWalletType, [address, type] => return .ask (.wallet address (← TokenType.parse type))
  | .balanceOf, [address, symbol] => return .ask (.balanceOf address symbol)
  | .initialiseBalance, [address, symbol] => return .file (.initialiseBalance address symbol)
  | .transfer, [request, digest, signature] =>
    return .order (.transfer (← Argument.transfer.read Transfer.codec request) digest signature)
  | .multitransfer, request :: requests =>
    return .order (.multitransfer
      (← (request :: requests).mapM (Argument.transfer.read Transfer.codec)))
  | .mint, [request] =>
    return .order (.mint (← Argument.mintRequest.read Transfer.codec request))
  | .burn, [request] =>
    return .order (.burn (← Argument.burnRequest.read Transfer.codec request))
  | .initialiseFinancialScores, [actor, scores] =>
    return .file (.initialiseScores actor (← Argument.scores.read Scores.codec scores))
  | .updateFinancialScores, [actor, scores] =>
    return .file (.updateScores actor (← Argument.scores.read Scores.codec scores))
  | .getFinancialScores, [actor] => return .ask (.scores actor)
  | .getBalancesOfAddress, [address] => return .ask (.balancesOfAddress address)
  | .getBalancesOfTokenHolders, [symbol] => return .ask (.balancesOfToken symbol)
  | .getTokenHolderList, [symbol] => return .ask (.holders symbol)
  | op, _ => throw (.argumentCount op.name op.arity)

end TokenLedger
