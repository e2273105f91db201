import TokenLedger.Failure

/-! The operations of the ledger, by name. -/

namespace TokenLedger

inductive Operation where
  | registerToken
  | removeToken
  | updateTokenInfo
  | getToken
  | getTokenInfoByType
  | getTokenListByType
  | registerAddress
  | checkAddressExist
  | getWalletType
  | balanceOf
  | initialiseBalance
  | transfer
  | multitransfer
  | mint
  | burn
  | initialiseFinancialScores
  | updateFinancialScores
  | getFinancialScores
  | getBalancesOfAddress
  | getBalancesOfTokenHolders
  | getTokenHolderList
  deriving DecidableEq, Repr

namespace Operation

def all : List Operation :=
  [.registerToken, .removeToken, .updateTokenInfo, .getToken, .getTokenInfoByType,
   .getTokenListByType, .registerAddress, .checkAddressExist, .getWalletType, .balanceOf,
   .initialiseBalance, .transfer, .multitransfer, .mint, .burn, .initialiseFinancialScores,
   .updateFinancialScores, .getFinancialScores, .getBalancesOfAddress, .getBalancesOfTokenHolders,
   .getTokenHolderList]

def name : Operation → String
  | .registerToken => "registerToken"
  | .removeToken => "removeToken"
  | .updateTokenInfo => "updateTokenInfo"
  | .getToken => "getToken"
  | .getTokenInfoByType => "getTokenInfoByType"
  | .getTokenListByType => "getTokenListByType"
  | .registerAddress => "registerAddress"
  | .checkAddressExist => "checkAddressExist"
  | .getWalletType => "getWalletType"
  | .balanceOf => "balanceOf"
  | .initialiseBalance => "initialiseBalance"
  | .transfer => "transfer"
  | .multitransfer => "multitransfer"
  | .mint => "mint"
  | .burn => "burn"
  | .initialiseFinancialScores => "initialiseFinancialScores"
  | .updateFinancialScores => "updateFinancialScores"
  | .getFinancialScores => "getFinancialScores"
  | .getBalancesOfAddress => "getBalancesOfAddress"
  | .getBalancesOfTokenHolders => "getBalancesOfTokenHolders"
  | .getTokenHolderList => "getTokenHolderList"

def ofName? (s : String) : Option Operation := all.find? (·.name == s)

@[simp] theorem ofName?_name (op : Operation) : ofName? op.name = some op := by
  cases op <;> decide

/-- The operations that are for administrators alone. -/
def requiresAdmin : Operation → Bool
  | .registerToken | .removeToken | .updateTokenInfo | .mint => true
  | _ => false

def arity : Operation → Arity
  | .registerToken | .getWalletType | .balanceOf | .initialiseBalance
  | .initialiseFinancialScores | .updateFinancialScores => .exactly 2
  | .transfer => .exactly 3
  | .multitransfer => .atLeastOne
  | _ => .exactly 1

end Operation
end TokenLedger
