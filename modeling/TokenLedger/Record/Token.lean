import TokenLedger.Json.Record

/-! Tokens as they are listed on the ledger. -/

namespace TokenLedger

/-- Seconds from the beginning of 1970. -/
abbrev Timestamp := Int64

inductive TokenType where
  | crypto
  | social
  | ftPod
  | nftPod
  deriving DecidableEq, Repr

namespace TokenType

def all : List TokenType := [.crypto, .social, .ftPod, .nftPod]

def name : TokenType → String
  | .crypto => "CRYPTO"
  | .social => "SOCIAL"
  | .ftPod => "FTPOD"
  | .nftPod => "NFTPOD"

/-- The names under which a type is known, its own one first. -/
def names : TokenType → List String
  | .crypto => ["CRYPTO"]
  | .social => ["SOCIAL"]
  | .ftPod => ["FTPOD", "FT_POD"]
  | .nftPod => ["NFTPOD", "NFT_POD"]

def ofName? (s : String) : Option TokenType := all.find? (·.names.contains s)

@[simp] theorem ofName?_name (t : TokenType) : ofName? t.name = some t := by cases t <;> decide

/-- Supply, balances and transfers are whole numbers of tokens. -/
def isIntegral (t : TokenType) : Bool := t == .nftPod

/-- Whether an amount of a token of this type may be held. -/
def admits (t : TokenType) (a : Amount) : Bool := !t.isIntegral || a.isIntegral

def codec : Json.Codec TokenType := .variant ofName? (all.flatMap names) name

end TokenType

structure Token where
  name : String
  type : TokenType
  symbol : String
  supply : Amount
  lockUpDate : Timestamp
  deriving DecidableEq, Repr

namespace Token

open Json in
def fields : List Field :=
  [.withDefault "Name" .text "", .required "TokenType" TokenType.codec, .required "Symbol" .text,
   .withDefault "Supply" .amount .zero, .withDefault "LockUpDate" .int64 0]

def layout : Json.Layout Token where
  name := "Token"
  fields := fields
  ofRow := fun (name, type, symbol, supply, lockUpDate, _) => ⟨name, type, symbol, supply, lockUpDate⟩
  toRow t := (t.name, t.type, t.symbol, t.supply, t.lockUpDate, ())

def codec : Json.Codec Token := layout.codec

end Token
end TokenLedger
