import TokenLedger.Store.Key
import TokenLedger.Record.Role
import TokenLedger.Record.Token

/-! Why a request to the ledger fails. Each failure has a kind, and a message that names the request
and the state it met. -/

namespace TokenLedger

/-- What happens to an amount. -/
inductive Movement where
  | transfer
  | mint
  | burn
  deriving DecidableEq, Repr

def Movement.word : Movement → String
  | .transfer => "transfer"
  | .mint => "mint"
  | .burn => "burn"

/-- What an argument of an operation spells as a document. -/
inductive Argument where
  | token
  | transfer
  | mintRequest
  | burnRequest
  | scores
  deriving DecidableEq, Repr

def Argument.phrase : Argument → String
  | .token => "token"
  | .transfer => "transfer"
  | .mintRequest => "mint request"
  | .burnRequest => "burn request"
  | .scores => "financial scores"

/-- How many arguments an operation takes. -/
inductive Arity where
  | exactly (n : Nat)
  | atLeastOne
  deriving DecidableEq, Repr

def Arity.phrase : Arity → String
  | .exactly n => toString n
  | .atLeastOne => "at least 1"

/-- What a caller spells as hexadecimal digits to sign a transfer. -/
inductive Credential where
  | publicKey
  | digest
  | signature
  deriving DecidableEq, Repr

def Credential.phrase : Credential → String
  | .publicKey => "public key"
  | .digest => "digest"
  | .signature => "signature"

inductive Score where
  | trust
  | endorsement
  deriving DecidableEq, Repr

def Score.phrase : Score → String
  | .trust => "trust score"
  | .endorsement => "endorsement score"

inductive Failure where
  | amount (e : Amount.Unreadable)
  | unknownRole (name : String)
  | unknownTokenType (name : String)
  | unknownOperation (name : String)
  | argumentCount (operation : String) (arity : Arity)
  | malformed (what : Argument) (e : Json.Error)
  | scoreRange (which : Score) (value : Binary64)
  | fractionalSupply (type : TokenType) (supply : Amount)
  | fractionalHolding (address : String) (held : Amount) (symbol : String) (type : TokenType)
  | fractionalMovement (m : Movement) (type : TokenType) (amount : Amount)
  | nothingMoved (m : Movement)
  | selfTransfer
  | tokenUnknown (symbol : String)
  | addressUnknown (address : String)
  | actorUnknown (id : String)
  | scoresUnknown (id : String)
  | tokenListed (symbol : String)
  | tokenHeld (symbol : String) (holders : Nat)
  | addressKnown (address : String)
  | roleMissing (held : Option Role) (required : Role)
  | callForbidden (operation reason : String)
  | digestMismatch (supplied : String) (id : String)
  | undecodableHex (c : Credential) (e : Hex.Error)
  | wrongSize (c : Credential) (expected actual : Nat)
  | malformedKey (key : String)
  | invalidSignature (key : String)
  | lockedUp (symbol : String) (lockUpDate date : Timestamp)
  | insufficientFunds (available required : Amount)
  | overflow (a b : Amount)
  | conflict (key : String)
  | badKey (e : Key.Unreadable)
  | unreadableSnapshot (path : String) (e : Json.Error)
  | undecodable (key : String) (e : Json.Error)
  | unencodable (e : Json.Error)
  deriving DecidableEq, Repr

namespace Failure

inductive Kind where
  | validation
  | notFound
  | duplicate
  | auth
  | lockUp
  | insufficientFunds
  | overflow
  | conflict
  | internal
  deriving DecidableEq, Repr

def Kind.name : Kind → String
  | .validation => "ValidationError"
  | .notFound => "NotFoundError"
  | .duplicate => "DuplicateError"
  | .auth => "AuthError"
  | .lockUp => "LockUpError"
  | .insufficientFunds => "InsufficientFundsError"
  | .overflow => "OverflowError"
  | .conflict => "ConflictError"
  | .internal => "InternalError"

def kind : Failure → Kind
  | .amount _ | .unknownRole _ | .unknownTokenType _ | .unknownOperation _ | .argumentCount ..
  | .malformed .. | .scoreRange .. | .fractionalSupply .. | .fractionalHolding ..
  | .fractionalMovement .. | .nothingMoved _ | .selfTransfer => .validation
  | .tokenUnknown _ | .addressUnknown _ | .actorUnknown _ | .scoresUnknown _ => .notFound
  | .tokenListed _ | .tokenHeld .. | .addressKnown _ => .duplicate
  | .roleMissing .. | .callForbidden .. | .digestMismatch .. | .undecodableHex .. | .wrongSize ..
  | .malformedKey _ | .invalidSignature _ => .auth
  | .lockedUp .. => .lockUp
  | .insufficientFunds .. => .insufficientFunds
  | .overflow .. => .overflow
  | .conflict _ => .conflict
  | .badKey _ | .unreadableSnapshot .. | .undecodable .. | .unencodable _ => .internal

/-- The same request may succeed when it is made again. -/
def isRetryable (f : Failure) : Bool := f.kind == .conflict

def roleText (held : Option Role) (required : Role) : String :=
  (match held with
  | some r => "caller holds role " ++ r.name
  | none => "caller has no role attribute") ++ ", " ++ required.name ++ " required"

/-- The message without what its kind puts in front. -/
def detail : Failure → String
  | .amount e => e.message
  | .unknownRole n => "unknown role " ++ Text.quote n
  | .unknownTokenType n => "unknown token type " ++ Text.quote n
  | .unknownOperation n => "incorrect function name " ++ Text.quote n
  | .argumentCount op a => op ++ " should be called with " ++ a.phrase ++ " argument(s)"
  | .malformed w e => "malformed " ++ w.phrase ++ ": " ++ e.message
  | .scoreRange w x =>
    w.phrase ++ " should be between 0 and 1, got " ++ Decimal.Style.plain.text x
  | .fractionalSupply t a =>
    "the supply of an " ++ t.name ++ " token should be an integer, got " ++ a.text
  | .fractionalHolding h a s t =>
    h ++ " holds " ++ a.text ++ " " ++ s ++ ", which an " ++ t.name ++ " token cannot represent"
  | .fractionalMovement m t a =>
    "the " ++ m.word ++ " amount for an " ++ t.name ++ " token should be an integer, got " ++ a.text
  | .nothingMoved m => "the " ++ m.word ++ " amount should be greater than zero"
  | .selfTransfer => "sender and receiver cannot be the same in a transfer"
  | .tokenUnknown s => "token " ++ s ++ " is not registered on the system"
  | .addressUnknown a => "the address " ++ a ++ " is not registered"
  | .actorUnknown i => "actor " ++ i ++ " is not registered"
  | .scoresUnknown i => "actor " ++ i ++ " has no financial scores"
  | .tokenListed s => "token " ++ s ++ " already registered on the system"
  | .tokenHeld s n =>
    "token " ++ s ++ " was removed but " ++ toString n ++ " balance(s) of it are still held"
  | .addressKnown a => "address " ++ a ++ " is already registered"
  | .roleMissing h r => roleText h r
  | .callForbidden op r => "permission denied to call " ++ op ++ ": " ++ r
  | .digestMismatch d i => "digest " ++ d ++ " does not match transfer " ++ i
  | .undecodableHex c e => "error decoding " ++ c.phrase ++ ": " ++ e.message
  | .wrongSize c n m => c.phrase ++ " must be " ++ toString n ++ " bytes, got " ++ toString m
  | .malformedKey k => "malformed public key " ++ k
  | .invalidSignature k => "the signature is not valid, no permissions for address " ++ k
  | .lockedUp s l d =>
    "token " ++ s ++ " is locked up until " ++ toString l.toInt ++ " (transfer dated "
      ++ toString d.toInt ++ ")"
  | .insufficientFunds a r => a.text ++ " available, " ++ r.text ++ " required"
  | .overflow a b => a.text ++ " + " ++ b.text ++ " exceeds " ++ Amount.max.text
  | .conflict k => "write conflict on key " ++ k
  | .badKey (.unknownNamespace s) => "unknown key namespace in " ++ Text.quote s
  | .badKey (.badComponent s) => "bad key " ++ Text.quote s
  | .unreadableSnapshot p e => "parse " ++ p ++ ": " ++ e.message
  | .undecodable k e => "undecodable state for key " ++ k ++ ": " ++ e.message
  | .unencodable e => "encode payload: " ++ e.message

/-- What stands in front of the detail of a failure. -/
def heading (f : Failure) : String :=
  match f, f.kind with
  | .undecodable .., _ => ""
  | _, .validation => "validation error: "
  | _, .notFound => "not found: "
  | _, .duplicate => "duplicate: "
  | _, .auth => "permission denied: "
  | _, .lockUp => ""
  | _, .insufficientFunds => "insufficient funds: "
  | _, .overflow => "overflow: "
  | _, .conflict => ""
  | _, .internal => "store failure: "

def message (f : Failure) : String := f.heading ++ f.detail

end Failure

namespace Amount

/-- The sum, unless it is too large. -/
def add (a b : Amount) : Except Failure Amount :=
  match a.add? b with
  | some c => .ok c
  | none => .error (.overflow a b)

/-- The difference, unless less is available than required. -/
def sub (available required : Amount) : Except Failure Amount :=
  match available.sub? required with
  | some c => .ok c
  | none => .error (.insufficientFunds available required)

theorem add_eq_ok {a b c : Amount} : a.add b = .ok c ↔ c.units = a.units + b.units := by
  rw [← add?_eq_some, add]
  cases a.add? b <;> simp

theorem sub_eq_ok {a b c : Amount} : a.sub b = .ok c ↔ c.units + b.units = a.units := by
  rw [← sub?_eq_some, sub]
  cases a.sub? b <;> simp

theorem exists_add {a b : Amount} (h : a.units + b.units < UInt64.size) : ∃ c, a.add b = .ok c :=
  ⟨⟨a.units + b.units, h⟩, add_eq_ok.mpr rfl⟩

theorem exists_sub {a b : Amount} (h : b.units ≤ a.units) : ∃ c, a.sub b = .ok c :=
  ⟨⟨a.units - b.units, Nat.lt_of_le_of_lt (Nat.sub_le _ _) a.units_lt⟩, sub_eq_ok.mpr (Nat.sub_add_cancel h)⟩

theorem add_eq_error {a b : Amount} {f : Failure} :
    a.add b = .error f ↔ UInt64.size ≤ a.units + b.units ∧ f = .overflow a b := by
  by_cases h : a.units + b.units < UInt64.size
  · simp [add, add?, ofUnits?, h, Nat.not_le.mpr h]
  · simp [add, add?, ofUnits?, h, Nat.not_lt.mp h, eq_comm]

theorem sub_eq_error {a b : Amount} {f : Failure} :
    a.sub b = .error f ↔ a.units < b.units ∧ f = .insufficientFunds a b := by
  by_cases h : b.units ≤ a.units
  · simp [sub, sub?, h, Nat.not_lt.mpr h]
  · simp [sub, sub?, h, Nat.not_le.mp h, eq_comm]

end Amount
end TokenLedger
