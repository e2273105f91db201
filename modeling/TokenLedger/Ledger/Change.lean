import TokenLedger.Store.Transaction
import TokenLedger.Record.Balance
import TokenLedger.Record.Scores

/-! The records that operations write, each under its own key. -/

namespace TokenLedger

/-- A record that is written, or the listing of a token that is deleted. -/
inductive Change where
  | wallet (address : String)
  | token (t : Token)
  | unlist (symbol : String)
  | balance (b : Balance)
  | scores (actor : String) (s : Scores)
  deriving DecidableEq, Repr

namespace Change

def key : Change → Key
  | .wallet a => .wallet a
  | .token t => .token t.symbol
  | .unlist s => .token s
  | .balance b => b.account.key
  | .scores a _ => .scores a

def document : Change → Option Bytes
  | .wallet a => some (Json.Codec.text.write a)
  | .token t => some (Token.codec.write t)
  | .unlist _ => none
  | .balance b => some (Balance.codec.write b)
  | .scores _ s => some (Scores.codec.write s)

/-- What the writer of the document refuses. -/
def check : Change → Except Json.Error Unit
  | .wallet a => Json.Codec.text.check a
  | .token t => Token.codec.check t
  | .unlist _ => .ok ()
  | .balance b => Balance.codec.check b
  | .scores _ s => Scores.codec.check s

end Change

def Transaction.apply (t : Transaction) (c : Change) : Transaction := t.put c.key c.document

end TokenLedger
