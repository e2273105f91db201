import TokenLedger.Ledger.Action
import TokenLedger.Ledger.Lookup

/-! Operations on wallets, balances and scores that move no tokens. -/

namespace TokenLedger

def registerAddress (address : String) : Action Unit := do
  if ← Query.addressExists address then throw (.addressKnown address)
  .save (.wallet address)

/-- Records a balance as it is, zero if nothing was recorded. -/
def initialiseBalance (address symbol : String) : Action Balance := do
  let b ← Query.balanceOf address symbol
  .save (.balance b)
  return b

def Scores.validate (s : Scores) : Except Failure Unit := do
  unless s.trust.inUnit do throw (.scoreRange .trust s.trust)
  unless s.endorsement.inUnit do throw (.scoreRange .endorsement s.endorsement)

def initialiseScores (actor : String) (s : Scores) : Action Unit := do
  liftM s.validate
  .save (.scores actor s)

/-- A register of actors: whether one is known, or why this cannot be told. -/
abbrev ActorRegister := String → Except Failure Bool

instance : Coe (String → Bool) ActorRegister where
  coe known actor := .ok (known actor)

/-- Records new scores of an actor who is registered. -/
def updateScores (register : ActorRegister) (actor : String) (s : Scores) :
    Action Unit := do
  unless ← liftM (register actor) do throw (.actorUnknown actor)
  initialiseScores actor s

end TokenLedger
